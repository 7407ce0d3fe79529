import NeoScript.Proofs.Pass.Run
import NeoScript.Proofs.Relocation.Blocks

/-!
# Order — what strategies do to addresses

* `Ordered` — a move that keeps addresses in order, and keeps what transfers control apart from all
  that follows it;
* `Transferred.ordered` — the map of a relocated script is such a move;
* `Pass.Reaches.moved` — strategies leave a contract as it is, or move its addresses in this way.
-/

namespace NeoScript

/-- A move of addresses that keeps their order.  Of two addresses with an instruction between them
that transfers control, the first stays in front of the second. -/
structure Ordered (move : Nat → Nat) (script script' : Script) : Prop where
  mono : ∀ {p q : Nat}, p ≤ q → move p ≤ move q
  ends : ∀ ins ∈ script.instructions.toList, ins.op.isBlockEnding = true →
    ∃ ins' ∈ script'.instructions.toList, ins'.op.isBlockEnding = true ∧ ins'.pc = move ins.pc
  apart : ∀ ins ∈ script.instructions.toList, ins.op.isBlockEnding = true →
    ∀ {p : Nat}, ins.pc < p → move ins.pc < move p

theorem Ordered.trans {first next : Nat → Nat} {script script' script'' : Script}
    (h : Ordered first script script') (h' : Ordered next script' script'') :
    Ordered (next ∘ first) script script'' := by
  refine ⟨fun hle => h'.mono (h.mono hle), ?_, ?_⟩
  · intro ins hins hends
    obtain ⟨ins', hins', hends', hpc⟩ := h.ends ins hins hends
    obtain ⟨ins'', hins'', hends'', hpc'⟩ := h'.ends ins' hins' hends'
    exact ⟨ins'', hins'', hends'', by rw [hpc', hpc, Function.comp_apply]⟩
  · intro ins hins hends p hlt
    obtain ⟨ins', hins', hends', hpc⟩ := h.ends ins hins hends
    have hlt' := h.apart ins hins hends hlt
    rw [Function.comp_apply, Function.comp_apply, ← hpc]
    exact h'.apart ins' hins' hends' (hpc ▸ hlt')

/-- Relocation keeps the order of addresses. -/
theorem Transferred.ordered {script : Script} {code : Code} {links : List Link}
    {xs : List Instruction}
    {m : AddressMap} (h : Transferred script links xs) (hread : script.IsReading code)
    (hmap : m.Follows links) : Ordered m.target script (.ofInstructions xs.toArray) := by
  -- What transfers control is never replaced, so it begins a link of its own.
  have hcarried : ∀ ins ∈ script.instructions.toList, ins.op.isBlockEnding = true →
      ∃ ins' ∈ xs, ins'.op.isBlockEnding = true ∧ Lands links ins.pc ins'.pc := by
    intro ins hins hends
    rcases h.olds_cases hins with ⟨before, entry, ins', after, rfl, rfl⟩ | hlocal
    · have hat := h.carriedAt hread
      refine ⟨ins', hat.mem', ?_, mem_landings_iff.2 ⟨before, _, after, rfl, ?_, ?_⟩⟩
      · rw [← Opcode.isBlockEnding_toLong, ← hat.carried.op, Opcode.isBlockEnding_toLong, hends]
      · rw [hat.pc, Nat.zero_add]
      · rw [hat.pc', Nat.zero_add]
    · rw [(Opcode.isLocal_iff.1 hlocal).1] at hends
      cases hends
  refine ⟨hmap.target_mono, ?_, ?_⟩
  · intro ins hins hends
    obtain ⟨ins', hins', hends', hlands⟩ := hcarried ins hins hends
    exact ⟨ins', hins', hends', (hmap.target_of_lands hlands).symm⟩
  · intro ins hins hends p hlt
    obtain ⟨ins', -, -, hlands⟩ := hcarried ins hins hends
    rw [hmap.target_of_lands hlands]
    exact hmap.lt_target hlands hlt

/-- Strategies leave a contract as it is, or they move its addresses and keep their order. -/
theorem Pass.Reaches.moved {strategies : List Strategy} {c : Contract} {script : Script}
    (hc : c.Checked script) {p : Pass} (h : Reaches strategies c p) :
    ∃ script', p.contract.Checked script' ∧ (p.runs = [] ∧ p.contract = c ∧ script' = script ∨
      p.runs ≠ [] ∧ ∃ move, c.Moved move p.contract ∧ Ordered move script script') := by
  induction h with
  | start => exact ⟨script, hc, .inl ⟨rfl, rfl, rfl⟩⟩
  | @step p p' s _ _ hstep ih =>
      obtain ⟨script', hp, ih⟩ := ih
      obtain ⟨_, _, _, _, _, _, hstepped⟩ := step_stepped hp s
      rw [hstep] at hstepped
      cases hstepped with
      | unchanged => exact ⟨script', hp, ih⟩
      | @rebuilt c' links xs m run events _ hrebuilt _ hmap _ hmoved =>
          have hordered := hrebuilt.transferred.ordered hp.valid.toIsReading hmap
          refine ⟨_, hrebuilt.checked, .inr ⟨by simp, ?_⟩⟩
          rcases ih with ⟨-, rfl, rfl⟩ | ⟨-, move, hbefore, hbefore'⟩
          · exact ⟨m.target, hmoved, hordered⟩
          · exact ⟨m.target ∘ move, hbefore.trans hmoved, hbefore'.trans hordered⟩

end NeoScript
