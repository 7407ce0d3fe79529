import NeoScript.Proofs.Contract.Rebuild
import NeoScript.Proofs.Relocation.Blocks
import NeoScript.Proofs.Revision.Strategy
import NeoScript.Samples

/-!
# Embedding — the map of addresses keeps the order and follows the instructions

An old address has a new one exactly if an instruction stands for it, or if it is the end of the
script.  What other instructions lead to is always among these addresses.

* `Revision.Survives` — an instruction of a revised program stands for an old address, at a new one;
* `AddressMap.Embeds` — what a map says about the instructions of both scripts, and where it sends
  the addresses of removed ones;
* `Rewrites.embeds` — the map of a relocated revision says that;
* `strategy_map_embeds` — so does the map of every strategy, for every contract that passes the
  checks.
-/

namespace NeoScript

/-! ## Carried instructions under a larger relation -/

section Imp

variable {φ ψ : Nat → Nat → Prop} (himp : ∀ {p q : Nat}, φ p q → ψ p q)
include himp

theorem OffsetMoved.imp {pc pc' : Nat} {a b : Int} (h : OffsetMoved φ pc pc' a b) :
    OffsetMoved ψ pc pc' a b := by
  obtain ⟨p, q, hpq, hp, hq⟩ := h
  exact ⟨p, q, himp hpq, hp, hq⟩

theorem HandlerCarried.imp {pc pc' : Nat} {a b : Int} (h : HandlerCarried φ pc pc' a b) :
    HandlerCarried ψ pc pc' a b := by
  cases h with
  | absent => exact .absent
  | present ha hb h => exact .present ha hb (h.imp himp)

theorem Instruction.Carried.imp {i j : Instruction} (h : i.Carried φ j) : i.Carried ψ j := by
  refine ⟨h.op, h.fits, h.operand, ?_, ?_⟩
  · intro hsingle
    obtain ⟨a, b, ha, hb, hmoved⟩ := h.target hsingle
    exact ⟨a, b, ha, hb, hmoved.imp himp⟩
  · intro htry
    obtain ⟨a, b, a', b', hab, hab', ha, hb⟩ := h.handlers htry
    exact ⟨a, b, a', b', hab, hab', ha.imp himp, hb.imp himp⟩

end Imp

/-! ## Surviving instructions -/

/-- An instruction of a revised program stands for an old address, and it is placed at a new one. -/
def Revision.Survives (r : Revision) (xs : List Instruction) (p q : Nat) : Prop :=
  ∃ (k : Nat) (id : InstrId) (ins : Instruction), r.order[k]? = some id ∧ xs[k]? = some ins ∧
    r.arena.origin? id = some p ∧ ins.pc = q

def Opcode.Refers (op : Opcode) : Prop :=
  op.hasSingleTarget = true ∨ op.isTry = true

theorem Opcode.not_refers_of_isLocal {op : Opcode} (h : op.isLocal = true) : ¬ op.Refers := by
  obtain ⟨hstraight, hsingle⟩ := isLocal_iff.1 h
  rintro (hjump | htry)
  · rw [hsingle] at hjump
    cases hjump
  · rw [isTry_of_straight hstraight] at htry
    cases htry

/-- A map of addresses between a script and the instructions of a revised program. -/
structure AddressMap.Embeds (m : AddressMap) (script : Script) (g : FlowGraph) (r : Revision)
    (xs : List Instruction) : Prop where
  /-- The new address of an instruction that is left, and the end. -/
  survives : ∀ p q, m.newAddress? p = some q ↔ r.Survives xs p q ∨ p = m.oldLength ∧ q = m.newLength
  olds : ∀ {p q : Nat}, r.Survives xs p q → ∃ ins ∈ script.instructions.toList, ins.pc = p
  ascending : ∀ {p q p' q' : Nat}, m.newAddress? p = some q → m.newAddress? p' = some q' →
    (p < p' ↔ q < q')
  starts : ∀ p ∈ g.blockStarts, ∃ q, m.newAddress? p = some q
  targets : ∀ ins ∈ script.instructions.toList, ∀ offset ∈ relativeTargets ins,
    ∃ p q : Nat, (p : Int) = ins.pc + offset ∧ m.newAddress? p = some q
  /-- What refers to an address stays, and refers to its new address. -/
  references : ∀ ins ∈ script.instructions.toList, ins.op.Refers →
    ∃ ins' ∈ xs, m.newAddress? ins.pc = some ins'.pc ∧
      ins.Carried (fun p q => m.newAddress? p = some q) ins'
  /-- Nothing else refers to an address. -/
  origins : ∀ ins' ∈ xs, ins'.op.Refers →
    ∃ ins ∈ script.instructions.toList, m.newAddress? ins.pc = some ins'.pc ∧
      ins.Carried (fun p q => m.newAddress? p = some q) ins'
  resolves : ∀ p, (∃ q, m.resolve p = .ok q) ↔ p ≤ m.oldLength
  monotone : ∀ {p q p' q' : Nat}, m.resolve p = .ok q → m.resolve p' = .ok q' → p ≤ p' → q ≤ q'
  agrees : ∀ {p q : Nat}, m.newAddress? p = some q → m.resolve p = .ok q
  /-- The address of a removed instruction goes to the next one that is left, or to the end. -/
  next : ∀ {p q : Nat}, m.newAddress? p = none → m.resolve p = .ok q →
    (∃ p', p < p' ∧ r.Survives xs p' q ∧ ∀ p'' q'', r.Survives xs p'' q'' → p < p'' → p' ≤ p'') ∨
      (∀ p' q', r.Survives xs p' q' → p' < p) ∧ q = m.newLength

section Relocated

variable {g : FlowGraph} {script : Script} {code : Code} {starts : List Nat}
  {groups : List (List (Instruction × Nat))} {parts : List (List Segment)} {r : Revision}
  {links : List Link} {xs : List Instruction}

namespace Rewrites

open AddressMap

/-- What survives is where links land. -/
theorem survives_iff (h : Rewrites g script starts groups parts r)
    (htransfer : Transferred script links xs)
    (hparts : links.map Prod.fst = parts.flatten) (hread : script.IsReading code) {p q : Nat} :
    r.Survives xs p q ↔ Lands links p q := by
  rw [Lands, ← h.filterMap_origin htransfer hparts hread, List.mem_filterMap]
  constructor
  · rintro ⟨k, id, ins, hid, hins, horigin, rfl⟩
    refine ⟨(id, ins.pc), ?_, by simp [entryOf, horigin]⟩
    rw [List.mem_iff_getElem?]
    exact ⟨k, List.getElem?_zip_eq_some.2 ⟨hid, by simp [hins]⟩⟩
  · rintro ⟨⟨id, pc⟩, hmem, hentry⟩
    obtain ⟨k, hk⟩ := List.mem_iff_getElem?.1 hmem
    obtain ⟨hid, hpc⟩ := List.getElem?_zip_eq_some.1 hk
    obtain ⟨ins, hins, rfl⟩ := Option.map_eq_some_iff.1 ((List.getElem?_map ..).symm.trans hpc)
    obtain ⟨origin, horigin, heq⟩ := Option.map_eq_some_iff.1 hentry
    cases heq
    exact ⟨k, id, ins, hid, hins, horigin, rfl⟩

/-- Every instruction that refers to an address is carried along. -/
theorem exists_carried (htransfer : Transferred script links xs) (hread : script.IsReading code)
    {ins : Instruction} (hins : ins ∈ script.instructions.toList) (hrefers : ins.op.Refers) :
    ∃ ins' ∈ xs, Lands links ins.pc ins'.pc ∧ ins.Carried (Lands links) ins' := by
  rcases htransfer.olds_cases hins with ⟨before, entry, ins', after, rfl, rfl⟩ | hlocal
  · have hat := htransfer.carriedAt hread
    exact ⟨ins', hat.mem', mem_landings_iff.2 ⟨before, _, after,
      rfl, by simp [hat.pc], by simp [hat.pc']⟩, hat.carried⟩
  · exact absurd hrefers (Opcode.not_refers_of_isLocal hlocal)

/-- Every new instruction that refers to an address was carried along. -/
theorem exists_carried_of_news (htransfer : Transferred script links xs)
    (hread : script.IsReading code)
    {ins' : Instruction} (hins : ins' ∈ xs) (hrefers : ins'.op.Refers) :
    ∃ ins ∈ script.instructions.toList, Lands links ins.pc ins'.pc ∧
      ins.Carried (Lands links) ins' := by
  rcases htransfer.news_cases hins with ⟨entry, hmem, -⟩ | ⟨hlocal, -⟩
  · obtain ⟨before, after, rfl⟩ := List.append_of_mem hmem
    have hat := htransfer.carriedAt hread
    exact ⟨entry.2, hat.mem, mem_landings_iff.2 ⟨before, _, after,
      rfl, by simp [hat.pc], by simp [hat.pc']⟩, hat.carried⟩
  · exact absurd hrefers (Opcode.not_refers_of_isLocal hlocal)

/-- The map of a relocated revision. -/
theorem embeds (h : Rewrites g script starts groups parts r) (hvalid : script.IsValid code)
    (htransfer : Transferred script links xs) (hparts : links.map Prod.fst = parts.flatten) :
    (Relocation.mapOf r (xs.map (·.pc)).toArray (totalSize xs)).Embeds script g r xs := by
  have hread := hvalid.toIsReading
  have hmap := h.follows htransfer hparts hread
  have hold : (Relocation.mapOf r (xs.map (·.pc)).toArray (totalSize xs)).oldLength =
      totalSize (links.flatMap Link.olds) := h.scriptLength_eq htransfer hread
  have hnew : (Relocation.mapOf r (xs.map (·.pc)).toArray (totalSize xs)).newLength =
      totalSize (links.flatMap Link.news) := by
    rw [htransfer.news]
    rfl
  -- From here on only what the map follows is used, not how it was made.
  generalize Relocation.mapOf r (xs.map (·.pc)).toArray (totalSize xs) = m at hmap hold hnew
  have hsurvives : ∀ {p q : Nat}, r.Survives xs p q ↔ Lands links p q :=
    h.survives_iff htransfer hparts hread
  have hlands : ∀ {p q : Nat}, Lands links p q → m.newAddress? p = some q := fun hlands =>
    hmap.newAddress?_eq_some_iff.2 (hmap.mem_iff.2 (.inl hlands))
  -- A block start is the head of a segment, and heads land.
  have hstart : ∀ {pc : Nat}, script.isBoundary pc = true → script.IsStart starts pc →
      ∃ q, m.newAddress? pc = some q := by
    intro pc hpc hstart
    obtain ⟨q, hq⟩ := h.exists_lands htransfer hparts hread hpc hstart
    exact ⟨q, hlands hq⟩
  exact {
    survives := fun p q => by
      rw [hmap.newAddress?_eq_some_iff, hmap.mem_iff, hsurvives, hold, hnew]
    olds := fun hs => htransfer.exists_old_of_lands hread (hsurvives.1 hs)
    ascending := fun hp hp' => hmap.lt_iff (hmap.newAddress?_eq_some_iff.1 hp)
      (hmap.newAddress?_eq_some_iff.1 hp')
    starts := by
      intro p hp
      rw [FlowGraph.blockStarts, h.graph.blockStarts] at hp
      obtain ⟨group, hgroup, rfl⟩ := List.mem_map.1 hp
      obtain ⟨first, rest, rfl, hfirst, -⟩ := h.graph.cut.cut group hgroup
      have hget := h.graph.cut.mem_iff.1 ⟨_, hgroup, List.mem_cons_self ..⟩
      refine hstart (hread.isBoundary_iff.2 ⟨first.1, ?_, rfl⟩) hfirst
      exact Array.mem_toList_iff.2 (Array.mem_of_getElem? hget)
    targets := by
      intro ins hins offset hoffset
      obtain ⟨t, target, -, hget, hpc⟩ := hvalid.exists_targetId? hins hoffset
      have hboundary : script.isBoundary target.pc = true :=
        hread.isBoundary_iff.2 ⟨target, Array.mem_toList_iff.2 (Array.mem_of_getElem? hget), rfl⟩
      obtain ⟨q, hq⟩ := hstart hboundary (Script.IsStart.of_target hins hoffset hpc starts)
      exact ⟨target.pc, q, hpc, hq⟩
    references := by
      intro ins hins hrefers
      obtain ⟨ins', hmem, hat, hcarried⟩ := exists_carried htransfer hread hins hrefers
      exact ⟨ins', hmem, hlands hat, hcarried.imp hlands⟩
    origins := by
      intro ins' hins hrefers
      obtain ⟨ins, hmem, hat, hcarried⟩ := exists_carried_of_news htransfer hread hins hrefers
      exact ⟨ins, hmem, hlands hat, hcarried.imp hlands⟩
    resolves := by
      intro p
      rw [hold]
      exact hmap.exists_resolve_iff
    monotone := fun hp hp' hle => by
      rw [← target_of_resolve hp, ← target_of_resolve hp']
      exact hmap.target_mono hle
    agrees := fun hp => hmap.resolve_of_mem (hmap.newAddress?_eq_some_iff.1 hp)
    next := by
      intro p q hnone hresolve
      rw [hnew]
      simpa only [hsurvives] using hmap.next_of_newAddress? hnone hresolve }

end Rewrites

end Relocated

/-- The map of addresses of every strategy embeds every contract that passes the checks. -/
theorem strategy_map_embeds (c : Contract) (s : Strategy) (hverify : c.verify = .ok ()) :
    ∃ script g result code, Script.decode c.nef.script = .ok script ∧ c.graph = .ok g ∧
      relocate (s.apply g) = .ok result ∧ encode result.instructions = .ok code ∧
      result.addressMap.oldLength = c.nef.script.size ∧ result.addressMap.newLength = code.size ∧
      result.addressMap.Embeds script g (s.apply g) result.instructions := by
  obtain ⟨script, hchecked⟩ := Contract.verify_eq_ok_iff.1 hverify
  obtain ⟨g, groups, hg, hdescribes⟩ := hchecked.exists_graph
  have hread := hchecked.valid.toIsReading
  obtain ⟨parts, counts, hrewrites, -, -⟩ := s.rewrites hdescribes hread
  obtain ⟨links, xs, upgraded, hrelocate, htransfer, hparts⟩ :=
    hrewrites.exists_transferred hchecked.valid hchecked.size.2
  obtain ⟨code, hencode, -⟩ :=
    Contract.Transferred.exists_encode htransfer hchecked.instructions_ne_nil
  refine ⟨script, g, _, code, Script.decode_eq_ok_iff.2 hread, hg, hrelocate, hencode, ?_, ?_,
    hrewrites.embeds hchecked.valid htransfer hparts⟩
  · calc (s.apply g).scriptLength = totalSize (links.flatMap Link.olds) :=
        hrewrites.scriptLength_eq htransfer hread
      _ = c.nef.script.size := by rw [htransfer.olds, hread.size]
  · exact (Script.isReading_of_encode htransfer.placed hencode).size

def Samples.guardedScript : Code :=
  #[0x3B, 0x09, 0x00, 0x12, 0x13, 0x9E, 0x45, 0x3D, 0x05, 0x45, 0x3D, 0x02, 0x40]

/-- The handler moves with its code, and the second constant gives way to what follows the sum. -/
theorem strategy_map_embeds_guarded : ∃ c script g result,
    Samples.contract Samples.guardedScript [("main", ⟨0, 12⟩)] = .ok c ∧ c.verify = .ok () ∧
    c.graph = .ok g ∧ relocate ((Strategy.folding .trapping).apply g) = .ok result ∧
    result.addressMap.newAddress? 9 = some 7 ∧ result.addressMap.newAddress? 4 = none ∧
    result.addressMap.resolve 4 = .ok 4 ∧
    result.addressMap.Embeds script g ((Strategy.folding .trapping).apply g)
      result.instructions := by
  have hcompute : (do
      let c ← Samples.contract Samples.guardedScript [("main", ⟨0, 12⟩)]
      c.verify
      let g ← c.graph
      let result ← relocate ((Strategy.folding .trapping).apply g)
      let next ← result.addressMap.resolve 4
      return (result.addressMap.newAddress? 9, result.addressMap.newAddress? 4, next)) =
      .ok (some 7, none, 4) := by
    decide +kernel
  obtain ⟨c, hc, hcompute⟩ := Sequencing.bind_eq_ok.1 hcompute
  obtain ⟨_, hverify, hcompute⟩ := Sequencing.bind_eq_ok.1 hcompute
  obtain ⟨g, hg, hcompute⟩ := Sequencing.bind_eq_ok.1 hcompute
  obtain ⟨result, hrelocate, hcompute⟩ := Sequencing.bind_eq_ok.1 hcompute
  obtain ⟨next, hnext, hcompute⟩ := Sequencing.bind_eq_ok.1 hcompute
  obtain ⟨hhandler, hpair⟩ := Prod.mk.inj (Except.ok.inj hcompute)
  obtain ⟨hremoved, rfl⟩ := Prod.mk.inj hpair
  obtain ⟨script, g', result', code, -, hg', hrelocate', -, -, -, hembeds⟩ :=
    strategy_map_embeds c (.folding .trapping) hverify
  cases Except.ok.inj (hg.symm.trans hg')
  cases Except.ok.inj (hrelocate.symm.trans hrelocate')
  exact ⟨c, script, g, result, hc, hverify, hg, hrelocate, hhandler, hremoved, hnext, hembeds⟩

end NeoScript
