import NeoScript.Proofs.Machine.Simulation
import NeoScript.Proofs.Relocation.Blocks
import NeoScript.Proofs.Revision.Meaning

/-!
# Simulation — a relocated script follows the old one

Pointers and handlers of the one machine name addresses at which links begin, and so do those of the
other.  An invocation goes on at such an address or at the end.

* `Arrives` — the addresses at which invocations of both machines may go on;
* `Instruction.Carried.moved` — a carried instruction is executed alike;
* `Transferred.stepsAlike_of_kept` — where an instruction stays, one step of both machines is
  enough;
* `Transferred.agree_link` — where instructions are replaced, both machines run over them alike;
* `Transferred.simulates` — hence the new code simulates the old one.
-/

namespace NeoScript

open Machine

variable {script : Script} {code code' : Code} {links : List Link} {xs : List Instruction}
  {p q : Nat}

/-! ## Addresses -/

/-- A link begins at these addresses, or both scripts end there. -/
def Arrives (links : List Link) (p q : Nat) : Prop :=
  Lands links p q ∨
    p = totalSize (links.flatMap Link.olds) ∧ q = totalSize (links.flatMap Link.news)

/-- Behind a link both machines arrive. -/
theorem arrives_next {before after : List Link} {l : Link} :
    Arrives (before ++ l :: after) (totalSize (before.flatMap Link.olds) + totalSize l.olds)
      (totalSize (before.flatMap Link.news) + totalSize l.news) := by
  cases after with
  | nil => exact .inr (by simp)
  | cons next after => exact .inl lands_next

/-- A distance that ends in the script is an address. -/
theorem addressFrom_eq_ok {pc : Nat} {offset : Int} (hp : (p : Int) = pc + offset)
    (hle : p ≤ code.size) : addressFrom code pc offset = .ok p := by
  unfold addressFrom
  rw [← hp, if_pos ⟨Int.natCast_nonneg p, Int.ofNat_le.2 hle⟩, Int.toNat_natCast]

/-- A carried handler is taken at related addresses, or at none. -/
theorem HandlerCarried.moved {φ : Nat → Nat → Prop} {pc pc' : Nat} {a b : Int}
    (h : HandlerCarried φ pc pc' a b) (hφ : ∀ p q, φ p q → p ≤ code.size ∧ q ≤ code'.size) :
    HandlerMoved φ code code' pc pc' a b := by
  cases h with
  | absent => exact .absent
  | present ha hb hmoved =>
      obtain ⟨p, q, hpq, hp, hq⟩ := hmoved
      have hle := hφ p q hpq
      exact .present ha hb (addressFrom_eq_ok hp hle.1) (addressFrom_eq_ok hq hle.2) hpq

/-- An instruction that is carried to a new address is executed alike. -/
theorem Instruction.Carried.moved {φ : Nat → Nat → Prop} {i j : Instruction} (h : i.Carried φ j)
    (hφ : ∀ p q, φ p q → p ≤ code.size ∧ q ≤ code'.size) : i.Moved φ code code' j := by
  refine ⟨h.op, h.operand, ?_, ?_⟩
  · intro hsingle
    obtain ⟨a, b, ha, hb, p, q, hpq, hp, hq⟩ := h.target hsingle
    have hle := hφ p q hpq
    refine ⟨p, q, ?_, ?_, hpq⟩
    · simpa only [targetOf, ha] using addressFrom_eq_ok hp hle.1
    · simpa only [targetOf, hb] using addressFrom_eq_ok hq hle.2
  · intro htry
    obtain ⟨a, b, a', b', hold, hnew, hcatch, hfinally⟩ := h.handlers htry
    exact ⟨a, b, a', b', hold, hnew, hcatch.moved hφ, hfinally.moved hφ⟩

namespace Transferred

/-- Links begin inside both codes. -/
theorem lt_of_lands (h : Transferred script links xs) (hread : script.IsReading code)
    (hread' : (Script.ofInstructions xs.toArray).IsReading code') (hlands : Lands links p q) :
    p < code.size ∧ q < code'.size := by
  constructor
  · exact hread.lt_of_isBoundary (hread.isBoundary_iff.2 (h.exists_old_of_lands hread hlands))
  · exact hread'.lt_of_isBoundary (hread'.isBoundary_iff.2 (h.exists_of_lands hlands))

/-- The instructions of a link stand in both codes from where it begins. -/
theorem spelled_link {before after : List Link} {l : Link}
    (h : Transferred script (before ++ l :: after) xs) (hread : script.IsReading code)
    (hread' : (Script.ofInstructions xs.toArray).IsReading code') :
    Spelled code (totalSize (before.flatMap Link.olds)) l.olds ∧
      Spelled code' (totalSize (before.flatMap Link.news)) l.news := by
  have holds := h.olds
  have hnews := h.news
  rw [List.flatMap_append, List.flatMap_cons] at holds hnews
  have hplaced := hread.placed
  have hplaced' := h.placed
  have hsize := hread.size
  have hsize' : totalSize xs = code'.size := hread'.size
  rw [← holds, Placed.append_iff, Placed.append_iff, Nat.zero_add] at hplaced
  rw [← hnews, Placed.append_iff, Placed.append_iff, Nat.zero_add] at hplaced'
  rw [← holds, totalSize_append, totalSize_append] at hsize
  rw [← hnews, totalSize_append, totalSize_append] at hsize'
  refine ⟨⟨hplaced.2.1, ?_, by omega⟩, ⟨hplaced'.2.1, ?_, by omega⟩⟩
  · intro ins hins
    exact hread.decoded ins (by simp [← holds, hins])
  · intro ins hins
    exact hread'.decoded ins (by simp [Script.ofInstructions, ← hnews, hins])

/-- Where an instruction stays, one step of each machine leads to related machines. -/
theorem stepsAlike_of_kept {before after : List Link} {entry : Numbered} {ins : Instruction}
    (h : Transferred script (before ++ (.kept entry, [ins]) :: after) xs)
    (hread : script.IsReading code) (hread' : (Script.ofInstructions xs.toArray).IsReading code') :
    StepsAlike (Lands (before ++ (.kept entry, [ins]) :: after))
      (Arrives (before ++ (.kept entry, [ins]) :: after)) code code'
      (totalSize (before.flatMap Link.olds)) (totalSize (before.flatMap Link.news)) := by
  have hat := h.carriedAt hread
  have hlands : Lands (before ++ (.kept entry, [ins]) :: after) entry.2.pc ins.pc := by
    rw [hat.pc, hat.pc']
    exact mem_landings_iff.2 ⟨before, _, after, rfl, by simp, by simp⟩
  have hlt := h.lt_of_lands hread hread' hlands
  have hmoved : entry.2.Moved _ code code' ins := hat.carried.moved fun p q hpq =>
    ⟨Nat.le_of_lt (h.lt_of_lands hread hread' hpq).1,
      Nat.le_of_lt (h.lt_of_lands hread hread' hpq).2⟩
  rw [← hat.pc, ← hat.pc']
  refine .moved hlt.1 hlt.2 (hread.decoded _ hat.mem) (hread'.decoded _ hat.mem') hmoved fun _ => ?_
  have hnext : Arrives (before ++ (.kept entry, [ins]) :: after) _ _ := arrives_next
  rw [← hat.pc, ← hat.pc'] at hnext
  simpa [Link.olds, Link.news, Segment.olds, Instruction.next] using hnext

/-- The new instructions of a replaced link do what was asked for, and there are not more of
them. -/
theorem agree_link (h : Transferred script links xs) {l : Link} (hl : l ∈ links)
    (hkept : l.1.isKept = false) (hagree : Agree (l.1.olds.map (·.2)) l.1.news) :
    Agree l.olds l.news ∧ l.news.length ≤ l.olds.length := by
  have hproper := h.proper l hl
  cases h.linked l hl with
  | kept => cases hkept
  | @replaced head rest first others chunk hsame =>
      cases hproper with
      | replaced _ hnews hlength _ =>
          constructor
          · intro φ d d' hd
            obtain ⟨e, e', heffects, heffects', he⟩ := hagree φ d d' hd
            exact ⟨e, e', heffects, heffects'.congr (fun ins hins => (hnews ins hins).1) hsame, he⟩
          · rw [hsame.length_eq] at hlength
            simpa [Link.news, Link.olds, Segment.olds] using hlength

/-- A script whose replaced parts agree with their replacements is simulated by the new one. -/
theorem simulates (h : Transferred script links xs) (hread : script.IsReading code)
    (hread' : (Script.ofInstructions xs.toArray).IsReading code')
    (hagree : ∀ l ∈ links, l.1.isKept = false → Agree (l.1.olds.map (·.2)) l.1.news) :
    Simulates (Lands links) (Arrives links) code code' := by
  intro m m' hm hframes
  have hrelated := hm.frames
  generalize hold : m.frames = frames, hnew : m'.frames = frames' at hrelated
  cases hrelated with
  | nil => exact absurd hold hframes
  | @cons f f' outer outer' hf _ =>
      -- Where both instructions do alike, one step is matched by one step.
      have hstep : StepsAlike (Lands links) (Arrives links) code code' f.ip f'.ip →
          Matches (Lands links) (Machine.Related (Lands links) (Arrives links) (Arrives links))
            code code' m m' := by
        intro halike
        refine .of_step (hm.step (fun p q p' q' => h.lands_inj) (fun p q => .inl) ?_)
        intro g g' hg hg'
        rw [hold] at hg
        rw [hnew] at hg'
        cases hg
        cases hg'
        exact halike
      -- The machine is at the first instruction of a link, or at the end of the code.
      rcases hf.ip with hlands | ⟨hend, hend'⟩
      · obtain ⟨before, l, after, rfl, hp, hq⟩ := mem_landings_iff.1 hlands
        rw [Nat.zero_add] at hp hq
        have hl : l ∈ before ++ l :: after := by simp
        cases hkept : l.1.isKept with
        | true =>
            cases h.linked l hl with
            | kept =>
                refine hstep ?_
                rw [hp, hq]
                exact h.stepsAlike_of_kept hread hread'
            | replaced => cases hkept
        | false =>
            -- A replaced link runs as a whole: its old and its new instructions have related
            -- effects.
            obtain ⟨hlink, hlength⟩ := h.agree_link hl hkept (hagree l hl hkept)
            obtain ⟨hspelled, hspelled'⟩ := h.spelled_link hread hread'
            obtain ⟨e, e', holds, hnews, hdata⟩ := hlink _ m.data m'.data ⟨hm.stack, hm.heap⟩
            refine .of_effects hm hold hnew holds hnews hdata ?_ hlength (hp ▸ hspelled)
              (hq ▸ hspelled') ?_
            · exact List.length_pos_of_ne_nil (h.news_ne_nil l hl)
            · rw [hp, hq]
              exact arrives_next
      · refine hstep (.finish (Nat.le_of_eq ?_) (Nat.le_of_eq ?_))
        · rw [hend, h.olds, hread.size]
        · rw [hend', h.news]
          exact hread'.size.symm

end Transferred

end NeoScript
