import NeoScript.Proofs.Machine.Effects
import NeoScript.Proofs.Revision.Strategy

/-!
# Meaning — replaced instructions and their replacements do the same

* `Agree` — two lists of instructions take related data to related data;
* `ArithmeticPolicy.Traps` — a policy that never evaluates what the machine refuses;
* `Folds.effects` — what a push stands for computes the pushed value;
* `Fusion.BuildsArray.effects`, `Fusion.Packing.effects` — both ways to build an array of constants,
  and packing, leave the same array;
* `Strategy.Allows.agree` — whatever a strategy replaces agrees with its replacement.
-/

namespace NeoScript

open Machine

/-! ## Agreement -/

/-- Both lists of instructions run through and take related data to related data. -/
def Agree (xs ys : List Instruction) : Prop :=
  ∀ (φ : Nat → Nat → Prop) (d d' : Data), Data.Related φ d d' →
    ∃ e e', Effects xs d e ∧ Effects ys d' e' ∧ Data.Related φ e e'

/-! ## Folding -/

/-- No operation is evaluated to a value that the machine refuses. -/
def ArithmeticPolicy.Traps (policy : ArithmeticPolicy) : Prop :=
  ∀ operation, policy.policyOf (.arith operation) = .trap

/-- If overflows trap, a value is the exact result, in range. -/
theorem ArithmeticPolicy.Traps.evaluate {policy : ArithmeticPolicy} (h : policy.Traps) {op : Opcode}
    {a b value : Int} (hvalue : policy.evaluate op a b = some value) :
    ∃ operation, op = .arith operation ∧ exactResult? operation a b = some value ∧
      Integer.inRange value = true := by
  cases op with
  | arith operation =>
      simp only [ArithmeticPolicy.evaluate, h operation] at hvalue
      split at hvalue
      · cases hvalue
      · rename_i exact hexact
        split at hvalue
        · rename_i hrange
          cases hvalue
          exact ⟨operation, rfl, hexact, hrange⟩
        · cases hvalue
  | _ => cases hvalue

/-- The instructions that a push stands for leave the value that it pushes. -/
theorem Folds.effects {policy : ArithmeticPolicy} (htraps : policy.Traps) {xs : List Instruction}
    {push : Instruction} (h : Folds policy xs push) (hfits : ∀ ins ∈ xs, ins.Fits) {value : Int}
    (hvalue : push.pushedInteger? = some value) (d : Data) :
    Effects xs d (d.push (.int value)) := by
  induction h generalizing value d with
  | single ins =>
      exact .single (Instruction.effect_of_pushedInteger? (hfits ins (by simp)) hvalue)
  | @triple xs ys a b op push _ _ hpush iha ihb =>
      obtain ⟨x, y, result, hx, hy, hresult, hsmallest⟩ := foldTriple?_eq_some_iff.1 hpush
      have heq : some result = some value :=
        (Instruction.smallestPush?_spec hsmallest).1.symm.trans hvalue
      cases heq
      obtain ⟨operation, hop, hexact, hrange⟩ := htraps.evaluate hresult
      have hxs := iha (fun ins hins => hfits ins (by simp [hins])) hx d
      have hys := ihb (fun ins hins => hfits ins (by simp [hins])) hy (d.push (.int x))
      exact (hxs.append hys).append (.single (Instruction.effect_arith hop hexact hrange))

/-- A fold leaves the same integer on the stack as the instructions that it replaces. -/
theorem FoldedAs.agree {policy : ArithmeticPolicy} (htraps : policy.Traps) {s : Segment}
    (h : FoldedAs policy s) (hkept : s.isKept = false) (hfits : ∀ e ∈ s.olds, e.2.Fits) :
    Agree (s.olds.map (·.2)) s.news := by
  cases h with
  | kept entry => cases hkept
  | @replaced head rest push hrest hfolds =>
      intro φ d d' hd
      obtain ⟨next, rest, rfl⟩ := List.exists_cons_of_ne_nil hrest
      obtain ⟨value, hsmallest⟩ := hfolds.exists_triple
      obtain ⟨hvalue, -, hpush⟩ := Instruction.smallestPush?_spec hsmallest
      have holds := hfolds.effects htraps (List.forall_mem_map.2 hfits) hvalue d
      have hnews : Effects [push] d' (d'.push (.int value)) :=
        .single (Instruction.effect_of_pushedInteger? hpush hvalue)
      exact ⟨_, _, holds, hnews, hd.push (.int value)⟩

/-! ## Fusion -/

def constantValues (values : List Instruction) : Array Value :=
  (values.map Instruction.constantValue).toArray

theorem itemsRelated_constantValues (φ : Nat → Nat → Prop) (values : List Instruction) :
    ItemsRelated φ (constantValues values) (constantValues values) := by
  refine .of_toList (List.forall₂_same.2 fun value hvalue => ?_)
  obtain ⟨ins, -, rfl⟩ := List.mem_map.1 hvalue
  exact ins.constantValue_related φ

/-- Constants that are pushed one after the other lie on the stack in this order. -/
theorem effects_of_isConstant {values : List Instruction} (hfits : ∀ ins ∈ values, ins.Fits)
    (hconstant : ∀ ins ∈ values, ins.isConstant = true) (d : Data) :
    Effects values d ⟨d.stack ++ constantValues values, d.heap⟩ := by
  induction values generalizing d with
  | nil => simpa [constantValues] using Effects.nil d
  | cons ins values ih =>
      rw [List.forall_mem_cons] at hfits hconstant
      have hrest := ih hfits.2 hconstant.2 (d.push ins.constantValue)
      have hstack : (d.push ins.constantValue).stack ++ constantValues values =
          d.stack ++ constantValues (ins :: values) := by
        simp [Data.push, constantValues]
      rw [hstack] at hrest
      exact .cons (Instruction.effect_of_isConstant hfits.1 hconstant.1) hrest

namespace Fusion

variable {threshold : Nat} {head : Numbered} {run : List Numbered} {values : List Instruction}

/-- Every append puts its constant behind the elements that are there. -/
theorem AppendRun.effects (h : AppendRun run values) (hfits : ∀ e ∈ run, e.2.Fits)
    {items : Array Value} (hsize : items.size + values.length ≤ maxCollection) (d : Data) :
    Effects (run.map (·.2)) (d.pushArray items) (d.pushArray (items ++ constantValues values)) := by
  induction h generalizing items with
  | nil => simpa [constantValues] using Effects.nil (d.pushArray items)
  | @cons dup value append run values hdup hvalue happend _ ih =>
      simp only [List.forall_mem_cons] at hfits
      rw [List.length_cons] at hsize
      have hitems : (items.push value.2.constantValue) ++ constantValues values =
          items ++ constantValues (value.2 :: values) := by
        simp [constantValues]
      have hsize' : (items.push value.2.constantValue).size + values.length ≤ maxCollection := by
        rw [Array.size_push]
        omega
      have hrest := ih hfits.2.2.2 hsize'
      rw [hitems] at hrest
      exact .cons (Instruction.effect_dup hdup)
        (.cons (Instruction.effect_of_isConstant hfits.2.1 hvalue)
          (.cons (Instruction.effect_append happend
            (by omega) value.2.constantValue_ne_struct) hrest))

/-- The elements of an array some of whose slots have been assigned. -/
structure Holds (slots : Array (Option Instruction)) (items : Array Value) : Prop where
  size : items.size = slots.size
  items : ∀ {i : Nat} {ins : Instruction}, slots[i]? = some (some ins) →
    items[i]? = some ins.constantValue

/-- Storing an element keeps the slots in step with the array. -/
theorem Holds.set {slots : Array (Option Instruction)} {items : Array Value} (h : Holds slots items)
    {i : Nat} (hi : i < items.size) (ins : Instruction) :
    Holds (slots.setIfInBounds i (some ins)) (items.setIfInBounds i ins.constantValue) := by
  refine ⟨by simpa using h.size, ?_⟩
  intro j other hj
  have hslots : i < slots.size := h.size ▸ hi
  simp only [Array.getElem?_setIfInBounds, hi, hslots, if_true] at hj ⊢
  by_cases heq : i = j
  · rw [if_pos heq] at hj ⊢
    cases hj
    rfl
  · rw [if_neg heq] at hj ⊢
    exact h.items hj

/-- Slots that are all assigned determine the elements. -/
theorem Holds.eq_constantValues {items : Array Value} (h : Holds (values.map some).toArray items) :
    items = constantValues values := by
  apply Array.ext_getElem?
  intro i
  cases hvalue : values[i]? with
  | none =>
      have hle : items.size ≤ i := by
        have hsize := h.size
        have hlength := List.getElem?_eq_none_iff.1 hvalue
        simp only [List.size_toArray, List.length_map] at hsize
        omega
      simp [constantValues, hvalue, Array.getElem?_eq_none hle]
  | some ins =>
      have hslot : (values.map some).toArray[i]? = some (some ins) := by simp [hvalue]
      simp [constantValues, hvalue, h.items hslot]

/-- Every store puts its constant into its slot. -/
theorem StoreRun.effects {stores : List (Nat × Instruction)} (h : StoreRun run stores)
    (hfits : ∀ e ∈ run, e.2.Fits) {slots slots' : Array (Option Instruction)} {items : Array Value}
    (hassign : assign slots stores = some slots') (hholds : Holds slots items)
    (hsize : items.size ≤ maxCollection) (d : Data) :
    ∃ items', Effects (run.map (·.2)) (d.pushArray items) (d.pushArray items') ∧
      Holds slots' items' := by
  induction h generalizing slots items with
  | nil =>
      cases hassign
      exact ⟨items, .nil _, hholds⟩
  | @cons dup index value store run stores i hdup hindex hvalue hstore _ ih =>
      simp only [List.forall_mem_cons] at hfits
      rw [assign] at hassign
      split at hassign
      · rename_i hfree
        have hi : i < items.size := by
          rw [hholds.size]
          exact (Array.getElem?_eq_some_iff.1 hfree).1
        obtain ⟨items', hrest, hholds'⟩ := ih hfits.2.2.2.2 hassign (hholds.set hi value.2)
          (by simpa using hsize)
        refine ⟨items', ?_, hholds'⟩
        exact .cons (Instruction.effect_dup hdup)
          (.cons (Instruction.effect_of_pushedInteger? hfits.2.1 hindex)
            (.cons (Instruction.effect_of_isConstant hfits.2.2.1 hvalue)
              (.cons (Instruction.effect_setItem hstore hi hsize value.2.constantValue_ne_struct)
                hrest)))
      · cases hassign

/-- An array that is fused is one that the machine can hold. -/
theorem BuildsArray.length_le_maxCollection (h : BuildsArray threshold head run values) :
    values.length ≤ maxCollection := by
  have hfuses : fuses threshold values.length = true := by
    cases h with
    | appends h => exact h.fuses
    | stores h => exact h.fuses
  exact Nat.le_trans (length_le_of_fuses hfuses).2 (by decide)

/-- Building an array of constants element by element leaves a new array of them. -/
theorem BuildsArray.effects (h : BuildsArray threshold head run values)
    (hfits : ∀ e ∈ head :: run, e.2.Fits) (d : Data) :
    Effects ((head :: run).map (·.2)) d (d.pushArray (constantValues values)) := by
  have hcount := h.length_le_maxCollection
  cases h with
  | appends h =>
      rw [List.forall_mem_cons] at hfits
      have hrun : Effects (run.map (·.2)) (d.pushArray #[])
          (d.pushArray (#[] ++ constantValues values)) :=
        h.run.effects hfits.2 (by simpa using hcount) d
      rw [Array.empty_append] at hrun
      exact .cons (Instruction.effect_newArray0 h.head) hrun
  | stores h =>
      simp only [List.forall_mem_cons] at hfits
      obtain ⟨stores, hrun, -, hassign⟩ := h.run
      obtain ⟨fill, hallocation⟩ := Instruction.effect_allocation hcount h.allocation d
      -- No slot is assigned yet, so the filling does not matter.
      have hholds : Holds (Array.replicate values.length none)
          (Array.replicate values.length fill) := by
        refine ⟨by simp, ?_⟩
        intro i ins hi
        simp [Array.getElem?_replicate] at hi
      obtain ⟨items, heffects, hfull⟩ :=
        hrun.effects hfits.2.2 hassign hholds (by simpa using hcount) d
      rw [hfull.eq_constantValues] at heffects
      exact .cons (Instruction.effect_of_pushedInteger? hfits.1 h.head) (.cons hallocation heffects)

/-- Pushing constants in descending order and packing them leaves a new array of them. -/
theorem Packing.effects {first : Instruction} {others : List Instruction}
    (h : Packing values first others) (hfits : ∀ ins ∈ first :: others, ins.Fits)
    (hconstant : ∀ ins ∈ values, ins.isConstant = true) (hlength : values.length ≤ maxCollection)
    (d : Data) : Effects (first :: others) d (d.pushArray (constantValues values)) := by
  obtain ⟨push, hpush, heq⟩ := h.exists_push
  rw [heq] at hfits ⊢
  have hvalues : Effects values.reverse d ⟨d.stack ++ constantValues values.reverse, d.heap⟩ :=
    effects_of_isConstant (fun ins hins => hfits ins (List.mem_append_left _ hins))
      (by simpa using hconstant) d
  have hspec := Instruction.smallestPush?_spec hpush
  have hpack : (Instruction.simple .pack).Effect
      (Data.push ⟨d.stack ++ constantValues values.reverse, d.heap⟩ (.int values.length))
      (d.pushArray (constantValues values)) := by
    simpa [constantValues] using
      Instruction.effect_pack rfl (values.map Instruction.constantValue) (by simpa using hlength) d
  exact hvalues.append
    (.cons (Instruction.effect_of_pushedInteger? hspec.2.2 hspec.1) (.single hpack))

/-- A packed array is the array that was built element by element. -/
theorem BuildsArray.agree (hpos : 0 < threshold) (h : BuildsArray threshold head run values)
    {first : Instruction} {others : List Instruction} (hpacking : Packing values first others)
    (hfits : ∀ e ∈ head :: run, e.2.Fits) : Agree ((head :: run).map (·.2)) (first :: others) := by
  intro φ d d' hd
  have holds := h.effects hfits d
  cases h.proper hpos hfits hpacking with
  | replaced _ hnews _ _ =>
      have hpacked :=
        hpacking.effects (fun ins hins => (hnews ins hins).2) h.isConstant h.length_le_maxCollection
        d'
      exact ⟨_, _, holds, hpacked, hd.pushArray (itemsRelated_constantValues φ values)⟩

/-- So every segment that fusion replaces does what it did. -/
theorem FusedInto.agree (hpos : 0 < threshold) {block : List Numbered} {segments : List Segment}
    (h : FusedInto threshold block segments) (hfits : ∀ e ∈ block, e.2.Fits) :
    ∀ s ∈ segments, s.isKept = false → Agree (s.olds.map (·.2)) s.news := by
  induction h with
  | nil => simp
  | keep _ _ _ ih =>
      rw [List.forall_mem_cons] at hfits
      exact List.forall_mem_cons.2 ⟨nofun, ih hfits.2⟩
  | @array head run after values others first segments harray _ hpacking _ ih =>
      rw [List.forall_mem_cons, List.forall_mem_append] at hfits
      refine List.forall_mem_cons.2 ⟨fun _ => ?_, ih hfits.2.2⟩
      exact harray.agree hpos hpacking (List.forall_mem_cons.2 ⟨hfits.1, hfits.2.1⟩)

end Fusion

/-! ## Strategies -/

namespace Strategy

/-- A strategy that evaluates only what the machine computes. -/
def Traps : Strategy → Prop
  | folding policy => policy.Traps
  | fusion _ => True

/-- Whatever a strategy replaces agrees with its replacement. -/
theorem Allows.agree {s : Strategy} {segments : List Segment} {count : Nat}
    (h : s.Allows segments count) (htraps : s.Traps)
    (hfits : ∀ e ∈ segments.flatMap Segment.olds, e.2.Fits) :
    ∀ x ∈ segments, x.isKept = false → Agree (x.olds.map (·.2)) x.news := by
  cases s with
  | folding policy =>
      intro x hx hkept
      refine (h.folded x hx).agree htraps hkept fun e he => ?_
      exact hfits e (List.mem_flatMap.2 ⟨x, hx, he⟩)
  | fusion threshold => exact h.fused.agree (threshold_pos threshold) hfits

end Strategy

end NeoScript
