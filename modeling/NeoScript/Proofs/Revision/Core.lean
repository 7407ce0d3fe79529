import NeoScript.Proofs.Opcode
import NeoScript.Proofs.Revision.Folding
import NeoScript.Proofs.Revision.Patterns

/-!
# Core — what the strategies see of an instruction

Strategies read operations and constants.  They see neither where an instruction stands, nor its
number, nor the addresses that it names, nor how far these reach.

* `Instruction.core` — an instruction without all that;
* `Fusion.Unfusable` — no array is left to fuse;
* `unfoldable_core_iff`, `Fusion.unfusable_core_iff` — both depend on the core only.
-/

namespace NeoScript

namespace Instruction

def core (ins : Instruction) : Instruction :=
  if ins.op.hasSingleTarget || ins.op.isTry then .simple ins.op.toLong
  else .unplaced ins.op ins.operand

variable {ins : Instruction}

theorem op_core (ins : Instruction) : ins.core.op = ins.op.toLong := by
  unfold core
  split
  · rfl
  · rename_i hplain
    rw [Bool.not_eq_true, Bool.or_eq_false_iff] at hplain
    exact (Opcode.toLong_eq_self hplain.1 hplain.2).symm

/-- An operation without addresses is seen as it is. -/
theorem op_core_eq_iff {op : Opcode} (hsingle : op.hasSingleTarget = false)
    (htry : op.isTry = false) : ins.core.op = op ↔ ins.op = op := by
  rw [op_core]
  constructor
  · intro h
    refine (Opcode.eq_of_toLong_eq hsingle htry ?_).symm
    rw [h, Opcode.toLong_eq_self hsingle htry]
  · rintro rfl
    exact Opcode.toLong_eq_self hsingle htry

@[simp] theorem pushedInteger?_core (ins : Instruction) :
    ins.core.pushedInteger? = ins.pushedInteger? := by
  rcases ins with ⟨pc, op, operand⟩
  cases op <;> rfl

@[simp] theorem isConstant_core (ins : Instruction) : ins.core.isConstant = ins.isConstant := by
  rcases ins with ⟨pc, op, operand⟩
  cases op <;> rfl

theorem evaluate_core (policy : ArithmeticPolicy) (ins : Instruction) (x y : Int) :
    policy.evaluate ins.core.op x y = policy.evaluate ins.op x y := by
  rw [op_core]
  cases ins.op <;> rfl

end Instruction

/-! ## Folding -/

/-- Whether a triple can be evaluated does not depend on places and addresses. -/
theorem foldTriple?_core (policy : ArithmeticPolicy) (a b op : Instruction) :
    foldTriple? policy a.core b.core op.core = foldTriple? policy a b op := by
  simp [foldTriple?, Instruction.evaluate_core]

/-- So whether a block can be folded does not. -/
theorem unfoldable_core_iff {policy : ArithmeticPolicy} {xs : List Instruction} :
    Unfoldable policy (xs.map Instruction.core) ↔ Unfoldable policy xs := by
  constructor
  · intro h a b op hinfix
    rw [← foldTriple?_core]
    exact h _ _ _ (by simpa using hinfix.map Instruction.core)
  · intro h a b op hinfix
    obtain ⟨triple, htriple, heq⟩ := List.infix_map_iff.1 hinfix
    obtain ⟨a, _, rfl, rfl, h₁⟩ := List.map_eq_cons_iff.1 heq.symm
    obtain ⟨b, _, rfl, rfl, h₂⟩ := List.map_eq_cons_iff.1 h₁
    obtain ⟨op, _, rfl, rfl, h₃⟩ := List.map_eq_cons_iff.1 h₂
    obtain rfl := List.map_eq_nil_iff.1 h₃
    rw [foldTriple?_core]
    exact h a b op htriple

/-- The same instructions, up to their places and addresses. -/
theorem Unfoldable.congr {policy : ArithmeticPolicy} {xs ys : List Instruction}
    (h : Unfoldable policy xs)
    (hcore : xs.map Instruction.core = ys.map Instruction.core) : Unfoldable policy ys := by
  rw [← unfoldable_core_iff, ← hcore, unfoldable_core_iff]
  exact h

/-! ## Fusion -/

namespace Fusion

def seen (entry : Numbered) : Numbered :=
  (0, entry.2.core)

theorem isAppend_seen (dup value append : Numbered) :
    isAppend (seen dup) (seen value) (seen append) = isAppend dup value append := by
  have hdup : dup.2.core.op = .dup ↔ dup.2.op = .dup := Instruction.op_core_eq_iff rfl rfl
  have happend : append.2.core.op = .append ↔ append.2.op = .append :=
    Instruction.op_core_eq_iff rfl rfl
  simp [isAppend, seen, hdup, happend]

theorem appendRun_seen (count : Nat) (block : List Numbered) :
    appendRun count (block.map seen) = appendRun count block := by
  fun_induction appendRun count block with
  | case1 count dup value append rest hit ih =>
      simp only [List.map_cons, appendRun]
      rw [isAppend_seen, if_pos hit, ih]
  | case2 count dup value append rest hmiss =>
      simp only [List.map_cons, appendRun]
      rw [isAppend_seen, if_neg hmiss]
  | case3 block count hshort =>
      have hmap : ∀ dup value append rest, block.map seen ≠ dup :: value :: append :: rest := by
        intro dup value append rest heq
        obtain ⟨a, _, rfl, -, heq⟩ := List.map_eq_cons_iff.1 heq
        obtain ⟨b, _, rfl, -, heq⟩ := List.map_eq_cons_iff.1 heq
        obtain ⟨c, _, rfl, -, -⟩ := List.map_eq_cons_iff.1 heq
        exact hshort a b c _ rfl
      exact appendRun.eq_2 count _ hmap

theorem isSizedAllocation_core (ins : Instruction) :
    isSizedAllocation ins.core.op = isSizedAllocation ins.op := by
  rw [Instruction.op_core]
  cases ins.op <;> rfl

theorem elementCount?_core (threshold : Nat) (ins : Instruction) :
    elementCount? threshold ins.core = elementCount? threshold ins := by
  simp [elementCount?]

/-- The values that stores collect are seen through the same way. -/
theorem storedValues_seen (slots : Array (Option Instruction)) (n : Nat) (block : List Numbered) :
    storedValues (slots.map (Option.map Instruction.core)) n (block.map seen) =
      (storedValues slots n block).map (Array.map (Option.map Instruction.core)) := by
  -- Everything that the reading of stores asks of an instruction is a matter of its core.
  have hdup : ∀ e : Numbered, (seen e).2.op = .dup ↔ e.2.op = .dup := fun e =>
    Instruction.op_core_eq_iff rfl rfl
  have hstore : ∀ e : Numbered, (seen e).2.op = .setItem ↔ e.2.op = .setItem := fun e =>
    Instruction.op_core_eq_iff rfl rfl
  have hvalue : ∀ e : Numbered, (seen e).2.isConstant = e.2.isConstant := fun e =>
    Instruction.isConstant_core e.2
  have hindex : ∀ e : Numbered, (seen e).2.pushedInteger? = e.2.pushedInteger? := fun e =>
    Instruction.pushedInteger?_core e.2
  fun_induction storedValues slots n block with
  | case1 slots block => simp [storedValues]
  | case2 slots n dup index value store rest hit i hi hslot ih =>
      have hset : (slots.map (Option.map Instruction.core)).setIfInBounds i.toNat
          (some (seen value).2) =
          (slots.setIfInBounds i.toNat (some value.2)).map (Option.map Instruction.core) := by
        simp [seen]
      rw [← ih, ← hset]
      simp [storedValues, hdup, hstore, hvalue, hindex, hit, hi, hslot]
  | case3 slots n dup index value store rest hit i hi hslot =>
      have hslot' : ¬ (0 ≤ i ∧ (slots.map (Option.map Instruction.core))[i.toNat]? =
          some none) := by
        simpa using hslot
      simp only [List.map_cons, storedValues, hdup, hstore, hvalue, hindex, hi]
      rw [if_pos hit, if_neg hslot', Option.map_none]
  | case4 slots n dup index value store rest hit hnone =>
      simp [storedValues, hdup, hstore, hvalue, hindex, hit, hnone]
  | case5 slots n dup index value store rest hmiss =>
      simp [storedValues, hdup, hstore, hvalue, hmiss]
  | case6 slots n block hshort =>
      rcases block with _ | ⟨a, _ | ⟨b, _ | ⟨c, _ | ⟨d, rest⟩⟩⟩⟩
      · rfl
      · rfl
      · rfl
      · rfl
      · exact absurd rfl (hshort a b c d rest)

theorem mapM_id_core (slots : List (Option Instruction)) :
    (slots.map (Option.map Instruction.core)).mapM id =
      (slots.mapM id).map (List.map Instruction.core) := by
  induction slots with
  | nil => rfl
  | cons slot slots ih =>
      rw [List.map_cons, List.mapM_cons, List.mapM_cons, ih]
      cases slot <;> cases slots.mapM id <;> rfl

theorem loweredAppends?_seen {threshold : Nat} {head : Numbered} {rest : List Numbered} :
    loweredAppends? threshold (seen head) (rest.map seen) = none ↔
      loweredAppends? threshold head rest = none := by
  have hhead : (seen head).2.op = .newArray0 ↔ head.2.op = .newArray0 :=
    Instruction.op_core_eq_iff rfl rfl
  simp only [loweredAppends?, appendRun_seen, hhead]
  split <;> simp

theorem packedStores?_seen {threshold : Nat} {head : Numbered} {rest : List Numbered} :
    packedStores? threshold (seen head) (rest.map seen) = none ↔
      packedStores? threshold head rest = none := by
  cases rest with
  | nil => exact Iff.rfl
  | cons allocation stores =>
      have hsized : isSizedAllocation (seen allocation).2.op = isSizedAllocation allocation.2.op :=
        isSizedAllocation_core allocation.2
      have hcount : elementCount? threshold (seen head).2 = elementCount? threshold head.2 :=
        elementCount?_core threshold head.2
      simp only [List.map_cons, packedStores?, hsized, hcount]
      split
      · cases elementCount? threshold head.2 with
        | none => exact Iff.rfl
        | some n =>
            have hstored := storedValues_seen (Array.replicate n none) n stores
            rw [Array.map_replicate, Option.map_none] at hstored
            simp only [Option.bind_eq_bind, Option.bind_some, hstored]
            cases storedValues (Array.replicate n none) n stores with
            | none => exact Iff.rfl
            | some slots =>
                simp only [Option.map_some, Option.bind_some, Array.toList_map, mapM_id_core]
                cases slots.toList.mapM id with
                | none => exact Iff.rfl
                | some values =>
                    simp only [Option.map_some, Option.bind_some, ← List.map_reverse]
                    cases values.reverse <;> cases Instruction.smallestPush? n <;> simp
      · exact Iff.rfl

def Unfusable (threshold : Nat) (block : List Numbered) : Prop :=
  ∀ head rest, head :: rest <:+ block →
    loweredAppends? threshold head rest = none ∧ packedStores? threshold head rest = none

/-- Whether an array is left to fuse does not depend on places and addresses. -/
theorem unfusable_seen_iff {threshold : Nat} {block : List Numbered} :
    Unfusable threshold (block.map seen) ↔ Unfusable threshold block := by
  constructor
  · intro h head rest hsuffix
    have hseen := h (seen head) (rest.map seen) (by simpa using hsuffix.map seen)
    rwa [loweredAppends?_seen, packedStores?_seen] at hseen
  · intro h head rest hsuffix
    obtain ⟨part, hpart, heq⟩ := List.suffix_map_iff.1 hsuffix
    obtain ⟨head, rest, rfl, rfl, rfl⟩ := List.map_eq_cons_iff.1 heq.symm
    rw [loweredAppends?_seen, packedStores?_seen]
    exact h head rest hpart

/-- Blocks of the same instructions, up to their places and addresses. -/
theorem Unfusable.congr {threshold : Nat} {block block' : List Numbered}
    (h : Unfusable threshold block)
    (hcore : block.map (·.2.core) = block'.map (·.2.core)) : Unfusable threshold block' := by
  have hseen : block.map seen = block'.map seen := by
    have hnumber := congrArg (List.map fun ins => ((0 : InstrId), ins)) hcore
    rw [List.map_map, List.map_map] at hnumber
    exact hnumber
  rw [← unfusable_seen_iff, ← hseen, unfusable_seen_iff]
  exact h

end Fusion

end NeoScript
