import NeoScript.Instruction

/-!
# Opcode — classes of operations

* operations that differ in their reach only are the same for every class but `isLong`;
* an operation without addresses has no long form of its own.
-/

namespace NeoScript
namespace Opcode

@[simp] theorem hasSingleTarget_toLong (op : Opcode) :
    op.toLong.hasSingleTarget = op.hasSingleTarget := by
  cases op <;> rfl

@[simp] theorem isTry_toLong (op : Opcode) : op.toLong.isTry = op.isTry := by
  cases op <;> rfl

@[simp] theorem isBlockEnding_toLong (op : Opcode) :
    op.toLong.isBlockEnding = op.isBlockEnding := by
  cases op <;> rfl

/-- Only operations that name addresses have a long form. -/
theorem toLong_eq_self {op : Opcode} (hsingle : op.hasSingleTarget = false)
    (htry : op.isTry = false) : op.toLong = op := by
  cases op <;> first | rfl | (cases hsingle; done) | cases htry

/-- Operations without addresses are equal if they are equal up to their reach. -/
theorem eq_of_toLong_eq {a b : Opcode} (hsingle : a.hasSingleTarget = false)
    (htry : a.isTry = false) (h : a.toLong = b.toLong) : a = b := by
  have hsingle' : b.hasSingleTarget = false := by
    rw [← hasSingleTarget_toLong, ← h, hasSingleTarget_toLong, hsingle]
  have htry' : b.isTry = false := by
    rw [← isTry_toLong, ← h, isTry_toLong, htry]
  rw [← toLong_eq_self hsingle htry, h, toLong_eq_self hsingle' htry']

/-- An operation that does not transfer control has an address only if it pushes it. -/
theorem hasSingleTarget_of_straight {op : Opcode} (hstraight : op.isBlockEnding = false)
    (hpointer : op ≠ .pushPointer) : op.hasSingleTarget = false := by
  cases op <;> first | rfl | exact absurd rfl hpointer | cases hstraight

theorem isTry_of_straight {op : Opcode} (hstraight : op.isBlockEnding = false) :
    op.isTry = false := by
  cases op <;> first | rfl | cases hstraight

theorem isBlockEnding_of_hasSingleTarget {op : Opcode} (hsingle : op.hasSingleTarget = true)
    (hpointer : op ≠ .pushPointer) : op.isBlockEnding = true := by
  cases op <;> first | rfl | exact absurd rfl hpointer | cases hsingle

theorem isBlockEnding_of_isTry {op : Opcode} (htry : op.isTry = true) :
    op.isBlockEnding = true := by
  cases op <;> first | rfl | cases htry

def isLocal (op : Opcode) : Bool :=
  !op.isBlockEnding && !op.hasSingleTarget

/-- A local operation leaves a block open and names no address. -/
theorem isLocal_iff {op : Opcode} :
    op.isLocal = true ↔ op.isBlockEnding = false ∧ op.hasSingleTarget = false := by
  simp [isLocal]

/-! ## Operations with addresses -/

def reachWidth (op : Opcode) : Nat :=
  if op.isLong then 4 else 1

theorem reachWidth_pos (op : Opcode) : 0 < op.reachWidth := by
  unfold reachWidth
  split <;> decide

theorem reachWidth_le (op : Opcode) : op.reachWidth ≤ 4 := by
  unfold reachWidth
  split <;> decide

theorem layout_of_hasSingleTarget {op : Opcode} (h : op.hasSingleTarget = true) :
    op.layout = .fixed op.reachWidth := by
  -- Where the operation has an address, its reach decides.
  cases op <;> first | rfl | (rename_i reach; cases reach <;> rfl) | cases h

theorem layout_of_isTry {op : Opcode} (h : op.isTry = true) :
    op.layout = .fixed (2 * op.reachWidth) := by
  cases op with
  | enterTry reach => cases reach <;> rfl
  | _ => cases h

theorem reachWidth_toLong {op : Opcode} (h : op.hasSingleTarget = true ∨ op.isTry = true) :
    op.toLong.reachWidth = 4 := by
  cases op <;> first | rfl | (rcases h with h | h <;> cases h)

theorem hasSingleTarget_of_isTry {op : Opcode} (h : op.isTry = true) :
    op.hasSingleTarget = false := by
  cases op <;> first | rfl | cases h

/-- An operation refers to one target, to its handlers, or to nothing. -/
theorem refers_cases (op : Opcode) :
    op.hasSingleTarget = true ∨ op.isTry = true ∨ op.hasSingleTarget = false ∧
      op.isTry = false := by
  cases op.hasSingleTarget <;> cases op.isTry <;> simp

/-- Making long changes the reach of a jump, but not its condition. -/
theorem eq_jump_of_toLong {op : Opcode} {c : Condition} {r : Reach}
    (h : (jump c r).toLong = op.toLong) : ∃ r', op = jump c r' := by
  cases op <;> cases h
  exact ⟨_, rfl⟩

theorem eq_call_of_toLong {op : Opcode} {r : Reach} (h : (call r).toLong = op.toLong) :
    ∃ r', op = call r' := by
  cases op <;> cases h
  exact ⟨_, rfl⟩

theorem eq_enterTry_of_toLong {op : Opcode} {r : Reach} (h : (enterTry r).toLong = op.toLong) :
    ∃ r', op = enterTry r' := by
  cases op <;> cases h
  exact ⟨_, rfl⟩

theorem eq_endTry_of_toLong {op : Opcode} {r : Reach} (h : (endTry r).toLong = op.toLong) :
    ∃ r', op = endTry r' := by
  cases op <;> cases h
  exact ⟨_, rfl⟩

theorem eq_pushPointer_of_toLong {op : Opcode} (h : pushPointer.toLong = op.toLong) :
    op = pushPointer := by
  cases op <;> cases h
  rfl

end Opcode
end NeoScript
