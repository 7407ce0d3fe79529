import NeoScript.Instruction
import NeoScript.Integer

/-!
# Arithmetic — evaluating operations on constants

* `OverflowPolicy`, `ArithmeticPolicy` — what a result outside the range means, per operation;
* `exactResult?` — the exact result of an operation, unless the machine would refuse its operands;
* `ArithmeticPolicy.evaluate` — the value that an operation on two constants leaves on the stack;
* `Instruction.smallestPush?` — the shortest instruction that pushes an integer.
-/

namespace NeoScript

/-- What happens when a result leaves the range of the machine. -/
inductive OverflowPolicy where
  /-- The machine faults. -/
  | trap
  /-- The result is reduced to 256 bits. -/
  | wrap
  deriving DecidableEq, Repr

namespace OverflowPolicy

def name : OverflowPolicy → String
  | trap => "Trap"
  | wrap => "Wrap"

def ofName? (name : String) : Option OverflowPolicy :=
  [trap, wrap].find? fun p => p.name == name

end OverflowPolicy

/-- Overflow policies per operation, in the order of the opcode bytes. -/
structure ArithmeticPolicy where
  overflow : List (Opcode × OverflowPolicy)
  deriving DecidableEq, Repr

namespace ArithmeticPolicy

/-- Puts a policy at the place of its opcode byte; an entry for the same operation is replaced. -/
def insertEntry (op : Opcode) (policy : OverflowPolicy) :
    List (Opcode × OverflowPolicy) → List (Opcode × OverflowPolicy)
  | [] => [(op, policy)]
  | entry :: rest =>
      if op = entry.1 then (op, policy) :: rest
      else if op.toByte < entry.1.toByte then (op, policy) :: entry :: rest
      else entry :: insertEntry op policy rest

def set (p : ArithmeticPolicy) (op : Opcode) (policy : OverflowPolicy) : ArithmeticPolicy :=
  ⟨insertEntry op policy p.overflow⟩

/-- The operations that can be evaluated ahead of time. -/
def evaluable : List Arith :=
  [.add, .sub, .mul, .div, .mod, .shl, .shr, .and, .or, .xor]

def uniform (policy : OverflowPolicy) : ArithmeticPolicy :=
  evaluable.foldl (fun p operation => p.set (.arith operation) policy) ⟨[]⟩

/-- The policy of the machine: every overflow faults. -/
def trapping : ArithmeticPolicy :=
  uniform .trap

/-- The policy of an operation; one without entry traps. -/
def policyOf (p : ArithmeticPolicy) (op : Opcode) : OverflowPolicy :=
  (p.overflow.lookup op).getD .trap

end ArithmeticPolicy

def maxShiftCount : Nat := 256

def shiftCount? (b : Int) : Option Nat :=
  if 0 ≤ b ∧ b ≤ maxShiftCount then some b.toNat else none

/-- The exact result of an operation.  Division goes toward zero and the remainder has the sign of
the dividend; a right shift goes toward negative infinity. -/
def exactResult? : Arith → Int → Int → Option Int
  | .add, a, b => some (a + b)
  | .sub, a, b => some (a - b)
  | .mul, a, b => some (a * b)
  | .div, a, b => if b = 0 then none else some (a.tdiv b)
  | .mod, a, b => if b = 0 then none else some (a.tmod b)
  | .shl, a, b => (shiftCount? b).map fun n => a.shiftLeft n
  | .shr, a, b => (shiftCount? b).map fun n => a.shiftRight n
  | .and, a, b => some (Integer.land a b)
  | .or, a, b => some (Integer.lor a b)
  | .xor, a, b => some (Integer.lxor a b)

namespace ArithmeticPolicy

/-- The value of an operation on constants; none if the machine would fault or if the operation
cannot be evaluated ahead of time. -/
def evaluate (p : ArithmeticPolicy) : Opcode → Int → Int → Option Int
  | .arith operation, a, b =>
      match exactResult? operation a b with
      | none => none
      | some value =>
          if Integer.inRange value then some value
          else
            match p.policyOf (.arith operation) with
            | .trap => none
            | .wrap => some (Integer.wrap value)
  | _, _, _ => none

end ArithmeticPolicy

namespace Instruction

/-- The operand width for a signed number that takes `count` bytes. -/
def intWidthFor? (count : Nat) : Option IntWidth :=
  if count ≤ 1 then some .w1
  else if count ≤ 2 then some .w2
  else if count ≤ 4 then some .w4
  else if count ≤ 8 then some .w8
  else if count ≤ 16 then some .w16
  else if count ≤ 32 then some .w32
  else none

/-- The shortest instruction that pushes an integer; none if it takes more than 32 bytes.  Its
operand is the integer in its fewest bytes, with the sign repeated up to the width of the
operand. -/
def smallestPush? (value : Int) : Option Instruction :=
  if value = -1 then some (simple .pushMinusOne)
  else
    match if 0 ≤ value ∧ value ≤ 255 then Opcode.pushSmall? value.toNat else none with
    | some op => some (simple op)
    | none => do
        let bytes := Bytes.ofSigned value
        let width ← intWidthFor? bytes.length
        let fill : UInt8 := if value < 0 then 0xFF else 0x00
        return unplaced (.pushInt width) (Bytes.resize width.bytes fill bytes)

end Instruction

end NeoScript
