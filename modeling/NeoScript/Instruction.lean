import NeoScript.Error

/-!
# Instruction — an operation with its operand and address

* `Instruction` — address, operation and operand bytes; the operand of a data push is the payload
  without its length;
* `Instruction.size` — its length in a script;
* `Instruction.jumpOffset?`, `Instruction.handlerOffsets?`, `Instruction.pushedInteger?` and the
  byte readers — what the operand says;
* `Instruction.render` — its line in block dumps.
-/

namespace NeoScript

/-- An operation with its operand, at an address. -/
structure Instruction where
  pc : Nat
  op : Opcode
  operand : List UInt8
  deriving DecidableEq, Repr

namespace Instruction

/-- An instruction that has no place in a script yet. -/
def unplaced (op : Opcode) (operand : List UInt8) : Instruction :=
  ⟨0, op, operand⟩

def simple (op : Opcode) : Instruction :=
  unplaced op []

/-- The number of bytes that an operation with an operand takes in a script. -/
def sizeOf (op : Opcode) (operand : List UInt8) : Nat :=
  match op.layout with
  | .empty => 1
  | .fixed n => 1 + n
  | .counted width => 1 + width.bytes + operand.length

/-- The number of bytes of an instruction in a script. -/
def size (ins : Instruction) : Nat :=
  sizeOf ins.op ins.operand

/-- No instruction is empty, so a walk over a script comes to its end. -/
theorem size_pos (ins : Instruction) : 0 < ins.size := by
  unfold size sizeOf
  split <;> omega

def next (ins : Instruction) : Nat :=
  ins.pc + ins.size

/-! ## Reading the operand -/

/-- The bytes `at ..< at + count` of the operand, if it has that many. -/
def operandSlice? (ins : Instruction) (start count : Nat) : Option (List UInt8) :=
  if start + count ≤ ins.operand.length then some ((ins.operand.drop start).take count) else none

def signedAt? (ins : Instruction) (start count : Nat) : Option Int :=
  (ins.operandSlice? start count).map Bytes.toInt

def unsignedAt? (ins : Instruction) (start count : Nat) : Option Nat :=
  (ins.operandSlice? start count).map Bytes.toNat

def byte0? (ins : Instruction) : Option Nat :=
  ins.unsignedAt? 0 1

def byte1? (ins : Instruction) : Option Nat :=
  ins.unsignedAt? 1 1

/-- The address operand of a jump, a call, the end of a try body or a pointer push, relative to the
instruction. -/
def jumpOffset? (ins : Instruction) : Option Int :=
  if ins.op.hasSingleTarget then
    if ins.op.isLong then ins.signedAt? 0 4 else ins.signedAt? 0 1
  else none

/-- The catch and finally offsets of a try, relative to the instruction; zero means no handler. -/
def handlerOffsets? (ins : Instruction) : Option (Int × Int) :=
  match ins.op with
  | .enterTry .short => do
      let catchOffset ← ins.signedAt? 0 1
      let finallyOffset ← ins.signedAt? 1 1
      return (catchOffset, finallyOffset)
  | .enterTry .long => do
      let catchOffset ← ins.signedAt? 0 4
      let finallyOffset ← ins.signedAt? 4 4
      return (catchOffset, finallyOffset)
  | _ => none

def pushedInteger? (ins : Instruction) : Option Int :=
  match ins.op with
  | .pushMinusOne => some (-1)
  | .pushSmall n => some (n.val : Int)
  | .pushInt _ => some (Bytes.toInt ins.operand)
  | _ => none

/-- Pushes a constant that is not a collection. -/
def isConstant (ins : Instruction) : Bool :=
  match ins.op with
  | .pushNull => true
  | .pushTrue => true
  | .pushFalse => true
  | op => op.isIntPush || op.isDataPush

/-! ## Text -/

/-- Address, mnemonic and operand in one line. -/
def render (ins : Instruction) : String :=
  if ins.operand.isEmpty then
    Text.padded 6 ins.pc ++ "  " ++ ins.op.mnemonic
  else
    Text.padded 6 ins.pc ++ "  " ++ Text.padRight 10 ins.op.mnemonic ++ " " ++
      Bytes.toHex ins.operand

/-! ## Making pushes -/

def pushData (data : List UInt8) : Instruction :=
  let length := data.length
  if length < 0x100 then unplaced (.pushData .w1) data
  else if length < 0x10000 then unplaced (.pushData .w2) data
  else unplaced (.pushData .w4) data

end Instruction

end NeoScript
