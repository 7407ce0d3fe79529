import NeoScript.Instruction
import Std.Data.TreeMap

/-!
# Script — code bytes and the instructions they spell

Code is read from its first byte to its last; each instruction begins where the one before it ends.

* `decodeAt` — the instruction that begins at an address;
* `Script` — the instructions of a code in order, with their addresses as an index;
* `Script.decode` — all instructions of a code, or the first fault;
* `encode` — the bytes of instructions; an operand that does not fit its layout is refused.
-/

namespace NeoScript

abbrev Code := Array UInt8

/-! ## Decoding -/

def decodeAt (code : Code) (pc : Nat) : Except Error Instruction :=
  match code[pc]? with
  | none => .error (.truncatedOperand pc .nop 1 0)
  | some byte =>
      match Opcode.ofByte? byte with
      | none => .error (.unknownOpcode pc byte)
      | some op =>
          let start := pc + 1
          let remaining := code.size - start
          match op.layout with
          | .empty => .ok ⟨pc, op, []⟩
          | .fixed n =>
              if n ≤ remaining then .ok ⟨pc, op, (code.extract start (start + n)).toList⟩
              else .error (.truncatedOperand pc op n remaining)
          | .counted width =>
              let w := width.bytes
              if w ≤ remaining then
                let length := Bytes.toNat (code.extract start (start + w)).toList
                if w + length ≤ remaining then
                  .ok ⟨pc, op, (code.extract (start + w) (start + w + length)).toList⟩
                else .error (.truncatedOperand pc op (w + length) remaining)
              else .error (.truncatedOperand pc op w remaining)

/-- Appends the instructions from `pc` on.  Every instruction takes a byte at least, so `fuel` may
be the number of bytes that remain. -/
def decodeFrom (code : Code) :
    (fuel pc : Nat) → Array Instruction → Except Error (Array Instruction)
  | 0, _, out => .ok out
  | fuel + 1, pc, out =>
      if pc < code.size then
        match decodeAt code pc with
        | .error e => .error e
        | .ok ins => decodeFrom code fuel (pc + ins.size) (out.push ins)
      else .ok out

/-! ## Decoded scripts -/

/-- The instructions of a code, in order, and the position of the instruction at each address. -/
structure Script where
  instructions : Array Instruction
  positions : Std.TreeMap Nat Nat

namespace Script

def ofInstructions (instructions : Array Instruction) : Script :=
  let index (map : Std.TreeMap Nat Nat) (entry : Instruction × Nat) : Std.TreeMap Nat Nat :=
    map.insert entry.1.pc entry.2
  ⟨instructions, instructions.toList.zipIdx.foldl index ∅⟩

def decode (code : Code) : Except Error Script :=
  (decodeFrom code code.size 0 #[]).map ofInstructions

def length (s : Script) : Nat :=
  match s.instructions.back? with
  | some last => last.next
  | none => 0

/-- The position of the instruction that begins at an address. -/
def indexOf? (s : Script) (pc : Nat) : Option Nat :=
  s.positions[pc]?

def isBoundary (s : Script) (pc : Nat) : Bool :=
  s.positions.contains pc

end Script

/-! ## Encoding -/

def encodeOperand (layout : OperandLayout) (operand : List UInt8) :
    Except OperandFault (List UInt8) :=
  match layout with
  | .empty => if operand.isEmpty then .ok [] else .error (.unexpected operand.length)
  | .fixed n =>
      if operand.length = n then .ok operand else .error (.wrongLength n operand.length)
  | .counted width =>
      if operand.length < Nat.pow 256 width.bytes then
        .ok (Bytes.ofNat width.bytes operand.length ++ operand)
      else .error (.tooLong operand.length width)

def encodeOne (ins : Instruction) : Except Error (List UInt8) :=
  match encodeOperand ins.op.layout ins.operand with
  | .ok bytes => .ok (ins.op.toByte :: bytes)
  | .error fault => .error (.invalidOperand ins.pc ins.op fault)

/-- The bytes of instructions, in order; their addresses do not count. -/
def encode (instructions : List Instruction) : Except Error Code :=
  (instructions.mapM encodeOne).map fun parts => parts.flatten.toArray

end NeoScript
