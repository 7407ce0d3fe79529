import NeoScript.Script

/-!
# Assembly — scripts from labelled instructions

* `AsmItem` — an instruction, a reference to labels, or a label;
* `Assembly.assemble` — the script and the address of every label, or the first fault;
* `Assembly.pushInteger?` — the narrowest push of an integer.

The width of a reference is never chosen: a short one that does not reach its label is a fault.
-/

namespace NeoScript

inductive AsmItem where
  | plain (ins : Instruction)
  /-- A jump, a call, the end of a try body or a pointer. -/
  | target (op : Opcode) (label : String)
  | handlers (op : Opcode) (catchLabel finallyLabel : Option String)
  | label (name : String)
  deriving DecidableEq, Repr

inductive AsmFault where
  | labelTwice (name : String)
  | undefinedLabel (name : String)
  | overflow (op : Opcode) (offset : Int)
  | needsLongForm (op : Opcode) (offset : Int)
  | encoding (cause : Error)
  | tooWide
  deriving DecidableEq, Repr

namespace AsmFault

def message : AsmFault → String
  | labelTwice name => "label " ++ name ++ " defined twice"
  | undefinedLabel name => "undefined label " ++ name
  | overflow op offset => op.mnemonic ++ s!" offset {offset} overflows"
  | needsLongForm op offset => op.mnemonic ++ s!" offset {offset} needs a long form"
  | encoding cause => cause.message
  | tooWide => "integer too wide"

end AsmFault

namespace AsmItem

def size : AsmItem → Nat
  | plain ins => ins.size
  | target op _ => Instruction.simple op |>.size
  | handlers op _ _ => Instruction.simple op |>.size
  | label _ => 0

end AsmItem

namespace Assembly

/-- The narrowest push of an integer; none if it takes more than 32 bytes. -/
def pushInteger? (value : Int) : Option Instruction :=
  if value = -1 then some (.simple .pushMinusOne)
  else
    match if 0 ≤ value ∧ value ≤ 127 then Opcode.pushSmall? value.toNat else none with
    | some op => some (.simple op)
    | none => do
        let bytes := Bytes.ofSigned value
        let width ← IntWidth.all.find? fun width => bytes.length ≤ width.bytes
        let fill : UInt8 := if value < 0 then 0xFF else 0x00
        return .unplaced (.pushInt width) (Bytes.resize width.bytes fill bytes)

structure Program where
  script : Code
  /-- The address of each label, in the order of the text. -/
  labels : List (String × Nat)
  deriving DecidableEq, Repr

/-- Addresses of labels: the address so far and the labels so far. -/
def addLabel (state : Nat × List (String × Nat)) (item : AsmItem) :
    Except AsmFault (Nat × List (String × Nat)) :=
  let (pc, labels) := state
  match item with
  | .label name =>
      if (labels.lookup name).isSome then .error (.labelTwice name)
      else .ok (pc, labels ++ [(name, pc)])
  | other => .ok (pc + other.size, labels)

def offsetTo (labels : List (String × Nat)) (pc : Nat) (label : String) : Except AsmFault Int :=
  match labels.lookup label with
  | some address => .ok ((address : Int) - pc)
  | none => .error (.undefinedLabel label)

def offsetBytes (op : Opcode) (offset : Int) : Except AsmFault (List UInt8) :=
  if op.isLong ∨ op = .pushPointer then
    if Bytes.fitsSigned 4 offset then .ok (Bytes.ofInt 4 offset) else .error (.overflow op offset)
  else if Bytes.fitsSigned 1 offset then .ok (Bytes.ofInt 1 offset)
  else .error (.needsLongForm op offset)

/-- The operand bytes of a handler; an absent one has distance zero. -/
def handlerBytes (labels : List (String × Nat)) (pc : Nat) (op : Opcode) (label : Option String) :
    Except AsmFault (List UInt8) := do
  let offset ← match label with
    | some name => offsetTo labels pc name
    | none => .ok 0
  offsetBytes op offset

/-- The instruction of an item at an address; a label has none. -/
def resolveItem (labels : List (String × Nat)) (pc : Nat) :
    AsmItem → Except AsmFault (Option Instruction)
  | .label _ => .ok none
  | .plain ins => .ok (some ins)
  | .target op label => do
      let offset ← offsetTo labels pc label
      return some (.unplaced op (← offsetBytes op offset))
  | .handlers op catchLabel finallyLabel => do
      let first ← handlerBytes labels pc op catchLabel
      let second ← handlerBytes labels pc op finallyLabel
      return some (.unplaced op (first ++ second))

/-- Takes in one item: the address so far and the instructions so far, the last one first. -/
def resolveStep (labels : List (String × Nat)) (state : Nat × List Instruction) (item : AsmItem) :
    Except AsmFault (Nat × List Instruction) := do
  let (pc, done) := state
  let ins ← resolveItem labels pc item
  return (pc + item.size, ins.toList ++ done)

def assemble (items : List AsmItem) : Except AsmFault Program := do
  let (_, labels) ← items.foldlM addLabel (0, [])
  let (_, instructions) ← items.foldlM (resolveStep labels) (0, [])
  let script ← (encode instructions.reverse).mapError AsmFault.encoding
  return ⟨script, labels⟩

end Assembly

end NeoScript
