import NeoScript.Error
import NeoScript.Revision.Basic

/-!
# Relocation — addresses for a revised program

Every address operand is computed from the references of the program.  A short reference whose
distance does not fit one byte becomes a long one; since that moves later instructions, the layout
is repeated until nothing changes.  No instruction is ever narrowed.

* `AddressMap` — new addresses for old ones;
* `locate` — the instructions with the positions of their targets;
* `addresses`, `widenOnce`, `widen` — the layout and its fixed point;
* `relocate` — the instructions with addresses and operands, or the first dangling reference.
-/

namespace NeoScript

open Std (TreeMap)

/-! ## Address maps -/

/-- New addresses for old ones, in ascending order; the old end of the script maps to the new
one. -/
structure AddressMap where
  entries : List (Nat × Nat)
  oldLength : Nat
  newLength : Nat
  deriving DecidableEq, Repr

namespace AddressMap

/-- The new address; one of a removed instruction is that of the next instruction that is left. -/
def resolve (m : AddressMap) (old : Nat) : Except Error Nat :=
  match m.entries.find? fun entry => old ≤ entry.1 with
  | some entry => .ok entry.2
  | none => .error (.missingAddressMapping old)

def newAddress? (m : AddressMap) (old : Nat) : Option Nat :=
  m.entries.lookup old

def moved (m : AddressMap) : List (Nat × Nat) :=
  m.entries.filter fun entry => entry.1 ≠ entry.2

end AddressMap

structure Relocation where
  instructions : List Instruction
  addressMap : AddressMap
  /-- How many short references became long. -/
  upgraded : Nat
  deriving DecidableEq, Repr

namespace Relocation

def scriptLength (r : Relocation) : Nat :=
  r.addressMap.newLength

/-! ## Targets by position -/

/-- An instruction and the positions to which it refers; an absent handler is none. -/
structure Located where
  instruction : Instruction
  targets : List (Option Nat)
  deriving DecidableEq, Repr

def positions (order : List InstrId) : TreeMap InstrId Nat :=
  order.zipIdx.foldl (fun table (id, position) => table.insert id position) ∅

def positionOf (table : TreeMap InstrId Nat) (id : InstrId) : Except Error Nat :=
  match table[id]? with
  | some position => .ok position
  | none => .error (.danglingTarget id)

def handlerPosition (table : TreeMap InstrId Nat) :
    Option InstrId → Except Error (Option Nat)
  | none => .ok none
  | some id => (positionOf table id).map some

def targetsOf (references : References) (table : TreeMap InstrId Nat) (id : InstrId) (op : Opcode) :
    Except Error (List (Option Nat)) :=
  if op.hasSingleTarget then
    match references.jumps[id]? with
    | some target => (positionOf table target).map fun position => [some position]
    | none => .error (.danglingTarget id)
  else if op.isTry then do
    let handlers := (references.tries[id]?).getD .none
    let catchPosition ← handlerPosition table handlers.catchId
    let finallyPosition ← handlerPosition table handlers.finallyId
    return [catchPosition, finallyPosition]
  else .ok []

/-- The instructions of a program; all of them are looked up before any reference. -/
def locate (r : Revision) : Except Error (List Located) := do
  let entries ← r.order.mapM fun id =>
    match r.arena.get? id with
    | some ins => Except.ok (id, ins)
    | none => .error (.danglingTarget id)
  let table := positions r.order
  entries.mapM fun (id, ins) =>
    (targetsOf r.references table id ins.op).map fun targets => ⟨ins, targets⟩

/-! ## Layout -/

/-- Takes the next instruction into a layout: the end so far and the addresses. -/
def layoutStep (state : Nat × Array Nat) (l : Located) : Nat × Array Nat :=
  (state.1 + l.instruction.size, state.2.push state.1)

/-- The end of the program and the address of each instruction. -/
def layout (program : List Located) : Nat × Array Nat :=
  program.foldl layoutStep (0, #[])

/-- The signed distances from an address to targets; an absent handler has distance zero. -/
def distances (addresses : Array Nat) (pc : Nat) (targets : List (Option Nat)) : List Int :=
  targets.map fun
    | some position => (addresses.getD position 0 : Int) - pc
    | none => 0

/-- The instruction has a long form and is not long. -/
def isShort (op : Opcode) : Bool :=
  !op.isLong && op.toLong ≠ op

/-- A short reference whose distances do not all fit one byte. -/
def isStrained (addresses : Array Nat) (pc : Nat) (l : Located) : Bool :=
  isShort l.instruction.op && !(distances addresses pc l.targets).all (Bytes.fitsSigned 1)

def lengthen (l : Located) : Located :=
  { l with instruction := { l.instruction with op := l.instruction.op.toLong } }

def widenOnce (addresses : Array Nat) (program : List Located) : List Located :=
  List.zipWith (fun pc l => if isStrained addresses pc l then lengthen l else l)
    addresses.toList program

def strainedCount (addresses : Array Nat) (program : List Located) : Nat :=
  (List.zipWith (isStrained addresses) addresses.toList program).count true

/-- Repeats the layout until no reference is strained.  Every round lengthens at least one short
reference, so their number bounds the rounds. -/
def widen : (fuel : Nat) → List Located → (upgraded : Nat) → List Located × Nat
  | 0, program, upgraded => (program, upgraded)
  | fuel + 1, program, upgraded =>
      let addresses := (layout program).2
      match strainedCount addresses program with
      | 0 => (program, upgraded)
      | n + 1 => widen fuel (widenOnce addresses program) (upgraded + (n + 1))

def shortCount (program : List Located) : Nat :=
  program.countP fun l => isShort l.instruction.op

/-! ## Operands -/

def encodeDistance (op : Opcode) (pc : Nat) (distance : Int) : Except Error (List UInt8) :=
  let width := if op.isLong then 4 else 1
  if Bytes.fitsSigned width distance then .ok (Bytes.ofInt width distance)
  else .error (.invalidBlockStructure (.distance op pc distance))

/-- The instruction at its address; an operand without reference stays as it is. -/
def place (addresses : Array Nat) (pc : Nat) (l : Located) : Except Error Instruction :=
  match l.targets with
  | [] => .ok { l.instruction with pc }
  | targets => do
      let parts ← (distances addresses pc targets).mapM (encodeDistance l.instruction.op pc)
      return { l.instruction with pc, operand := parts.flatten }

/-- The map of addresses: the first instruction of each origin counts. -/
def mapOf (r : Revision) (addresses : Array Nat) (newLength : Nat) : AddressMap :=
  let enter (table : TreeMap Nat Nat) (entry : InstrId × Nat) : TreeMap Nat Nat :=
    match r.arena.origin? entry.1 with
    | some origin => table.insertIfNew origin entry.2
    | none => table
  let table : TreeMap Nat Nat := (r.order.zip addresses.toList).foldl enter ∅
  ⟨(table.insert r.scriptLength newLength).toList, r.scriptLength, newLength⟩

end Relocation

open Relocation in
/-- Lays out a program and computes every address operand. -/
def relocate (r : Revision) : Except Error Relocation := do
  let program ← locate r
  let (program, upgraded) := widen (shortCount program) program 0
  let (newLength, addresses) := layout program
  let instructions ← (addresses.toList.zip program).mapM fun (pc, l) => place addresses pc l
  return ⟨instructions, mapOf r addresses newLength, upgraded⟩

end NeoScript
