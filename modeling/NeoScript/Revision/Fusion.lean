import NeoScript.Arithmetic
import NeoScript.Revision.Basic

/-!
# Fusion — arrays that are built element by element

An array of constants that is filled step by step becomes one allocation.  The change has two
stages.

* `lowerAppends` — an empty array followed by appends becomes a sized array with indexed stores;
* `packStores` — a sized array all of whose elements are stored becomes its elements in descending
  order, their number and a pack;
* `fuseBlock` — both stages on a block.

Only constants take part: appending and storing copy a struct, while packing shares it.
-/

namespace NeoScript

namespace Fusion

def leastThreshold : Nat := 3

/-- Packing holds all elements on the stack at once, so larger arrays stay as they are. -/
def maxElements : Nat := 1024

def fuses (threshold n : Nat) : Bool :=
  threshold ≤ n && n ≤ maxElements

/-! ## First stage -/

def isAppend (dup value append : Numbered) : Bool :=
  dup.2.op = .dup && value.2.isConstant && append.2.op = .append

/-- How many appends stand at the front, on top of a count. -/
def appendRun (count : Nat) : List Numbered → Nat
  | dup :: value :: append :: rest =>
      if isAppend dup value append then appendRun (count + 1) rest else count
  | _ => count

/-- Stores in place of `n` appends, from an index on. -/
def storePieces (index : Nat) : (n : Nat) → List Numbered → List Piece
  | n + 1, dup :: value :: append :: rest =>
      .keep dup.1 ::
        ((Instruction.smallestPush? index).map Piece.fresh).toList ++
        .keep value.1 :: .standIn (.simple .setItem) append.1 :: storePieces (index + 1) n rest
  | _, _ => []

/-- The sized allocation that replaces an empty array and the appends behind it. -/
def loweredAppends? (threshold : Nat) (head : Numbered) (rest : List Numbered) :
    Option (Nat × List Piece) :=
  let n := appendRun 0 rest
  if head.2.op = .newArray0 ∧ fuses threshold n then
    (Instruction.smallestPush? n).map fun count =>
      (3 * n, .standIn count head.1 :: .fresh (.simple .newArray) :: storePieces 0 n rest)
  else none

/-! ## Second stage -/

/-- The values of `n` indexed stores at the front, entered at their indices; none if a store is
missing or an index is out of range or comes twice. -/
def storedValues (slots : Array (Option Instruction)) :
    (n : Nat) → List Numbered → Option (Array (Option Instruction))
  | 0, _ => some slots
  | n + 1, dup :: index :: value :: store :: rest =>
      if dup.2.op = .dup ∧ store.2.op = .setItem ∧ value.2.isConstant then
        match index.2.pushedInteger? with
        | some i =>
            if 0 ≤ i ∧ slots[i.toNat]? = some none then
              storedValues (slots.setIfInBounds i.toNat (some value.2)) n rest
            else none
        | none => none
      else none
  | _ + 1, _ => none

def elementCount? (threshold : Nat) (ins : Instruction) : Option Nat :=
  match ins.pushedInteger? with
  | some n => if 0 ≤ n ∧ fuses threshold n.toNat then some n.toNat else none
  | none => none

def isSizedAllocation : Opcode → Bool
  | .newArray => true
  | .newArrayOf => true
  | _ => false

/-- The pushes and the pack that replace a sized array and the stores behind it. -/
def packedStores? (threshold : Nat) (head : Numbered) (rest : List Numbered) :
    Option (Nat × List Piece) :=
  match rest with
  | allocation :: stores =>
      if isSizedAllocation allocation.2.op then do
        let n ← elementCount? threshold head.2
        let slots ← storedValues (Array.replicate n none) n stores
        let values ← slots.toList.mapM id
        let count ← Instruction.smallestPush? n
        match values.reverse with
        | last :: others =>
            some (1 + 4 * n,
              .standIn last head.1 :: others.map .fresh ++ [.fresh count, .fresh (.simple .pack)])
        | [] => none
      else none
  | [] => none

/-! ## Blocks -/

/-- Replaces what a pattern recognises, from left to right, and keeps everything else.  The pattern
is given an instruction and what follows it, and says how many of the latter it takes. -/
def replaceFrom (pattern? : Numbered → List Numbered → Option (Nat × List Piece)) :
    (fuel : Nat) → List Numbered → List Piece → Nat → List Piece × Nat
  | fuel + 1, head :: rest, output, count =>
      match pattern? head rest with
      | some (taken, pieces) =>
          replaceFrom pattern? fuel (rest.drop taken) (pieces.reverse ++ output) (count + 1)
      | none => replaceFrom pattern? fuel rest (.keep head.1 :: output) count
  | _, _, output, count => (output.reverse, count)

/-- Replaces all that a pattern recognises in a block, with the number of replacements. -/
def replaceAll (pattern? : Numbered → List Numbered → Option (Nat × List Piece))
    (block : List Numbered) : List Piece × Nat :=
  replaceFrom pattern? block.length block [] 0

def lowerAppends (threshold : Nat) (block : List Numbered) : List Piece × Nat :=
  replaceAll (loweredAppends? threshold) block

def packStores (threshold : Nat) (block : List Numbered) : List Piece × Nat :=
  replaceAll (packedStores? threshold) block

end Fusion

def fuseBlock (threshold : Nat) (r : Revision) (ids : List InstrId) :
    List InstrId × Nat × Revision :=
  let (pieces, lowered) := Fusion.lowerAppends threshold (r.numbered ids)
  let (ids, r) := r.placeAll pieces
  let (pieces, packed) := Fusion.packStores threshold (r.numbered ids)
  let (ids, r) := r.placeAll pieces
  (ids, lowered + packed, r)

end NeoScript
