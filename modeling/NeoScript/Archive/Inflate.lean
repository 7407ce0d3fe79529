/-!
# Inflate — compressed archive entries

A compressed text is a row of blocks, each stored as it is or written in prefix codes for single
bytes and for copies of what came before.

* `PrefixCode`, `PrefixCode.ofLengths?` — canonical codes from the lengths of their words;
* `Inflater` — reads bits and writes bytes, and fails on a text that no compressor writes;
* `inflate` — the bytes of a compressed text; none if it is corrupt or ends before its last block
  does.
-/

namespace NeoScript

/-! ## Prefix codes -/

/-- A canonical code: how many words there are of each length from one on, and the symbols in the
order of their words. -/
structure PrefixCode where
  counts : List Nat
  symbols : Array Nat
  deriving DecidableEq, Repr

namespace PrefixCode

def maxLength : Nat := 15

/-- The part of all words of the greatest length that a code uses up. -/
def usage (counts : List Nat) : Nat :=
  counts.foldl (fun total count => (total + count) * 2) 0

/-- The code in which the symbol at each position has a word of the given length; zero means that
the symbol does not occur.  All words must be used up, unless there is at most one. -/
def ofLengths? (lengths : List Nat) : Option PrefixCode :=
  let sizes := List.range' 1 maxLength
  let counts := sizes.map fun size => lengths.count size
  let symbols := sizes.flatMap fun size =>
    (lengths.zipIdx.filter fun entry => entry.1 = size).map (·.2)
  if usage counts = Nat.pow 2 (maxLength + 1) ∨ symbols.length ≤ 1 then
    some ⟨counts, symbols.toArray⟩
  else none

end PrefixCode

/-! ## Reading bits -/

namespace Inflate

/-- The bits that are left, and the bytes that were written. -/
structure State where
  /-- The rest of the current byte. -/
  current : Nat
  /-- How many bits of the current byte are left. -/
  left : Nat
  rest : List UInt8
  output : Array UInt8
  deriving DecidableEq, Repr

end Inflate

abbrev Inflater := StateT Inflate.State Option

namespace Inflate

def bit : Inflater Nat := do
  let s ← get
  match s.left, s.rest with
  | n + 1, _ =>
      set { s with current := s.current / 2, left := n }
      return s.current % 2
  | 0, b :: rest =>
      set { s with current := b.toNat / 2, left := 7, rest }
      return b.toNat % 2
  | 0, [] => failure

/-- The next `n` bits as a number, the lowest one first. -/
def bits : (n : Nat) → Inflater Nat
  | 0 => return 0
  | n + 1 => do
      let low ← bit
      return low + 2 * (← bits n)

def byte : Inflater Nat := do
  let s ← get
  match s.rest with
  | b :: rest =>
      set { s with rest }
      return b.toNat
  | [] => failure

def align : Inflater Unit :=
  modify fun s => { s with current := 0, left := 0 }

def emit (b : UInt8) : Inflater Unit :=
  modify fun s => { s with output := s.output.push b }

/-- Reads a word of a code.  `word`, `first` and `index` are the bits so far, the least word of the
length so far and the position of its symbol. -/
def symbolFrom (symbols : Array Nat) : List Nat → (word first index : Nat) → Inflater Nat
  | [], _, _, _ => failure
  | count :: counts, word, first, index => do
      let word := word + (← bit)
      if word < first + count then
        match symbols[index + (word - first)]? with
        | some symbol => return symbol
        | none => failure
      else symbolFrom symbols counts (word * 2) ((first + count) * 2) (index + count)

def symbol (code : PrefixCode) : Inflater Nat :=
  symbolFrom code.symbols code.counts 0 0 0

/-! ## Blocks -/

/-- The byte at a distance behind the end of the output.  Zeros stand in front of its beginning. -/
def byteAt (output : Array UInt8) (distance : Nat) : UInt8 :=
  if distance ≤ output.size then output.getD (output.size - distance) 0 else 0

/-- Copies bytes one after the other, so that a copy may overlap what it writes. -/
def copy (distance : Nat) : (length : Nat) → Inflater Unit
  | 0 => return ()
  | length + 1 => do
      emit (byteAt (← get).output distance)
      copy distance length

def copyStored : (count : Nat) → Inflater Unit
  | 0 => return ()
  | count + 1 => do
      emit (UInt8.ofNat (← byte))
      copyStored count

/-- A block that is stored as it is; its length is written twice, once inverted. -/
def storedBlock : Inflater Unit := do
  align
  let low ← byte
  let high ← byte
  let lowInverse ← byte
  let highInverse ← byte
  let length := low + 256 * high
  if length + (lowInverse + 256 * highInverse) = 0xFFFF then copyStored length
  else failure

/-- The least length of each length symbol, with the number of bits that add to it. -/
def lengthTable : List (Nat × Nat) :=
  [(3, 0), (4, 0), (5, 0), (6, 0), (7, 0), (8, 0), (9, 0), (10, 0), (11, 1), (13, 1), (15, 1),
    (17, 1), (19, 2), (23, 2), (27, 2), (31, 2), (35, 3), (43, 3), (51, 3), (59, 3), (67, 4),
    (83, 4), (99, 4), (115, 4), (131, 5), (163, 5), (195, 5), (227, 5), (258, 0)]

/-- The least distance of each distance symbol, with the number of bits that add to it. -/
def distanceTable : List (Nat × Nat) :=
  [(1, 0), (2, 0), (3, 0), (4, 0), (5, 1), (7, 1), (9, 2), (13, 2), (17, 3), (25, 3), (33, 4),
    (49, 4), (65, 5), (97, 5), (129, 6), (193, 6), (257, 7), (385, 7), (513, 8), (769, 8),
    (1025, 9), (1537, 9), (2049, 10), (3073, 10), (4097, 11), (6145, 11), (8193, 12), (12289, 12),
    (16385, 13), (24577, 13)]

def extended (table : List (Nat × Nat)) (index : Nat) : Inflater Nat :=
  match table[index]? with
  | some (least, count) => do return least + (← bits count)
  | none => failure

def codedSymbols (literals distances : PrefixCode) : (fuel : Nat) → Inflater Unit
  | 0 => failure
  | fuel + 1 => do
      let s ← symbol literals
      if s < 256 then
        emit (UInt8.ofNat s)
        codedSymbols literals distances fuel
      else if s = 256 then return ()
      else
        let length ← extended lengthTable (s - 257)
        let distance ← extended distanceTable (← symbol distances)
        copy distance length
        codedSymbols literals distances fuel

def codedBlock (fuel : Nat) (literalLengths distanceLengths : List Nat) : Inflater Unit :=
  match PrefixCode.ofLengths? literalLengths, PrefixCode.ofLengths? distanceLengths with
  | some literals, some distances => codedSymbols literals distances fuel
  | _, _ => failure

def fixedLiterals : List Nat :=
  List.replicate 144 8 ++ List.replicate 112 9 ++ List.replicate 24 7 ++ List.replicate 8 8

def fixedDistances : List Nat :=
  List.replicate 32 5

/-- In which order the lengths of the code of lengths are written. -/
def lengthOrder : List Nat :=
  [16, 17, 18, 0, 8, 7, 9, 6, 10, 5, 11, 4, 12, 3, 13, 2, 14, 1, 15]

/-- Lengths up to a number of them, the last one first; three symbols stand for repetitions. -/
def codeLengths (code : PrefixCode) (total : Nat) : (fuel : Nat) → List Nat → Inflater (List Nat)
  | 0, _ => failure
  | fuel + 1, lengths =>
      if lengths.length = total then return lengths.reverse
      else if total < lengths.length then failure
      else do
        let s ← symbol code
        if s < 16 then codeLengths code total fuel (s :: lengths)
        else if s = 16 then
          match lengths with
          | last :: _ =>
              let count := 3 + (← bits 2)
              codeLengths code total fuel (List.replicate count last ++ lengths)
          | [] => failure
        else
          let (least, width) := if s = 17 then (3, 3) else (11, 7)
          let count := least + (← bits width)
          codeLengths code total fuel (List.replicate count 0 ++ lengths)

def shortLengths : (count : Nat) → Inflater (List Nat)
  | 0 => return []
  | count + 1 => do
      let first ← bits 3
      return first :: (← shortLengths count)

def dynamicBlock (fuel : Nat) : Inflater Unit := do
  let literalCount := 257 + (← bits 5)
  let distanceCount := 1 + (← bits 5)
  let shortCount := 4 + (← bits 4)
  if 286 < literalCount ∨ 30 < distanceCount then failure
  else
    let short := lengthOrder.zip (← shortLengths shortCount)
    let lengths := (List.range 19).map fun s => (short.lookup s).getD 0
    match PrefixCode.ofLengths? lengths with
    | none => failure
    | some code =>
        let total := literalCount + distanceCount
        let lengths ← codeLengths code total (total + 1) []
        codedBlock fuel (lengths.take literalCount) (lengths.drop literalCount)

def blocks (symbolFuel : Nat) : (fuel : Nat) → Inflater Unit
  | 0 => failure
  | fuel + 1 => do
      let final ← bit
      let kind ← bits 2
      if kind = 0 then storedBlock
      else if kind = 1 then codedBlock symbolFuel fixedLiterals fixedDistances
      else if kind = 2 then dynamicBlock symbolFuel
      else failure
      if final = 1 then return () else blocks symbolFuel fuel

end Inflate

open Inflate in
/-- The bytes of a compressed text; none if it is corrupt or ends before its last block does.  Every
block and every symbol takes a bit at least, so their number bounds the steps. -/
def inflate (compressed : List UInt8) : Option (Array UInt8) :=
  let fuel := 8 * compressed.length + 1
  ((blocks fuel fuel).run ⟨0, 0, compressed, #[]⟩).map fun (_, s) => s.output

end NeoScript
