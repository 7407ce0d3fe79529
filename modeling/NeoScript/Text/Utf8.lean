/-!
# Utf8 — texts as bytes

* `encode` — the bytes of a text;
* `decode?` — the text of bytes, if they are well formed;
* `decodeLossy` — the text of any bytes: every maximal part that begins a character and is not
  continued becomes one replacement character.
-/

namespace NeoScript
namespace Utf8

/-! ## Encoding -/

def encodeChar (c : Char) : List UInt8 :=
  let n := c.toNat
  let tail (k : Nat) : UInt8 := UInt8.ofNat (0x80 + k % 64)
  if n < 0x80 then [UInt8.ofNat n]
  else if n < 0x800 then [UInt8.ofNat (0xC0 + n / 64), tail n]
  else if n < 0x10000 then [UInt8.ofNat (0xE0 + n / 4096), tail (n / 64), tail n]
  else [UInt8.ofNat (0xF0 + n / 262144), tail (n / 4096), tail (n / 64), tail n]

def encode (s : String) : List UInt8 :=
  s.toList.flatMap encodeChar

def length (s : String) : Nat :=
  (encode s).length

/-! ## Decoding -/

/-- What a leading byte promises: the number of bytes that follow, the bounds of the first of them,
and the bits that the leading byte gives. -/
structure Lead where
  count : Nat
  low : Nat
  high : Nat
  bits : Nat
  deriving DecidableEq, Repr

/-- The promise of a byte that begins a character.  The bounds leave out overlong forms, surrogates
and numbers beyond the last character. -/
def lead? (b : Nat) : Option Lead :=
  if b < 0x80 then some ⟨0, 0x80, 0xBF, b⟩
  else if b < 0xC2 then none
  else if b < 0xE0 then some ⟨1, 0x80, 0xBF, b - 0xC0⟩
  else if b < 0xF0 then
    some ⟨2, if b = 0xE0 then 0xA0 else 0x80, if b = 0xED then 0x9F else 0xBF, b - 0xE0⟩
  else if b < 0xF5 then
    some ⟨3, if b = 0xF0 then 0x90 else 0x80, if b = 0xF4 then 0x8F else 0xBF, b - 0xF0⟩
  else none

/-- Reads the bytes that a leading byte promises; none if one is missing or out of bounds.  The rest
begins behind the last byte that fitted. -/
def readTail (low high : Nat) : (count bits : Nat) → List UInt8 → Option Nat × List UInt8
  | 0, bits, rest => (some bits, rest)
  | _ + 1, _, [] => (none, [])
  | count + 1, bits, b :: rest =>
      if low ≤ b.toNat ∧ b.toNat ≤ high then
        readTail 0x80 0xBF count (bits * 64 + (b.toNat - 0x80)) rest
      else (none, b :: rest)

/-- Reads one character, or skips a part that is none. -/
def readChar (b : UInt8) (rest : List UInt8) : Option Char × List UInt8 :=
  match lead? b.toNat with
  | none => (none, rest)
  | some lead =>
      let (value, rest) := readTail lead.low lead.high lead.count lead.bits rest
      (value.map Char.ofNat, rest)

/-- Reads all characters; none stands for a part that is no character. -/
def readAll : (fuel : Nat) → List UInt8 → List (Option Char) → List (Option Char)
  | fuel + 1, b :: rest, out =>
      let (c, rest) := readChar b rest
      readAll fuel rest (c :: out)
  | _, _, out => out.reverse

def chars (bytes : List UInt8) : List (Option Char) :=
  readAll bytes.length bytes []

def decode? (bytes : List UInt8) : Option String :=
  ((chars bytes).mapM id).map String.ofList

def replacement : Char := '�'

def decodeLossy (bytes : List UInt8) : String :=
  String.ofList ((chars bytes).map (·.getD replacement))

end Utf8
end NeoScript
