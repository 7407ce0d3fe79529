/-!
# Bytes — numbers and hexadecimal text as byte lists

Numbers are stored least significant byte first; signed numbers in two's complement.  This file
defines:

* `Bytes.toNat`, `Bytes.ofNat` — unsigned numbers, and `Bytes.toInt`, `Bytes.ofInt` — signed ones;
* `Bytes.signedWidth`, `Bytes.ofSigned` — a signed number in the fewest bytes that hold it;
* `Bytes.resize` — bytes in a given width;
* `Bytes.toHex`, `Bytes.ofHex?` — lower-case hexadecimal text.

A width and a number below its range give back the number that was written.
-/

namespace NeoScript
namespace Bytes

/-! ## Unsigned numbers -/

def toNat : List UInt8 → Nat
  | [] => 0
  | byte :: rest => byte.toNat + 256 * toNat rest

def ofNat : (width : Nat) → Nat → List UInt8
  | 0, _ => []
  | width + 1, n => UInt8.ofNat n :: ofNat width (n / 256)

@[simp] theorem length_ofNat (width n : Nat) : (ofNat width n).length = width := by
  induction width generalizing n with
  | zero => rfl
  | succ width ih => simp [ofNat, ih]

/-- Written bytes read back as the number, reduced to the width that holds them. -/
theorem toNat_ofNat (width n : Nat) : toNat (ofNat width n) = n % Nat.pow 256 width := by
  induction width generalizing n with
  | zero => simp [ofNat, toNat, Nat.mod_one]
  | succ width ih =>
      have hbyte : (UInt8.ofNat n).toNat = n % 256 := by simp
      have hpow : Nat.pow 256 (width + 1) = 256 * Nat.pow 256 width := Nat.mul_comm ..
      rw [ofNat, toNat, ih, hbyte, hpow, Nat.mod_mul]

/-- The number that bytes spell stays below the range of their count. -/
theorem toNat_lt (bytes : List UInt8) : toNat bytes < Nat.pow 256 bytes.length := by
  induction bytes with
  | nil => simp [toNat]
  | cons byte rest ih =>
      have hbyte := byte.toNat_lt
      have hpow : Nat.pow 256 (rest.length + 1) = Nat.pow 256 rest.length * 256 := rfl
      simp only [toNat, List.length_cons, hpow]
      omega

/-! ## Signed numbers -/

/-- The signed number that the bytes spell; no bytes spell zero. -/
def toInt (bytes : List UInt8) : Int :=
  let n := toNat bytes
  let range := Nat.pow 256 bytes.length
  if 2 * n < range then (n : Int) else (n : Int) - (range : Int)

def ofInt (width : Nat) (value : Int) : List UInt8 :=
  ofNat width (value % (Nat.pow 256 width : Int)).toNat

def fitsSigned (width : Nat) (value : Int) : Bool :=
  let half : Int := Nat.pow 2 (8 * width - 1)
  decide (-half ≤ value) && decide (value < half)

/-- The fewest bytes, at least `width`, that hold a signed number of magnitude below `2 ^ fuel`. -/
def signedWidthFrom : (fuel width : Nat) → Int → Nat
  | 0, width, _ => width
  | fuel + 1, width, value =>
      if fitsSigned width value then width else signedWidthFrom fuel (width + 1) value

/-- The fewest bytes, one at least, that hold a signed number. -/
def signedWidth (value : Int) : Nat :=
  signedWidthFrom (value.natAbs.log2 / 8 + 1) 1 value

def ofSigned (value : Int) : List UInt8 :=
  ofInt (signedWidth value) value

/-- Bytes cut down to a width, or filled up to it behind the last one. -/
def resize (width : Nat) (fill : UInt8) (bytes : List UInt8) : List UInt8 :=
  bytes.take width ++ List.replicate (width - bytes.length) fill

/-! ## Hexadecimal text -/

def hexDigit (n : Nat) : Char :=
  if n < 10 then Char.ofNat (48 + n) else Char.ofNat (87 + n)

def hexValue? (c : Char) : Option Nat :=
  if '0' ≤ c ∧ c ≤ '9' then some (c.toNat - 48)
  else if 'a' ≤ c ∧ c ≤ 'f' then some (c.toNat - 87)
  else if 'A' ≤ c ∧ c ≤ 'F' then some (c.toNat - 55)
  else none

def toHex (bytes : List UInt8) : String :=
  String.ofList (bytes.flatMap fun b => [hexDigit (b.toNat / 16), hexDigit (b.toNat % 16)])

/-- Two upper-case digits for each byte, divided by dashes. -/
def toDashedHex (bytes : List UInt8) : String :=
  "-".intercalate (bytes.map fun b => (toHex [b]).map Char.toUpper)

private def pairs : Option (Option Nat × List UInt8) → Char → Option (Option Nat × List UInt8)
  | none, _ => none
  | some (none, out), c => (hexValue? c).map fun hi => (some hi, out)
  | some (some hi, out), c =>
      (hexValue? c).map fun lo => (none, UInt8.ofNat (16 * hi + lo) :: out)

/-- The bytes that hexadecimal text spells; an odd count of digits spells none. -/
def ofHex? (text : String) : Option (List UInt8) :=
  match text.foldl pairs (some (none, [])) with
  | some (none, out) => some out.reverse
  | _ => none

/-- The lower-case hexadecimal digits of a number, padded with zeros to `width` digits. -/
def paddedHex (width n : Nat) : String :=
  let digits := Nat.toDigits 16 n
  String.ofList (List.replicate (width - digits.length) '0' ++ digits)

end Bytes
end NeoScript
