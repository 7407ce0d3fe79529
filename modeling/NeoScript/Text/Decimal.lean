/-!
# Decimal — reading numbers out of text

Numbers inside address texts are read leniently: blanks around them do not count and a plus sign may
stand in front.  This file defines:

* `Text.isBlank`, `Text.trim` — blanks of the White_Space class, and text without them at its ends;
* `Text.digitsValue?` — the value of a non-empty run of digits;
* `Text.readWord?` — an unsigned number of sixty-four bits;
* `Text.readInteger?` — a signed number of any size;
* `Text.splitOnce` — the text before and after the first occurrence of a character.
-/

namespace NeoScript
namespace Text

/-! ## Blanks -/

/-- The characters of the White_Space class. -/
def isBlank (c : Char) : Bool :=
  let n := c.toNat
  (9 ≤ n && n ≤ 13) || n == 0x20 || n == 0x85 || n == 0xA0 || n == 0x1680 ||
    (0x2000 ≤ n && n ≤ 0x200A) || n == 0x2028 || n == 0x2029 || n == 0x202F || n == 0x205F ||
    n == 0x3000

def trimRight (cs : List Char) : List Char :=
  (cs.reverse.dropWhile isBlank).reverse

def trim (cs : List Char) : List Char :=
  trimRight (cs.dropWhile isBlank)

/-! ## Numbers -/

def digitValue? (c : Char) : Option Nat :=
  if '0' ≤ c ∧ c ≤ '9' then some (c.toNat - 48) else none

/-- The value of a run of digits behind a value already read. -/
def digitsFrom? : List Char → Nat → Option Nat
  | [], value => some value
  | c :: rest, value =>
      match digitValue? c with
      | some d => digitsFrom? rest (10 * value + d)
      | none => none

def digitsValue? : List Char → Option Nat
  | [] => none
  | cs => digitsFrom? cs 0

/-- An unsigned number below `2 ^ 64`, possibly behind a plus sign. -/
def readWord? (cs : List Char) : Option Nat :=
  let digits := match cs with
    | '+' :: rest => rest
    | _ => cs
  match digitsValue? digits with
  | some n => if n < 0x10000000000000000 then some n else none
  | none => none

/-- A signed number, possibly behind a sign. -/
def readInteger? : List Char → Option Int
  | '-' :: rest => (digitsValue? rest).map fun n => -(n : Int)
  | '+' :: rest => (digitsValue? rest).map fun n => (n : Int)
  | cs => (digitsValue? cs).map fun n => (n : Int)

/-- A number written with at least `width` digits. -/
def padded (width n : Nat) : String :=
  let digits := Nat.toDigits 10 n
  String.ofList (List.replicate (width - digits.length) '0' ++ digits)

/-! ## Cutting -/

/-- The text before and after the first occurrence of a character. -/
def splitOnce (c : Char) (cs : List Char) : Option (List Char × List Char) :=
  match cs.dropWhile (· != c) with
  | [] => none
  | _ :: after => some (cs.takeWhile (· != c), after)

/-- Text filled with blanks on the right up to `width` characters. -/
def padRight (width : Nat) (s : String) : String :=
  s ++ String.ofList (List.replicate (width - s.length) ' ')

end Text
end NeoScript
