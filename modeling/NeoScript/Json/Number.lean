import NeoScript.Error
import NeoScript.Json.Basic

/-!
# Number — reading JSON numbers

A number without fraction and exponent stays an integer when it fits sixty-four bits.  Every other
number is a double: the digits that fit a word of sixty-four bits, converted, then multiplied or
divided by a power of ten.  Digits beyond the word only move the exponent.

* `Json.readNumber` — reads a number whose sign was already read;
* `Json.skipNumber` — checks the form of a number without reading its value.
-/

namespace NeoScript
namespace Json

open Text (digitValue?)

private def isDigit (c : Char) : Bool :=
  (digitValue? c).isSome

/-- Reads digits as long as the value fits sixty-four bits: the value, how many digits were read,
and the rest. -/
def significant : List Char → (value count : Nat) → Nat × Nat × List Char
  | [], value, count => (value, count, [])
  | c :: rest, value, count =>
      match digitValue? c with
      | some d =>
          if 10 * value + d < 0x10000000000000000 then significant rest (10 * value + d) (count + 1)
          else (value, count, c :: rest)
      | none => (value, count, c :: rest)

/-- How many digits stand in front, and what follows them. -/
def skipDigits (cs : List Char) : Nat × List Char :=
  ((cs.takeWhile isDigit).length, cs.dropWhile isDigit)

/-! ## Doubles -/

/-- `10 ^ n` as a double, for `n` up to 308. -/
def powerOfTen (n : Nat) : Float :=
  Float.ofScientific 1 false n

/-- Divides by `10 ^ n`, in steps of `10 ^ 308`, until the exponent is used up or nothing is
left. -/
def divideByPower : (fuel : Nat) → Float → Nat → Float
  | 0, f, _ => f
  | fuel + 1, f, n =>
      if n ≤ 308 then f / powerOfTen n
      else if f == 0.0 then f
      else divideByPower fuel (f / powerOfTen 308) (n - 308)

/-- The double of a sign, a significand below `2 ^ 64` and a power of ten; one that is too large is
malformed. -/
def toDouble (positive : Bool) (significand : Nat) (exponent : Int) : Except JsonFault Float :=
  let f := (UInt64.ofNat significand).toFloat
  let signed (x : Float) : Float := if positive then x else -x
  if exponent < 0 then .ok (signed (divideByPower 8 f exponent.natAbs))
  else if exponent ≤ 308 then
    let g := f * powerOfTen exponent.toNat
    if g.isInf then .error .malformed else .ok (signed g)
  else if significand = 0 then .ok (signed f)
  else .error .malformed

/-- The value of exponent digits, as long as it stays below `2 ^ 31`. -/
def exponentValue : List Char → Nat → Option Nat × List Char
  | [], value => (some value, [])
  | c :: rest, value =>
      match digitValue? c with
      | some d =>
          if 10 * value + d < 0x80000000 then exponentValue rest (10 * value + d)
          else (none, rest)
      | none => (some value, c :: rest)

/-- Reads the digits of an exponent, of which there must be one, and gives the double. -/
def readExponentDigits (positive : Bool) (significand : Nat) (start : Int) (up : Bool)
    (cs : List Char) : Except JsonFault (Float × List Char) :=
  match cs with
  | [] => .error .unfinished
  | c :: _ =>
      if isDigit c then
        match exponentValue cs 0 with
        | (some e, rest) =>
            (toDouble positive significand (if up then start + e else start - e)).map (·, rest)
        | (none, rest) =>
            -- the exponent leaves thirty-two bits: too large, or nothing is left
            if significand ≠ 0 ∧ up then .error .malformed
            else .ok (if positive then 0.0 else -0.0, (skipDigits rest).2)
      else .error .malformed

/-- Reads the exponent behind its mark, and gives the double. -/
def readExponent (positive : Bool) (significand : Nat) (start : Int) (cs : List Char) :
    Except JsonFault (Float × List Char) :=
  match cs with
  | '+' :: rest => readExponentDigits positive significand start true rest
  | '-' :: rest => readExponentDigits positive significand start false rest
  | _ => readExponentDigits positive significand start true cs

/-- Reads an exponent, if one follows, and gives the double. -/
def finishDouble (positive : Bool) (significand : Nat) (exponent : Int) (cs : List Char) :
    Except JsonFault (Float × List Char) :=
  match cs with
  | 'e' :: rest => readExponent positive significand exponent rest
  | 'E' :: rest => readExponent positive significand exponent rest
  | _ => (toDouble positive significand exponent).map (·, cs)

/-- Reads the digits behind the point, of which there must be one, and gives the double. -/
def readFraction (positive : Bool) (significand : Nat) (exponent : Int) (cs : List Char) :
    Except JsonFault (Float × List Char) :=
  let (value, count, rest) := significant cs significand 0
  let (dropped, after) := skipDigits rest
  if dropped > 0 then finishDouble positive value (exponent - count) after
  else if count = 0 then
    if rest.isEmpty then .error .unfinished else .error .malformed
  else finishDouble positive value (exponent - count) rest

/-! ## Numbers -/

/-- What follows the integral digits: nothing, a fraction or an exponent. -/
def finishNumber (positive : Bool) (significand : Nat) (cs : List Char) :
    Except JsonFault (JsonNumber × List Char) :=
  let double (r : Except JsonFault (Float × List Char)) :
      Except JsonFault (JsonNumber × List Char) :=
    r.map fun (f, rest) => (.double f, rest)
  match cs with
  | '.' :: rest => double (readFraction positive significand 0 rest)
  | 'e' :: rest => double (readExponent positive significand 0 rest)
  | 'E' :: rest => double (readExponent positive significand 0 rest)
  | _ =>
      if positive then .ok (.int significand, cs)
      else if 0 < significand ∧ significand ≤ 0x8000000000000000 then
        .ok (.int (-(significand : Int)), cs)
      else .ok (.double (-(UInt64.ofNat significand).toFloat), cs)

def readNumber (positive : Bool) (cs : List Char) : Except JsonFault (JsonNumber × List Char) :=
  match cs with
  | [] => .error .unfinished
  | '0' :: rest =>
      match rest with
      | c :: _ => if isDigit c then .error .malformed else finishNumber positive 0 rest
      | [] => finishNumber positive 0 rest
  | c :: _ =>
      if isDigit c then
        let (value, _, rest) := significant cs 0 0
        let (dropped, after) := skipDigits rest
        if dropped = 0 then finishNumber positive value rest
        else
          -- more digits than a word holds: the rest only scales
          let result := match after with
            | '.' :: fraction => readFraction positive value dropped fraction
            | _ => finishDouble positive value dropped after
          result.map fun (f, rest) => (.double f, rest)
      else .error .malformed

def skipExponent (cs : List Char) : Except JsonFault (List Char) :=
  let cs := match cs with
    | '+' :: rest => rest
    | '-' :: rest => rest
    | _ => cs
  let (count, rest) := skipDigits cs
  if count = 0 then .error .malformed else .ok rest

def skipTail (cs : List Char) : Except JsonFault (List Char) :=
  match cs with
  | '.' :: rest =>
      let (count, rest) := skipDigits rest
      if count = 0 then .error .malformed
      else match rest with
        | 'e' :: rest => skipExponent rest
        | 'E' :: rest => skipExponent rest
        | _ => .ok rest
  | 'e' :: rest => skipExponent rest
  | 'E' :: rest => skipExponent rest
  | _ => .ok cs

def skipNumber (cs : List Char) : Except JsonFault (List Char) :=
  match cs with
  | '0' :: rest =>
      match rest with
      | c :: _ => if isDigit c then .error .malformed else skipTail rest
      | [] => .ok []
  | _ =>
      let (count, rest) := skipDigits cs
      if count = 0 then .error .malformed else skipTail rest

end Json
end NeoScript
