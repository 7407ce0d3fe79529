/-!
# Shortest — the fewest decimal digits that read back, and fixed places

A finite double is `m * 2 ^ q`.  The decimals that round to it form an interval around it, whose
ends belong to it when `m` is even.  The shortest digits are found by trying one digit, two digits,
and so on: on each decimal grid only the two neighbours of the value matter, and the nearer one that
lies in the interval wins.  If both are equally near, the even one wins.

* `Binary.ofFloat` — sign, `m` and `q` of a finite double;
* `Binary.shortest` — the digits `d` and the exponent `e` of `d * 10 ^ e`;
* `Binary.fixed` — text with a fixed number of places, a half going to the even neighbour.
-/

namespace NeoScript

/-- A finite double, as sign, integral significand and power of two. -/
structure Binary where
  negative : Bool
  significand : Nat
  exponent : Int
  deriving DecidableEq, Repr

/-- A decimal number `digits * 10 ^ exponent`. -/
structure DecimalParts where
  digits : Nat
  exponent : Int
  deriving DecidableEq, Repr

namespace Binary

def ofFloat (x : Float) : Binary :=
  let bits : Nat := x.toBits.toNat
  let fraction : Nat := bits % Nat.pow 2 52
  let biased : Nat := bits / Nat.pow 2 52 % Nat.pow 2 11
  if biased = 0 then ⟨bits / Nat.pow 2 63 = 1, fraction, -1074⟩
  else ⟨bits / Nat.pow 2 63 = 1, Nat.pow 2 52 + fraction, (biased : Int) - 1075⟩

/-- Three numbers in units of `2 ^ (exponent - 2)`: the value and the ends of its interval.  Below a
power of two the next double is half as far away. -/
def interval (b : Binary) : Nat × Nat × Nat :=
  let m := b.significand
  let low := if m = Nat.pow 2 52 ∧ b.exponent ≠ -1074 then 4 * m - 1 else 4 * m - 2
  (low, 4 * m, 4 * m + 2)

/-- Compares `n * 10 ^ k` with `u * 2 ^ p`. -/
def compareScaled (n : Nat) (k : Int) (u : Nat) (p : Int) : Ordering :=
  compare (n * Nat.pow 10 k.toNat * Nat.pow 2 (-p).toNat)
    (u * Nat.pow 2 p.toNat * Nat.pow 10 (-k).toNat)

/-- The integral part of `u * 2 ^ p / 10 ^ k`. -/
def floorScaled (u : Nat) (p k : Int) : Nat :=
  (u * Nat.pow 2 p.toNat * Nat.pow 10 (-k).toNat) / (Nat.pow 2 (-p).toNat * Nat.pow 10 k.toNat)

/-- The least `k` with `u * 2 ^ p < 10 ^ k`, searched upwards from `k`. -/
def decimalMagnitude : (fuel : Nat) → Nat → Int → Int → Int
  | 0, _, _, k => k
  | fuel + 1, u, p, k =>
      if compareScaled 1 k u p = .gt then k else decimalMagnitude fuel u p (k + 1)

/-- Whether `n * 10 ^ k` lies in the interval of a double. -/
def contains (b : Binary) (n : Nat) (k : Int) : Bool :=
  let (low, _, high) := b.interval
  let p := b.exponent - 2
  let even := b.significand % 2 = 0
  let aboveLow := match compareScaled n k low p with
    | .gt => true
    | .eq => even
    | .lt => false
  let belowHigh := match compareScaled n k high p with
    | .lt => true
    | .eq => even
    | .gt => false
  aboveLow && belowHigh

/-- The grid point nearest to the value among those of grid `10 ^ k` that lie in its interval; of
two that are equally near, the even one. -/
def nearest? (b : Binary) (k : Int) : Option Nat :=
  let p := b.exponent - 2
  let u := 4 * b.significand
  let n := floorScaled u p k
  match b.contains n k, b.contains (n + 1) k with
  | true, true =>
      -- twice the value against the sum of both neighbours
      match compareScaled (2 * n + 1) k (2 * u) p with
      | .lt => some (n + 1)
      | .gt => some n
      | .eq => if n % 2 = 0 then some n else some (n + 1)
  | true, false => some n
  | false, true => some (n + 1)
  | false, false => none

def dropZeros : (fuel : Nat) → DecimalParts → DecimalParts
  | 0, d => d
  | fuel + 1, d =>
      if d.digits ≠ 0 ∧ d.digits % 10 = 0 then dropZeros fuel ⟨d.digits / 10, d.exponent + 1⟩ else d

/-- Tries grids with more and more digits; `magnitude` is the exponent of the leading digit plus
one. -/
def searchDigits (b : Binary) (magnitude : Int) : (fuel count : Nat) → DecimalParts
  | 0, count => ⟨floorScaled (4 * b.significand) (b.exponent - 2) (magnitude - count),
      magnitude - count⟩
  | fuel + 1, count =>
      match b.nearest? (magnitude - count) with
      | some n => ⟨n, magnitude - count⟩
      | none => searchDigits b magnitude fuel (count + 1)

/-- The shortest decimal that reads back as the double; of the shortest, the nearest; of two
nearest, the one with an even last digit. -/
def shortest (b : Binary) : DecimalParts :=
  if b.significand = 0 then ⟨0, 0⟩
  else
    let magnitude := decimalMagnitude 700 (4 * b.significand) (b.exponent - 2) (-340)
    dropZeros 20 (searchDigits b magnitude 17 1)

/-! ## Fixed places -/

/-- The quotient rounded to the nearest integer, a half to the even one. -/
def roundHalfEven (num den : Nat) : Nat :=
  let q := num / den
  let r := num % den
  if 2 * r > den ∨ (2 * r = den ∧ q % 2 = 1) then q + 1 else q

/-- The value in units of `10 ^ (-places)`, rounded. -/
def scaled (b : Binary) (places : Nat) : Nat :=
  roundHalfEven (b.significand * Nat.pow 2 b.exponent.toNat * Nat.pow 10 places)
    (Nat.pow 2 (-b.exponent).toNat)

/-- The magnitude of a double with a fixed number of places, at least one. -/
def fixed (b : Binary) (places : Nat) : String :=
  let n := b.scaled places
  let fraction := Nat.toDigits 10 (n % Nat.pow 10 places)
  toString (n / Nat.pow 10 places) ++ "." ++
    String.ofList (List.replicate (places - fraction.length) '0' ++ fraction)

/-- As `fixed`, behind a sign that is always written. -/
def signedFixed (b : Binary) (places : Nat) : String :=
  (if b.negative then "-" else "+") ++ b.fixed places

end Binary

end NeoScript
