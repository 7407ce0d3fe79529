/-!
# Integer — the integers of the machine

The machine computes with integers of 256 bits in two's complement.  This file defines:

* `Integer.minimum`, `Integer.maximum`, `Integer.inRange` — the range;
* `Integer.wrap` — the integer of the range that is congruent modulo `2 ^ 256`;
* `Integer.land`, `Integer.lor`, `Integer.lxor` — bitwise operations on integers of any size, which
  behave as if the sign were repeated without end.
-/

namespace NeoScript
namespace Integer

/-- How many integers there are, `2 ^ 256`. -/
def modulus : Int := Nat.pow 2 256

def minimum : Int := -(Nat.pow 2 255 : Int)

def maximum : Int := (Nat.pow 2 255 : Int) - 1

def inRange (value : Int) : Bool :=
  decide (minimum ≤ value) && decide (value ≤ maximum)

/-- Reduces a value to 256 bits in two's complement.  The remainder has the sign of the value, so it
is brought above zero before it is compared. -/
def wrap (value : Int) : Int :=
  let remainder := value.tmod modulus
  let low := if remainder < 0 then remainder + modulus else remainder
  if low > maximum then low - modulus else low

/-! ## Bits -/

/-- The bits of `m` that `n` does not have. -/
def without (m n : Nat) : Nat :=
  m ^^^ (m &&& n)

def land : Int → Int → Int
  | .ofNat m, .ofNat n => Int.ofNat (m &&& n)
  | .ofNat m, .negSucc n => Int.ofNat (without m n)
  | .negSucc m, .ofNat n => Int.ofNat (without n m)
  | .negSucc m, .negSucc n => Int.negSucc (m ||| n)

def lor : Int → Int → Int
  | .ofNat m, .ofNat n => Int.ofNat (m ||| n)
  | .ofNat m, .negSucc n => Int.negSucc (without n m)
  | .negSucc m, .ofNat n => Int.negSucc (without m n)
  | .negSucc m, .negSucc n => Int.negSucc (m &&& n)

def lxor : Int → Int → Int
  | .ofNat m, .ofNat n => Int.ofNat (m ^^^ n)
  | .ofNat m, .negSucc n => Int.negSucc (m ^^^ n)
  | .negSucc m, .ofNat n => Int.negSucc (m ^^^ n)
  | .negSucc m, .negSucc n => Int.ofNat (m ^^^ n)

end Integer
end NeoScript
