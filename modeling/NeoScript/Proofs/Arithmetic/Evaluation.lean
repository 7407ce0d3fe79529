import Mathlib.Data.Int.Bitwise
import Mathlib.Data.Int.ModEq
import NeoScript.Proofs.Machine.Effects

/-!
# Evaluation — constants are evaluated as the machine computes

The value of an operation is told here without computing it: by an equation, by bounds, or bit by
bit. Evaluation ahead of time and the machine are both measured against it.

* `ExactResult` — the value of an operation on integers of any size;
* `Arith.Refuses` — the right operands for which there is none;
* `exactResult?_eq_some_iff`, `exactResult?_eq_none_iff` — `exactResult?` finds exactly these
  values;
* `Integer.inRange_wrap`, `Integer.wrap_modEq` — what is left of a value in 256 bits;
* `Machine.settle_eq_ok_iff` — the machine goes on exactly with an exact result in range;
* `evaluate_computes` — evaluation and machine agree.
-/

namespace NeoScript

/-! ## Exact results -/

/-- Quotient and rest of a division toward zero: the rest has the sign of the dividend. -/
structure DividesToward (a b quotient rest : Int) : Prop where
  sum : rest + b * quotient = a
  small : rest.natAbs < b.natAbs
  nonneg : 0 ≤ a → 0 ≤ rest
  nonpos : a ≤ 0 → rest ≤ 0

/-- The value of an operation on integers of any size.  Bitwise operations see the sign repeated
without end. -/
def ExactResult : Arith → (a b value : Int) → Prop
  | .add, a, b, value => value = a + b
  | .sub, a, b, value => value + b = a
  | .mul, a, b, value => value = a * b
  | .div, a, b, value => ∃ rest, DividesToward a b value rest
  | .mod, a, b, value => ∃ quotient, DividesToward a b quotient value
  | .shl, a, b, value => ∃ n : Nat, n ≤ 256 ∧ b = n ∧ value = a * 2 ^ n
  | .shr, a, b, value => ∃ n : Nat, n ≤ 256 ∧ b = n ∧ value * 2 ^ n ≤ a ∧ a < (value + 1) * 2 ^ n
  | .and, a, b, value => ∀ i, value.testBit i = (a.testBit i && b.testBit i)
  | .or, a, b, value => ∀ i, value.testBit i = (a.testBit i || b.testBit i)
  | .xor, a, b, value => ∀ i, value.testBit i = (a.testBit i ^^ b.testBit i)

/-- A divisor of zero and a shift count beyond 256 bits have no result. -/
def Arith.Refuses : Arith → (b : Int) → Prop
  | .div, b | .mod, b => b = 0
  | .shl, b | .shr, b => ¬ (0 ≤ b ∧ b ≤ 256)
  | _, _ => False

/-! ### Division -/

namespace DividesToward

variable {a b quotient rest : Int}

/-- The rest is smaller than the divisor, so nothing is divided by zero. -/
theorem ne_zero (h : DividesToward a b quotient rest) : b ≠ 0 := by
  intro hzero
  have hsmall := h.small
  rw [hzero] at hsmall
  exact Nat.not_lt_zero _ hsmall

/-- Truncated division divides toward zero. -/
theorem tdiv_tmod (a : Int) (hb : b ≠ 0) : DividesToward a b (a.tdiv b) (a.tmod b) where
  sum := Int.tmod_add_mul_tdiv a b
  small := by
    rw [Int.natAbs_tmod]
    exact Nat.mod_lt _ (Int.natAbs_pos.2 hb)
  nonneg := Int.tmod_nonneg b
  nonpos := by
    intro ha
    exact ((Int.tdiv_tmod_unique' ha hb).1 ⟨rfl, rfl⟩).2.2

/-- There is one quotient and one rest only. -/
theorem unique (h : DividesToward a b quotient rest) : a.tdiv b = quotient ∧ a.tmod b = rest := by
  have hsmall := h.small
  rcases Int.le_total 0 a with ha | ha
  · have hrest := h.nonneg ha
    exact (Int.tdiv_tmod_unique ha h.ne_zero).2 ⟨h.sum, hrest, by omega⟩
  · have hrest := h.nonpos ha
    exact (Int.tdiv_tmod_unique' ha h.ne_zero).2 ⟨h.sum, by omega, hrest⟩

end DividesToward

/-! ### Bits -/

namespace Integer

theorem testBit_without (m n i : Nat) :
    (without m n).testBit i = (m.testBit i && !n.testBit i) := by
  rw [without, Nat.testBit_xor, Nat.testBit_and]
  cases m.testBit i <;> cases n.testBit i <;> rfl

/-- Conjunction works bit by bit, also on negative numbers. -/
theorem testBit_land (a b : Int) (i : Nat) :
    (land a b).testBit i = (a.testBit i && b.testBit i) := by
  cases a <;> cases b <;> simp [land, Int.testBit, testBit_without, Bool.and_comm]

/-- Disjunction works bit by bit, also on negative numbers. -/
theorem testBit_lor (a b : Int) (i : Nat) :
    (lor a b).testBit i = (a.testBit i || b.testBit i) := by
  cases a <;> cases b <;> simp [lor, Int.testBit, testBit_without, Bool.or_comm]

/-- Exclusive disjunction works bit by bit, also on negative numbers. -/
theorem testBit_lxor (a b : Int) (i : Nat) :
    (lxor a b).testBit i = (a.testBit i ^^ b.testBit i) := by
  cases a <;> cases b <;> simp [lxor, Int.testBit]

/-- Far behind all their bits, a number without sign has zeros and a negative one has ones. -/
theorem exists_testBit_ne (m n : Nat) :
    ∃ i, (Int.ofNat m).testBit i ≠ (Int.negSucc n).testBit i := by
  have hm : m < 2 ^ (m + n) := lt_of_le_of_lt (Nat.le_add_right m n) Nat.lt_two_pow_self
  have hn : n < 2 ^ (m + n) := lt_of_le_of_lt (Nat.le_add_left n m) Nat.lt_two_pow_self
  refine ⟨m + n, ?_⟩
  simp [Int.testBit, Nat.testBit_lt_two_pow hm, Nat.testBit_lt_two_pow hn]

/-- An integer is known by its bits. -/
theorem testBit_ext {a b : Int} (h : ∀ i, a.testBit i = b.testBit i) : a = b := by
  cases a with
  | ofNat m =>
      cases b with
      | ofNat n => exact congrArg Int.ofNat (Nat.eq_of_testBit_eq h)
      | negSucc n =>
          obtain ⟨i, hi⟩ := exists_testBit_ne m n
          exact absurd (h i) hi
  | negSucc m =>
      cases b with
      | ofNat n =>
          obtain ⟨i, hi⟩ := exists_testBit_ne n m
          exact absurd (h i).symm hi
      | negSucc n =>
          have hbits : ∀ i, m.testBit i = n.testBit i := fun i => Bool.not_inj (h i)
          exact congrArg Int.negSucc (Nat.eq_of_testBit_eq hbits)

/-- The bits of an integer determine it. -/
theorem eq_iff_testBit {a b : Int} : a = b ↔ ∀ i, b.testBit i = a.testBit i :=
  ⟨fun h _ => h ▸ rfl, fun h => (testBit_ext h).symm⟩

end Integer

/-! ### Finding the result -/

/-- Shifts go by 0 up to 256 places. -/
theorem shiftCount?_eq_some_iff {b : Int} {n : Nat} : shiftCount? b = some n ↔ n ≤ 256 ∧ b = n := by
  unfold shiftCount? maxShiftCount
  split
  · rw [Option.some.injEq]
    omega
  · simp only [reduceCtorEq, false_iff]
    omega

theorem shiftCount?_eq_none_iff {b : Int} : shiftCount? b = none ↔ ¬ (0 ≤ b ∧ b ≤ 256) := by
  unfold shiftCount? maxShiftCount
  split
  · rename_i hcount
    exact iff_of_false (Option.some_ne_none _) (not_not_intro hcount)
  · rename_i hcount
    exact iff_of_true rfl hcount

/-- The computed result is the one that the equations and bounds describe. -/
theorem exactResult?_eq_some_iff {operation : Arith} {a b value : Int} :
    exactResult? operation a b = some value ↔ ExactResult operation a b value := by
  cases operation with
  | add | mul => simp only [exactResult?, ExactResult, Option.some.injEq, eq_comm]
  | sub =>
      simp only [exactResult?, ExactResult, Option.some.injEq]
      omega
  | div =>
      simp only [exactResult?, ExactResult, Option.ite_none_left_eq_some, Option.some.injEq]
      constructor
      · rintro ⟨hb, rfl⟩
        exact ⟨_, .tdiv_tmod a hb⟩
      · rintro ⟨rest, h⟩
        exact ⟨h.ne_zero, h.unique.1⟩
  | mod =>
      simp only [exactResult?, ExactResult, Option.ite_none_left_eq_some, Option.some.injEq]
      constructor
      · rintro ⟨hb, rfl⟩
        exact ⟨_, .tdiv_tmod a hb⟩
      · rintro ⟨quotient, h⟩
        exact ⟨h.ne_zero, h.unique.2⟩
  | shl =>
      simp only [exactResult?, ExactResult, Option.map_eq_some_iff,
        shiftCount?_eq_some_iff, and_assoc]
      refine exists_congr fun n => and_congr_right fun _ => and_congr_right fun _ => ?_
      rw [show a.shiftLeft n = a * 2 ^ n from Int.shiftLeft_eq a n, eq_comm]
  | shr =>
      simp only [exactResult?, ExactResult, Option.map_eq_some_iff,
        shiftCount?_eq_some_iff, and_assoc]
      refine exists_congr fun n => and_congr_right fun _ => and_congr_right fun _ => ?_
      -- A shift to the right is a division that goes down.
      have hpos : (0 : Int) < 2 ^ n := Int.pow_pos (by decide)
      have hshift : a.shiftRight n = a / 2 ^ n := by
        have h := Int.shiftRight_eq_div_pow a n
        rwa [Int.natCast_pow] at h
      rw [hshift, Int.ediv_eq_iff_of_pos hpos, Int.add_mul, Int.one_mul]
  | and => simp only [exactResult?, ExactResult, Option.some.injEq, ← Integer.testBit_land,
      Integer.eq_iff_testBit]
  | or => simp only [exactResult?, ExactResult, Option.some.injEq, ← Integer.testBit_lor,
      Integer.eq_iff_testBit]
  | xor => simp only [exactResult?, ExactResult, Option.some.injEq, ← Integer.testBit_lxor,
      Integer.eq_iff_testBit]

/-- There is no result exactly where the operation refuses its second operand. -/
theorem exactResult?_eq_none_iff {operation : Arith} {a b : Int} :
    exactResult? operation a b = none ↔ operation.Refuses b := by
  cases operation with
  | shl | shr =>
      simp only [exactResult?, Arith.Refuses, Option.map_eq_none_iff, shiftCount?_eq_none_iff]
  | _ => simp [exactResult?, Arith.Refuses]

/-! ## 256 bits -/

namespace Integer

theorem modulus_eq : modulus = 2 ^ 256 := by
  decide +kernel

/-- The range of the machine is that of 256 bits with sign. -/
theorem inRange_iff {value : Int} : inRange value = true ↔ -2 ^ 255 ≤ value ∧ value < 2 ^ 255 := by
  have hpow : ((Nat.pow 2 255 : Nat) : Int) = 2 ^ 255 := by decide +kernel
  rw [inRange_eq_fitsSigned, Bytes.fitsSigned_iff, hpow]

/-- The remainder toward zero, brought above zero, is the remainder toward negative infinity. -/
theorem wrap_eq (value : Int) :
    wrap value =
      if value % modulus > maximum then value % modulus - modulus else value % modulus := by
  have hpos : 0 < modulus := by decide +kernel
  have hnonneg : 0 ≤ value % modulus := Int.emod_nonneg _ (Int.ne_of_gt hpos)
  have hlt : value % modulus < modulus := Int.emod_lt_of_pos _ hpos
  have hlow :
      (if value.tmod modulus < 0 then value.tmod modulus + modulus else value.tmod modulus) =
        value % modulus := by
    -- Below zero the two remainders differ by the modulus, unless both are zero.
    by_cases hcase : 0 ≤ value ∨ modulus ∣ value
    · rw [Int.tmod_eq_emod, if_pos hcase]
      split <;> omega
    · rw [Int.tmod_eq_emod, if_neg hcase]
      split <;> omega
  rw [wrap, hlow]

/-- A wrapped value is in range. -/
theorem inRange_wrap (value : Int) : inRange (wrap value) = true := by
  have hnonneg : 0 ≤ value % modulus := Int.emod_nonneg _ (by decide +kernel)
  have hlt : value % modulus < modulus := Int.emod_lt_of_pos _ (by decide +kernel)
  have hmodulus : modulus = 2 ^ 255 + 2 ^ 255 := by decide +kernel
  have hmaximum : maximum = 2 ^ 255 - 1 := by decide +kernel
  rw [inRange_iff, wrap_eq, hmaximum]
  generalize (2 : Int) ^ 255 = half at hmodulus ⊢
  split <;> omega

/-- A wrapped value differs by a multiple of `2 ^ 256`. -/
theorem wrap_modEq (value : Int) : wrap value ≡ value [ZMOD 2 ^ 256] := by
  rw [← modulus_eq]
  have hlow : value % modulus ≡ value [ZMOD modulus] := Int.mod_modEq value modulus
  rw [wrap_eq]
  split
  · exact (Int.sub_emod_right _ _).trans hlow
  · exact hlow

end Integer

/-! ## The machine -/

namespace Machine

/-- An integer is pushed if and only if it is in range. -/
theorem pushInt_eq_ok_iff {m m' : Machine} {value : Int} :
    m.pushInt value = .ok m' ↔ Integer.inRange value = true ∧ m' = m.push (.int value) := by
  unfold pushInt
  split
  · rename_i hrange
    rw [Except.ok.injEq, and_iff_right hrange, eq_comm]
  · rename_i hrange
    exact iff_of_false nofun fun h => hrange h.1

/-- The machine goes on exactly with an exact result in range. -/
theorem settle_eq_ok_iff {m m' : Machine} {operation : Arith} {result : Option Int} :
    m.settle operation result = .ok m' ↔
      ∃ value, result = some value ∧ Integer.inRange value = true ∧ m' = m.push (.int value) := by
  cases result with
  | none => simp [settle]
  | some value => simp [settle, pushInt_eq_ok_iff]

theorem push_int_inj {m : Machine} {value value' : Int}
    (h : m.push (.int value) = m.push (.int value')) : value = value' := by
  have hstack : m.stack.push (.int value) = m.stack.push (.int value') := congrArg Machine.stack h
  exact Value.int.inj (Array.push_eq_push.1 hstack).1

end Machine

/-! ## Evaluation -/

namespace ArithmeticPolicy

variable {p : ArithmeticPolicy} {operation : Arith} {a b value : Int}

/-- The value of an operation is its exact result, or what wrapping leaves of it. -/
theorem evaluate_eq_some_iff :
    p.evaluate (.arith operation) a b = some value ↔
      ∃ exact, exactResult? operation a b = some exact ∧
        (Integer.inRange exact = true ∧ exact = value ∨
          Integer.inRange exact = false ∧ p.policyOf (.arith operation) = .wrap ∧
            Integer.wrap exact = value) := by
  cases hexact : exactResult? operation a b with
  | none => simp [evaluate, hexact]
  | some exact =>
      cases hrange : Integer.inRange exact <;> cases hpolicy : p.policyOf (.arith operation) <;>
        simp [evaluate, hexact, hrange, hpolicy]

/-- An evaluation fails without an exact result, or on an overflow that traps. -/
theorem evaluate_eq_none_iff :
    p.evaluate (.arith operation) a b = none ↔
      exactResult? operation a b = none ∨
        ∃ exact, exactResult? operation a b = some exact ∧ Integer.inRange exact = false ∧
          p.policyOf (.arith operation) = .trap := by
  cases hexact : exactResult? operation a b with
  | none => simp [evaluate, hexact]
  | some exact =>
      cases hrange : Integer.inRange exact <;> cases hpolicy : p.policyOf (.arith operation) <;>
        simp [evaluate, hexact, hrange, hpolicy]

/-- With a policy that traps, a value is an exact result in range. -/
theorem evaluate_eq_some_iff_of_trap (htrap : p.policyOf (.arith operation) = .trap) :
    p.evaluate (.arith operation) a b = some value ↔
      exactResult? operation a b = some value ∧ Integer.inRange value = true := by
  rw [evaluate_eq_some_iff, htrap]
  constructor
  · rintro ⟨exact, hexact, ⟨hrange, rfl⟩ | ⟨-, hwrap, -⟩⟩
    · exact ⟨hexact, hrange⟩
    · cases hwrap
  · rintro ⟨hexact, hrange⟩
    exact ⟨value, hexact, .inl ⟨hrange, rfl⟩⟩

/-- With a policy that traps, the machine goes on exactly with the value of the operation. -/
theorem arithmetic_eq_ok_iff (htrap : p.policyOf (.arith operation) = .trap) {m m' : Machine} :
    ((m.push (.int a)).push (.int b)).arithmetic operation = .ok m' ↔
      ∃ value, p.evaluate (.arith operation) a b = some value ∧ m' = m.push (.int value) := by
  have hpush : ((m.push (.int a)).push (.int b)).arithmetic operation =
      m.settle operation (exactResult? operation a b) :=
    Machine.Data.arithmetic_push (d := m.data) (m := m) operation a b
  simp only [hpush, Machine.settle_eq_ok_iff, evaluate_eq_some_iff_of_trap htrap, and_assoc]

end ArithmeticPolicy

/-- Constants are evaluated as the machine computes.  With a policy that traps, evaluation has a
value exactly if the machine goes on with it in the place of the operands.  With any policy, a value
is in range and equal to the exact result up to multiples of `2 ^ 256`; there is none exactly if the
operands are refused, or if the result is out of range and the policy traps. -/
theorem evaluate_computes (p : ArithmeticPolicy) (operation : Arith) (a b : Int) :
    (p.policyOf (.arith operation) = .trap →
      ∀ (code : Code) (ins : Instruction) (m : Machine), ins.op = .arith operation →
        (∀ value, p.evaluate ins.op a b = some value ↔
          Machine.execute code ins ((m.push (.int a)).push (.int b)) = .ok (m.push (.int value))) ∧
        (p.evaluate ins.op a b = none ↔
          ∃ fault, Machine.execute code ins ((m.push (.int a)).push (.int b)) = .error fault)) ∧
    (∀ value, p.evaluate (.arith operation) a b = some value →
      (-2 ^ 255 ≤ value ∧ value < 2 ^ 255) ∧
        ∃ exact, ExactResult operation a b exact ∧ value ≡ exact [ZMOD 2 ^ 256]) ∧
    (p.evaluate (.arith operation) a b = none ↔
      operation.Refuses b ∨
        ∃ exact, ExactResult operation a b exact ∧ ¬ (-2 ^ 255 ≤ exact ∧ exact < 2 ^ 255) ∧
          p.policyOf (.arith operation) = .trap) := by
  refine ⟨?_, ?_, ?_⟩
  · intro htrap code ins m hop
    have hexecute : Machine.execute code ins ((m.push (.int a)).push (.int b)) =
        ((m.push (.int a)).push (.int b)).arithmetic operation := by
      simp only [Machine.execute, hop]
    have hok : ∀ m', ((m.push (.int a)).push (.int b)).arithmetic operation = .ok m' ↔
        ∃ value, p.evaluate (.arith operation) a b = some value ∧ m' = m.push (.int value) :=
      fun _ => ArithmeticPolicy.arithmetic_eq_ok_iff htrap
    rw [hexecute, hop]
    constructor
    · intro value
      rw [hok]
      constructor
      · intro hvalue
        exact ⟨value, hvalue, rfl⟩
      · rintro ⟨other, hother, hsame⟩
        rwa [Machine.push_int_inj hsame]
    · -- Without a value no machine follows, and with one no fault does.
      cases hvalue : p.evaluate (.arith operation) a b with
      | some value =>
          have hdone := (hok _).2 ⟨value, hvalue, rfl⟩
          rw [hdone]
          refine iff_of_false (Option.some_ne_none _) ?_
          rintro ⟨fault, hfault⟩
          cases hfault
      | none =>
          refine iff_of_true rfl ?_
          cases hresult : ((m.push (.int a)).push (.int b)).arithmetic operation with
          | error fault => exact ⟨fault, rfl⟩
          | ok m' =>
              obtain ⟨value, hsome, -⟩ := (hok m').1 hresult
              rw [hvalue] at hsome
              cases hsome
  · intro value hvalue
    obtain ⟨exact, hexact, hcases⟩ := ArithmeticPolicy.evaluate_eq_some_iff.1 hvalue
    have hresult := exactResult?_eq_some_iff.1 hexact
    rcases hcases with ⟨hrange, rfl⟩ | ⟨-, -, rfl⟩
    · exact ⟨Integer.inRange_iff.1 hrange, exact, hresult, .rfl⟩
    · exact ⟨Integer.inRange_iff.1 (Integer.inRange_wrap exact), exact, hresult,
        Integer.wrap_modEq exact⟩
  · rw [ArithmeticPolicy.evaluate_eq_none_iff]
    simp only [exactResult?_eq_none_iff, exactResult?_eq_some_iff, ← Integer.inRange_iff,
      Bool.not_eq_true]

/-- The least integer divided by minus one is the one quotient that the machine cannot hold. -/
theorem evaluate_computes_least :
    ArithmeticPolicy.trapping.policyOf (.arith .div) = .trap ∧
      (∃ fault, Machine.execute #[] (.simple (.arith .div))
        (((Machine.start .empty 0 []).push (.int (-2 ^ 255))).push (.int (-1))) = .error fault) ∧
      ∃ exact, ExactResult .div (-2 ^ 255) (-1) exact ∧ -2 ^ 255 ≡ exact [ZMOD 2 ^ 256] := by
  have htrap : ArithmeticPolicy.trapping.policyOf (.arith .div) = .trap := by decide
  have hnone : ArithmeticPolicy.trapping.evaluate (.arith .div) (-2 ^ 255) (-1) = none := by
    decide +kernel
  have hwrapped : (ArithmeticPolicy.uniform .wrap).evaluate (.arith .div) (-2 ^ 255) (-1) =
      some (-2 ^ 255) := by
    decide +kernel
  refine ⟨htrap, ?_, ?_⟩
  · exact ((evaluate_computes .trapping .div (-2 ^ 255) (-1)).1 htrap _ _ _ rfl).2.1 hnone
  · exact ((evaluate_computes (.uniform .wrap) .div (-2 ^ 255) (-1)).2.1 _ hwrapped).2

end NeoScript
