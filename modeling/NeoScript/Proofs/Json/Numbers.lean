import Mathlib.Algebra.Group.Int.Defs
import NeoScript.Proofs.Json.Skipping
import NeoScript.Proofs.Text.Decimal

/-!
# Numbers — numbers inside longer texts

* `Json.readNumber_append` — a number is read alike if more text follows that is no part of it;
* `Json.readNumber_digits` — the digits of a word are read as this word;
* `Json.int_of_readNumber` — integers that are read have sixty-four bits.
-/

namespace NeoScript
namespace Json

open Text (digitValue?)

/-! ## Longer texts -/

def EndsNumber (rest : List Char) : Prop :=
  ∀ c ∈ rest.head?, (digitValue? c).isSome = false ∧ c ∉ ['.', 'e', 'E', '+', '-']

section Append

variable {positive : Bool} {significand : Nat} {exponent : Int} {cs t rest : List Char} {f : Float}

theorem digitValue?_of_endsNumber {c : Char} (h : EndsNumber (c :: rest)) :
    digitValue? c = none := by
  simpa using (h c rfl).1

/-- Digits are taken up to the end of the number only. -/
theorem significant_append (h : EndsNumber rest) (cs : List Char) (value count : Nat) :
    significant (cs ++ rest) value count =
      ((significant cs value count).1, (significant cs value count).2.1,
        (significant cs value count).2.2 ++ rest) := by
  fun_induction significant cs value count with
  | case1 value count =>
      cases rest with
      | nil => rfl
      | cons c rest => rw [List.nil_append, significant, digitValue?_of_endsNumber h]
  | case2 c cs value count d hd hlt ih =>
      simp only [List.cons_append, significant, hd, if_pos hlt, ih]
  | case3 c cs value count d hd hlt => simp only [List.cons_append, significant, hd, if_neg hlt]
  | case4 c cs value count hd => simp only [List.cons_append, significant, hd]

/-- Digits are skipped up to the end of the number only. -/
theorem skipDigits_append (h : EndsNumber rest) (cs : List Char) :
    skipDigits (cs ++ rest) = ((skipDigits cs).1, (skipDigits cs).2 ++ rest) := by
  induction cs with
  | nil =>
      cases rest with
      | nil => rfl
      | cons c rest => exact skipDigits_cons_of_other (h c rfl).1 rest
  | cons c cs ih =>
      cases hc : (digitValue? c).isSome with
      | true => rw [List.cons_append, skipDigits_cons_of_digit hc, skipDigits_cons_of_digit hc, ih]
      | false =>
          rw [List.cons_append, skipDigits_cons_of_other hc, skipDigits_cons_of_other hc]; rfl

theorem exponentValue_append (h : EndsNumber rest) (cs : List Char) (value : Nat) :
    exponentValue (cs ++ rest) value =
      ((exponentValue cs value).1, (exponentValue cs value).2 ++ rest) := by
  fun_induction exponentValue cs value with
  | case1 value =>
      cases rest with
      | nil => rfl
      | cons c rest => rw [List.nil_append, exponentValue, digitValue?_of_endsNumber h]
  | case2 c cs value d hd hlt ih => simp only [List.cons_append, exponentValue, hd, if_pos hlt, ih]
  | case3 c cs value d hd hlt => simp only [List.cons_append, exponentValue, hd, if_neg hlt]
  | case4 c cs value hd => simp only [List.cons_append, exponentValue, hd]

theorem readExponentDigits_append {up : Bool} (hrest : EndsNumber rest)
    (h : readExponentDigits positive significand exponent up cs = .ok (f, t)) :
    readExponentDigits positive significand exponent up (cs ++ rest) = .ok (f, t ++ rest) := by
  cases cs with
  | nil => cases h
  | cons c cs =>
      have hvalue := exponentValue_append hrest (c :: cs) 0
      rw [List.cons_append] at hvalue ⊢
      unfold readExponentDigits at h ⊢
      dsimp only at h ⊢
      split at h
      · rename_i hdigit
        rw [if_pos hdigit, hvalue]
        generalize exponentValue (c :: cs) 0 = parts at h
        obtain ⟨_ | e, after⟩ := parts
        · dsimp only at h ⊢
          split at h
          · cases h
          · cases h
            rw [if_neg ‹_›, skipDigits_append hrest]
        · obtain ⟨x, hx, heq⟩ := Sequencing.map_eq_ok.1 h
          cases heq
          dsimp only
          rw [hx]
          rfl
      · cases h

/-- A mark at the beginning of a longer text is one at the beginning of the number. -/
theorem EndsNumber.append_ne (h : EndsNumber rest) {c : Char} (hc : c ∈ ['.', 'e', 'E', '+', '-'])
    (hcs : ∀ more, cs = c :: more → False) (more : List Char) : cs ++ rest = c :: more → False := by
  cases cs with
  | nil =>
      rintro rfl
      exact (h c rfl).2 hc
  | cons d cs =>
      intro heq
      exact hcs cs (by rw [(List.cons.inj heq).1])

/-- An exponent with its sign is read up to the end of the number only. -/
theorem readExponent_append (hrest : EndsNumber rest)
    (h : readExponent positive significand exponent cs = .ok (f, t)) :
    readExponent positive significand exponent (cs ++ rest) = .ok (f, t ++ rest) := by
  unfold readExponent at h
  split at h
  · exact readExponentDigits_append hrest h
  · exact readExponentDigits_append hrest h
  · rw [readExponent]
    · exact readExponentDigits_append hrest h
    all_goals exact hrest.append_ne (by simp) ‹_›

theorem finishDouble_append (hrest : EndsNumber rest)
    (h : finishDouble positive significand exponent cs = .ok (f, t)) :
    finishDouble positive significand exponent (cs ++ rest) = .ok (f, t ++ rest) := by
  unfold finishDouble at h
  split at h
  · exact readExponent_append hrest h
  · exact readExponent_append hrest h
  · obtain ⟨x, hx, heq⟩ := Sequencing.map_eq_ok.1 h
    cases heq
    rw [finishDouble]
    · exact Sequencing.map_eq_ok.2 ⟨_, hx, rfl⟩
    all_goals exact hrest.append_ne (by simp) ‹_›

theorem readFraction_append (hrest : EndsNumber rest)
    (h : readFraction positive significand exponent cs = .ok (f, t)) :
    readFraction positive significand exponent (cs ++ rest) = .ok (f, t ++ rest) := by
  unfold readFraction at h ⊢
  rw [significant_append hrest]
  generalize significant cs significand 0 = parts at h
  obtain ⟨value, count, after⟩ := parts
  dsimp only at h ⊢
  rw [skipDigits_append hrest]
  generalize skipDigits after = skipped at h
  obtain ⟨dropped, last⟩ := skipped
  dsimp only at h ⊢
  split at h
  · rw [if_pos ‹_›]
    exact finishDouble_append hrest h
  · rw [if_neg ‹_›]
    split at h
    · split at h <;> cases h
    · rw [if_neg ‹_›]
      exact finishDouble_append hrest h

/-- What may follow the integral part is read up to the end of the number only. -/
theorem finishNumber_append {n : JsonNumber} (hrest : EndsNumber rest)
    (h : finishNumber positive significand cs = .ok (n, t)) :
    finishNumber positive significand (cs ++ rest) = .ok (n, t ++ rest) := by
  unfold finishNumber at h
  dsimp only at h
  split at h
  · obtain ⟨x, hx, heq⟩ := Sequencing.map_eq_ok.1 h
    cases heq
    exact Sequencing.map_eq_ok.2 ⟨_, readFraction_append hrest hx, rfl⟩
  · obtain ⟨x, hx, heq⟩ := Sequencing.map_eq_ok.1 h
    cases heq
    exact Sequencing.map_eq_ok.2 ⟨_, readExponent_append hrest hx, rfl⟩
  · obtain ⟨x, hx, heq⟩ := Sequencing.map_eq_ok.1 h
    cases heq
    exact Sequencing.map_eq_ok.2 ⟨_, readExponent_append hrest hx, rfl⟩
  · rw [finishNumber]
    · split_ifs at h ⊢ <;> cases h <;> rfl
    all_goals exact hrest.append_ne (by simp) ‹_›

/-- A zero is the whole integral part, and nothing behind the number changes this. -/
theorem readNumber_zero_append {n : JsonNumber} (hrest : EndsNumber rest)
    (h : readNumber positive ('0' :: cs) = .ok (n, t)) :
    readNumber positive ('0' :: (cs ++ rest)) = .ok (n, t ++ rest) := by
  cases cs with
  | nil =>
      have hzero : finishNumber positive 0 [] = .ok (n, t) := h
      have hfinish := finishNumber_append hrest hzero
      cases rest with
      | nil => exact hfinish
      | cons c rest =>
          rw [List.nil_append] at hfinish ⊢
          rw [readNumber]
          split
          · rename_i hdigit
            cases (hrest c rfl).1.symm.trans hdigit
          · exact hfinish
  | cons c cs =>
      rw [List.cons_append, readNumber]
      rw [readNumber] at h
      split at h
      · cases h
      · rw [if_neg ‹_›]
        exact finishNumber_append hrest h

/-- A number is read alike if more text follows that is no part of it. -/
theorem readNumber_append {n : JsonNumber} (hrest : EndsNumber rest)
    (h : readNumber positive cs = .ok (n, t)) :
    readNumber positive (cs ++ rest) = .ok (n, t ++ rest) := by
  have hread := h
  unfold readNumber at h
  split at h
  · cases h
  · exact readNumber_zero_append hrest hread
  · rename_i c more hzero
    rw [List.cons_append, readNumber, ← List.cons_append]
    · split at h
      · rw [if_pos ‹_›, significant_append hrest]
        generalize significant (c :: more) 0 0 = parts at h
        obtain ⟨value, count, after⟩ := parts
        dsimp only at h ⊢
        rw [skipDigits_append hrest]
        generalize skipDigits after = skipped at h
        obtain ⟨dropped, last⟩ := skipped
        dsimp only at h ⊢
        split at h
        · rw [if_pos ‹_›]
          exact finishNumber_append hrest h
        · rw [if_neg ‹_›]
          obtain ⟨x, hx, heq⟩ := Sequencing.map_eq_ok.1 h
          cases heq
          refine Sequencing.map_eq_ok.2 ⟨(x.1, x.2 ++ rest), ?_, rfl⟩
          split at hx
          · exact readFraction_append hrest hx
          · split
            · rename_i hpoint _ _ heq
              exact (hrest.append_ne (by simp) hpoint _ heq).elim
            · exact finishDouble_append hrest hx
      · cases h
    · exact hzero

end Append

/-! ## Integers -/

theorem le_ofDigitChars (cs : List Char) (value : Nat) : value ≤ Nat.ofDigitChars 10 cs value := by
  rw [Nat.ofDigitChars_eq_ofDigitChars_zero]
  have hpos : 0 < 10 ^ cs.length := Nat.pow_pos (by decide)
  exact Nat.le_trans (Nat.le_mul_of_pos_left value hpos) (Nat.le_add_right ..)

/-- Digits that spell a word are all significant. -/
theorem significant_of_isDigit {cs : List Char} (hdigits : ∀ c ∈ cs, c.isDigit = true) {value : Nat}
    (hlt : Nat.ofDigitChars 10 cs value < 2 ^ 64) (count : Nat) :
    significant cs value count = (Nat.ofDigitChars 10 cs value, count + cs.length, []) := by
  induction cs generalizing value count with
  | nil => rfl
  | cons c cs ih =>
      rw [List.forall_mem_cons] at hdigits
      rw [Nat.ofDigitChars_cons] at hlt ⊢
      have hword : 10 * value + (c.toNat - '0'.toNat) < 2 ^ 64 :=
        Nat.lt_of_le_of_lt (le_ofDigitChars cs _) hlt
      rw [significant, Text.digitValue?_of_isDigit hdigits.1]
      refine (if_pos hword).trans ?_
      rw [ih hdigits.2 hlt, List.length_cons, Nat.add_assoc, Nat.add_comm 1]

/-- Only zero is written with a zero in front. -/
theorem digits_eq_zero_cons {n : Nat} {cs : List Char} (h : Nat.toDigits 10 n = '0' :: cs) :
    n = 0 ∧ cs = [] := by
  induction n using Nat.strongRecOn generalizing cs with
  | ind n ih =>
      by_cases hlt : n < 10
      · rw [Nat.toDigits_of_lt_base hlt] at h
        have hzero : ∀ n < 10, Nat.digitChar n = '0' → n = 0 := by decide
        exact ⟨hzero n hlt (List.cons.inj h).1, (List.cons.inj h).2.symm⟩
      · rw [Nat.toDigits_of_base_le (by decide) (Nat.le_of_not_lt hlt)] at h
        obtain ⟨c, rest, hcons⟩ :=
          List.exists_cons_of_ne_nil (Nat.toDigits_ne_nil (n := n / 10) (b := 10))
        rw [hcons, List.cons_append, List.cons.injEq] at h
        have hquotient := (ih (n / 10) (by omega) (h.1 ▸ hcons)).1
        omega

/-- Digits of a word are read without a loss. -/
theorem readNumber_digits {n : Nat} (h : n < 2 ^ 64) (positive : Bool) :
    readNumber positive (Nat.toDigits 10 n) = finishNumber positive n [] := by
  obtain ⟨c, cs, hcons⟩ := List.exists_cons_of_ne_nil (Nat.toDigits_ne_nil (n := n) (b := 10))
  by_cases hzero : c = '0'
  · subst hzero
    obtain ⟨rfl, rfl⟩ := digits_eq_zero_cons hcons
    rfl
  · have hdigits : ∀ c ∈ Nat.toDigits 10 n, c.isDigit = true := fun _ => Text.isDigit_of_mem_digits
    have hvalue : Nat.ofDigitChars 10 (Nat.toDigits 10 n) 0 = n :=
      Nat.ofDigitChars_toDigits (by decide) (by decide)
    have hsignificant := significant_of_isDigit hdigits (hvalue.symm ▸ h) 0
    rw [hvalue, hcons] at hsignificant
    have hfirst : (digitValue? c).isSome = true := by
      rw [Text.digitValue?_of_isDigit (hdigits c (by simp [hcons]))]
      rfl
    rw [hcons, readNumber]
    · refine (if_pos hfirst).trans ?_
      rw [hsignificant]
      rfl
    · exact hzero

/-- Without a minus sign, the digits of a word are read as an integer. -/
theorem readNumber_int_nonneg {n : Nat} (h : n < 2 ^ 64) :
    readNumber true (Nat.toDigits 10 n) = .ok (.int n, []) := by
  rw [readNumber_digits h]
  rfl

/-- Behind a minus sign, digits up to `2 ^ 63` are read as a negative integer. -/
theorem readNumber_int_neg {n : Nat} (hpos : 0 < n) (hle : n ≤ 2 ^ 63) :
    readNumber false (Nat.toDigits 10 n) = .ok (.int (-(n : Int)), []) := by
  rw [readNumber_digits (Nat.lt_of_le_of_lt hle (by decide))]
  exact if_pos ⟨hpos, hle⟩

/-- Digits are taken only as long as their value is a word. -/
theorem significant_lt (cs : List Char) {value : Nat} (h : value < 2 ^ 64) (count : Nat) :
    (significant cs value count).1 < 2 ^ 64 := by
  fun_induction significant cs value count with
  | case1 => exact h
  | case2 _ _ _ _ _ _ hlt ih => exact ih hlt
  | case3 => exact h
  | case4 => exact h

/-- Whatever is read as an integer fits 64 bits, with a sign or without one. -/
theorem int_of_finishNumber {positive : Bool} {significand : Nat} {cs t : List Char} {v : Int}
    (hword : significand < 2 ^ 64) (h : finishNumber positive significand cs = .ok (.int v, t)) :
    -2 ^ 63 ≤ v ∧ v < 2 ^ 64 := by
  unfold finishNumber at h
  dsimp only at h
  split at h
  iterate 3
    obtain ⟨x, -, heq⟩ := Sequencing.map_eq_ok.1 h
    cases heq
  split_ifs at h
  · cases h
    omega
  · cases h
    omega
  · cases h

/-- Integers that are read have sixty-four bits. -/
theorem int_of_readNumber {positive : Bool} {cs t : List Char} {v : Int}
    (h : readNumber positive cs = .ok (.int v, t)) : -2 ^ 63 ≤ v ∧ v < 2 ^ 64 := by
  unfold readNumber at h
  split at h
  · cases h
  · split at h
    · split at h
      · cases h
      · exact int_of_finishNumber (by decide) h
    · exact int_of_finishNumber (by decide) h
  · rename_i c rest _
    split at h
    · have hword := significant_lt (c :: rest) (show 0 < 2 ^ 64 by decide) 0
      generalize significant (c :: rest) 0 0 = parts at h hword
      obtain ⟨value, count, after⟩ := parts
      dsimp only at h hword
      split at h
      · exact int_of_finishNumber hword h
      · obtain ⟨x, -, heq⟩ := Sequencing.map_eq_ok.1 h
        cases heq
    · cases h

end Json
end NeoScript
