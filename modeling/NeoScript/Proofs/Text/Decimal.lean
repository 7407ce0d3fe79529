import Mathlib.Algebra.Group.Nat.Defs
import NeoScript.Text.Decimal

/-!
# Decimal — numbers that are read back, and texts that are cut at their marks

* `Text.digitsValue?_padded`, `Text.readWord?_toDigits` — written digits are read as the number that
  they were written for;
* `Text.trim_toDigits` — and have no blanks at their ends;
* `Text.lt_of_readWord?` — what is read as a word is one;
* `Text.splitOnce_append` — a text is cut at the first occurrence of a mark.
-/

namespace NeoScript
namespace Text

/-! ## Digits -/

theorem digitValue?_of_isDigit {c : Char} (h : c.isDigit = true) :
    digitValue? c = some (c.toNat - '0'.toNat) := by
  have hrange : '0' ≤ c ∧ c ≤ '9' := by
    simpa [Char.isDigit, Char.le_def] using h
  simp [digitValue?, hrange]

theorem digitsFrom?_of_isDigit {cs : List Char} (h : ∀ c ∈ cs, c.isDigit = true) (value : Nat) :
    digitsFrom? cs value = some (Nat.ofDigitChars 10 cs value) := by
  induction cs generalizing value with
  | nil => rfl
  | cons c rest ih =>
      rw [List.forall_mem_cons] at h
      rw [digitsFrom?, digitValue?_of_isDigit h.1, Nat.ofDigitChars_cons]
      exact ih h.2 _

/-- What is read as a number has no blank. -/
theorem blank_not_mem_of_digitsValue? {cs : List Char} {n : Nat} (h : digitsValue? cs = some n) :
    ' ' ∉ cs := by
  have hfrom (cs : List Char) (value : Nat) (hblank : ' ' ∈ cs) : digitsFrom? cs value = none := by
    induction cs generalizing value with
    | nil => cases hblank
    | cons c rest ih =>
        rw [digitsFrom?]
        split
        · rename_i d hd
          obtain rfl | hrest := List.mem_cons.1 hblank
          · have hnone : digitValue? ' ' = none := by decide
            simp [hnone] at hd
          · exact ih _ hrest
        · rfl
  cases cs with
  | nil => simp
  | cons c rest =>
      intro hblank
      have hnone : digitsValue? (c :: rest) = none := hfrom _ 0 hblank
      simp [hnone] at h

theorem length_padded {width n : Nat} (h : (Nat.toDigits 10 n).length ≤ width) :
    (padded width n).toList.length = width := by
  simp only [padded, String.toList_ofList, List.length_append, List.length_replicate]
  omega

/-- Leading zeros do not change the value. -/
theorem digitsValue?_padded (width n : Nat) : digitsValue? (padded width n).toList = some n := by
  have hdigits : ∀ c ∈ Nat.toDigits 10 n, c.isDigit = true := fun c hc =>
    Nat.isDigit_of_mem_toDigits (by decide) (by decide) hc
  -- Zeros in front leave the value that was read at zero.
  have hzeros (k : Nat) : digitsFrom? (List.replicate k '0' ++ Nat.toDigits 10 n) 0 = some n := by
    induction k with
    | zero => simpa using digitsFrom?_of_isDigit hdigits 0
    | succ k ih => exact ih
  have hne : (padded width n).toList ≠ [] := by
    simp [padded, Nat.toDigits_ne_nil]
  obtain ⟨c, rest, hcons⟩ := List.exists_cons_of_ne_nil hne
  rw [hcons, digitsValue?, ← hcons]
  · simpa [padded] using hzeros _
  · simp

theorem digitsValue?_toDigits (n : Nat) : digitsValue? (Nat.toDigits 10 n) = some n := by
  simpa [padded] using digitsValue?_padded 0 n

theorem isDigit_of_mem_digits {n : Nat} {c : Char} (h : c ∈ Nat.toDigits 10 n) : c.isDigit = true :=
  Nat.isDigit_of_mem_toDigits (by decide) (by decide) h

theorem not_mem_digits {c : Char} (h : c.isDigit = false) (n : Nat) : c ∉ Nat.toDigits 10 n := by
  intro hmem
  rw [isDigit_of_mem_digits hmem] at h
  cases h

/-! ## Words -/

/-- A word is read back from its digits. -/
theorem readWord?_toDigits {n : Nat} (h : n < 2 ^ 64) : readWord? (Nat.toDigits 10 n) = some n := by
  obtain ⟨c, rest, hcons⟩ := List.exists_cons_of_ne_nil (Nat.toDigits_ne_nil (n := n) (b := 10))
  -- The first digit is no sign.
  have hsign : c ≠ '+' := by
    rintro rfl
    have hdigit : '+'.isDigit = true := isDigit_of_mem_digits (n := n) (by simp [hcons])
    simp at hdigit
  have hvalue := digitsValue?_toDigits n
  rw [hcons] at hvalue ⊢
  unfold readWord?
  split
  · rename_i heq
    exact absurd (List.head_eq_of_cons_eq heq) hsign
  · dsimp only
    rw [hvalue]
    exact if_pos h

theorem lt_of_readWord? {cs : List Char} {n : Nat} (h : readWord? cs = some n) : n < 2 ^ 64 := by
  unfold readWord? at h
  grind

/-! ## Blanks -/

theorem isBlank_of_isDigit {c : Char} (h : c.isDigit = true) : isBlank c = false := by
  have hrange : 48 ≤ c.toNat ∧ c.toNat ≤ 57 := by
    simpa [Char.isDigit, Char.le_def, UInt32.le_iff_toNat_le] using h
  simp only [isBlank, Bool.or_eq_false_iff, Bool.and_eq_false_iff, decide_eq_false_iff_not,
    beq_eq_false_iff_ne]
  omega

theorem trim_of_forall {cs : List Char} (h : ∀ c ∈ cs, isBlank c = false) : trim cs = cs := by
  have hself : ∀ xs : List Char, (∀ c ∈ xs, isBlank c = false) → xs.dropWhile isBlank = xs := by
    intro xs hxs
    cases xs with
    | nil => rfl
    | cons c rest => simp [hxs c]
  unfold trim trimRight
  rw [hself cs h, hself cs.reverse (by simpa using h), List.reverse_reverse]

theorem trim_toDigits (n : Nat) : trim (Nat.toDigits 10 n) = Nat.toDigits 10 n :=
  trim_of_forall fun _ hc => isBlank_of_isDigit (isDigit_of_mem_digits hc)

/-! ## Cutting -/

theorem splitOnce_append {c : Char} {before : List Char} (h : c ∉ before) (after : List Char) :
    splitOnce c (before ++ c :: after) = some (before, after) := by
  have hbefore : ∀ x ∈ before, (x != c) = true := by
    intro x hx
    simp only [bne_iff_ne, ne_eq]
    rintro rfl
    exact h hx
  simp [splitOnce, List.takeWhile_append_of_pos hbefore, List.dropWhile_append_of_pos hbefore]

end Text
end NeoScript
