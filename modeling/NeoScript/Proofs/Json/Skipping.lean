import NeoScript.Proofs.Json.Agreement

/-!
# Skipping — a value that is skipped ends where it would end if it were read

* `Json.skipNumber_of_readNumber` — a number;
* `Json.Reader.agree_skipString` — a string, also with pairs of surrogates, which are skipped one by
  one;
* `Json.Reader.agree_ignored` — any value.
-/

namespace NeoScript
namespace Json

open Text (digitValue?)

/-! ## Digits -/

theorem skipDigits_cons_of_digit {c : Char} (h : (digitValue? c).isSome = true) (cs : List Char) :
    skipDigits (c :: cs) = ((skipDigits cs).1 + 1, (skipDigits cs).2) := by
  have heq : ∀ cs, skipDigits cs = ((cs.takeWhile fun c => (digitValue? c).isSome).length,
      cs.dropWhile fun c => (digitValue? c).isSome) := fun _ => rfl
  simp only [heq, List.takeWhile_cons_of_pos, h, List.dropWhile_cons_of_pos, List.length_cons]

theorem skipDigits_ne_zero {c : Char} (h : (digitValue? c).isSome = true) (cs : List Char) :
    (skipDigits (c :: cs)).1 ≠ 0 := by
  rw [skipDigits_cons_of_digit h]
  exact Nat.succ_ne_zero _

theorem skipDigits_cons_of_other {c : Char} (h : (digitValue? c).isSome = false) (cs : List Char) :
    skipDigits (c :: cs) = (0, c :: cs) := by
  have heq : ∀ cs, skipDigits cs = ((cs.takeWhile fun c => (digitValue? c).isSome).length,
      cs.dropWhile fun c => (digitValue? c).isSome) := fun _ => rfl
  simp [heq, h]

theorem skipDigits_of_none {cs : List Char} (h : (skipDigits cs).1 = 0) :
    (skipDigits cs).2 = cs := by
  cases cs with
  | nil => rfl
  | cons c cs =>
      cases hc : (digitValue? c).isSome with
      | false => rw [skipDigits_cons_of_other hc]
      | true =>
          rw [skipDigits_cons_of_digit hc] at h
          cases h

/-- Digits that are dropped because they do not fit a word are skipped all the same. -/
theorem skipDigits_significant (cs : List Char) (value count : Nat) :
    (skipDigits (significant cs value count).2.2).2 = (skipDigits cs).2 ∧
      (significant cs value count).2.1 + (skipDigits (significant cs value count).2.2).1 =
        count + (skipDigits cs).1 := by
  fun_induction significant cs value count with
  | case1 => exact ⟨rfl, rfl⟩
  | case2 value count c cs d hd _ ih =>
      rw [skipDigits_cons_of_digit (by simp [hd])]
      exact ⟨ih.1, ih.2.trans (by omega)⟩
  | case3 => exact ⟨rfl, rfl⟩
  | case4 => exact ⟨rfl, rfl⟩

/-- An exponent ends with its last digit, whether or not it is too large. -/
theorem exponentValue_rest (cs : List Char) (value : Nat) :
    (skipDigits (exponentValue cs value).2).2 = (skipDigits cs).2 ∧
      ((exponentValue cs value).1.isSome → (exponentValue cs value).2 = (skipDigits cs).2) := by
  fun_induction exponentValue cs value with
  | case1 => exact ⟨rfl, fun _ => rfl⟩
  | case2 value c cs d hd _ ih => rwa [skipDigits_cons_of_digit (by simp [hd])]
  | case3 value c cs d hd => exact ⟨by rw [skipDigits_cons_of_digit (by simp [hd])], nofun⟩
  | case4 value c cs hd => exact ⟨rfl, fun _ => by rw [skipDigits_cons_of_other (by simp [hd])]⟩

/-! ## Numbers -/

section Numbers

variable {positive : Bool} {significand : Nat} {exponent : Int} {cs t : List Char} {f : Float}

/-- What stands behind a sign, if there is one. -/
def unsigned : List Char → List Char
  | '+' :: rest => rest
  | '-' :: rest => rest
  | cs => cs

theorem unsigned_of_other (hplus : ∀ rest, cs = '+' :: rest → False)
    (hminus : ∀ rest, cs = '-' :: rest → False) : unsigned cs = cs := by
  rw [unsigned] <;> assumption

/-- An exponent needs a digit behind its sign. -/
theorem skipExponent_eq (cs : List Char) : skipExponent cs =
    if (skipDigits (unsigned cs)).1 = 0 then .error .malformed
    else .ok (skipDigits (unsigned cs)).2 := by
  unfold skipExponent
  split
  · rfl
  · rfl
  · rw [unsigned_of_other ‹_› ‹_›]

/-- Reading the digits of an exponent ends where skipping them does. -/
theorem skipDigits_of_readExponentDigits {up : Bool} {digits : List Char}
    (h : readExponentDigits positive significand exponent up digits = .ok (f, t)) :
    (skipDigits digits).1 ≠ 0 ∧ (skipDigits digits).2 = t := by
  unfold readExponentDigits at h
  split at h
  · cases h
  · rename_i c rest
    split at h
    · rename_i hdigit
      -- All digits are skipped, whether or not the exponent that they spell is too large.
      obtain ⟨hafter, hend⟩ := exponentValue_rest (c :: rest) 0
      refine ⟨skipDigits_ne_zero hdigit rest, ?_⟩
      split at h
      · rename_i e after hvalue
        obtain ⟨x, -, hx⟩ := Sequencing.map_eq_ok.1 h
        cases hx
        rw [hvalue] at hend
        exact (hend rfl).symm
      · rename_i after hvalue
        split at h
        · cases h
        · cases h
          rw [hvalue] at hafter
          exact hafter.symm
    · cases h

/-- Reading an exponent ends where skipping it does. -/
theorem skipExponent_of_readExponent (h : readExponent positive significand exponent cs =
    .ok (f, t)) :
    skipExponent cs = .ok t := by
  have hdigits : (skipDigits (unsigned cs)).1 ≠ 0 ∧ (skipDigits (unsigned cs)).2 = t := by
    unfold readExponent at h
    split at h
    · exact skipDigits_of_readExponentDigits h
    · exact skipDigits_of_readExponentDigits h
    · rw [unsigned_of_other ‹_› ‹_›]
      exact skipDigits_of_readExponentDigits h
  rw [skipExponent_eq, if_neg hdigits.1, hdigits.2]

def skipMark : List Char → Except JsonFault (List Char)
  | 'e' :: rest => skipExponent rest
  | 'E' :: rest => skipExponent rest
  | cs => .ok cs

theorem skipMark_of_finishDouble (h : finishDouble positive significand exponent cs = .ok (f, t)) :
    skipMark cs = .ok t := by
  unfold finishDouble at h
  split at h
  · exact skipExponent_of_readExponent h
  · exact skipExponent_of_readExponent h
  · obtain ⟨x, -, hx⟩ := Sequencing.map_eq_ok.1 h
    cases hx
    rw [skipMark] <;> assumption

/-- A fraction needs a digit behind its point. -/
theorem skipTail_point (cs : List Char) : skipTail ('.' :: cs) =
    if (skipDigits cs).1 = 0 then .error .malformed else skipMark (skipDigits cs).2 := by
  rw [skipTail]
  rcases skipDigits cs with ⟨count, rest⟩
  dsimp only
  split
  · rfl
  · split
    · rfl
    · rfl
    · rw [skipMark] <;> assumption

theorem skipTail_eq_skipMark (h : ∀ rest, cs = '.' :: rest → False) :
    skipTail cs = skipMark cs := by
  unfold skipTail
  split
  · exact absurd rfl (h _)
  · rfl
  · rfl
  · rw [skipMark] <;> assumption

/-- Reading a fraction ends where skipping it does. -/
theorem skipTail_of_readFraction (h : readFraction positive significand exponent cs = .ok (f, t)) :
    skipTail ('.' :: cs) = .ok t := by
  obtain ⟨hafter, hcount⟩ := skipDigits_significant cs significand 0
  unfold readFraction at h
  rw [skipTail_point]
  generalize significant cs significand 0 = parts at h hafter hcount
  obtain ⟨value, count, rest⟩ := parts
  have hnone := @skipDigits_of_none rest
  dsimp only at h hafter hcount
  generalize skipDigits rest = skipped at h hafter hcount hnone
  obtain ⟨dropped, after⟩ := skipped
  dsimp only at h hafter hcount hnone
  split at h
  · rw [if_neg (by omega), ← hafter]
    exact skipMark_of_finishDouble h
  · split at h
    · split at h <;> cases h
    · rw [if_neg (by omega), ← hafter, hnone (by omega)]
      exact skipMark_of_finishDouble h

/-- Reading what follows the integral part ends where skipping it does. -/
theorem skipTail_of_finishNumber {n : JsonNumber}
    (h : finishNumber positive significand cs = .ok (n, t)) : skipTail cs = .ok t := by
  unfold finishNumber at h
  dsimp only at h
  split at h
  · obtain ⟨x, hx, heq⟩ := Sequencing.map_eq_ok.1 h
    cases heq
    exact skipTail_of_readFraction hx
  · obtain ⟨x, hx, heq⟩ := Sequencing.map_eq_ok.1 h
    cases heq
    exact skipExponent_of_readExponent hx
  · obtain ⟨x, hx, heq⟩ := Sequencing.map_eq_ok.1 h
    cases heq
    exact skipExponent_of_readExponent hx
  · have ht : t = cs := by
      split_ifs at h <;> cases h <;> rfl
    rw [ht, skipTail] <;> assumption

/-- A number that is skipped ends where it would end if it were read. -/
theorem skipNumber_of_readNumber {n : JsonNumber} (h : readNumber positive cs = .ok (n, t)) :
    skipNumber cs = .ok t := by
  unfold readNumber at h
  split at h
  · cases h
  · rename_i rest
    split at h
    · split at h
      · cases h
      · rename_i hdigit
        rw [skipNumber, if_neg hdigit]
        exact skipTail_of_finishNumber h
    · exact skipTail_of_finishNumber h
  · rename_i c rest hzero
    split at h
    · rename_i hdigit
      have hskip : skipNumber (c :: rest) =
          if (skipDigits (c :: rest)).1 = 0 then .error .malformed
          else skipTail (skipDigits (c :: rest)).2 := by
        rw [skipNumber]
        intro other heq
        exact hzero (List.cons.inj heq).1
      -- Digits that do not fit a word are dropped behind those that do: the end is that of all
      -- digits.
      rw [hskip, if_neg (skipDigits_ne_zero hdigit rest),
        ← (skipDigits_significant (c :: rest) 0 0).1]
      generalize significant (c :: rest) 0 0 = parts at h
      obtain ⟨value, count, rest⟩ := parts
      dsimp only at h
      have hnone := @skipDigits_of_none rest
      generalize skipDigits rest = skipped at h hnone
      obtain ⟨dropped, after⟩ := skipped
      dsimp only at h hnone
      split at h
      · rw [hnone ‹_›]
        exact skipTail_of_finishNumber h
      · obtain ⟨x, hx, heq⟩ := Sequencing.map_eq_ok.1 h
        cases heq
        split at hx
        · exact skipTail_of_readFraction hx
        · rename_i hpoint
          rw [skipTail_eq_skipMark hpoint]
          exact skipMark_of_finishDouble hx
    · cases h

end Numbers

/-! ## Strings -/

namespace Reader

/-- The escape of a character that takes two halves is skipped as two. -/
theorem skipEscape_of_unicodeEscape {cs t : List Char} {d : Char}
    (h : unicodeEscape cs = .ok (d, t)) :
    skipEscape ('u' :: cs) = .ok t ∨
      ∃ rest, skipEscape ('u' :: cs) = .ok ('\\' :: 'u' :: rest) ∧
        skipEscape ('u' :: rest) = .ok t := by
  unfold unicodeEscape at h
  obtain ⟨⟨high, rest⟩, hhigh, h⟩ := Sequencing.bind_eq_ok.1 h
  have hskip : skipEscape ('u' :: cs) = .ok rest := by
    rw [skipEscape, hhigh]
    rfl
  dsimp only at h
  split at h
  · cases h
  · split at h
    · cases h
      exact .inl hskip
    · split at h
      · cases h
      · cases h
      · rename_i rest
        -- The first half of a pair: the second one must follow, in an escape of its own.
        obtain ⟨⟨low, rest'⟩, hlow, h⟩ := Sequencing.bind_eq_ok.1 h
        dsimp only at h
        split at h
        · obtain ⟨-, rfl⟩ := Prod.mk.inj (Except.ok.inj h)
          refine .inr ⟨rest, hskip, ?_⟩
          rw [skipEscape, hlow]
          rfl
        · cases h
      · cases h

/-- A pair of surrogates is read at once and skipped in two steps. -/
theorem skipEscape_of_escape {cs t : List Char} {d : Char} (h : escape cs = .ok (d, t)) :
    skipEscape cs = .ok t ∨
      ∃ rest, skipEscape cs = .ok ('\\' :: 'u' :: rest) ∧ skipEscape ('u' :: rest) = .ok t := by
  by_cases hu : ∃ rest, cs = 'u' :: rest
  · obtain ⟨rest, rfl⟩ := hu
    exact skipEscape_of_unicodeEscape h
  · refine .inl ?_
    rw [skipEscape, h]
    · rfl
    · rintro rest rfl
      exact hu ⟨rest, rfl⟩

theorem skipStringBody_escape {fuel : Nat} {cs rest : List Char} (h : skipEscape cs = .ok rest) :
    skipStringBody (fuel + 1) ('\\' :: cs) = skipStringBody fuel rest := by
  rw [skipStringBody, if_neg (by decide), if_pos rfl, h]

/-- A string that is skipped ends where it would end if it were read. -/
theorem eq_of_skipStringBody {fuel fuel' : Nat} {cs out s t : List Char} {x : String}
    (h : stringBody fuel cs out = .ok (x, t)) (h' : skipStringBody fuel' cs = .ok s) : s = t := by
  -- A step of reading is one step of skipping or two, so the fuel of reading drives the induction.
  induction fuel generalizing fuel' cs out with
  | zero => cases h
  | succ fuel ih =>
      cases fuel' with
      | zero => cases h'
      | succ fuel' =>
          cases cs with
          | nil => cases h
          | cons c cs =>
              unfold stringBody at h
              split at h
              · subst c
                cases h
                cases h'
                rfl
              · rename_i hquote
                split at h
                · subst c
                  split at h
                  · cases h
                  · rename_i d rest hescape
                    rcases skipEscape_of_escape hescape with hskip | ⟨low, hhigh, hlow⟩
                    · rw [skipStringBody_escape hskip] at h'
                      exact ih h h'
                    · rw [skipStringBody_escape hhigh] at h'
                      cases fuel' with
                      | zero => cases h'
                      | succ fuel' =>
                          rw [skipStringBody_escape hlow] at h'
                          exact ih h h'
                · rename_i hescape
                  split at h
                  · cases h
                  · rename_i hcontrol
                    rw [skipStringBody, if_neg hquote, if_neg hescape, if_neg hcontrol] at h'
                    exact ih h h'

/-- Skipping a string ends where reading it does. -/
theorem agree_skipString : Agree (fun _ _ => True) skipString string := by
  intro cs _ s x t hskip hread
  obtain ⟨s', hskip, heq⟩ := Sequencing.map_eq_ok.1 hskip
  cases heq
  exact ⟨trivial, eq_of_skipStringBody hread hskip⟩

/-- Skipping a number ends where reading it does. -/
theorem agree_skipNumber (positive : Bool) :
    Agree (fun _ _ => True) skipNumber (number positive) := by
  intro cs _ s n t hskip hread
  obtain ⟨s', hskip, heq⟩ := Sequencing.map_eq_ok.1 hskip
  cases heq
  have hsame := hskip.symm.trans (skipNumber_of_readNumber hread)
  exact ⟨trivial, Except.ok.inj hsame⟩

/-! ## Values -/

/-- Skipping members ends where reading them does, if this holds of their values. -/
theorem agree_skipMembers {item : Reader Unit} {item' : Reader Json}
    (h : Agree (fun _ _ => True) item item')
    (fuel : Nat) (first : Bool) (out : List (String × Json)) :
    Agree (fun _ _ => True) (skipMembers item fuel first)
      (members (fun name out => colon >>= fun _ => item' >>= fun v =>
        pure (put out name v)) fuel first
        out) := by
  induction fuel generalizing first out with
  | zero => exact .of_left (.fail _)
  | succ fuel ih =>
      refine .bind_same fun more => .ite (fun _ => ?_) fun _ => .pure trivial
      refine .bind_same fun _ => agree_skipString.bind fun _ name _ => ?_
      simp only [bind_assoc, pure_bind]
      exact .bind_same fun _ => h.bind fun _ v _ => ih false _

theorem Agree.discard {α β : Type} {R : α → β → Prop} {x : Reader α} {y : Reader β}
    (h : Agree R x y) : Agree (fun _ _ => True) (Functor.discard x) y := by
  intro cs _ s b t hx hy
  obtain ⟨⟨a, s'⟩, hx, heq⟩ := Sequencing.bind_eq_ok.1 hx
  cases heq
  exact ⟨trivial, (h cs a s b t hx hy).2⟩

/-- Skipping a value ends where reading it does, one level of nesting at a time. -/
theorem agree_ignored_valueWith {levels : Nat} {inner : Option (Reader Json)}
    (h : ∀ item ∈ inner, Agree (fun _ _ => True) (ignored levels) item) :
    Agree (fun _ _ => True) (ignored (levels + 1)) (valueWith inner) := by
  -- Both ask about the first character in the same order.
  have hword : ∀ (cs : List Char) (j : Json),
      Agree (fun _ _ => True) (advance >>= fun _ => word? cs)
        (advance >>= fun _ => word? cs >>= fun _ => pure j) :=
    fun cs j => .bind_same fun _ => (Agree.refl _).map_right fun _ _ _ => trivial
  have hnumber : ∀ positive, Agree (fun _ _ => True) skipNumber
      (number positive >>= fun n => pure (Json.number n)) :=
    fun positive => (agree_skipNumber positive).map_right fun _ _ _ => trivial
  unfold ignored valueWith
  refine .bind_same fun c => ?_
  refine .ite (fun _ => hword _ _) fun _ => .ite (fun _ => hword _ _) fun _ =>
    .ite (fun _ => hword _ _)
    fun _ => .ite (fun _ => .bind_same fun _ => hnumber _) fun _ =>
      .ite (fun _ => hnumber _) fun _ =>
    .ite (fun _ => .bind_same fun _ => agree_skipString.map_right fun _ _ _ => trivial) fun _ =>
    .ite (fun _ => ?_) fun _ => .ite (fun _ => ?_) fun _ => .of_left (.fail _)
  · cases inner with
    | none => exact .of_right (.fail _)
    | some item =>
        refine .bind_same fun _ => .bind_same fun cs => ?_
        refine (agree_items (h item rfl) _ true .nil).discard.bind fun _ out _ => ?_
        exact (Agree.refl endArray).map_right fun _ _ _ => trivial
  · cases inner with
    | none => exact .of_right (.fail _)
    | some item =>
        refine .bind_same fun _ => .bind_same fun cs => ?_
        refine (agree_skipMembers (h item rfl) _ true []).bind fun _ out _ => ?_
        exact (Agree.refl endObject).map_right fun _ _ _ => trivial

/-- A value that is skipped ends where it would end if it were read. -/
theorem agree_ignored (levels depth : Nat) :
    Agree (fun _ _ => True) (ignored levels) (value depth) := by
  induction levels generalizing depth with
  | zero => exact .of_left (.fail _)
  | succ levels ih =>
      cases depth with
      | zero => exact agree_ignored_valueWith nofun
      | succ depth =>
          refine agree_ignored_valueWith ?_
          rintro item ⟨⟩
          exact ih depth

theorem agree_ignoredValue (depth : Nat) : Agree (fun _ _ => True) ignoredValue (value depth) := by
  intro cs u s j t hskip hread
  exact agree_ignored (cs.length + 1) depth cs u s j t hskip hread

end Reader

end Json
end NeoScript
