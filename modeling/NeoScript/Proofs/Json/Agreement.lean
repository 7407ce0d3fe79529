import Mathlib.Data.List.DropRight
import Mathlib.Data.List.Forall2
import NeoScript.Json.Reader
import NeoScript.Proofs.Sequencing

/-!
# Agreement — two readers on one text

* `Json.Reader.Agree` — where two readers accept a text, they stop at the same place, and their
  values are related;
* `Agree.bind`, `Agree.ite`, `agree_items`, `agree_members` — agreement of readers from that of
  their parts;
* `agree_text`, `agree_word`, `agree_flag`, `agree_array`, `agree_object` — a reader of one shape
  agrees with the reader of any value.
-/

namespace NeoScript
namespace Json
namespace Reader

variable {α β γ δ : Type} {R : α → β → Prop} {S : γ → δ → Prop}

/-- A sequence reads a text if each part reads what the one before leaves. -/
theorem bind_eq_ok {x : Reader α} {f : α → Reader γ} {cs t : List Char} {c : γ} :
    (x >>= f) cs = .ok (c, t) ↔ ∃ a s, x cs = .ok (a, s) ∧ f a s = .ok (c, t) := by
  refine Iff.trans (Sequencing.bind_eq_ok (x := x cs) (f := fun p => f p.1 p.2)) ?_
  exact Prod.exists

theorem bind_of_ok {x : Reader α} {cs s : List Char} {a : α} (h : x cs = .ok (a, s))
    (f : α → Reader γ) : (x >>= f) cs = f a s := by
  change (x cs >>= fun p => f p.1 p.2) = f a s
  rw [h, Sequencing.ok_bind]

theorem required_bind_eq_ok {o : Option α} {f : α → Reader γ} {cs t : List Char} {c : γ}
    (h : (required o >>= f) cs = .ok (c, t)) : ∃ a, o = some a ∧ f a cs = .ok (c, t) := by
  cases o with
  | none => cases h
  | some a => exact ⟨a, rfl, h⟩

/-- A text that is accepted was read up to some rest. -/
theorem run_eq_ok {x : Reader α} {source : String} {a : α} (h : x.run source = .ok a) :
    ∃ rest, x source.toList = .ok (a, rest) := by
  obtain ⟨⟨b, rest⟩, hread, h⟩ := Sequencing.bind_eq_ok.1 h
  dsimp only at h
  split at h
  · cases h
    exact ⟨rest, hread⟩
  · cases h

/-- Where both readers accept a text, they stop at the same place, and their values are related. -/
def Agree (R : α → β → Prop) (x : Reader α) (y : Reader β) : Prop :=
  ∀ cs a s b t, x cs = .ok (a, s) → y cs = .ok (b, t) → R a b ∧ s = t

def Refuses (x : Reader α) : Prop :=
  ∀ cs a s, x cs ≠ .ok (a, s)

namespace Refuses

theorem fail (fault : JsonFault) : Refuses (fail fault : Reader α) := by
  intro cs a s h
  cases h

theorem bind {x : Reader α} {f : α → Reader γ} (h : ∀ a, (f a).Refuses) : Refuses (x >>= f) := by
  intro cs c t hc
  obtain ⟨a, s, -, hc⟩ := bind_eq_ok.1 hc
  exact h a s c t hc

theorem bind_left {x : Reader α} {f : α → Reader γ} (h : x.Refuses) : Refuses (x >>= f) := by
  intro cs c t hc
  obtain ⟨a, s, hx, -⟩ := bind_eq_ok.1 hc
  exact h cs a s hx

end Refuses

/-- A value of the wrong shape is never accepted. -/
theorem wrongShape_refuses : Refuses (wrongShape : Reader α) := by
  refine .bind fun c => ?_
  split
  case h_6 | h_7 | h_9 => exact .fail _
  case h_8 =>
    split
    · exact .bind fun _ => .fail _
    · exact .fail _
  all_goals exact .bind fun _ => .bind fun _ => .fail _

/-! ## Rules -/

namespace Agree

theorem refl (x : Reader α) : Agree Eq x x := by
  intro cs a s b t hx hy
  exact Prod.mk.inj (Except.ok.inj (hx.symm.trans hy))

theorem pure {a : α} {b : β} (h : R a b) : Agree R (Pure.pure a) (Pure.pure b) := by
  intro cs a' s b' t hx hy
  cases hx
  cases hy
  exact ⟨h, rfl⟩

/-- Readers agree in sequence if they agree part by part. -/
theorem bind {x : Reader α} {y : Reader β} {f : α → Reader γ} {g : β → Reader δ} (h : Agree R x y)
    (hnext : ∀ a b, R a b → Agree S (f a) (g b)) : Agree S (x >>= f) (y >>= g) := by
  intro cs c s' d t' hx hy
  obtain ⟨a, s, hx, hf⟩ := bind_eq_ok.1 hx
  obtain ⟨b, t, hy, hg⟩ := bind_eq_ok.1 hy
  obtain ⟨hab, rfl⟩ := h cs a s b t hx hy
  exact hnext a b hab s c s' d t' hf hg

/-- Both readers begin with the same step. -/
theorem bind_same {x : Reader α} {f : α → Reader γ} {g : α → Reader δ}
    (hnext : ∀ a, Agree S (f a) (g a)) : Agree S (x >>= f) (x >>= g) :=
  (refl x).bind fun a _ hab => hab ▸ hnext a

/-- The first reader begins with a step that consumes nothing. -/
theorem bind_left {x : Reader α} {f : α → Reader γ} {y : Reader δ} {P : α → Prop}
    (hx : ∀ cs a s, x cs = .ok (a, s) → P a ∧ s = cs) (hnext : ∀ a, P a → Agree S (f a) y) :
    Agree S (x >>= f) y := by
  intro cs c s' d t' hc hd
  obtain ⟨a, s, ha, hf⟩ := bind_eq_ok.1 hc
  obtain ⟨hP, rfl⟩ := hx cs a s ha
  exact hnext a hP s c s' d t' hf hd

/-- The second reader changes its value at the end. -/
theorem map_right {x : Reader α} {y : Reader β} (h : Agree R x y) {f : β → γ} {T : α → γ → Prop}
    (hmap : ∀ a b, R a b → T a (f b)) : Agree T x (y >>= fun b => Pure.pure (f b)) := by
  intro cs a s c t hx hy
  obtain ⟨b, t', hy, hc⟩ := bind_eq_ok.1 hy
  cases hc
  obtain ⟨hab, rfl⟩ := h cs a s b t hx hy
  exact ⟨hmap a b hab, rfl⟩

theorem ite {c : Prop} [Decidable c] {x x' : Reader α} {y y' : Reader β} (hpos : c → Agree R x y)
    (hneg : ¬ c → Agree R x' y') : Agree R (if c then x else x') (if c then y else y') := by
  split
  · exact hpos ‹c›
  · exact hneg ‹¬ c›

/-- The second reader looks at the text that is left. -/
theorem get_right {x : Reader α} {f : List Char → Reader β} (h : ∀ cs, Agree R x (f cs)) :
    Agree R x (get >>= f) := by
  intro cs a s b t hx hy
  exact h cs cs a s b t hx hy

theorem imp {x : Reader α} {y : Reader β} (h : Agree R x y) {T : α → β → Prop}
    (hmap : ∀ a b, R a b → T a b) : Agree T x y := by
  intro cs a s b t hx hy
  obtain ⟨hab, heq⟩ := h cs a s b t hx hy
  exact ⟨hmap a b hab, heq⟩

/-- The first reader accepts no text. -/
theorem of_left {x : Reader α} {y : Reader β} (h : x.Refuses) : Agree R x y := by
  intro cs a s b t hx
  exact absurd hx (h cs a s)

/-- The second reader accepts no text. -/
theorem of_right {x : Reader α} {y : Reader β} (h : y.Refuses) : Agree R x y := by
  intro cs a s b t _ hy
  exact absurd hy (h cs b t)

end Agree

/-- Readers of items agree if the readers of one item do. -/
theorem agree_items {item : Reader α} {item' : Reader β} (h : Agree R item item') (fuel : Nat)
    (first : Bool) {out : List α} {out' : List β} (hout : List.Forall₂ R out out') :
    Agree (List.Forall₂ R) (items item fuel first out) (items item' fuel first out') := by
  induction fuel generalizing first out out' with
  | zero => exact .of_left (.fail _)
  | succ fuel ih =>
      refine .bind_same fun more => .ite (fun _ => ?_) fun _ => ?_
      · exact h.bind fun a b hab => ih false (.cons hab hout)
      · exact .pure (List.rel_reverse hout)

/-- Readers of members agree if they keep what they have collected related. -/
theorem agree_members {step : String → γ → Reader γ} {step' : String → δ → Reader δ}
    (h : ∀ name c d, S c d → Agree S (step name c) (step' name d)) (fuel : Nat) (first : Bool)
    {c : γ} {d : δ}
    (hcd : S c d) : Agree S (members step fuel first c) (members step' fuel first d) := by
  induction fuel generalizing first c d with
  | zero => exact .of_left (.fail _)
  | succ fuel ih =>
      refine .bind_same fun more => .ite (fun _ => ?_) fun _ => .pure hcd
      refine .bind_same fun _ => .bind_same fun name => ?_
      exact (h name c d hcd).bind fun c' d' => ih false

/-- A member that may occur once, and the value of any member. -/
theorem Agree.once {item : Reader α} {item' : Reader β} (h : Agree R item item') {seen : Option α}
    {f : Option α → Reader γ} {g : β → Reader δ}
    (hnext : ∀ a b, R a b → Agree S (f (some a)) (g b)) :
    Agree S (once seen item >>= f) (colon >>= fun _ => item' >>= g) := by
  cases seen with
  | some a => exact .of_left (.bind_left (.fail _))
  | none =>
      simp only [Reader.once, Option.isSome_none, Bool.false_eq_true, if_false,
        bind_assoc, pure_bind]
      exact .bind_same fun _ => h.bind hnext

/-! ## Looking ahead -/

theorem value_eq (depth : Nat) : ∃ inner, value depth = valueWith inner := by
  cases depth with
  | zero => exact ⟨_, rfl⟩
  | succ depth => exact ⟨_, rfl⟩

/-- Looking ahead twice shows the same character. -/
theorem peek?_again {cs s : List Char} {o : Option Char} (h : peek? cs = .ok (o, s)) :
    peek? s = .ok (o, s) := by
  unfold peek? at h ⊢
  cases h
  simp only [List.dropWhile_idempotent]

theorem peekValue_eq_ok {cs s : List Char} {c : Char} :
    peekValue cs = .ok (c, s) ↔ peek? cs = .ok (some c, s) := by
  unfold peekValue
  rw [bind_eq_ok]
  constructor
  · rintro ⟨o, s', hpeek, h⟩
    cases o with
    | none => cases h
    | some d =>
        cases h
        exact hpeek
  · intro hpeek
    exact ⟨some c, s, hpeek, rfl⟩

theorem peekValue_again {cs s : List Char} {c : Char} (h : peekValue cs = .ok (c, s)) :
    peekValue s = .ok (c, s) :=
  peekValue_eq_ok.2 (peek?_again (peekValue_eq_ok.1 h))

/-- Blanks in front of a value do not matter. -/
theorem value_of_peekValue {cs s : List Char} {c : Char} (h : peekValue cs = .ok (c, s))
    (depth : Nat) : value depth cs = value depth s := by
  obtain ⟨inner, heq⟩ := value_eq depth
  rw [heq]
  unfold valueWith
  rw [bind_of_ok h, bind_of_ok (peekValue_again h)]

/-! ## Readers of one shape -/

variable {depth : Nat}

/-- The reader of strings reads what the reader of values reads as a string. -/
theorem agree_text : Agree (fun s j => j = .string s) text (value depth) := by
  obtain ⟨inner, heq⟩ := value_eq depth
  rw [heq]
  unfold text valueWith
  -- The first character decides about the shape, and every other shape is refused.
  refine .bind_same fun c => ?_
  split
  · subst c
    exact .bind_same fun _ => (Agree.refl string).map_right fun a b hab =>
      congrArg Json.string hab.symm
  · exact .of_left wrongShape_refuses

/-- The reader of truth values reads what the reader of values reads as one. -/
theorem agree_flag : Agree (fun b j => j = .bool b) flag (value depth) := by
  obtain ⟨inner, heq⟩ := value_eq depth
  rw [heq]
  unfold flag valueWith
  refine .bind_same fun c => ?_
  split
  · subst c
    exact .bind_same fun _ => .bind_same fun _ => .pure rfl
  · split
    · subst c
      exact .bind_same fun _ => .bind_same fun _ => .pure rfl
    · exact .of_left wrongShape_refuses

/-- Only an integer that is not negative is a word, and it is a number of the same value. -/
theorem agree_number {f : JsonNumber → Reader Nat}
    (hint : ∀ n, f (.int n) = if 0 ≤ n then pure n.toNat else fail .shape)
    (hdouble : ∀ x, f (.double x) = fail .shape) (n : JsonNumber) :
    Agree (fun n j => j = Json.nat n) (f n) (pure (Json.number n)) := by
  cases n with
  | int n =>
      rw [hint]
      split
      · refine .pure ?_
        rw [Json.nat, Int.toNat_of_nonneg ‹_›]
      · exact .of_left (.fail _)
  | double x =>
      rw [hdouble]
      exact .of_left (.fail _)

/-- The reader of words reads what the reader of values reads as an exact number. -/
theorem agree_word : Agree (fun n j => j = Json.nat n) word (value depth) := by
  obtain ⟨inner, heq⟩ := value_eq depth
  rw [heq]
  unfold word valueWith
  refine .bind_same fun c => ?_
  dsimp only
  split
  · subst c
    exact .bind_same fun _ => .bind_same (agree_number (fun _ => rfl) fun _ => rfl)
  · split
    · rename_i hdigit
      -- A digit begins none of the values that the other reader asks about before.
      have hother : ∀ d, (Text.digitValue? d).isSome = false → c ≠ d := by
        rintro d hd rfl
        rw [hd] at hdigit
        cases hdigit
      rw [if_neg (hother 'n' rfl), if_neg (hother 't' rfl), if_neg (hother 'f' rfl)]
      exact .bind_same (agree_number (fun _ => rfl) fun _ => rfl)
    · exact .of_left (.bind_left wrongShape_refuses)

/-- A reader of what stands between brackets, and the items of any array. -/
theorem agree_bracket {T : α → Json → Prop} {body : Nat → Reader α}
    (h : ∀ depth, Agree T (body depth) (get >>= fun cs =>
      items (value depth) (cs.length + 1) true [] >>= fun out => endArray >>= fun _ =>
      pure (.array out))) :
    Agree T (peekValue >>= fun c => if c = '[' then nested depth body else wrongShape)
      (value depth) := by
  cases depth with
  | zero =>
      -- No level may be opened.
      refine .of_left (.bind fun c => ?_)
      split
      · exact .fail _
      · exact wrongShape_refuses
  | succ depth =>
      refine .bind_same fun c => ?_
      split
      · subst c
        exact .bind_same fun _ => h depth
      · exact .of_left wrongShape_refuses

/-- The reader of an array reads what the reader of values reads as an array, item by item. -/
theorem agree_array {T : α → Json → Prop} {item : Nat → Reader α}
    (h : ∀ depth, Agree T (item depth) (value depth)) :
    Agree (fun xs j => ∃ js, j = .array js ∧ List.Forall₂ T xs js) (array depth item)
      (value depth) := by
  refine agree_bracket fun depth => .bind_same fun cs => ?_
  exact (agree_items (h depth) _ true .nil).bind fun xs js hjs => .bind_same fun _ =>
    .pure ⟨js, rfl, hjs⟩

/-- An object whose members are folded step by step, and the members of any object.  What both have
read is related all along. -/
theorem agree_object {Inv : γ → List (String × Json) → Prop} {T : α → Json → Prop} {start : γ}
    {member : Nat → String → γ → Reader γ} {finish : γ → Reader α} (hstart : Inv start [])
    (hmember : ∀ depth name c out, Inv c out → Agree Inv (member depth name c)
      (colon >>= fun _ => value depth >>= fun v => pure (put out name v)))
    (hfinish : ∀ c out, Inv c out → ∀ cs a s, finish c cs = .ok (a, s) →
      T a (.object out) ∧ s = cs) :
    Agree T (object depth start member finish) (value depth) := by
  unfold object
  cases depth with
  | zero =>
      -- No level may be opened.
      refine .of_left (.bind fun c => ?_)
      split
      · exact .fail _
      · exact wrongShape_refuses
  | succ depth =>
      refine .bind_same fun c => ?_
      split
      · subst c
        refine .bind_same fun _ => .bind_same fun cs => ?_
        refine (agree_members (hmember depth) _ true hstart).bind fun c out hout => ?_
        -- The members are put together in front of the closing brace, where the other reader does
        -- nothing.
        refine .bind_left (hfinish c out hout) fun a ha => ?_
        exact .bind_same fun _ => .pure ha
      · exact .of_left wrongShape_refuses

end Reader
end Json
end NeoScript
