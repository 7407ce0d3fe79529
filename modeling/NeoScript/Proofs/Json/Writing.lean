import Mathlib.Tactic.IntervalCases
import NeoScript.Proofs.Json.Members
import NeoScript.Proofs.Json.Numbers
import NeoScript.Proofs.Json.Results

/-!
# Writing — texts that are written are read back

* `Json.Reader.Reads` — a reader takes a text for a value, and leaves what follows the text;
* `Json.Reader.reads_text`, `reads_array`, `reads_object` — strings, arrays and objects;
* `Json.Fits` — values that a reader can give: integers of sixty-four bits, objects without repeated
  names, and a limit on nesting;
* `Json.reads_value` — such a value is read back from its text, up to its doubles.
-/

namespace NeoScript
namespace Json
namespace Reader

variable {α β σ : Type}

/-! ## Characters -/

theorem peek?_cons {c : Char} (h : isJsonBlank c = false) (cs : List Char) :
    peek? (c :: cs) = .ok (some c, c :: cs) := by
  simp [peek?, h]

theorem peekValue_cons {c : Char} (h : isJsonBlank c = false) (cs : List Char) :
    peekValue (c :: cs) = .ok (c, c :: cs) :=
  bind_of_ok (peek?_cons h cs) _

theorem advance_cons (c : Char) (cs : List Char) : advance (c :: cs) = .ok ((), cs) := rfl

theorem colon_cons (cs : List Char) : colon (':' :: cs) = .ok ((), cs) :=
  bind_of_ok (peek?_cons (by decide) cs) _

theorem endArray_cons (cs : List Char) : endArray (']' :: cs) = .ok ((), cs) :=
  bind_of_ok (peek?_cons (by decide) cs) _

theorem endObject_cons (cs : List Char) : endObject ('\x7d' :: cs) = .ok ((), cs) :=
  bind_of_ok (peek?_cons (by decide) cs) _

/-- What follows a value in a text that is written: nothing, or a mark behind an item or a
member. -/
def Ends (rest : List Char) : Prop :=
  ∀ c ∈ rest.head?, c = ',' ∨ c = ']' ∨ c = '\x7d'

theorem ends_nil : Ends [] :=
  fun _ h => nomatch h

/-- In front of a comma or a closing mark a value is at its end. -/
theorem ends_cons {c : Char} (h : c = ',' ∨ c = ']' ∨ c = '\x7d') (cs : List Char) :
    Ends (c :: cs) := by
  intro d hd
  cases hd
  exact h

theorem Ends.endsNumber {rest : List Char} (h : Ends rest) : EndsNumber rest := by
  intro c hc
  rcases h c hc with rfl | rfl | rfl <;> decide

/-- A reader takes a text for a value, and leaves what follows the text. -/
def Reads (x : Reader α) (text : List Char) (a : α) : Prop :=
  ∀ rest, Ends rest → x (text ++ rest) = .ok (a, rest)

/-- A step that consumes nothing more. -/
theorem Reads.map {x : Reader α} {text : List Char} {a : α} (h : Reads x text a) {f : α → Reader β}
    {b : β} (hf : ∀ rest, f a rest = .ok (b, rest)) : Reads (x >>= f) text b := by
  intro rest hrest
  rw [bind_of_ok (h rest hrest), hf]

/-- A text that is read up to its end is accepted. -/
theorem run_of_reads {x : Reader α} {source : String} {a : α} (h : Reads x source.toList a) :
    x.run source = .ok a := by
  have hx := h [] ends_nil
  rw [List.append_nil] at hx
  rw [run, hx]
  rfl

/-! ## Strings -/

/-- A control character is read back from its four digits. -/
theorem unicodeEscape_control {n : Nat} (h : n < 32) (rest : List Char) :
    unicodeEscape (List.replicate (4 - (Nat.toDigits 16 n).length) '0' ++
      Nat.toDigits 16 n ++ rest) =
      .ok (Char.ofNat n, rest) := by
  interval_cases n <;> rfl

theorem stringBody_escape {cs rest : List Char} {c : Char} (h : escape cs = .ok (c, rest))
    (fuel : Nat) (out : List Char) :
    stringBody (fuel + 1) ('\\' :: cs) out = stringBody fuel rest (c :: out) := by
  rw [stringBody, if_neg (by decide), if_pos rfl, h]

/-- An escaped character is read as the character. -/
theorem stringBody_escapeChar (c : Char) (fuel : Nat) (rest out : List Char) :
    stringBody (fuel + 1) (escapeChar c ++ rest) out = stringBody fuel rest (c :: out) := by
  have hself : ∀ n, c.toNat = n → c = Char.ofNat n := by
    rintro n rfl
    rw [Char.ofNat_toNat]
  unfold escapeChar
  split_ifs with hquote hslash hfeed hreturn htab hback hform hcontrol
  · subst hquote
    rfl
  · subst hslash
    rfl
  · subst hfeed
    rfl
  · subst hreturn
    rfl
  · subst htab
    rfl
  · obtain rfl := hself 8 hback
    rfl
  · obtain rfl := hself 12 hform
    rfl
  · have hescape : escape ('u' :: (List.replicate (4 - (Nat.toDigits 16 c.toNat).length) '0' ++
        Nat.toDigits 16 c.toNat ++ rest)) = .ok (c, rest) :=
      (unicodeEscape_control hcontrol rest).trans (by rw [Char.ofNat_toNat])
    exact stringBody_escape hescape fuel out
  · rw [List.singleton_append, stringBody, if_neg hquote, if_neg hslash, if_neg hcontrol]

/-- The contents of a string are read back from their escaped form. -/
theorem stringBody_escaped (cs : List Char) {fuel : Nat} (h : cs.length < fuel)
    (rest out : List Char) :
    stringBody fuel (cs.flatMap escapeChar ++ '"' :: rest) out =
      .ok (String.ofList (out.reverse ++ cs), rest) := by
  induction cs generalizing fuel out with
  | nil =>
      obtain ⟨fuel, rfl⟩ := Nat.exists_eq_add_of_lt h
      rw [List.append_nil]
      rfl
  | cons c cs ih =>
      obtain ⟨fuel, rfl⟩ := Nat.exists_eq_succ_of_ne_zero (Nat.ne_of_gt (Nat.zero_lt_of_lt h))
      rw [List.flatMap_cons, List.append_assoc, stringBody_escapeChar,
        ih (Nat.lt_of_succ_lt_succ h)]
      simp

/-- Escaping does not shorten a text, so its length bounds the steps of the reader. -/
theorem length_le_flatMap_escapeChar (cs : List Char) :
    cs.length ≤ (cs.flatMap escapeChar).length := by
  induction cs with
  | nil => exact Nat.le_refl _
  | cons c cs ih =>
      have hpos : 0 < (escapeChar c).length := by
        unfold escapeChar
        split_ifs <;> simp
      rw [List.flatMap_cons, List.length_cons, List.length_append]
      omega

/-- A quoted text is the escaped one between two quotes. -/
theorem toList_quote (s : String) :
    (quote s).toList = '"' :: (s.toList.flatMap escapeChar ++ ['"']) := by
  simp [quote]

theorem string_quote (s : String) (rest : List Char) :
    string (s.toList.flatMap escapeChar ++ '"' :: rest) = .ok (s, rest) := by
  have hfuel : s.toList.length < (s.toList.flatMap escapeChar ++ '"' :: rest).length + 1 := by
    have hle := length_le_flatMap_escapeChar s.toList
    rw [List.length_append]
    omega
  rw [string, stringBody_escaped _ hfuel]
  simp

/-- A string is read back from its quoted text. -/
theorem reads_text (s : String) : Reads text (quote s).toList s := by
  intro rest _
  rw [toList_quote, List.cons_append, List.append_assoc]
  refine (bind_of_ok (peekValue_cons (by decide) _) _).trans ?_
  exact string_quote s rest

/-! ## Arrays -/

/-- A text begins with a character that is neither blank nor the end of an array. -/
def Starts (text : List Char) : Prop :=
  ∃ c cs, text = c :: cs ∧ isJsonBlank c = false ∧ c ≠ ']'

theorem starts_quote (s : String) : Starts (quote s).toList :=
  ⟨'"', _, toList_quote s, by decide, by decide⟩

theorem hasItem_end (first : Bool) (rest : List Char) :
    hasItem first (']' :: rest) = .ok (false, ']' :: rest) :=
  bind_of_ok (peek?_cons (by decide) rest) _

theorem hasItem_first {text : List Char} (h : Starts text) (rest : List Char) :
    hasItem true (text ++ rest) = .ok (true, text ++ rest) := by
  obtain ⟨c, cs, rfl, hblank, hend⟩ := h
  refine (bind_of_ok (peek?_cons hblank _) _).trans ?_
  dsimp only
  rw [if_neg hend, if_pos rfl]
  rfl

theorem hasItem_comma {text : List Char} (h : Starts text) (rest : List Char) :
    hasItem false (',' :: (text ++ rest)) = .ok (true, text ++ rest) := by
  obtain ⟨c, cs, rfl, hblank, hend⟩ := h
  refine (bind_of_ok (peek?_cons (by decide) _) _).trans ?_
  dsimp only
  rw [if_neg (by decide), if_neg (by decide), if_pos rfl, bind_of_ok (advance_cons ..),
    List.cons_append, bind_of_ok (peek?_cons hblank _)]
  dsimp only
  rw [if_neg hend]
  rfl

/-- Texts with commas between them. -/
theorem intercalate_cons (text : List Char) (texts : List (List Char)) :
    [','].intercalate (text :: texts) = text ++ texts.flatMap (',' :: ·) := by
  induction texts generalizing text with
  | nil => simp
  | cons next texts ih =>
      rw [List.intercalate_cons_cons, ih]
      simp

theorem ends_flatMap {close : Char} (h : close = ']' ∨ close = '\x7d') (texts : List (List Char))
    (rest : List Char) : Ends (texts.flatMap (',' :: ·) ++ close :: rest) := by
  cases texts with
  | nil => exact ends_cons (.inr h) rest
  | cons text texts => exact ends_cons (.inl rfl) _

/-- Items behind commas are read one by one, in their order. -/
theorem items_comma {item : Reader α} {texts : List (List Char)} {as : List α}
    (h : List.Forall₂ (fun text a => Starts text ∧ Reads item text a) texts as) {fuel : Nat}
    (hfuel : texts.length < fuel) (out : List α) (rest : List Char) :
    items item fuel false out (texts.flatMap (',' :: ·) ++ ']' :: rest) =
      .ok (out.reverse ++ as, ']' :: rest) := by
  induction h generalizing fuel out with
  | nil =>
      obtain ⟨fuel, rfl⟩ := Nat.exists_eq_succ_of_ne_zero (Nat.ne_of_gt (Nat.zero_lt_of_lt hfuel))
      refine (bind_of_ok (hasItem_end false rest) _).trans ?_
      rw [List.append_nil]
      rfl
  | @cons text a texts as hitem _ ih =>
      obtain ⟨fuel, rfl⟩ := Nat.exists_eq_succ_of_ne_zero (Nat.ne_of_gt (Nat.zero_lt_of_lt hfuel))
      rw [List.flatMap_cons, List.cons_append, List.cons_append, List.append_assoc]
      refine (bind_of_ok (hasItem_comma hitem.1 _) _).trans ?_
      refine (bind_of_ok (hitem.2 _ (ends_flatMap (.inl rfl) texts rest)) _).trans ?_
      rw [ih (Nat.lt_of_succ_lt_succ hfuel), List.reverse_cons, List.append_assoc]
      rfl

/-- The items of an array are read up to its end. -/
theorem items_intercalate {item : Reader α} {texts : List (List Char)} {as : List α}
    (h : List.Forall₂ (fun text a => Starts text ∧ Reads item text a) texts as) {fuel : Nat}
    (hfuel : texts.length < fuel) (rest : List Char) :
    items item fuel true [] ([','].intercalate texts ++ ']' :: rest) = .ok (as, ']' :: rest) := by
  obtain ⟨fuel, rfl⟩ := Nat.exists_eq_succ_of_ne_zero (Nat.ne_of_gt (Nat.zero_lt_of_lt hfuel))
  cases h with
  | nil => exact bind_of_ok (hasItem_end true rest) _
  | @cons text a texts as hitem htexts =>
      rw [intercalate_cons, List.append_assoc]
      refine (bind_of_ok (hasItem_first hitem.1 _) _).trans ?_
      refine (bind_of_ok (hitem.2 _ (ends_flatMap (.inl rfl) texts rest)) _).trans ?_
      exact items_comma htexts (Nat.lt_of_succ_lt_succ hfuel) [a] rest

/-- Every item takes a character at least. -/
theorem length_le_intercalate {texts : List (List Char)} (h : ∀ text ∈ texts, Starts text) :
    texts.length ≤ ([','].intercalate texts).length := by
  cases texts with
  | nil => exact Nat.zero_le _
  | cons text texts =>
      obtain ⟨c, cs, rfl, -, -⟩ := h text (by simp)
      have htail : texts.length ≤ (texts.flatMap (',' :: ·)).length := by
        clear h
        induction texts with
        | nil => exact Nat.le_refl _
        | cons text texts ih =>
            rw [List.flatMap_cons, List.length_cons, List.length_append, List.length_cons]
            omega
      rw [intercalate_cons, List.length_append, List.length_cons, List.length_cons]
      omega

/-- An item takes a character at least, so the length of the text bounds the steps. -/
theorem length_lt_items {item : Reader α} {texts : List (List Char)} {as : List α}
    (h : List.Forall₂ (fun text a => Starts text ∧ Reads item text a) texts as) (rest : List Char) :
    texts.length < ([','].intercalate texts ++ ']' :: rest).length + 1 := by
  have hstarts : ∀ text ∈ texts, Starts text := by
    intro text htext
    obtain ⟨a, -, ha, -⟩ := Sequencing.exists_right_of_forall₂ h htext
    exact ha
  have hle := length_le_intercalate hstarts
  rw [List.length_append]
  omega

/-- An array is read back from the texts of its items. -/
theorem reads_array {item : Nat → Reader α} {depth : Nat} {texts : List (List Char)} {as : List α}
    (h : List.Forall₂ (fun text a => Starts text ∧ Reads (item depth) text a) texts as) :
    Reads (array (depth + 1) item) ('[' :: ([','].intercalate texts ++ [']'])) as := by
  intro rest hrest
  rw [List.cons_append, List.append_assoc]
  refine (bind_of_ok (peekValue_cons (by decide) _) _).trans ?_
  rw [if_pos rfl]
  refine (bind_of_ok (advance_cons ..) _).trans ?_
  refine (bind_of_ok rfl _).trans ?_
  refine (bind_of_ok (items_intercalate h (length_lt_items h rest) rest) _).trans ?_
  exact bind_of_ok (endArray_cons rest) _

/-! ## Objects -/

def memberText (m : String × List Char) : List Char :=
  (quote m.1).toList ++ ':' :: m.2

theorem starts_memberText (m : String × List Char) : Starts (memberText m) := by
  obtain ⟨c, cs, hquote, hblank, hend⟩ := starts_quote m.1
  exact ⟨c, cs ++ ':' :: m.2, by rw [memberText, hquote, List.cons_append], hblank, hend⟩

theorem hasMember_end (first : Bool) (rest : List Char) :
    hasMember first ('\x7d' :: rest) = .ok (false, '\x7d' :: rest) :=
  bind_of_ok (peek?_cons (by decide) rest) _

theorem hasMember_first (rest : List Char) :
    hasMember true ('"' :: rest) = .ok (true, '"' :: rest) :=
  bind_of_ok (peek?_cons (by decide) rest) _

theorem hasMember_comma (rest : List Char) :
    hasMember false (',' :: '"' :: rest) = .ok (true, '"' :: rest) := by
  refine (bind_of_ok (peek?_cons (by decide) _) _).trans ?_
  dsimp only
  rw [if_neg (by decide), if_neg (by decide), if_pos rfl, bind_of_ok (advance_cons ..),
    bind_of_ok (peek?_cons (by decide) _)]
  rfl

/-- The members of an object, read one by one, lead from one state to another. -/
inductive Collects (member : String → σ → Reader σ) : σ → List (String × List Char) → σ → Prop where
  | nil {acc : σ} : Collects member acc [] acc
  | cons {acc acc' acc'' : σ} {m : String × List Char} {ms : List (String × List Char)}
      (head : Reads (member m.1 acc) (':' :: m.2) acc') (tail : Collects member acc' ms acc'') :
      Collects member acc (m :: ms) acc''

theorem Collects.single {member : String → σ → Reader σ} {acc acc' : σ} {name : String}
    {text : List Char}
    (h : Reads (member name acc) (':' :: text) acc') : Collects member acc [(name, text)] acc' :=
  .cons h .nil

theorem Collects.append {member : String → σ → Reader σ} {acc acc' acc'' : σ}
    {ms ms' : List (String × List Char)} (h : Collects member acc ms acc')
    (h' : Collects member acc' ms' acc'') : Collects member acc (ms ++ ms') acc'' := by
  induction h with
  | nil => exact h'
  | cons head _ ih => exact .cons head (ih h')

/-- Behind the mark that another member follows, its name and its value are read. -/
theorem member_step {member : String → σ → Reader σ} {acc acc' : σ} {m : String × List Char}
    (h : Reads (member m.1 acc) (':' :: m.2) acc') {rest : List Char} (hrest : Ends rest) :
    ∃ text, memberText m ++ rest = '"' :: text ∧
      ∀ {β : Type} (next : σ → Reader β),
        (do advance; let name ← string; next (← member name acc)) ('"' :: text) =
          next acc' rest := by
  refine ⟨m.1.toList.flatMap escapeChar ++ '"' :: (':' :: m.2 ++ rest), ?_, ?_⟩
  · rw [memberText, toList_quote]
    simp
  · intro β next
    rw [bind_of_ok (advance_cons ..), bind_of_ok (string_quote ..), bind_of_ok (h rest hrest)]

theorem members_comma {member : String → σ → Reader σ} {ms : List (String × List Char)}
    {acc acc' : σ}
    (h : Collects member acc ms acc') {fuel : Nat} (hfuel : ms.length < fuel) (rest : List Char) :
    members member fuel false acc ((ms.map memberText).flatMap (',' :: ·) ++ '\x7d' :: rest) =
      .ok (acc', '\x7d' :: rest) := by
  induction h generalizing fuel with
  | nil =>
      obtain ⟨fuel, rfl⟩ := Nat.exists_eq_succ_of_ne_zero (Nat.ne_of_gt (Nat.zero_lt_of_lt hfuel))
      exact bind_of_ok (hasMember_end false rest) _
  | @cons acc _ _ m ms head _ ih =>
      obtain ⟨fuel, rfl⟩ := Nat.exists_eq_succ_of_ne_zero (Nat.ne_of_gt (Nat.zero_lt_of_lt hfuel))
      obtain ⟨text, htext, hstep⟩ :=
        member_step head (ends_flatMap (.inr rfl) (ms.map memberText) rest)
      rw [List.map_cons, List.flatMap_cons, List.cons_append, List.cons_append,
        List.append_assoc, htext]
      refine (bind_of_ok (hasMember_comma text) _).trans ?_
      exact (hstep _).trans (ih (Nat.lt_of_succ_lt_succ hfuel))

/-- The members of an object are read up to its end. -/
theorem members_intercalate {member : String → σ → Reader σ} {ms : List (String × List Char)}
    {acc acc' : σ}
    (h : Collects member acc ms acc') {fuel : Nat} (hfuel : ms.length < fuel) (rest : List Char) :
    members member fuel true acc ([','].intercalate (ms.map memberText) ++ '\x7d' :: rest) =
      .ok (acc', '\x7d' :: rest) := by
  obtain ⟨fuel, rfl⟩ := Nat.exists_eq_succ_of_ne_zero (Nat.ne_of_gt (Nat.zero_lt_of_lt hfuel))
  cases h with
  | nil => exact bind_of_ok (hasMember_end true rest) _
  | @cons _ _ _ m ms head tail =>
      obtain ⟨text, htext, hstep⟩ :=
        member_step head (ends_flatMap (.inr rfl) (ms.map memberText) rest)
      rw [List.map_cons, intercalate_cons, List.append_assoc, htext]
      refine (bind_of_ok (hasMember_first text) _).trans ?_
      exact (hstep _).trans (members_comma tail (Nat.lt_of_succ_lt_succ hfuel) rest)

/-- A member takes a character at least, so the length of the text bounds the steps. -/
theorem length_lt_members (ms : List (String × List Char)) (rest : List Char) :
    ms.length < ([','].intercalate (ms.map memberText) ++ '\x7d' :: rest).length + 1 := by
  have hle := length_le_intercalate (List.forall_mem_map.2 fun m (_ : m ∈ ms) =>
      starts_memberText m)
  rw [List.length_map] at hle
  rw [List.length_append]
  omega

def objectText (ms : List (String × List Char)) : List Char :=
  '\x7b' :: ([','].intercalate (ms.map memberText) ++ ['\x7d'])

/-- An object is read back from the texts of its members. -/
theorem reads_object {member : Nat → String → σ → Reader σ} {depth : Nat} {start acc : σ}
    {finish : σ → Reader α}
    {ms : List (String × List Char)} {a : α} (h : Collects (member depth) start ms acc)
    (hfinish : ∀ rest, finish acc rest = .ok (a, rest)) :
    Reads (object (depth + 1) start member finish) (objectText ms) a := by
  intro rest hrest
  rw [objectText, List.cons_append, List.append_assoc]
  refine (bind_of_ok (peekValue_cons (by decide) _) _).trans ?_
  rw [if_pos rfl]
  refine (bind_of_ok (advance_cons ..) _).trans ?_
  refine (bind_of_ok rfl _).trans ?_
  refine (bind_of_ok (members_intercalate h (length_lt_members ms rest) rest) _).trans ?_
  refine (bind_of_ok (hfinish _) _).trans ?_
  exact bind_of_ok (endObject_cons rest) _

theorem reads_once {item : Reader α} {text : List Char} {a : α} (h : Reads item text a) :
    Reads (once none item) (':' :: text) (some a) := by
  intro rest hrest
  refine (bind_of_ok (colon_cons _) _).trans ?_
  exact bind_of_ok (h rest hrest) _

/-! ## Numbers -/

open Text (digitValue?)

def StartsNumber (text : List Char) : Prop :=
  ∃ c cs, text = c :: cs ∧ (c = '-' ∨ (digitValue? c).isSome = true)

/-- The text of a number, as a value, is read up to its end. -/
def ReadsNumber (text : List Char) (n : JsonNumber) : Prop :=
  (∃ cs, text = '-' :: cs ∧ readNumber false cs = .ok (n, [])) ∨
    ∃ c cs, text = c :: cs ∧ (digitValue? c).isSome = true ∧ readNumber true text = .ok (n, [])

/-- A digit is neither blank nor the beginning of another kind of value. -/
theorem digit_cases {c : Char} (h : (digitValue? c).isSome = true) :
    isJsonBlank c = false ∧ c ∉ ['n', 't', 'f', '-', ']'] := by
  have hne : ∀ d, (digitValue? d).isSome = false → c ≠ d := by
    rintro d hd rfl
    cases h.symm.trans hd
  refine ⟨?_, ?_⟩
  · simp [isJsonBlank, hne ' ' (by decide), hne '\n' (by decide), hne '\t' (by decide),
      hne '\r' (by decide)]
  · simp [hne 'n' (by decide), hne 't' (by decide), hne 'f' (by decide), hne '-' (by decide),
      hne ']' (by decide)]

theorem valueWith_minus (inner : Option (Reader Json)) (cs : List Char) :
    valueWith inner ('-' :: cs) = (number false >>= fun n => pure (.number n)) cs := by
  refine (bind_of_ok (peekValue_cons (by decide) _) _).trans ?_
  rw [if_neg (by decide), if_neg (by decide), if_neg (by decide), if_pos rfl]
  rfl

theorem valueWith_digit (inner : Option (Reader Json)) {c : Char}
    (h : (digitValue? c).isSome = true) (cs : List Char) :
    valueWith inner (c :: cs) = (number true >>= fun n => pure (.number n)) (c :: cs) := by
  obtain ⟨hblank, hne⟩ := digit_cases h
  simp only [List.mem_cons, List.not_mem_nil, or_false, not_or] at hne
  refine (bind_of_ok (peekValue_cons hblank _) _).trans ?_
  rw [if_neg hne.1, if_neg hne.2.1, if_neg hne.2.2.1, if_neg hne.2.2.2.1, if_pos h]

/-- A text that begins as a number is read as one by the reader of numbers. -/
theorem readsNumber_of_valueWith {inner : Option (Reader Json)} {text : List Char} {n : JsonNumber}
    (hstart : StartsNumber text) (h : valueWith inner text = .ok (.number n, [])) :
    ReadsNumber text n := by
  obtain ⟨c, cs, rfl, rfl | hdigit⟩ := hstart
  · rw [valueWith_minus] at h
    obtain ⟨n', s, hn', heq⟩ := bind_eq_ok.1 h
    cases heq
    exact .inl ⟨cs, rfl, hn'⟩
  · rw [valueWith_digit inner hdigit] at h
    obtain ⟨n', s, hn', heq⟩ := bind_eq_ok.1 h
    cases heq
    exact .inr ⟨c, cs, rfl, hdigit, hn'⟩

/-- A number is read at every level, whatever may follow it. -/
theorem ReadsNumber.reads {text : List Char} {n : JsonNumber} (h : ReadsNumber text n)
    (inner : Option (Reader Json)) : Reads (valueWith inner) text (.number n) := by
  intro rest hrest
  rcases h with ⟨cs, rfl, hread⟩ | ⟨c, cs, rfl, hdigit, hread⟩
  · rw [List.cons_append, valueWith_minus]
    exact bind_of_ok (readNumber_append hrest.endsNumber hread) _
  · rw [List.cons_append, valueWith_digit inner hdigit]
    exact bind_of_ok (readNumber_append hrest.endsNumber hread) _

theorem ReadsNumber.starts {text : List Char} {n : JsonNumber} (h : ReadsNumber text n) :
    Starts text := by
  rcases h with ⟨cs, rfl, -⟩ | ⟨c, cs, rfl, hdigit, -⟩
  · exact ⟨'-', cs, rfl, by decide, by decide⟩
  · obtain ⟨hblank, hne⟩ := digit_cases hdigit
    exact ⟨c, cs, rfl, hblank, fun hc => hne (by simp [hc])⟩

/-- An integer of sixty-four bits is read back. -/
theorem readsNumber_int {v : Int} (hle : -2 ^ 63 ≤ v) (hlt : v < 2 ^ 64) :
    ReadsNumber (JsonNumber.int v).render.toList (.int v) := by
  cases v with
  | ofNat n =>
      have hword : n < 2 ^ 64 := by
        rw [Int.ofNat_eq_natCast] at hlt
        omega
      have hread := readNumber_int_nonneg hword
      have htext : (JsonNumber.int (Int.ofNat n)).render.toList = Nat.toDigits 10 n := by
        simp [JsonNumber.render, toString, Int.repr]
      obtain ⟨c, cs, hcons⟩ := List.exists_cons_of_ne_nil (Nat.toDigits_ne_nil (n := n) (b := 10))
      have hdigit : c.isDigit = true := Text.isDigit_of_mem_digits (n := n) (by simp [hcons])
      refine .inr ⟨c, cs, htext.trans hcons, ?_, htext.symm ▸ hread⟩
      rw [Text.digitValue?_of_isDigit hdigit]
      rfl
  | negSucc n =>
      have hread := readNumber_int_neg (n := n + 1) (by omega) (by omega)
      refine .inl ⟨Nat.toDigits 10 (n + 1), ?_, hread⟩
      simp [JsonNumber.render, toString, Int.repr]

theorem startsNumber_positional {c : Char} (hc : (digitValue? c).isSome = true) (cs : List Char)
    (exponent : Int) : StartsNumber (JsonNumber.positional (c :: cs) exponent).toList := by
  unfold JsonNumber.positional
  dsimp only
  split
  · exact ⟨c, _, by simp; rfl, .inr hc⟩
  · split
    · rename_i hplaces
      obtain ⟨k, hk⟩ := Nat.exists_eq_succ_of_ne_zero (Nat.sub_ne_zero_of_lt hplaces)
      exact ⟨c, _, by rw [hk]; simp; rfl, .inr hc⟩
    · exact ⟨'0', _, by simp; rfl, .inr (by decide)⟩

theorem startsNumber_scientific {c : Char} (hc : (digitValue? c).isSome = true) (cs : List Char)
    (leading : Int) : StartsNumber (JsonNumber.scientific (c :: cs) leading).toList := by
  unfold JsonNumber.scientific
  cases cs with
  | nil => exact ⟨c, _, by simp; rfl, .inr hc⟩
  | cons d cs => exact ⟨c, _, by simp; rfl, .inr hc⟩

/-- The text of a double begins as a number. -/
theorem startsNumber_renderDouble (x : Float) :
    StartsNumber (JsonNumber.renderDouble x).toList := by
  unfold JsonNumber.renderDouble
  dsimp only
  obtain ⟨c, cs, hcons⟩ :=
    List.exists_cons_of_ne_nil
      (Nat.toDigits_ne_nil (n := (Binary.ofFloat x).shortest.digits) (b := 10))
  have hdigit : (digitValue? c).isSome = true := by
    have hmem : c ∈ Nat.toDigits 10 (Binary.ofFloat x).shortest.digits := by
      rw [hcons]; exact List.mem_cons_self ..
    rw [Text.digitValue?_of_isDigit (Text.isDigit_of_mem_digits hmem)]
    rfl
  rw [hcons]
  cases (Binary.ofFloat x).negative with
  | true =>
      simp only [if_true]
      split_ifs <;> exact ⟨'-', _, by simp; rfl, .inl rfl⟩
  | false =>
      simp only [Bool.false_eq_true, if_false]
      split_ifs
      · exact ⟨'0', _, by simp; rfl, .inr (by decide)⟩
      · simpa using startsNumber_positional hdigit cs _
      · simpa using startsNumber_scientific hdigit cs _

end Reader

/-! ## Values -/

/-- The whole text of a double is read as a double, which may be another one. -/
def ReadsDouble (x y : Float) : Prop :=
  Reader.value 0 (JsonNumber.renderDouble x).toList = .ok (.number (.double y), [])

/-- A value that a reader can give: integers have sixty-four bits, names of members do not repeat,
and at most `depth` levels are opened. -/
inductive Fits : Nat → Json → Prop where
  | null {depth : Nat} : Fits depth null
  | bool {depth : Nat} {b : Bool} : Fits depth (bool b)
  | int {depth : Nat} {v : Int} (hle : -2 ^ 63 ≤ v) (hlt : v < 2 ^ 64) :
      Fits depth (number (.int v))
  | double {depth : Nat} {x : Float} : Fits depth (number (.double x))
  | string {depth : Nat} {s : String} : Fits depth (string s)
  | array {depth : Nat} {items : List Json} (h : ∀ j ∈ items, Fits depth j) :
      Fits (depth + 1) (array items)
  | object {depth : Nat} {members : List (String × Json)} (hunique : (names members).Nodup)
      (h : ∀ m ∈ members, Fits depth m.2) : Fits (depth + 1) (object members)

mutual

/-- All doubles in a value, in the order of its text. -/
def doubles : Json → List Float
  | null => []
  | bool _ => []
  | number (.int _) => []
  | number (.double x) => [x]
  | string _ => []
  | array items => itemDoubles items
  | object members => memberDoubles members

def itemDoubles : List Json → List Float
  | [] => []
  | item :: rest => doubles item ++ itemDoubles rest

def memberDoubles : List (String × Json) → List Float
  | [] => []
  | (_, value) :: rest => doubles value ++ memberDoubles rest

end

mutual

def mapDoubles (f : Float → Float) : Json → Json
  | null => null
  | bool b => bool b
  | number (.int v) => number (.int v)
  | number (.double x) => number (.double (f x))
  | string s => string s
  | array items => array (mapDoublesItems f items)
  | object members => object (mapDoublesMembers f members)

def mapDoublesItems (f : Float → Float) : List Json → List Json
  | [] => []
  | item :: rest => mapDoubles f item :: mapDoublesItems f rest

def mapDoublesMembers (f : Float → Float) : List (String × Json) → List (String × Json)
  | [] => []
  | (name, value) :: rest => (name, mapDoubles f value) :: mapDoublesMembers f rest

end

variable {f : Float → Float}

theorem mem_itemDoubles {x : Float} {items : List Json} :
    x ∈ itemDoubles items ↔ ∃ j ∈ items, x ∈ j.doubles := by
  induction items with
  | nil => simp [itemDoubles]
  | cons item rest ih => simp [itemDoubles, ih]

/-- The doubles of members are those of their values. -/
theorem mem_memberDoubles {x : Float} {members : List (String × Json)} :
    x ∈ memberDoubles members ↔ ∃ m ∈ members, x ∈ m.2.doubles := by
  induction members with
  | nil => simp [memberDoubles]
  | cons m rest ih => simp [memberDoubles, ih]

theorem mem_doubles_array {x : Float} {items : List Json} :
    x ∈ (array items).doubles ↔ ∃ j ∈ items, x ∈ j.doubles := by
  rw [doubles, mem_itemDoubles]

theorem mem_doubles_object {x : Float} {members : List (String × Json)} :
    x ∈ (object members).doubles ↔ ∃ m ∈ members, x ∈ m.2.doubles := by
  rw [doubles, mem_memberDoubles]

theorem mapDoublesItems_eq (f : Float → Float) (items : List Json) :
    mapDoublesItems f items = items.map (mapDoubles f) := by
  induction items with
  | nil => rfl
  | cons item rest ih => rw [mapDoublesItems, ih, List.map_cons]

theorem mapDoublesMembers_eq (f : Float → Float) (members : List (String × Json)) :
    mapDoublesMembers f members = members.map fun m => (m.1, m.2.mapDoubles f) := by
  induction members with
  | nil => rfl
  | cons m rest ih => rw [mapDoublesMembers, ih, List.map_cons]

theorem compactItems_eq (items : List Json) : compactItems items = items.map compact := by
  induction items with
  | nil => rfl
  | cons item rest ih => rw [compactItems, ih, List.map_cons]

theorem compactMembers_eq (members : List (String × Json)) :
    compactMembers members = members.map fun m => quote m.1 ++ ":" ++ m.2.compact := by
  induction members with
  | nil => rfl
  | cons m rest ih => rw [compactMembers, ih, List.map_cons]

theorem reads_text_compact (s : String) : Reader.Reads Reader.text (string s).compact.toList s := by
  rw [compact]
  exact Reader.reads_text s

theorem starts_string (s : String) : Reader.Starts (string s).compact.toList := by
  rw [compact]
  exact Reader.starts_quote s

/-- The text of an array is put together from those of its items. -/
theorem toList_compact_array (items : List Json) :
    (array items).compact.toList =
      '[' :: ([','].intercalate (items.map fun j => j.compact.toList) ++ [']']) := by
  rw [compact, compactItems_eq]
  simp [String.toList_intercalate, Function.comp_def]

def memberTexts (members : List (String × Json)) : List (String × List Char) :=
  members.map fun m => (m.1, m.2.compact.toList)

/-- The text of an object is put together from those of its members. -/
theorem toList_compact_object (members : List (String × Json)) :
    (object members).compact.toList = Reader.objectText (memberTexts members) := by
  rw [compact, compactMembers_eq]
  simp [String.toList_intercalate, Function.comp_def, Reader.objectText, Reader.memberText,
    memberTexts]

theorem starts_object (members : List (String × Json)) :
    Reader.Starts (object members).compact.toList :=
  ⟨'\x7b', _, toList_compact_object members, by decide, by decide⟩

open Reader

theorem reads_null (inner : Option (Reader Json)) : Reads (valueWith inner) "null".toList null :=
  fun _ _ => rfl

theorem reads_bool (inner : Option (Reader Json)) (b : Bool) :
    Reads (valueWith inner) (bool b).compact.toList (bool b) := by
  intro rest _
  cases b <;> rfl

theorem valueWith_quote (inner : Option (Reader Json)) (cs : List Char) :
    valueWith inner ('"' :: cs) = (Reader.string >>= fun s => pure (.string s)) cs := by
  refine (bind_of_ok (peekValue_cons (by decide) _) _).trans ?_
  iterate 5 rw [if_neg (by decide)]
  rw [if_pos rfl]
  rfl

theorem valueWith_bracket (item : Reader Json) (cs : List Char) :
    valueWith (some item) ('[' :: cs) =
      (items item (cs.length + 1) true [] >>= fun out => endArray >>= fun _ =>
        pure (.array out)) cs := by
  refine (bind_of_ok (peekValue_cons (by decide) _) _).trans ?_
  iterate 6 rw [if_neg (by decide)]
  rw [if_pos rfl]
  rfl

theorem valueWith_brace (item : Reader Json) (cs : List Char) :
    valueWith (some item) ('\x7b' :: cs) =
      (members (fun name out => do colon; return put out name (← item)) (cs.length + 1) true [] >>=
        fun out => endObject >>= fun _ => pure (.object out)) cs := by
  refine (bind_of_ok (peekValue_cons (by decide) _) _).trans ?_
  iterate 7 rw [if_neg (by decide)]
  rw [if_pos rfl]
  rfl

theorem reads_string (inner : Option (Reader Json)) (s : String) :
    Reads (valueWith inner) (quote s).toList (string s) := by
  intro rest _
  rw [toList_quote, List.cons_append, List.append_assoc, valueWith_quote]
  exact bind_of_ok (string_quote s rest) _

/-- The text of a value does not begin with a blank or a closing mark. -/
theorem starts_compact {depth : Nat} {j : Json} (hfits : Fits depth j)
    (hdoubles : ∀ x ∈ j.doubles, ReadsDouble x (f x)) : Starts j.compact.toList := by
  cases hfits with
  | null => exact ⟨'n', _, rfl, by decide, by decide⟩
  | @bool _ b => cases b <;> exact ⟨_, _, rfl, by decide, by decide⟩
  | int hle hlt => exact (readsNumber_int hle hlt).starts
  | @double _ x =>
      have hx : ReadsDouble x (f x) := hdoubles x (by simp [doubles])
      exact (readsNumber_of_valueWith (startsNumber_renderDouble x) hx).starts
  | string => exact starts_string _
  | array => exact ⟨'[', _, toList_compact_array _, by decide, by decide⟩
  | object => exact starts_object _

/-- A member of another name is put behind the others. -/
theorem put_of_not_mem {members : List (String × Json)} {name : String} (h : name ∉ names members)
    (v : Json) : put members name v = members ++ [(name, v)] := by
  rw [put, if_neg (fun hany => h (any_eq_true_iff_names.1 hany))]

/-- Members of different names are collected in their order. -/
theorem collects_put {item : Reader Json} {texts : List (String × List Char)}
    {members : List (String × Json)}
    (h : List.Forall₂ (fun t m => t.1 = m.1 ∧ Reads item t.2 m.2) texts members)
    {out : List (String × Json)} (hunique : (names (out ++ members)).Nodup) :
    Collects (fun name out => do colon; return put out name (← item)) out texts (out ++
      members) := by
  induction h generalizing out with
  | nil =>
      rw [List.append_nil]
      exact .nil
  | @cons t m texts members hhead _ ih =>
      have hfresh : t.1 ∉ names out := by
        rw [names, List.map_append, List.map_cons, List.nodup_append] at hunique
        exact fun hmem => hunique.2.2 _ hmem _ List.mem_cons_self hhead.1
      rw [List.append_cons] at hunique ⊢
      refine .cons ?_ (ih hunique)
      intro rest hrest
      refine (bind_of_ok (colon_cons _) _).trans ?_
      refine (bind_of_ok (hhead.2 rest hrest) _).trans ?_
      rw [put_of_not_mem hfresh, hhead.1]
      rfl

/-- A value is read back from its text, with the doubles that the texts of its doubles are read
as. -/
theorem reads_value {depth : Nat} {j : Json} (hfits : Fits depth j)
    (hdoubles : ∀ x ∈ j.doubles, ReadsDouble x (f x)) :
    Reads (value depth) j.compact.toList (j.mapDoubles f) := by
  induction hfits with
  | @null depth =>
      obtain ⟨inner, hinner⟩ := value_eq depth
      rw [hinner, mapDoubles]
      exact reads_null inner
  | @bool depth b =>
      obtain ⟨inner, hinner⟩ := value_eq depth
      rw [hinner, mapDoubles]
      exact reads_bool inner b
  | @int depth v hle hlt =>
      obtain ⟨inner, hinner⟩ := value_eq depth
      rw [hinner, mapDoubles]
      exact (readsNumber_int hle hlt).reads inner
  | @double depth x =>
      obtain ⟨inner, hinner⟩ := value_eq depth
      have hx : ReadsDouble x (f x) := hdoubles x (by simp [doubles])
      rw [hinner, mapDoubles]
      exact (readsNumber_of_valueWith (startsNumber_renderDouble x) hx).reads inner
  | @string depth s =>
      obtain ⟨inner, hinner⟩ := value_eq depth
      rw [hinner, mapDoubles]
      exact reads_string inner s
  | @array depth items hitems ih =>
      have hitem : ∀ j ∈ items, ∀ x ∈ j.doubles, ReadsDouble x (f x) :=
        fun j hj x hx => hdoubles x (mem_doubles_array.2 ⟨j, hj, hx⟩)
      rw [toList_compact_array, mapDoubles, mapDoublesItems_eq]
      have hall : List.Forall₂ (fun text j => Starts text ∧ Reads (value depth) text j)
          (items.map fun j => j.compact.toList) (items.map (mapDoubles f)) := by
        rw [List.forall₂_map_left_iff, List.forall₂_map_right_iff, List.forall₂_same]
        exact fun j hj => ⟨starts_compact (hitems j hj) (hitem j hj), ih j hj (hitem j hj)⟩
      intro rest hrest
      rw [List.cons_append, List.append_assoc]
      refine (valueWith_bracket (value depth) _).trans ?_
      refine (bind_of_ok (items_intercalate hall (length_lt_items hall rest) rest) _).trans ?_
      exact bind_of_ok (endArray_cons rest) _
  | @object depth members hunique hmembers ih =>
      rw [toList_compact_object, mapDoubles, mapDoublesMembers_eq]
      have hall : List.Forall₂ (fun t m => t.1 = m.1 ∧ Reads (value depth) t.2 m.2)
          (memberTexts members)
          (members.map fun m => (m.1, m.2.mapDoubles f)) := by
        rw [memberTexts, List.forall₂_map_left_iff, List.forall₂_map_right_iff, List.forall₂_same]
        exact fun m hm => ⟨rfl, ih m hm fun x hx => hdoubles x (mem_doubles_object.2 ⟨m, hm, hx⟩)⟩
      have hnames : (names ([] ++ members.map fun m => (m.1, m.2.mapDoubles f))).Nodup := by
        simpa [names, Function.comp_def] using hunique
      have hcollects := collects_put hall hnames
      intro rest hrest
      rw [objectText, List.cons_append, List.append_assoc]
      refine (valueWith_brace (value depth) _).trans ?_
      refine (bind_of_ok (members_intercalate hcollects (length_lt_members _ rest) rest) _).trans ?_
      exact bind_of_ok (endObject_cons rest) _

theorem mapDoublesMembers_eq_self {members : List (String × Json)}
    (h : ∀ m ∈ members, m.2.mapDoubles f = m.2) : mapDoublesMembers f members = members := by
  have hsame : members.map (fun m => (m.1, m.2.mapDoubles f)) = members.map id :=
    List.map_congr_left fun m hm => Prod.ext rfl (h m hm)
  rw [mapDoublesMembers_eq, hsame, List.map_id]

/-- Where all doubles stay, the value stays. -/
theorem mapDoubles_eq_self {depth : Nat} {j : Json} (hfits : Fits depth j)
    (h : ∀ x ∈ j.doubles, f x = x) : j.mapDoubles f = j := by
  induction hfits with
  | null => rw [mapDoubles]
  | bool => rw [mapDoubles]
  | int => rw [mapDoubles]
  | double => rw [mapDoubles, h _ (by simp [doubles])]
  | string => rw [mapDoubles]
  | @array _ items _ ih =>
      have hsame : items.map (mapDoubles f) = items.map id :=
        List.map_congr_left fun j hj => ih j hj fun x hx => h x (mem_doubles_array.2 ⟨j, hj, hx⟩)
      rw [mapDoubles, mapDoublesItems_eq, hsame, List.map_id]
  | object _ _ ih =>
      rw [mapDoubles, mapDoublesMembers_eq_self]
      exact fun m hm => ih m hm fun x hx => h x (mem_doubles_object.2 ⟨m, hm, hx⟩)

/-! ## Values that are read -/

/-- Only integers of 64 bits and doubles are read. -/
theorem gives_number (positive : Bool) (depth : Nat) :
    Gives (fun n => Fits depth (number n)) (Reader.number positive) := by
  intro cs n t hread
  cases n with
  | int v =>
      obtain ⟨hle, hlt⟩ := int_of_readNumber hread
      exact .int hle hlt
  | double x => exact .double

/-- Members of different names, with values that a reader can give. -/
structure FitMembers (depth : Nat) (members : List (String × Json)) : Prop where
  unique : (names members).Nodup
  fits : ∀ m ∈ members, Fits depth m.2

theorem FitMembers.nil (depth : Nat) : FitMembers depth [] :=
  ⟨.nil, fun _ h => nomatch h⟩

/-- Putting a value that fits keeps members fitting. -/
theorem FitMembers.put {depth : Nat} {members : List (String × Json)} {name : String} {v : Json}
    (h : FitMembers depth members) (hv : Fits depth v) : FitMembers depth (put members name v) := by
  refine ⟨nodup_names_put h.unique, ?_⟩
  intro m hm
  unfold Json.put at hm
  split at hm
  · obtain ⟨m', hm', rfl⟩ := List.mem_map.1 hm
    split
    · exact hv
    · exact h.fits m' hm'
  · rcases List.mem_append.1 hm with hm | hm
    · exact h.fits m hm
    · rw [List.mem_singleton.1 hm]
      exact hv

/-- Values that are read are nested no deeper than the reader goes. -/
theorem gives_valueWith {depth : Nat} {inner : Option (Reader Json)}
    (h : ∀ item ∈ inner, ∃ d, depth = d + 1 ∧ Gives (Fits d) item) :
    Gives (Fits depth) (valueWith inner) := by
  refine .bind_any fun c => ?_
  refine .ite (.bind_any fun _ => .bind_any fun _ => .pure .null) ?_
  refine .ite (.bind_any fun _ => .bind_any fun _ => .pure .bool) ?_
  refine .ite (.bind_any fun _ => .bind_any fun _ => .pure .bool) ?_
  refine .ite (.bind_any fun _ => (gives_number false depth).bind fun n hn => .pure hn) ?_
  refine .ite ((gives_number true depth).bind fun n hn => .pure hn) ?_
  refine .ite (.bind_any fun _ => .bind_any fun s => .pure .string) ?_
  cases inner with
  | none =>
      exact .ite (.of_refuses (.fail _)) (.ite (.of_refuses (.fail _)) (.of_refuses (.fail _)))
  | some item =>
      obtain ⟨d, rfl, hitem⟩ := h item rfl
      refine .ite ?_ (.ite ?_ (.of_refuses (.fail _)))
      · refine .bind_any fun _ => .bind_any fun cs => ?_
        refine (gives_items hitem _ true (by simp)).bind fun out hout => ?_
        exact .bind_any fun _ => .pure (.array hout)
      · refine .bind_any fun _ => .bind_any fun cs => ?_
        refine (gives_members (I := FitMembers d) ?_ _ true (.nil d)).bind fun out hout => ?_
        · intro name out hout
          exact .bind_any fun _ => hitem.bind fun v hv => .pure (hout.put hv)
        · exact .bind_any fun _ => .pure (.object hout.unique hout.fits)

/-- What a reader gives can be written and read back. -/
theorem gives_value (depth : Nat) : Gives (Fits depth) (value depth) := by
  induction depth with
  | zero => exact gives_valueWith (by simp)
  | succ depth ih => exact gives_valueWith (by simpa using ih)

end Json
end NeoScript
