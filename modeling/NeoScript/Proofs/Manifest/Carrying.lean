import NeoScript.Manifest
import NeoScript.Proofs.Json.Members
import NeoScript.Proofs.Json.Skipping

/-!
# Carrying — what a manifest keeps of its text

* `Parameter.Carried`, `MethodEntry.Carried`, `Abi.Carried`, `Manifest.Carried` — a value and what
  is written for it after it was read;
* `Manifest.agree_read` — a manifest is read as its text is read as a value, member by member;
* `Manifest.parse_carries` — a manifest keeps every member of its text, but for those of parameters;
* `Manifest.parse_drops` — of a parameter it keeps the name and the type only.
-/

namespace NeoScript

namespace Json

def Items (related : Json → Json → Prop) (j j' : Json) : Prop :=
  ∃ js js', j = .array js ∧ j' = .array js' ∧ List.Forall₂ related js js'

/-- Equal values; those of one name are related otherwise. -/
def SameBut (name : String) (related : Json → Json → Prop) (key : String) (v v' : Json) : Prop :=
  if key = name then related v v' else v' = v

theorem sameBut_self {name : String} {related : Json → Json → Prop} {v v' : Json}
    (h : related v v') : SameBut name related name v v' := by
  rwa [SameBut, if_pos rfl]

theorem sameBut_of_ne {name key : String} {related : Json → Json → Prop} (h : key ≠ name)
    {v v' : Json} (heq : v' = v) : SameBut name related key v v' := by
  rwa [SameBut, if_neg h]

/-- A finished object is the one that was read, with defaults and one changed member. -/
theorem Tracks.completes_sameBut {name : String} {related : Json → Json → Prop}
    {slots : List (String × Option Json)} {extra out defaults filled : Members}
    (h : Tracks (SameBut name related) slots extra out) (hname : name ∈ slots.map Prod.fst)
    (hslots : (slots.map Prod.fst).Nodup) (hfilled : List.Forall₂ (Fills defaults) slots filled) :
    Completes (SameBut name related) defaults (.object out) (.object (filled ++ extra)) := by
  refine h.completes hslots hfilled fun key hkey v => sameBut_of_ne ?_ rfl
  rintro rfl
  exact hkey hname

namespace Reader

section Drafts

variable {σ α : Type} {related : String → Json → Json → Prop}
  {slots : σ → List (String × Option Json)}
  {extra : σ → Members} {depth : Nat} {name : String} {d : σ} {out : Members}

/-- A member that goes to its slot. -/
theorem agree_slot {item : Reader α} (encode : α → Json) {seen : Option α} {set : Option α → σ}
    (hitem : Agree (fun a j => related name j (encode a)) item (value depth))
    (h : Tracks related (slots d) (extra d) out) (hname : name ∈ (slots d).map Prod.fst)
    (hset : ∀ a, slots (set (some a)) = fill name (encode a) (slots d) ∧
      extra (set (some a)) = extra d) :
    Agree (fun d out => Tracks related (slots d) (extra d) out)
      (once seen item >>= fun o => pure (set o))
      (colon >>= fun _ => value depth >>= fun v => pure (put out name v)) := by
  refine hitem.once fun a j hvalue => .pure ?_
  rw [(hset a).1, (hset a).2]
  exact h.fill hname hvalue

/-- A member that goes to its slot as it is. -/
theorem agree_same_slot {special : String} {R : Json → Json → Prop} {item : Reader α}
    (encode : α → Json) {seen : Option α} {set : Option α → σ} (hne : name ≠ special)
    (hitem : Agree (fun a j => j = encode a) item (value depth))
    (h : Tracks (SameBut special R) (slots d) (extra d) out) (hname : name ∈ (slots d).map Prod.fst)
    (hset : ∀ a, slots (set (some a)) = fill name (encode a) (slots d) ∧
      extra (set (some a)) = extra d) :
    Agree (fun d out => Tracks (SameBut special R) (slots d) (extra d) out)
      (once seen item >>= fun o => pure (set o))
      (colon >>= fun _ => value depth >>= fun v => pure (put out name v)) :=
  agree_slot encode (hitem.imp fun _ _ heq => sameBut_of_ne hne heq.symm) h hname hset

/-- A member that is carried along. -/
theorem agree_carried {set : Members → σ} (h : Tracks related (slots d) (extra d) out)
    (hname : name ∉ (slots d).map Prod.fst)
    (hset : ∀ e, slots (set e) = slots d ∧ extra (set e) = e) :
    Agree (fun d out => Tracks related (slots d) (extra d) out)
      (carried depth name (extra d) >>= fun e => pure (set e))
      (colon >>= fun _ => value depth >>= fun v => pure (put out name v)) := by
  simp only [carried, bind_assoc, pure_bind]
  refine .bind_same fun _ => .bind_same fun v => .pure ?_
  rw [(hset _).1, (hset _).2]
  exact h.carry hname

end Drafts

end Reader

end Json

open Json Json.Reader

/-! ## Parameters -/

namespace Parameter

/-- A parameter keeps its name and its type, and nothing else. -/
def Carried (j j' : Json) : Prop :=
  ∃ name type, j' = .object [("name", name), ("type", type)] ∧
    (j = .array [name, type] ∨ j.get? "name" = some name ∧ j.get? "type" = some type)

/-- Items that are read one by one are read as an array reads them. -/
theorem agree_nextItem {α β γ : Type} {R : α → Json → Prop} {S : β → γ → Prop}
    {item : Json.Reader α}
    {item' : Json.Reader Json} (hitem : Agree R item item') {f : α → Json.Reader β}
    {g : List Json → Json.Reader γ} {first : Bool} {out : List Json} {fuel : Nat}
    (hnext : ∀ a j, R a j → Agree S (f a) (items item' fuel false (j :: out) >>= g)) :
    Agree S (nextItem first item >>= f) (items item' (fuel + 1) first out >>= g) := by
  simp only [nextItem, items, bind_assoc]
  refine .bind_same fun more => ?_
  cases more with
  | false => exact .of_left (.bind_left (.fail _))
  | true =>
      simp only [if_true, bind_assoc]
      exact hitem.bind hnext

theorem endArray_eq_ok {cs s : List Char} {u : Unit} (h : endArray cs = .ok (u, s)) :
    ∃ rest, peek? cs = .ok (some ']', rest) ∧ s = rest.drop 1 := by
  obtain ⟨o, rest, hpeek, h⟩ := bind_eq_ok.1 h
  split at h
  · cases h
  · split at h
    · subst_vars
      cases h
      exact ⟨rest, hpeek, rfl⟩
    · cases h

/-- Where an array ends, there is no further item. -/
theorem agree_endArray {α β : Type} {S : α → β → Prop} {item : Json.Reader Json} {fuel : Nat}
    {out : List Json} {a : α} {f : List Json → β} (h : S a (f out.reverse)) :
    Agree S (endArray >>= fun _ => pure a)
      (items item fuel false out >>= fun out => endArray >>= fun _ => pure (f out)) := by
  cases fuel with
  | zero => exact .of_right (.bind_left (.fail _))
  | succ fuel =>
      intro cs a' s b t hx hy
      obtain ⟨_, s', hend, hx⟩ := bind_eq_ok.1 hx
      cases hx
      obtain ⟨rest, hpeek, rfl⟩ := endArray_eq_ok hend
      -- The end of the array is seen twice: as no further item, and then as the end itself.
      have hitems : items item (fuel + 1) false out cs = .ok (out.reverse, rest) := by
        have hnone : hasItem false cs = .ok (false, rest) := bind_of_ok hpeek _
        exact bind_of_ok hnone _
      rw [bind_of_ok hitems] at hy
      obtain ⟨_, t', hend', hy⟩ := bind_eq_ok.1 hy
      cases hy
      obtain ⟨rest', hpeek', rfl⟩ := endArray_eq_ok hend'
      cases (peek?_again hpeek).symm.trans hpeek'
      exact ⟨h, rfl⟩

/-- A parameter that is written as an array of its two members. -/
theorem agree_pair {depth : Nat} :
    Agree (fun p j => j = .array [.string p.name, .string p.type])
      (peekValue >>= fun c => if c = '[' then
        nested depth fun _ => do
          let name ← nextItem true text
          let type ← nextItem false text
          endArray
          return (⟨name, type⟩ : Parameter)
        else wrongShape)
      (value depth) := by
  refine agree_bracket fun depth => .get_right fun cs => ?_
  refine agree_nextItem agree_text fun name j hname => ?_
  cases cs.length with
  | zero => exact .of_right (.bind_left (.fail _))
  | succ fuel =>
      refine agree_nextItem agree_text fun type j' htype => agree_endArray ?_
      rw [hname, htype]
      rfl

/-- The two members of a parameter are those of the object, as far as it was read. -/
def Draft.Tracks (d : Draft) (out : Members) : Prop :=
  out.lookup "name" = d.name.map Json.string ∧ out.lookup "type" = d.type.map Json.string

/-- One more member keeps the draft of a parameter in step with the object. -/
theorem agree_member (depth : Nat) (name : String) (d : Draft) (out : Members) (h : d.Tracks out) :
    Agree Draft.Tracks (member depth name d)
      (colon >>= fun _ => value depth >>= fun v => pure (put out name v)) := by
  unfold member
  split
  · refine agree_text.once fun s j hj => .pure ⟨?_, ?_⟩
    · rw [lookup_put, if_pos rfl, hj, Option.map_some]
    · rw [lookup_put, if_neg (by decide)]
      exact h.2
  · refine agree_text.once fun s j hj => .pure ⟨?_, ?_⟩
    · rw [lookup_put, if_neg (by decide)]
      exact h.1
    · rw [lookup_put, if_pos rfl, hj, Option.map_some]
  · -- Another member is skipped here and put there; the two names are not touched by it.
    rename_i hname htype
    refine .bind_same fun _ => Agree.bind (agree_ignoredValue depth) fun _ v _ => .pure ⟨?_, ?_⟩
    · rw [lookup_put, if_neg (Ne.symm hname)]
      exact h.1
    · rw [lookup_put, if_neg (Ne.symm htype)]
      exact h.2

/-- A parameter is read as the object that it is written as. -/
theorem agree_members (depth : Nat) : Agree (fun p j => Carried j p.toJson)
    (object depth (Draft.mk none none) member Draft.finish) (value depth) := by
  refine agree_object ⟨rfl, rfl⟩ agree_member ?_
  intro d out hout cs p s hfinish
  obtain ⟨name, hname, hfinish⟩ := required_bind_eq_ok hfinish
  obtain ⟨type, htype, hfinish⟩ := required_bind_eq_ok hfinish
  cases hfinish
  refine ⟨⟨_, _, rfl, .inr ⟨?_, ?_⟩⟩, rfl⟩
  · exact hout.1.trans (by rw [hname, Option.map_some])
  · exact hout.2.trans (by rw [htype, Option.map_some])

/-- A parameter is read as its text is read as a value. -/
theorem agree_read (depth : Nat) :
    Agree (fun p j => Carried j p.toJson) (read depth) (value depth) := by
  intro cs p s j t hread hvalue
  obtain ⟨c, rest, hpeek, hread⟩ := bind_eq_ok.1 hread
  -- The first character decides about the form, and both readers look at it again.
  rw [value_of_peekValue hpeek] at hvalue
  split at hread
  · subst c
    have hpair :=
      agree_pair rest p s j t (by rw [bind_of_ok (peekValue_again hpeek)]; exact hread) hvalue
    obtain ⟨rfl, heq⟩ := hpair
    exact ⟨⟨_, _, rfl, .inl rfl⟩, heq⟩
  · exact agree_members depth rest p s j t hread hvalue

end Parameter

/-! ## Methods -/

namespace MethodEntry

/-- A method keeps all its members; those of its parameters are an exception. -/
def Carried : Json → Json → Prop :=
  Completes (SameBut "parameters" (Items Parameter.Carried))
    [("parameters", .array []), ("safe", .bool false)]

/-- The members of known names, as far as they were read. -/
def Draft.slots (d : Draft) : List (String × Option Json) :=
  [("name", d.name.map Json.string),
    ("parameters", d.parameters.map fun ps => .array (ps.map Parameter.toJson)),
    ("returntype", d.returnType.map Json.string), ("offset", d.offset.map Json.nat),
    ("safe", d.safe.map Json.bool)]

def Draft.Tracks (d : Draft) (out : Members) : Prop :=
  Json.Tracks (SameBut "parameters" (Items Parameter.Carried)) d.slots d.extra out

/-- One more member keeps the draft of a method in step with the object. -/
theorem agree_member (depth : Nat) (name : String) (d : Draft) (out : Members) (h : d.Tracks out) :
    Agree Draft.Tracks (member depth name d)
      (colon >>= fun _ => value depth >>= fun v => pure (put out name v)) := by
  unfold member
  split
  · exact agree_same_slot Json.string (by decide) agree_text h (by simp [Draft.slots])
      fun _ => ⟨by simp [Draft.slots, fill], rfl⟩
  · refine agree_slot (fun ps => .array (ps.map Parameter.toJson))
      ((agree_array Parameter.agree_read).imp ?_) h (by simp [Draft.slots])
      fun _ => ⟨by simp [Draft.slots, fill], rfl⟩
    rintro ps j ⟨js, rfl, hjs⟩
    exact sameBut_self ⟨js, _, rfl, rfl, List.forall₂_map_right_iff.2 hjs.flip⟩
  · exact agree_same_slot Json.string (by decide) agree_text h (by simp [Draft.slots])
      fun _ => ⟨by simp [Draft.slots, fill], rfl⟩
  · exact agree_same_slot Json.nat (by decide) agree_word h (by simp [Draft.slots])
      fun _ => ⟨by simp [Draft.slots, fill], rfl⟩
  · exact agree_same_slot Json.bool (by decide) agree_flag h (by simp [Draft.slots])
      fun _ => ⟨by simp [Draft.slots, fill], rfl⟩
  · refine agree_carried h ?_ fun _ => ⟨rfl, rfl⟩
    simp_all [Draft.slots]

/-- A method is read as its text is read as a value. -/
theorem agree_read (depth : Nat) :
    Agree (fun m j => Carried j m.toJson) (read depth) (value depth) := by
  refine agree_object (.start (by simp [Draft.slots])) agree_member ?_
  intro d out hout cs m s hfinish
  obtain ⟨name, hname, hfinish⟩ := required_bind_eq_ok hfinish
  obtain ⟨returnType, hreturnType, hfinish⟩ := required_bind_eq_ok hfinish
  obtain ⟨offset, hoffset, hfinish⟩ := required_bind_eq_ok hfinish
  cases hfinish
  refine ⟨hout.completes_sameBut (by simp [Draft.slots]) (by simp [Draft.slots]) ?_, rfl⟩
  rw [Draft.slots, hname, hreturnType, hoffset]
  exact .cons ⟨rfl, .inl rfl⟩ (.cons (fills_getD (by simp) _) (.cons ⟨rfl, .inl rfl⟩
    (.cons ⟨rfl, .inl rfl⟩ (.cons (fills_getD (by simp) _) .nil))))

end MethodEntry

/-! ## Interfaces -/

namespace Abi

/-- An interface keeps all its members; those of its methods are as above. -/
def Carried : Json → Json → Prop :=
  Completes (SameBut "methods" (Items MethodEntry.Carried)) [("events", .array [])]

/-- The members of known names, as far as they were read. -/
def Draft.slots (d : Draft) : List (String × Option Json) :=
  [("methods", d.methods.map fun ms => .array (ms.map MethodEntry.toJson)),
    ("events", d.events.map Json.array)]

/-- What was read of an interface is what was read of the object. -/
def Draft.Tracks (d : Draft) (out : Members) : Prop :=
  Json.Tracks (SameBut "methods" (Items MethodEntry.Carried)) d.slots d.extra out

/-- One more member keeps the draft of the interface in step with the object. -/
theorem agree_member (depth : Nat) (name : String) (d : Draft) (out : Members) (h : d.Tracks out) :
    Agree Draft.Tracks (member depth name d)
      (colon >>= fun _ => value depth >>= fun v => pure (put out name v)) := by
  unfold member
  split
  · refine agree_slot (fun ms => .array (ms.map MethodEntry.toJson))
      ((agree_array MethodEntry.agree_read).imp ?_) h (by simp [Draft.slots])
      fun _ => ⟨by simp [Draft.slots, fill], rfl⟩
    rintro ms j ⟨js, rfl, hjs⟩
    exact sameBut_self ⟨js, _, rfl, rfl, List.forall₂_map_right_iff.2 hjs.flip⟩
  · refine agree_same_slot Json.array (by decide) ((agree_array fun _ => .refl _).imp ?_) h
      (by simp [Draft.slots]) fun _ => ⟨by simp [Draft.slots, fill], rfl⟩
    rintro events j ⟨js, rfl, hjs⟩
    rw [List.forall₂_eq_eq_eq] at hjs
    rw [hjs]
  · refine agree_carried h ?_ fun _ => ⟨rfl, rfl⟩
    simp_all [Draft.slots]

/-- An interface is read as its text is read as a value. -/
theorem agree_read (depth : Nat) :
    Agree (fun abi j => Carried j abi.toJson) (read depth) (value depth) := by
  refine agree_object (.start (by simp [Draft.slots])) agree_member ?_
  intro d out hout cs abi s hfinish
  obtain ⟨methods, hmethods, hfinish⟩ := required_bind_eq_ok hfinish
  cases hfinish
  refine ⟨hout.completes_sameBut (by simp [Draft.slots]) (by simp [Draft.slots]) ?_, rfl⟩
  rw [Draft.slots, hmethods]
  exact .cons ⟨rfl, .inl rfl⟩ (.cons (fills_getD (by simp) _) .nil)

end Abi

/-! ## Manifests -/

namespace Manifest

/-- A manifest keeps all its members; those of its interface are as above. -/
def Carried : Json → Json → Prop :=
  Completes (SameBut "abi" Abi.Carried) []

/-- The members of known names, as far as they were read. -/
def Draft.slots (d : Draft) : List (String × Option Json) :=
  [("name", d.name.map Json.string), ("abi", d.abi.map Abi.toJson)]

def Draft.Tracks (d : Draft) (out : Members) : Prop :=
  Json.Tracks (SameBut "abi" Abi.Carried) d.slots d.extra out

/-- One more member keeps the draft of a manifest in step with the object. -/
theorem agree_member (depth : Nat) (name : String) (d : Draft) (out : Members) (h : d.Tracks out) :
    Agree Draft.Tracks (member depth name d)
      (colon >>= fun _ => value depth >>= fun v => pure (put out name v)) := by
  unfold member
  split
  · exact agree_same_slot Json.string (by decide) agree_text h (by simp [Draft.slots])
      fun _ => ⟨by simp [Draft.slots, fill], rfl⟩
  · exact agree_slot Abi.toJson ((Abi.agree_read depth).imp fun _ _ hcarried =>
      sameBut_self hcarried) h
      (by simp [Draft.slots]) fun _ => ⟨by simp [Draft.slots, fill], rfl⟩
  · refine agree_carried h ?_ fun _ => ⟨rfl, rfl⟩
    simp_all [Draft.slots]

/-- A manifest is read as its text is read as a value. -/
theorem agree_read (depth : Nat) :
    Agree (fun m j => Carried j m.toJson) (read depth) (value depth) := by
  refine agree_object (.start (by simp [Draft.slots])) agree_member ?_
  intro d out hout cs m s hfinish
  obtain ⟨name, hname, hfinish⟩ := required_bind_eq_ok hfinish
  obtain ⟨abi, habi, hfinish⟩ := required_bind_eq_ok hfinish
  cases hfinish
  refine ⟨hout.completes_sameBut (by simp [Draft.slots]) (by simp [Draft.slots]) ?_, rfl⟩
  rw [Draft.slots, hname, habi]
  exact .cons ⟨rfl, .inl rfl⟩ (.cons ⟨rfl, .inl rfl⟩ .nil)

/-- A manifest that is written again has every member of the text that it was read from.  Values are
the same, but for the parameters of methods, which keep a name and a type.  Members that were
missing have defaults. -/
theorem parse_carries (source : String) (m : Manifest) (j : Json) (h : parse source = .ok m)
    (hj : Json.parse source = .ok j) : Carried j m.toJson := by
  obtain ⟨rest, hread⟩ := run_eq_ok (Sequencing.mapError_eq_ok.1 h)
  obtain ⟨rest', hvalue⟩ := run_eq_ok hj
  exact (agree_read Json.maxDepth _ _ _ _ _ hread hvalue).1

end Manifest

namespace Samples

/-- Members of any name, a parameter in each form, and two members that are left out. -/
def carriedText : String :=
  "\x7b\"trusts\":[],\"abi\":\x7b\"x\":[1],\"methods\":[\x7b\"offset\":7,\"returntype\":\"Any\",\"name\":\"main\"," ++
    "\"y\":null,\"parameters\":[\x7b\"type\":\"Any\",\"name\":\"a\"\x7d,[\"b\",\"Void\"]]\x7d]\x7d,\"name\":\"Carried\"\x7d"

def writtenText : String :=
  "\x7b\"name\":\"Carried\",\"abi\":\x7b\"methods\":[\x7b\"name\":\"main\",\"parameters\":[" ++
    "\x7b\"name\":\"a\",\"type\":\"Any\"\x7d,\x7b\"name\":\"b\",\"type\":\"Void\"\x7d],\"returntype\":\"Any\"," ++
    "\"offset\":7,\"safe\":false,\"y\":null\x7d],\"events\":[],\"x\":[1]\x7d,\"trusts\":[]\x7d"

def droppedText : String :=
  "\x7b\"name\":\"T\",\"abi\":\x7b\"methods\":[\x7b\"name\":\"main\",\"parameters\":[\x7b\"name\":\"a\"," ++
    "\"type\":\"Integer\",\"x\":1\x7d],\"returntype\":\"Void\",\"offset\":0\x7d]\x7d\x7d"

def firstParameter (j : Json) : Option Json := do
  let .array (method :: _) ← (← j.get? "abi").get? "methods" | none
  let .array (parameter :: _) ← method.get? "parameters" | none
  return parameter

end Samples

namespace Manifest

/-- A member that is not known to the reader comes back in the text that is written. -/
theorem parse_carries_written : ∃ m j, parse Samples.carriedText = .ok m ∧
    Json.parse Samples.carriedText = .ok j ∧ m.render = Samples.writtenText ∧
      Carried j m.toJson := by
  have hcompute : (do
      let m ← parse Samples.carriedText
      return m.render) = .ok Samples.writtenText := by
    decide +kernel
  have hcompute' : (do
      let j ← Json.parse Samples.carriedText
      return (j.get? "abi").isSome) = .ok true := by
    decide +kernel
  obtain ⟨m, hm, hrender⟩ := Sequencing.bind_eq_ok.1 hcompute
  obtain ⟨j, hj, -⟩ := Sequencing.bind_eq_ok.1 hcompute'
  exact ⟨m, j, hm, hj, Except.ok.inj hrender, parse_carries _ m j hm hj⟩

/-- Another member of a parameter is lost. -/
theorem parse_drops :
    ∃ m j p p', parse Samples.droppedText = .ok m ∧ Json.parse Samples.droppedText = .ok j ∧
    Samples.firstParameter j = some p ∧ Samples.firstParameter m.toJson = some p' ∧
    (p.get? "x").isSome = true ∧ (p'.get? "x").isSome = false := by
  have hcompute : (do
      let m ← parse Samples.droppedText
      return (Samples.firstParameter m.toJson).map fun p : Json => (p.get? "x").isSome) =
      .ok (some false) := by
    decide +kernel
  have hcompute' : (do
      let j ← Json.parse Samples.droppedText
      return (Samples.firstParameter j).map fun p : Json => (p.get? "x").isSome) =
      .ok (some true) := by
    decide +kernel
  obtain ⟨m, hm, hwritten⟩ := Sequencing.bind_eq_ok.1 hcompute
  obtain ⟨j, hj, hread⟩ := Sequencing.bind_eq_ok.1 hcompute'
  obtain ⟨p', hp', hnone⟩ := Option.map_eq_some_iff.1 (Except.ok.inj hwritten)
  obtain ⟨p, hp, hsome⟩ := Option.map_eq_some_iff.1 (Except.ok.inj hread)
  exact ⟨m, j, p, p', hm, hj, hp, hp', hsome, hnone⟩

end Manifest

end NeoScript
