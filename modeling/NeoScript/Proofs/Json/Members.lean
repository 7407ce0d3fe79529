import Mathlib.Data.List.Nodup
import NeoScript.Json.Basic
import NeoScript.Proofs.Sequencing

/-!
# Members — objects whose members are told apart

* `Json.lookup_put`, `Json.nodup_names_put` — what putting a member does;
* `Json.Completes` — an object with all members of another one, and defaults for members that are
  missing there;
* `Json.Tracks` — the members of an object, told apart into slots for those of known names and a
  list of all others;
* `Json.Tracks.completes` — the slots, with defaults in empty ones, and the others complete the
  object.
-/

namespace NeoScript
namespace Json

/-! ## Names -/

def names (members : List (String × Json)) : List String :=
  members.map Prod.fst

variable {members : List (String × Json)} {name key : String} {v : Json}

theorem lookup_eq_none_iff_names : members.lookup key = none ↔ key ∉ names members := by
  simp only [List.lookup_eq_none_iff, names, List.mem_map, bne_iff_ne]
  grind

theorem lookup_cons (m : String × Json) (members : List (String × Json)) (key : String) :
    (m :: members).lookup key = if key = m.1 then some m.2 else members.lookup key := by
  rw [List.lookup_cons]
  split <;> simp_all

/-- Where names occur once, a member is found by its name. -/
theorem lookup_of_mem (hunique : (names members).Nodup) (h : (key, v) ∈ members) :
    members.lookup key = some v := by
  induction members with
  | nil => cases h
  | cons m members ih =>
      rw [names, List.map_cons, List.nodup_cons] at hunique
      rw [lookup_cons]
      rcases List.mem_cons.1 h with rfl | hmem
      · rw [if_pos rfl]
      · have hne : key ≠ m.1 := by
          rintro rfl
          exact hunique.1 (List.mem_map.2 ⟨_, hmem, rfl⟩)
        rw [if_neg hne, ih hunique.2 hmem]

theorem any_eq_true_iff_names : members.any (·.1 == name) = true ↔ name ∈ names members := by
  simp [names]

/-- A new name is put behind the others, a known one keeps its place. -/
theorem names_put (members : List (String × Json)) (name : String) (v : Json) :
    names (put members name v) =
      if name ∈ names members then names members else names members ++ [name] := by
  unfold put
  simp only [any_eq_true_iff_names]
  split
  · simp only [names, List.map_map]
    refine List.map_congr_left fun m _ => ?_
    simp only [Function.comp_apply]
    split
    · exact (beq_iff_eq.1 ‹_›).symm
    · rfl
  · simp [names]

theorem mem_names_put : key ∈ names (put members name v) ↔ key = name ∨ key ∈ names members := by
  rw [names_put]
  split <;> grind

/-- No name is ever put twice. -/
theorem nodup_names_put (h : (names members).Nodup) : (names (put members name v)).Nodup := by
  rw [names_put]
  split
  · exact h
  · exact h.append (List.nodup_singleton name) (by simpa using ‹name ∉ names members›)

/-- Replacing the value of a name changes what is found under it, if it was there. -/
theorem lookup_replace (members : List (String × Json)) (name key : String) (v : Json) :
    (members.map fun m => if m.1 == name then (name, v) else m).lookup key =
      if key = name ∧ name ∈ names members then some v else members.lookup key := by
  induction members with
  | nil => simp [names]
  | cons m members ih =>
      rw [List.map_cons, lookup_cons, lookup_cons, ih]
      by_cases hm : m.1 = name <;> simp only [names, List.map_cons, List.mem_cons] <;> grind

/-- What was put last is found. -/
theorem lookup_put :
    (put members name v).lookup key = if key = name then some v else members.lookup key := by
  unfold put
  simp only [any_eq_true_iff_names]
  split
  · rename_i hmem
    rw [lookup_replace]
    simp only [hmem, and_true]
  · rename_i hmem
    rw [List.lookup_append, lookup_cons, List.lookup_nil]
    by_cases hkey : key = name
    · subst hkey
      rw [lookup_eq_none_iff_names.2 hmem, Option.none_or]
    · rw [if_neg hkey, if_neg hkey, Option.or_none]

/-! ## Completed objects -/

/-- An object with all members of another one, up to a relation between their values.  Members that
are missing there have defaults, and no name occurs twice. -/
structure Completes (related : String → Json → Json → Prop) (defaults : List (String × Json))
    (j j' : Json) : Prop where
  source : ∃ members, j = .object members ∧ (names members).Nodup
  target : ∃ members, j' = .object members ∧ (names members).Nodup
  kept : ∀ key v, j.get? key = some v → ∃ v', j'.get? key = some v' ∧ related key v v'
  added : ∀ key v, j'.get? key = some v → j.get? key = none → (key, v) ∈ defaults

/-- The members of an object that were read so far: `slots` holds those of known names, `extra` all
others. -/
structure Tracks (related : String → Json → Json → Prop) (slots : List (String × Option Json))
    (extra out : List (String × Json)) : Prop where
  unique : (names out).Nodup
  unique_extra : (names extra).Nodup
  slot : ∀ s ∈ slots, Option.Rel (related s.1) (out.lookup s.1) s.2
  other : ∀ key, key ∉ slots.map Prod.fst → out.lookup key = extra.lookup key
  fresh : ∀ key ∈ names extra, key ∉ slots.map Prod.fst

def fill (name : String) (v : Json) (slots : List (String × Option Json)) :
    List (String × Option Json) :=
  slots.map fun s => if s.1 = name then (name, some v) else s

theorem names_fill (name : String) (v : Json) (slots : List (String × Option Json)) :
    (fill name v slots).map Prod.fst = slots.map Prod.fst := by
  rw [fill, List.map_map]
  refine List.map_congr_left fun s _ => ?_
  simp only [Function.comp_apply]
  split
  · exact ‹s.1 = name›.symm
  · rfl

/-- A member fills a slot: it has the value that was read, or a default if there was none. -/
def Fills (defaults : List (String × Json)) (s : String × Option Json) (m : String × Json) : Prop :=
  m.1 = s.1 ∧ (s.2 = some m.2 ∨ s.2 = none ∧ m ∈ defaults)

/-- A slot is filled with its value, or with the default if it is empty. -/
theorem fills_getD {α : Type} {defaults : List (String × Json)} {encode : α → Json} {value : α}
    (h : (name, encode value) ∈ defaults) (o : Option α) :
    Fills defaults (name, o.map encode) (name, encode (o.getD value)) := by
  cases o with
  | none => exact ⟨rfl, .inr ⟨rfl, h⟩⟩
  | some a => exact ⟨rfl, .inl rfl⟩

namespace Tracks

variable {related : String → Json → Json → Prop} {slots : List (String × Option Json)}
  {extra out : List (String × Json)}

/-- Before the first member nothing is filled and nothing is left over. -/
theorem start (h : ∀ s ∈ slots, s.2 = none) : Tracks related slots [] [] where
  unique := .nil
  unique_extra := .nil
  slot s hs := by
    rw [h s hs]
    exact .none
  other _ _ := rfl
  fresh _ h := nomatch h

/-- A member of another name. -/
theorem carry (h : Tracks related slots extra out) (hname : name ∉ slots.map Prod.fst) :
    Tracks related slots (put extra name v) (put out name v) where
  unique := nodup_names_put h.unique
  unique_extra := nodup_names_put h.unique_extra
  slot s hs := by
    have hne : s.1 ≠ name := by
      rintro rfl
      exact hname (List.mem_map_of_mem hs)
    rw [lookup_put, if_neg hne]
    exact h.slot s hs
  other key hkey := by
    rw [lookup_put, lookup_put, h.other key hkey]
  fresh key hkey := by
    rcases mem_names_put.1 hkey with rfl | hkey
    · exact hname
    · exact h.fresh key hkey

/-- A member of a known name. -/
theorem fill {v' : Json} (h : Tracks related slots extra out) (hname : name ∈ slots.map Prod.fst)
    (hvalue : related name v v') : Tracks related (fill name v' slots) extra (put out name v) where
  unique := nodup_names_put h.unique
  unique_extra := h.unique_extra
  slot s hs := by
    obtain ⟨s', hs', rfl⟩ := List.mem_map.1 hs
    rw [lookup_put]
    split
    · rw [if_pos rfl]
      exact .some hvalue
    · exact h.slot s' hs'
  other key hkey := by
    rw [names_fill] at hkey
    have hne : key ≠ name := by
      rintro rfl
      exact hkey hname
    rw [lookup_put, if_neg hne]
    exact h.other key hkey
  fresh := by
    rw [names_fill]
    exact h.fresh

/-- The slots and the other members complete the object. -/
theorem completes {defaults filled : List (String × Json)} (h : Tracks related slots extra out)
    (hslots : (slots.map Prod.fst).Nodup) (hfilled : List.Forall₂ (Fills defaults) slots filled)
    (hrefl : ∀ key, key ∉ slots.map Prod.fst → ∀ v, related key v v) :
    Completes related defaults (.object out) (.object (filled ++ extra)) := by
  have hnames : names filled = slots.map Prod.fst :=
    (Sequencing.map_eq_of_forall₂ (hfilled.imp fun _ _ hfills => hfills.1.symm)).symm
  -- What a slot leads to in the completed object.
  have hslot : ∀ s ∈ slots, ∃ m, Fills defaults s m ∧ (filled ++ extra).lookup s.1 = some m.2 := by
    intro s hs
    obtain ⟨m, hm, hfills⟩ := Sequencing.exists_right_of_forall₂ hfilled hs
    refine ⟨m, hfills, ?_⟩
    rw [List.lookup_append, ← hfills.1, lookup_of_mem (hnames ▸ hslots) hm, Option.some_or]
  have hother : ∀ key, key ∉ slots.map Prod.fst →
      (filled ++ extra).lookup key = out.lookup key := by
    intro key hkey
    rw [List.lookup_append, lookup_eq_none_iff_names.2 (hnames ▸ hkey), Option.none_or,
      h.other key hkey]
  refine ⟨⟨out, rfl, h.unique⟩, ⟨_, rfl, ?_⟩, ?_, ?_⟩
  · rw [names, List.map_append]
    refine (hnames ▸ hslots).append h.unique_extra ?_
    intro key hkey hextra
    exact h.fresh key hextra (hnames ▸ hkey)
  · intro key v hv
    by_cases hkey : key ∈ slots.map Prod.fst
    · obtain ⟨s, hs, rfl⟩ := List.mem_map.1 hkey
      obtain ⟨m, ⟨-, hvalue⟩, hlookup⟩ := hslot s hs
      have hread := h.slot s hs
      rw [show out.lookup s.1 = some v from hv] at hread
      rcases hvalue with hvalue | ⟨hempty, -⟩
      · rw [hvalue] at hread
        cases hread with
        | some hrelated => exact ⟨m.2, hlookup, hrelated⟩
      · rw [hempty] at hread
        cases hread
    · exact ⟨v, (hother key hkey).trans hv, hrefl key hkey v⟩
  · intro key v hv hnone
    by_cases hkey : key ∈ slots.map Prod.fst
    · obtain ⟨s, hs, rfl⟩ := List.mem_map.1 hkey
      obtain ⟨m, ⟨hname, hvalue⟩, hlookup⟩ := hslot s hs
      have hread := h.slot s hs
      rw [show out.lookup s.1 = none from hnone] at hread
      rcases hvalue with hvalue | ⟨-, hdefault⟩
      · rw [hvalue] at hread
        cases hread
      · cases Option.some.inj (hlookup.symm.trans hv)
        rw [← hname]
        exact hdefault
    · have hsome := (hother key hkey).symm.trans hv
      cases hnone.symm.trans hsome

end Tracks

end Json
end NeoScript
