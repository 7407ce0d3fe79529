import NeoScript.FlowGraph.References
import NeoScript.Proofs.Table

/-!
# References — the reverse index is exact

* `References.RefersTo` — an operand of one instruction names another;
* `References.Exact` — the index holds the sources of every target, and nothing else;
* `References.Renamed` — every target is replaced by its image under a map;
* `References.Exact.retarget` — moving the references of a target keeps the index exact.
-/

namespace NeoScript

open Std (TreeMap TreeSet)

def substitute (old new id : InstrId) : InstrId :=
  if id = old then new else id

namespace HandlerIds

def map (f : InstrId → InstrId) (h : HandlerIds) : HandlerIds :=
  ⟨h.catchId.map f, h.finallyId.map f⟩

/-- Replacing one target is a substitution in both handlers. -/
theorem replace_eq_map (h : HandlerIds) (old new : InstrId) :
    h.replace old new = h.map (substitute old new) := by
  have hswap : ∀ id : Option InstrId,
      (if id = some old then some new else id) = id.map (substitute old new) := by
    intro id
    cases id with
    | none => simp
    | some id => by_cases hid : id = old <;> simp [substitute, hid]
  obtain ⟨catchId, finallyId⟩ := h
  simp only [replace, map, hswap]

theorem map_map (f g : InstrId → InstrId) (h : HandlerIds) : (h.map f).map g = h.map (g ∘ f) := by
  simp [map]

@[simp] theorem map_id (h : HandlerIds) : h.map id = h := by
  simp [map]

theorem toList_map (f : InstrId → InstrId) (h : HandlerIds) :
    (h.map f).toList = h.toList.map f := by
  obtain ⟨catchId, finallyId⟩ := h
  cases catchId <;> cases finallyId <;> rfl

theorem map_congr {f g : InstrId → InstrId} {h : HandlerIds} (heq : ∀ id ∈ h.toList, f id = g id) :
    h.map f = h.map g := by
  obtain ⟨catchId, finallyId⟩ := h
  cases catchId <;> cases finallyId <;> simp_all [map, toList]

/-- A substitution changes only handlers that name the number. -/
theorem map_substitute_of_not_mem {old new : InstrId} {h : HandlerIds} (hold : old ∉ h.toList) :
    h.map (substitute old new) = h := by
  have hcongr : h.map (substitute old new) = h.map id := by
    refine map_congr fun id hid => ?_
    have hne : id ≠ old := fun heq => hold (heq ▸ hid)
    simp [substitute, hne]
  rw [hcongr, map_id]

end HandlerIds

namespace References

/-- The instructions that the index knows to refer to a target. -/
def sourcesOf (r : References) (target : InstrId) : TreeSet InstrId :=
  (r.sources[target]?).getD ∅

/-- An operand of `source` names `target`. -/
def RefersTo (r : References) (source target : InstrId) : Prop :=
  r.jumps[source]? = some target ∨ ∃ h, r.tries[source]? = some h ∧ target ∈ h.toList

/-- The index holds the sources of every target, and nothing else. -/
def Exact (r : References) : Prop :=
  ∀ source target, source ∈ r.sourcesOf target ↔ r.RefersTo source target

structure Renamed (f : InstrId → InstrId) (r r' : References) : Prop where
  jumps : ∀ source : InstrId, r'.jumps[source]? = (r.jumps[source]?).map f
  tries : ∀ source : InstrId, r'.tries[source]? = (r.tries[source]?).map (·.map f)

namespace Renamed

variable {f g : InstrId → InstrId} {r r' r'' : References}

theorem refl (r : References) : Renamed id r r :=
  ⟨by simp, fun source => by cases r.tries[source]? <;> simp⟩

theorem trans (h : Renamed f r r') (h' : Renamed g r' r'') : Renamed (g ∘ f) r r'' := by
  constructor
  · intro source
    rw [h'.jumps, h.jumps, Option.map_map]
  · intro source
    rw [h'.tries, h.tries, Option.map_map]
    congr 1
    funext handlers
    exact handlers.map_map f g

/-- After a renaming an instruction refers to the images of what it referred to. -/
theorem refersTo_iff (h : Renamed f r r') {source target : InstrId} :
    r'.RefersTo source target ↔ ∃ t, r.RefersTo source t ∧ f t = target := by
  unfold RefersTo
  rw [h.jumps, h.tries]
  constructor
  · rintro (hjump | ⟨handlers, htry, hmem⟩)
    · obtain ⟨t, ht, heq⟩ := Option.map_eq_some_iff.1 hjump
      exact ⟨t, .inl ht, heq⟩
    · obtain ⟨old, hold, rfl⟩ := Option.map_eq_some_iff.1 htry
      rw [HandlerIds.toList_map] at hmem
      obtain ⟨t, ht, heq⟩ := List.mem_map.1 hmem
      exact ⟨t, .inr ⟨old, hold, ht⟩, heq⟩
  · rintro ⟨t, hjump | ⟨handlers, htry, hmem⟩, rfl⟩
    · exact .inl (by rw [hjump, Option.map_some])
    · refine .inr ⟨handlers.map f, by rw [htry, Option.map_some], ?_⟩
      rw [HandlerIds.toList_map]
      exact List.mem_map_of_mem hmem

end Renamed

/-! ## Recording operands -/

variable {r : References}

theorem mem_sourcesOf_addSource {target source t s : InstrId} :
    s ∈ (r.addSource target source).sourcesOf t ↔ (t = target ∧ s = source) ∨
      s ∈ r.sourcesOf t := by
  unfold addSource sourcesOf
  rw [TreeMap.getElem?_alter]
  by_cases ht : t = target
  · subst ht
    simp [TreeSet.mem_insert, eq_comm (a := s)]
  · simp [ht, Ne.symm ht]

/-- One source is added to each of the targets. -/
theorem mem_sourcesOf_addSources {source t s : InstrId} (targets : List InstrId) :
    s ∈ (targets.foldl (fun r target => r.addSource target source) r).sourcesOf t ↔
      (t ∈ targets ∧ s = source) ∨ s ∈ r.sourcesOf t := by
  induction targets generalizing r with
  | nil => simp
  | cons target targets ih =>
      rw [List.foldl_cons, ih, mem_sourcesOf_addSource, List.mem_cons]
      tauto

theorem jumps_addSources {source : InstrId} (targets : List InstrId) :
    (targets.foldl (fun r target => r.addSource target source) r).jumps = r.jumps := by
  induction targets generalizing r with
  | nil => rfl
  | cons target targets ih =>
      rw [List.foldl_cons, ih]
      rfl

theorem tries_addSources {source : InstrId} (targets : List InstrId) :
    (targets.foldl (fun r target => r.addSource target source) r).tries = r.tries := by
  induction targets generalizing r with
  | nil => rfl
  | cons target targets ih =>
      rw [List.foldl_cons, ih]
      rfl

/-- Nothing is recorded, and nothing is in the index. -/
theorem exact_empty : empty.Exact := by
  intro source target
  simp [empty, sourcesOf, RefersTo]

def Unrecorded (r : References) (source : InstrId) : Prop :=
  r.jumps[source]? = none ∧ r.tries[source]? = none

/-- Recording a new jump keeps the index exact. -/
theorem Exact.addJump (h : r.Exact) {source target : InstrId} (hnew : r.Unrecorded source) :
    (r.addJump source target).Exact := by
  intro s t
  unfold References.addJump
  rw [mem_sourcesOf_addSource]
  change _ ∨ s ∈ r.sourcesOf t ↔ (r.jumps.insert source target)[s]? = some t ∨
    ∃ h, r.tries[s]? = some h ∧ t ∈ h.toList
  rw [h s t, TreeMap.getElem?_insert]
  by_cases hs : s = source
  · subst hs
    simp [RefersTo, hnew.1, hnew.2, eq_comm (a := t)]
  · simp [RefersTo, hs, Ne.symm hs]

/-- Recording a new try keeps the index exact. -/
theorem Exact.addTry (h : r.Exact) {source : InstrId} {handlers : HandlerIds}
    (hnew : r.Unrecorded source) : (r.addTry source handlers).Exact := by
  intro s t
  unfold References.addTry RefersTo
  rw [mem_sourcesOf_addSources, jumps_addSources, tries_addSources]
  change _ ∨ s ∈ r.sourcesOf t ↔ r.jumps[s]? = some t ∨
    ∃ h, (r.tries.insert source handlers)[s]? = some h ∧ t ∈ h.toList
  rw [h s t, TreeMap.getElem?_insert]
  by_cases hs : s = source
  · subst hs
    simp [RefersTo, hnew.1, hnew.2]
  · simp [RefersTo, hs, Ne.symm hs]

/-! ## Moving references -/

section Redirect

variable {old new : InstrId}

/-- The number that was moved is gone, so moving it again does nothing. -/
theorem substitute_substitute (hne : old ≠ new) (id : InstrId) :
    substitute old new (substitute old new id) = substitute old new id := by
  unfold substitute
  split
  · rw [if_neg (Ne.symm hne)]
  · rfl

/-- A record that one move changes only if it is the one of its source.  To move it twice makes no
difference. -/
theorem redirectAll_eq {α : Type} {g : References → Option α} {f : α → α} {s : InstrId}
    (hone : ∀ r source, g (redirect old new r source) = if source = s then (g r).map f else g r)
    (htwice : ∀ x, f (f x) = f x) (moved : List InstrId) :
    g (moved.foldl (redirect old new) r) = if s ∈ moved then (g r).map f else g r := by
  induction moved generalizing r with
  | nil => simp
  | cons source moved ih =>
      rw [List.foldl_cons, ih, hone]
      by_cases hs : source = s
      · subst hs
        simp [Option.map_map, Function.comp_def, htwice]
      · simp [hs, Ne.symm hs]

/-- The single targets of the moved sources are substituted, and no others. -/
theorem getElem?_jumps_redirectAll (hne : old ≠ new) (moved : List InstrId) (s : InstrId) :
    (moved.foldl (redirect old new) r).jumps[s]? =
      if s ∈ moved then (r.jumps[s]?).map (substitute old new) else r.jumps[s]? := by
  refine redirectAll_eq (g := fun r => r.jumps[s]?) ?_ (substitute_substitute hne) moved
  intro r source
  unfold redirect substitute
  rw [TreeMap.getElem?_modify]
  by_cases hs : source = s
  · subst hs
    simp
  · simp [hs]

/-- So are their handlers. -/
theorem getElem?_tries_redirectAll (hne : old ≠ new) (moved : List InstrId) (s : InstrId) :
    (moved.foldl (redirect old new) r).tries[s]? =
      if s ∈ moved then (r.tries[s]?).map (·.map (substitute old new)) else r.tries[s]? := by
  have htwice : ∀ handlers : HandlerIds,
      (handlers.map (substitute old new)).map (substitute old new) =
        handlers.map (substitute old new) := by
    intro handlers
    rw [HandlerIds.map_map]
    exact congrArg handlers.map (funext (substitute_substitute hne))
  refine redirectAll_eq (g := fun r => r.tries[s]?) ?_ htwice moved
  intro r source
  unfold redirect
  rw [TreeMap.getElem?_modify]
  by_cases hs : source = s
  · subst hs
    simp [HandlerIds.replace_eq_map]
  · simp [hs]

theorem sources_redirectAll (moved : List InstrId) :
    (moved.foldl (redirect old new) r).sources = r.sources := by
  induction moved generalizing r with
  | nil => rfl
  | cons source moved ih =>
      rw [List.foldl_cons, ih]
      rfl

theorem map_substitute_of_ne {jump : Option InstrId} (h : jump ≠ some old) :
    jump.map (substitute old new) = jump := by
  cases jump with
  | none => rfl
  | some id =>
      have hid : id ≠ old := fun heq => h (congrArg some heq)
      simp [substitute, hid]

/-- It is enough to rename what the sources of `old` name: nothing else names `old`. -/
theorem Exact.renamed_of_sources (h : r.Exact) {r' : References}
    (hjumps : ∀ s, r'.jumps[s]? =
      if s ∈ (r.sourcesOf old).toList then (r.jumps[s]?).map (substitute old new) else r.jumps[s]?)
    (htries : ∀ s, r'.tries[s]? =
      if s ∈ (r.sourcesOf old).toList then (r.tries[s]?).map (·.map (substitute old new))
      else r.tries[s]?) :
    Renamed (substitute old new) r r' := by
  constructor
  · intro s
    rw [hjumps]
    split
    · rfl
    · -- The index is exact: what is not a source of `old` does not name it.
      rename_i hs
      rw [TreeSet.mem_toList, h] at hs
      exact (map_substitute_of_ne fun hjump => hs (.inl hjump)).symm
  · intro s
    rw [htries]
    split
    · rfl
    · rename_i hs
      rw [TreeSet.mem_toList, h] at hs
      cases htry : r.tries[s]? with
      | none => rfl
      | some handlers =>
          have hold : old ∉ handlers.toList := fun hmem => hs (.inr ⟨handlers, htry, hmem⟩)
          rw [Option.map_some, HandlerIds.map_substitute_of_not_mem hold]

/-- The index stays exact if the sources of the old target join those of the new one. -/
theorem Exact.of_renamed (h : r.Exact) {r' : References}
    (hrenamed : Renamed (substitute old new) r r')
    (hsources : ∀ s t, s ∈ r'.sourcesOf t ↔
      (t = new ∧ s ∈ r.sourcesOf old) ∨ (t ≠ old ∧ s ∈ r.sourcesOf t)) : r'.Exact := by
  intro s t
  rw [hsources, hrenamed.refersTo_iff, h, h]
  constructor
  · rintro (⟨rfl, hs⟩ | ⟨ht, hs⟩)
    · exact ⟨old, hs, by simp [substitute]⟩
    · exact ⟨t, hs, by simp [substitute, ht]⟩
  · rintro ⟨target, hs, rfl⟩
    by_cases htarget : target = old
    · subst htarget
      exact .inl ⟨by simp [substitute], hs⟩
    · have hsame : substitute old new target = target := by simp [substitute, htarget]
      rw [hsame]
      exact .inr ⟨htarget, hs⟩

end Redirect

theorem retarget_self (r : References) (id : InstrId) : r.retarget id id = r := by
  simp [References.retarget]

/-- Moving the references of a target renames exactly that target and keeps the index exact. -/
theorem Exact.retarget (h : r.Exact) (old new : InstrId) :
    Renamed (substitute old new) r (r.retarget old new) ∧ (r.retarget old new).Exact := by
  by_cases hne : old = new
  · subst hne
    have hid : substitute old old = id := by
      funext id
      simp only [substitute, id_eq]
      split <;> simp_all
    rw [retarget_self, hid]
    exact ⟨.refl r, h⟩
  · unfold References.retarget
    rw [if_neg hne]
    cases hold : r.sources[old]? with
    | none =>
        -- Nothing names `old`, so nothing has to move.
        have hempty : r.sourcesOf old = ∅ := by simp [sourcesOf, hold]
        exact ⟨h.renamed_of_sources (by simp [hempty]) (by simp [hempty]), h⟩
    | some moved =>
        have hmoved : r.sourcesOf old = moved := by simp [sourcesOf, hold]
        refine (fun hrenamed => ⟨hrenamed, h.of_renamed hrenamed ?_⟩) (h.renamed_of_sources ?_ ?_)
        · intro s
          rw [hmoved]
          exact getElem?_jumps_redirectAll hne moved.toList s
        · intro s
          rw [hmoved]
          exact getElem?_tries_redirectAll hne moved.toList s
        · intro s t
          rw [hmoved]
          unfold sourcesOf
          simp only [sources_redirectAll]
          rw [TreeMap.getElem?_alter, TreeMap.getElem?_erase, TreeMap.getElem?_erase]
          by_cases hnew : t = new
          · subst hnew
            simp [Table.mem_insertAll, hne, Ne.symm hne]
          · by_cases ht : t = old
            · subst ht
              simp [hne, Ne.symm hne]
            · simp [hnew, Ne.symm hnew, ht, Ne.symm ht]

end References

end NeoScript
