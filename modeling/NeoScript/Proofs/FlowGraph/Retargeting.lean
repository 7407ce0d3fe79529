import NeoScript.Proofs.FlowGraph.Acceptance

/-!
# Retargeting — chains of moves keep the reverse index exact

A move looks only at the sources that the reverse index knows, so it finds every reference because
the index is exact, and the next move does because this one left it exact.

* `References.Redirects`, `References.Redirected` — what a move makes of one reference, and of all;
* `References.retargetAll` — moves one after the other;
* `FlowGraph.exact_of_build` — a graph begins with an exact index;
* `FlowGraph.retargetAll_index_exact` — every chain of moves keeps it so, and every further move
  redirects the references to one number and no others.
-/

namespace NeoScript

theorem HandlerIds.mem_toList_iff {h : HandlerIds} {id : InstrId} :
    id ∈ h.toList ↔ h.catchId = some id ∨ h.finallyId = some id := by
  rw [toList, List.mem_append, Option.mem_toList, Option.mem_toList]

/-! ## One move -/

namespace References

variable {r r' : References} {old new : InstrId}

/-- A reference to `old` becomes one to `new`; any other stays, and so does the lack of one. -/
def Redirects (old new : InstrId) (before after : Option InstrId) : Prop :=
  (before = some old → after = some new) ∧ (before ≠ some old → after = before)

/-- A substitution redirects what names the old number and keeps the rest. -/
theorem redirects_map_substitute (old new : InstrId) (before : Option InstrId) :
    Redirects old new before (before.map (substitute old new)) := by
  refine ⟨?_, map_substitute_of_ne⟩
  rintro rfl
  simp [substitute]

/-- Every reference of every instruction is redirected, and none to `old` is left. -/
structure Redirected (old new : InstrId) (r r' : References) : Prop where
  jumps : ∀ source : InstrId, Redirects old new r.jumps[source]? r'.jumps[source]?
  tries : ∀ source : InstrId, Option.Rel
    (fun h h' => Redirects old new h.catchId h'.catchId ∧
      Redirects old new h.finallyId h'.finallyId)
    r.tries[source]? r'.tries[source]?
  gone : ∀ source : InstrId, ¬ r'.RefersTo source old

/-- References that are renamed by a substitution are redirected. -/
theorem Renamed.redirected (h : Renamed (substitute old new) r r') (hne : old ≠ new) :
    Redirected old new r r' := by
  refine ⟨fun source => ?_, fun source => ?_, fun source hrefers => ?_⟩
  · rw [h.jumps]
    exact redirects_map_substitute old new _
  · rw [h.tries]
    cases r.tries[source]? with
    | none => exact .none
    | some handlers =>
        exact .some ⟨redirects_map_substitute old new _, redirects_map_substitute old new _⟩
  · -- Neither the image of `old` nor that of another number is `old`.
    obtain ⟨target, -, himage⟩ := h.refersTo_iff.1 hrefers
    unfold substitute at himage
    split at himage
    · exact hne himage.symm
    · contradiction

/-! ## Chains of moves -/

/-- Points references from the first number of each pair to the second, pair after pair. -/
def retargetAll (r : References) (moves : List (InstrId × InstrId)) : References :=
  moves.foldl (fun r move => r.retarget move.1 move.2) r

/-- Any number of moves keeps the index exact. -/
theorem Exact.retargetAll (h : r.Exact) (moves : List (InstrId × InstrId)) :
    (r.retargetAll moves).Exact := by
  induction moves generalizing r with
  | nil => exact h
  | cons move moves ih => exact ih (h.retarget move.1 move.2).2

end References

/-! ## Graphs -/

namespace FlowGraph

variable {script : Script} {entryPoints : List Nat} {g : FlowGraph}

/-- The references of a graph are those of a survey that followed every operand, so their index is
exact. -/
theorem exact_of_build (hbuild : build script entryPoints = .ok g) : g.references.Exact := by
  unfold build at hbuild
  split at hbuild
  · cases hbuild
  · obtain ⟨survey, hrun, hconnect⟩ := Sequencing.bind_eq_ok.1 hbuild
    obtain ⟨parts, -, hgraph⟩ := Sequencing.bind_eq_ok.1 hconnect
    cases hgraph
    -- A survey that succeeds is the one that the operands call for.
    obtain ⟨survey', hrun', hsurvey⟩ := Survey.run_of_leads (Survey.leads_of_run hrun) entryPoints
    cases hrun.symm.trans hrun'
    exact hsurvey.references.exact

/-- After any chain of moves, the sources that the index knows for a number are the instructions
that name it as their target, their catch block or their finally block.  A further move to another
number leaves nothing that names the old one, redirects what named it, and changes no other
reference. -/
theorem retargetAll_index_exact (hbuild : build script entryPoints = .ok g)
    (moves : List (InstrId × InstrId)) :
    (∀ source target : InstrId,
      source ∈ (g.references.retargetAll moves).sourcesOf target ↔
        (g.references.retargetAll moves).jumps[source]? = some target ∨
          ∃ h, (g.references.retargetAll moves).tries[source]? = some h ∧
            (h.catchId = some target ∨ h.finallyId = some target)) ∧
    ∀ old new : InstrId, old ≠ new →
      References.Redirected old new (g.references.retargetAll moves)
        ((g.references.retargetAll moves).retarget old new) := by
  have hexact := (exact_of_build hbuild).retargetAll moves
  constructor
  · intro source target
    rw [hexact source target]
    simp only [References.RefersTo, HandlerIds.mem_toList_iff]
  · intro old new hne
    exact (hexact.retarget old new).1.redirected hne

end FlowGraph

/-- A try with one block as catch and as finally handler, and a jump to the same block. -/
def Samples.sharedHandler : Code :=
  #[0x3B, 0x06, 0x06, 0x22, 0x03, 0x40, 0x40]

/-- All three references follow a chain of moves to a number that has none at first, and from there
to the return in front of the block. -/
theorem FlowGraph.retargetAll_index_exact_shared : ∃ script g,
    Script.decode Samples.sharedHandler = .ok script ∧ build script [] = .ok g ∧ (2 : InstrId) ≠ 3 ∧
    ((g.references.retargetAll [(3, 9), (9, 2)]).sourcesOf 2).toList = [0, 1] ∧
    (g.references.retargetAll [(3, 9), (9, 2)]).jumps[1]? = some 2 ∧
    (g.references.retargetAll [(3, 9), (9, 2)]).tries[0]? = some ⟨some 2, some 2⟩ ∧
    References.Redirected 2 3 (g.references.retargetAll [(3, 9), (9, 2)])
      ((g.references.retargetAll [(3, 9), (9, 2)]).retarget 2 3) := by
  obtain ⟨script, hdecode⟩ : ∃ script, Script.decode Samples.sharedHandler = .ok script := ⟨_, rfl⟩
  have hcompute : (do
      let script ← Script.decode Samples.sharedHandler
      let g ← build script []
      let r := g.references.retargetAll [(3, 9), (9, 2)]
      return ((r.sourcesOf 2).toList, r.jumps[1]?, r.tries[0]?)) =
        .ok ([0, 1], some 2, some ⟨some 2, some 2⟩) := by
    decide +kernel
  rw [hdecode, Sequencing.ok_bind] at hcompute
  obtain ⟨g, hbuild, hviews⟩ := Sequencing.bind_eq_ok.1 hcompute
  obtain ⟨hsources, hoperands⟩ := Prod.mk.inj (Except.ok.inj hviews)
  obtain ⟨hjump, htry⟩ := Prod.mk.inj hoperands
  exact ⟨script, g, hdecode, hbuild, by decide, hsources, hjump, htry,
    (retargetAll_index_exact hbuild _).2 2 3 (by decide)⟩

end NeoScript
