import NeoScript.Proofs.Contract.Checks
import NeoScript.Proofs.Relocation.AddressMap

/-!
# Rebuild — the contract around a relocated script

* `Contract.Rebuilt` — a contract whose script consists of links and whose recorded addresses are
  where these begin;
* `Contract.Checked.rebuild` — rebuilding gives such a contract, unless its script is too long.
-/

namespace NeoScript

/-! ## Moved addresses -/

section Moved

variable {script : Script} {code code' : Code} {links : List Link} {xs : List Instruction}
  {m : AddressMap}

/-- Every block start has a place in the new script. -/
theorem Rewrites.exists_lands {g : FlowGraph} {starts : List Nat}
    {groups : List (List (Instruction × Nat))}
    {parts : List (List Segment)} {r : Revision} (h : Rewrites g script starts groups parts r)
    (htransfer : Transferred script links xs) (hparts : links.map Prod.fst = parts.flatten)
    (hread : script.IsReading code) {pc : Nat} (hpc : script.isBoundary pc = true)
    (hstart : script.IsStart starts pc) : ∃ q, Lands links pc q := by
  obtain ⟨target, hmem, rfl⟩ := hread.isBoundary_iff.1 hpc
  obtain ⟨t, ht⟩ := List.getElem?_of_mem hmem
  rw [Array.getElem?_toList] at ht
  obtain ⟨j, hhead⟩ := h.exists_headAt ht hstart
  rw [← hparts] at hhead
  exact htransfer.exists_lands_of_headAt hread hhead ht

/-- A recorded address goes to an instruction of the new script, or to its end. -/
theorem exists_resolve_of_isBoundaryOrEnd (h : Transferred script links xs)
    (hread : script.IsReading code)
    (hmap : m.Follows links) (hencode : encode xs = .ok code') {pc : Nat}
    (hpc : isBoundaryOrEnd script pc = true) :
    ∃ q, m.resolve pc = .ok q ∧ isBoundaryOrEnd (.ofInstructions xs.toArray) q = true := by
  have hread' := Script.isReading_of_encode h.placed hencode
  have hend : totalSize (links.flatMap Link.olds) = code.size := by rw [h.olds, hread.size]
  have hle : pc ≤ totalSize (links.flatMap Link.olds) := by
    rw [hend]
    rcases Bool.or_eq_true_iff.1 hpc with hboundary | hlast
    · exact Nat.le_of_lt (hread.lt_of_isBoundary hboundary)
    · rw [decide_eq_true_eq, hread.length_eq] at hlast
      exact Nat.le_of_eq hlast
  obtain ⟨q, hq, hplace⟩ := hmap.exists_resolve hle
  refine ⟨q, hq, Bool.or_eq_true_iff.2 ?_⟩
  rcases hplace with ⟨p', hlands⟩ | rfl
  · exact .inl (hread'.isBoundary_iff.2 (h.exists_of_lands hlands))
  · right
    rw [decide_eq_true_eq, hread'.length_eq, ← hread'.size, h.news]
    rfl

structure DebugMethod.Moved (links : List Link) (script' : Script) (old new : DebugMethod) :
    Prop where
  first : Lands links old.range.first new.range.first
  leads : new.Leads script'

/-- Addresses that lead to instructions can be moved with them. -/
theorem exists_mapMethod (h : Transferred script links xs) (hread : script.IsReading code)
    (hmap : m.Follows links) (hencode : encode xs = .ok code') {method : DebugMethod}
    (hleads : method.Leads script) {q : Nat} (hlands : Lands links method.range.first q) :
    ∃ method', DebugInfo.mapMethod m.resolve method = .ok method' ∧
      method.Moved links (.ofInstructions xs.toArray) method' := by
  have hread' := Script.isReading_of_encode h.placed hencode
  have hfirst := hmap.resolve_of_mem (hmap.mem_iff.2 (.inl hlands))
  obtain ⟨last, hlast, hlastEnd⟩ :=
    exists_resolve_of_isBoundaryOrEnd h hread hmap hencode hleads.last
  have hpoint : ∀ p ∈ method.points, ∃ p' : SequencePoint,
      (do return { p with address := ← m.resolve p.address }) = Except.ok p' ∧
        isBoundaryOrEnd (.ofInstructions xs.toArray) p'.address = true := by
    intro p hp
    obtain ⟨address, haddress, hend⟩ :=
      exists_resolve_of_isBoundaryOrEnd h hread hmap hencode (hleads.points p hp)
    exact ⟨{ p with address }, Sequencing.bind_eq_ok.2 ⟨address, haddress, rfl⟩, hend⟩
  obtain ⟨points, hpoints, hpointsEnd⟩ := Sequencing.exists_mapM hpoint
  refine ⟨{ method with range := ⟨q, last⟩, points := points.eraseDups }, ?_, hlands, ?_⟩
  · refine Sequencing.bind_eq_ok.2 ⟨q, hfirst, Sequencing.bind_eq_ok.2 ⟨last, hlast, ?_⟩⟩
    exact Sequencing.bind_eq_ok.2 ⟨points, hpoints, rfl⟩
  · refine ⟨hread'.isBoundary_iff.2 (h.exists_of_lands hlands), hlastEnd, fun p hp => ?_⟩
    obtain ⟨_, -, hend⟩ := Sequencing.exists_left_of_forall₂ hpointsEnd (List.mem_eraseDups.1 hp)
    exact hend

end Moved

/-! ## Rebuilt contracts -/

namespace Contract

/-- A contract around the links of a script: every recorded address is where its link begins now. -/
structure Rebuilt (c c' : Contract) (script : Script) (links : List Link) (xs : List Instruction) :
    Prop where
  transferred : Transferred script links xs
  checked : c'.Checked (.ofInstructions xs.toArray)
  methods : List.Forall₂ (fun m m' => Lands links m.offset m'.offset) c.manifest.abi.methods
    c'.manifest.abi.methods
  entryPoints : ∀ q, q ∈ c'.entryPoints ↔ ∃ p ∈ c.entryPoints, Lands links p q

section Rebuild

variable {c : Contract} {script : Script} {code' : Code} {links : List Link} {xs : List Instruction}
  {m : AddressMap}

/-- A manifest can be moved if its methods begin where links do. -/
theorem exists_moveManifest (hmap : m.Follows links)
    (hlands : ∀ method ∈ c.manifest.abi.methods, ∃ q, Lands links method.offset q) :
    ∃ manifest', moveManifest m c.manifest = .ok manifest' ∧
      List.Forall₂ (fun m m' => Lands links m.offset m'.offset) c.manifest.abi.methods
        manifest'.abi.methods := by
  have hmethod : ∀ method ∈ c.manifest.abi.methods, ∃ method',
      moveMethod m method = .ok method' ∧ Lands links method.offset method'.offset := by
    intro method hmem
    obtain ⟨q, hq⟩ := hlands method hmem
    have hresolve := hmap.resolve_of_mem (hmap.mem_iff.2 (.inl hq))
    exact ⟨{ method with offset := q }, Sequencing.bind_eq_ok.2 ⟨q, hresolve, rfl⟩, hq⟩
  obtain ⟨methods, hmethods, hmoved⟩ := Sequencing.exists_mapM hmethod
  exact ⟨_, Sequencing.bind_eq_ok.2 ⟨methods, hmethods, rfl⟩, hmoved⟩

inductive DebugMoved (links : List Link) (script' : Script) :
    Option DebugInfo → Option DebugInfo → Prop where
  | absent : DebugMoved links script' none none
  | present {info info' : DebugInfo}
      (h : List.Forall₂ (DebugMethod.Moved links script') info.methods info'.methods) :
      DebugMoved links script' (some info) (some info')

/-- Debug information of a checked contract can be moved if its methods begin where links do. -/
theorem exists_moveDebug (h : Transferred script links xs) (hchecked : c.Checked script)
    (hmap : m.Follows links) (hencode : encode xs = .ok code')
    (hlands : ∀ info ∈ c.debug, ∀ method ∈ info.methods, ∃ q, Lands links method.range.first q) :
    ∃ debug', moveDebug m c.debug = .ok debug' ∧
      DebugMoved links (.ofInstructions xs.toArray) c.debug debug' := by
  have hleads := hchecked.debug
  cases hdebug : c.debug with
  | none => exact ⟨none, rfl, .absent⟩
  | some info =>
      have hmethod : ∀ method ∈ info.methods, ∃ method',
          DebugInfo.mapMethod m.resolve method = .ok method' ∧
          method.Moved links (.ofInstructions xs.toArray) method' := by
        intro method hmem
        obtain ⟨q, hq⟩ := hlands info hdebug method hmem
        exact exists_mapMethod h hchecked.valid.toIsReading hmap hencode
          (hleads info hdebug method hmem) hq
      obtain ⟨methods, hmethods, hmoved⟩ := Sequencing.exists_mapM hmethod
      refine ⟨some { info with methods }, ?_, .present hmoved⟩
      refine Sequencing.map_eq_ok.2 ⟨{ info with methods }, ?_, rfl⟩
      exact Sequencing.bind_eq_ok.2 ⟨methods, hmethods, rfl⟩

/-- The entry points of the new contract are where those of the old one land. -/
theorem mem_entryPoints_iff_lands {c' : Contract} (h : Transferred script links xs)
    {script' : Script}
    (hmethods : List.Forall₂ (fun m m' => Lands links m.offset m'.offset) c.manifest.abi.methods
      c'.manifest.abi.methods) (hdebug : DebugMoved links script' c.debug c'.debug) (q : Nat) :
    q ∈ c'.entryPoints ↔ ∃ p ∈ c.entryPoints, Lands links p q := by
  have hunique : ∀ {p q q' : Nat}, Lands links p q → Lands links p q' → q = q' :=
    fun hq hq' => (h.lands_inj hq hq').1 rfl
  -- Methods of the manifest and of the debug information move alike, one by one.
  constructor
  · intro hq
    rcases mem_entryPoints.1 hq with ⟨m', hm', rfl⟩ | ⟨info', hinfo', m', hm', rfl⟩
    · obtain ⟨m, hm, hlands⟩ := Sequencing.exists_left_of_forall₂ hmethods hm'
      exact ⟨_, mem_entryPoints.2 (.inl ⟨m, hm, rfl⟩), hlands⟩
    · generalize hc : c.debug = debug at hdebug
      rw [hinfo'] at hdebug
      cases hdebug with
      | @present info _ hmoved =>
          obtain ⟨m, hm, hlands⟩ := Sequencing.exists_left_of_forall₂ hmoved hm'
          exact ⟨_, mem_entryPoints.2 (.inr ⟨info, hc, m, hm, rfl⟩), hlands.first⟩
  · rintro ⟨p, hp, hlands⟩
    rcases mem_entryPoints.1 hp with ⟨m, hm, rfl⟩ | ⟨info, hinfo, m, hm, rfl⟩
    · obtain ⟨m', hm', hlands'⟩ := Sequencing.exists_right_of_forall₂ hmethods hm
      exact mem_entryPoints.2 (.inl ⟨m', hm', hunique hlands' hlands⟩)
    · generalize hc : c'.debug = debug at hdebug
      rw [hinfo] at hdebug
      cases hdebug with
      | @present _ info' hmoved =>
          obtain ⟨m', hm', hlands'⟩ := Sequencing.exists_right_of_forall₂ hmoved hm
          exact mem_entryPoints.2 (.inr ⟨info', hc, m', hm', hunique hlands'.first hlands⟩)

/-- What was moved along leads to instructions of the new script again. -/
theorem Addressed.of_moved {c' : Contract} (h : Transferred script links xs)
    (hencode : encode xs = .ok c'.nef.script)
    (hmethods : List.Forall₂ (fun m m' => Lands links m.offset m'.offset) c.manifest.abi.methods
      c'.manifest.abi.methods)
    (hdebug : DebugMoved links (.ofInstructions xs.toArray) c.debug c'.debug) :
    c'.Addressed (.ofInstructions xs.toArray) := by
  have hread := Script.isReading_of_encode h.placed hencode
  refine ⟨h.isValid hencode, ?_, ?_⟩
  · intro m' hm'
    obtain ⟨m, -, hlands⟩ := Sequencing.exists_left_of_forall₂ hmethods hm'
    exact hread.isBoundary_iff.2 (h.exists_of_lands hlands)
  · intro info' hinfo' m' hm'
    generalize c.debug = debug at hdebug
    rw [hinfo'] at hdebug
    cases hdebug with
    | present hmoved =>
        obtain ⟨m, -, hm⟩ := Sequencing.exists_left_of_forall₂ hmoved hm'
        exact hm.leads

/-- The new instructions can be written, and there are some. -/
theorem Transferred.exists_encode (h : Transferred script links xs)
    (hne : script.instructions.toList ≠ []) : ∃ code, encode xs = .ok code ∧ code.size ≠ 0 := by
  refine ⟨(xs.flatMap (·.bytes)).toArray, encode_eq_ok_iff.2 ⟨h.fits, rfl⟩, ?_⟩
  rw [List.size_toArray, length_flatMap_bytes h.fits, ← h.news]
  cases links with
  | nil => exact absurd h.olds.symm hne
  | cons l links =>
      have hpos := totalSize_pos (h.news_ne_nil l (List.mem_cons_self ..))
      rw [List.flatMap_cons, totalSize_append]
      omega

/-- Rebuilding a checked contract fails only if the new script is too long. -/
theorem Checked.rebuild {g : FlowGraph} {groups : List (List (Instruction × Nat))}
    {parts : List (List Segment)} {r : Revision} (h : c.Checked script)
    (hrewrites : Rewrites g script c.entryPoints groups parts r) :
    ∃ relocation, relocate r = .ok relocation ∧
      ((∃ code, encode relocation.instructions = .ok code ∧ Nef.maxScriptLength < code.size ∧
          c.nef.withScript code = .error (.invalidNef (.scriptLength code.size)) ∧
          c.rebuild relocation = .error (.invalidNef (.scriptLength code.size))) ∨
        ∃ c' links, c.rebuild relocation = .ok c' ∧
          c.Rebuilt c' script links relocation.instructions ∧
          relocation.addressMap.Follows links ∧ links.map Prod.fst = parts.flatten) := by
  obtain ⟨links, xs, upgraded, hrelocate, htransfer, hparts⟩ :=
    hrewrites.exists_transferred h.valid h.size.2
  have hmap := hrewrites.follows htransfer hparts h.valid.toIsReading
  refine ⟨_, hrelocate, ?_⟩
  -- Entry points start blocks, and blocks keep their beginnings.
  have hlands : ∀ pc ∈ c.entryPoints, ∃ q, Lands links pc q := fun pc hpc =>
    hrewrites.exists_lands htransfer hparts h.valid.toIsReading (h.isBoundary_entryPoints pc hpc)
      (.inr (.inl hpc))
  obtain ⟨code', hencode, hne⟩ := Transferred.exists_encode htransfer h.instructions_ne_nil
  have hsealable := Nef.sealable_of_computeChecksum h.checksum
  -- Nothing but the length of the script can keep it from being sealed.
  by_cases hlong : Nef.maxScriptLength < code'.size
  · have hfails := hsealable.withScript_of_lt hlong
    refine .inl ⟨code', hencode, hlong, hfails, ?_⟩
    simp only [Contract.rebuild, hencode, Sequencing.ok_bind, hfails, Sequencing.error_bind]
  · obtain ⟨nef', hnef, rfl, hchecksum⟩ :=
      hsealable.exists_withScript _ hne (Nat.le_of_not_lt hlong)
    obtain ⟨manifest', hmanifest, hmethods⟩ := exists_moveManifest (c := c) hmap
      fun m hm => hlands _ (mem_entryPoints.2 (.inl ⟨m, hm, rfl⟩))
    obtain ⟨debug', hdebug, hmoved⟩ := exists_moveDebug htransfer h hmap hencode
      fun info hinfo m hm => hlands _ (mem_entryPoints.2 (.inr ⟨info, hinfo, m, hm, rfl⟩))
    refine .inr ⟨⟨nef', manifest', debug'⟩, links, ?_, ⟨htransfer, ?_, hmethods, ?_⟩, hmap, hparts⟩
    · refine Sequencing.bind_eq_ok.2 ⟨_, hencode, Sequencing.bind_eq_ok.2 ⟨nef', hnef, ?_⟩⟩
      exact Sequencing.bind_eq_ok.2 ⟨manifest', hmanifest,
        Sequencing.bind_eq_ok.2 ⟨debug', hdebug, rfl⟩⟩
    · exact ⟨.of_moved htransfer hencode hmethods hmoved, hchecksum⟩
    · exact mem_entryPoints_iff_lands htransfer hmethods hmoved

end Rebuild

end Contract

end NeoScript
