import NeoScript.Proofs.CommandLine.Resealing
import NeoScript.Proofs.Nef.RoundTrip
import NeoScript.Proofs.Optimizer.Frame

/-!
# Leniency — commands that do not look at a checksum

* `OptimizeOptions.execute_eq` — an optimization reads everything before it writes anything;
* `alike_gather`, `alike_conclude` — what it reads and writes, if only a checksum differs;
* `CommandLine.lenient_ignores_checksum` — a lenient command does the same with every checksum;
* `CommandLine.configured_depends_on_checksum` — settings alone do not make a command lenient.
-/

namespace NeoScript

open Command

/-! ## Writing -/

section Writing

variable {R R' : FileStore.Kinship}

/-- Writing the same contract into twin stores leaves twin stores. -/
theorem alike_writeContract (directory stem : String) (c : Contract) :
    Alike (Session.Twin R) Eq (Session.Twin R) (OptimizeOptions.writeContract directory stem c)
      (OptimizeOptions.writeContract directory stem c) := by
  unfold OptimizeOptions.writeContract
  dsimp only
  split_ifs
  -- The same files follow, whether or not there is a directory to create.
  on_goal 1 => refine (alike_createDirectories directory).bind fun _ _ _ => ?_
  all_goals
    refine (Alike.ofExcept (.refl _)).bind ?_
    rintro bytes _ rfl
    refine (alike_write _ _).bind fun _ _ _ => (alike_write _ _).bind fun _ _ _ => ?_
    split
    · exact alike_write _ _
    · exact .pure rfl

theorem alike_writeReport (o : OptimizeOptions) (done : Optimization) :
    Alike (Session.Twin R) Eq (Session.Twin R) (o.writeReport done) (o.writeReport done) := by
  unfold OptimizeOptions.writeReport
  split
  · exact (alike_write _ _).bind fun _ _ _ => alike_print _
  · exact .pure rfl

theorem alike_writeTrace (o : OptimizeOptions) (done : Optimization) :
    Alike (Session.Twin R) Eq (Session.Twin R) (o.writeTrace done) (o.writeTrace done) := by
  unfold OptimizeOptions.writeTrace
  split
  · refine (Alike.ofExcept (.refl _)).bind ?_
    rintro graph _ rfl
    exact (alike_write _ _).bind fun _ _ _ => alike_print _
  · exact .pure rfl

/-! ## Listings -/

/-- A source that is a text is added, and the session does not change. -/
theorem run_loadSource {info : DebugInfo} {document : Nat} {path : String}
    (hpath : info.documentPath? document = some path) (sources : Sources) (s : Session) :
    (loadSource info sources document : StateM Session Sources).run s =
      ((match (s.store.read? path).bind Utf8.decode? with
        | some text => sources.insert path text
        | none => sources), s) := by
  unfold loadSource
  rw [hpath]
  change (match (s.store.read? path).bind Utf8.decode? with
    | some text => pure (sources.insert path text)
    | none => pure sources : StateM Session Sources).run s = _
  cases (s.store.read? path).bind Utf8.decode? <;> rfl

/-- A document is added alike, if it holds the same in both sessions. -/
theorem exists_loadSource (info : DebugInfo) (sources : Sources) {document : Nat} {s s' : Session}
    (h : ∀ path, info.documentPath? document = some path →
      s'.store.read? path = s.store.read? path) :
    ∃ next, (loadSource info sources document : StateM Session Sources).run s = (next, s) ∧
      (loadSource info sources document : StateM Session Sources).run s' = (next, s') := by
  cases hpath : info.documentPath? document with
  | none =>
      unfold loadSource
      rw [hpath]
      exact ⟨sources, rfl, rfl⟩
  | some path =>
      exact ⟨_, run_loadSource hpath sources s, by rw [run_loadSource hpath, h path hpath]⟩

/-- Stores with the same sources give the same texts. -/
theorem exists_foldlM_loadSource (info : DebugInfo) (documents : List Nat) (sources : Sources)
    {s s' : Session} (h : ∀ document path, info.documentPath? document = some path →
      s'.store.read? path = s.store.read? path) :
    ∃ next, (documents.foldlM (loadSource info) sources : StateM Session Sources).run s =
      (next, s) ∧
      (documents.foldlM (loadSource info) sources : StateM Session Sources).run s' =
        (next, s') := by
  induction documents generalizing sources with
  | nil => exact ⟨sources, rfl, rfl⟩
  | cons document documents ih =>
      obtain ⟨added, hadded, hadded'⟩ := exists_loadSource info sources (h document)
      obtain ⟨next, hnext, hnext'⟩ := ih added
      refine ⟨next, ?_, ?_⟩
      · rw [List.foldlM_cons, StateT.run_bind, hadded]
        exact hnext
      · rw [List.foldlM_cons, StateT.run_bind, hadded']
        exact hnext'

/-- Sources are loaded alike, if they hold the same in both sessions. -/
theorem exists_loadSources (debug : Option DebugInfo) {s s' : Session}
    (h : ∀ info document path, debug = some info → info.documentPath? document = some path →
      s'.store.read? path = s.store.read? path) :
    ∃ sources, (loadSources debug : StateM Session Sources).run s = (sources, s) ∧
      (loadSources debug : StateM Session Sources).run s' = (sources, s') := by
  cases debug with
  | none => exact ⟨.empty, rfl, rfl⟩
  | some info =>
      exact exists_foldlM_loadSource info _ .empty fun document path => h info document path rfl

/-- A path that leads to no related files leads to the same. -/
theorem FileStore.Twin.read?_eq {s s' : FileStore} (h : s.Twin R s') {path : String}
    (hpath : ∀ place bytes bytes', s.locate path = .ok place → ¬ R.allows place bytes bytes') :
    s'.read? path = s.read? path := by
  rcases cases_of_rel (h.read? path) with ⟨hnone, hnone'⟩ | ⟨bytes, bytes', hsome, hsome', hkin⟩
  · rw [hnone, hnone']
  · rcases hkin with rfl | ⟨place, hplace, hkin⟩
    · rw [hsome, hsome']
    · exact absurd hkin (hpath place bytes bytes' hplace)

/-- No document of debug information leads to related files, in any store. -/
def Unrelated (R : FileStore.Kinship) (debug : Option DebugInfo) : Prop :=
  ∀ info document path, debug = some info → info.documentPath? document = some path →
    ∀ store : FileStore, store.here = R.here → ∀ place bytes bytes', store.locate path = .ok place →
      ¬ R.allows place bytes bytes'

/-- Sources are loaded in both sessions, and they are the same if no document leads to related
files. -/
theorem alike_loadSources (debug : Option DebugInfo) {quoted : Prop}
    (h : Unrelated R debug ∨ quoted) :
    Alike (Session.Twin R) (fun sources sources' => sources' = sources ∨ quoted) (Session.Twin R)
      (liftM (loadSources debug : StateM Session Sources))
      (liftM (loadSources debug : StateM Session Sources)) := by
  intro s s' hs
  rw [perform_liftM, perform_liftM]
  rcases h with hunrelated | hquoted
  · obtain ⟨sources, hrun, hrun'⟩ := exists_loadSources debug fun info document path hinfo hpath =>
      hs.store.read?_eq (hunrelated info document path hinfo hpath s.store hs.store.here)
    rw [hrun, hrun']
    exact ⟨.ok (.inl rfl), hs⟩
  -- Sources may differ here, but there are some in each session, which stays as it is.
  · obtain ⟨sources, hrun, -⟩ :=
      exists_loadSources debug fun _ _ _ _ _ => (rfl : s.store.read? _ = _)
    obtain ⟨sources', hrun', -⟩ :=
      exists_loadSources debug fun _ _ _ _ _ => (rfl : s'.store.read? _ = _)
    rw [hrun, hrun']
    exact ⟨.ok (.inr hquoted), hs⟩

/-- Whether there is a listing does not depend on sources. -/
theorem ends_render (c : Contract) {sources sources' : Sources} {quoted : Prop}
    (h : sources' = sources ∨ quoted) :
    Ends (fun text text' => text' = text ∨ quoted)
      (Listing.render c.nef c.debug (some c.manifest) .n3 sources)
      (Listing.render c.nef c.debug (some c.manifest) .n3 sources') := by
  rcases h with rfl | hquoted
  · exact (Ends.refl _).imp fun _ _ heq => .inl heq.symm
  · unfold Listing.render Listing.lines
    -- Only the script can be refused.
    cases listed c.nef.script with
    | error e => exact .error e e
    | ok instructions => exact .ok (.inr hquoted)

/-- A listing that quotes related files need not be the same. -/
theorem alike_writeListing (directory stem : String) (c : Contract)
    (hmono : R.Widens R')
    (h : Unrelated R c.debug ∨ ∀ store : FileStore, store.here = R'.here → ∀ place bytes bytes',
      store.locate (Path.join directory (stem ++ ".optimized.nef.txt")) = .ok place →
        R'.allows place bytes bytes') :
    Alike (Session.Twin R) Eq (Session.Twin R') (OptimizeOptions.writeListing directory stem c)
      (OptimizeOptions.writeListing directory stem c) := by
  have hwiden : ∀ s s', Session.Twin R s s' → Session.Twin R' s s' := fun _ _ hs => hs.mono hmono
  refine (alike_loadSources c.debug h).andThen ?_ hwiden
  intro sources sources' hsources
  refine (Alike.ofExcept (ends_render c hsources)).andThen ?_ hwiden
  intro text text' htext
  refine Alike.mono (alike_write_kin _ ?_) hwiden fun _ _ => id
  rcases htext with rfl | hquoted
  · exact .inl rfl
  · exact .inr fun store hhere place hplace => hquoted store hhere place _ _ hplace

end Writing

namespace Optimizer

/-- An optimization keeps the documents of debug information. -/
theorem documentPath?_of_optimize {config : Config} {c : Contract} {result : Optimization}
    (h : optimize config c = .ok result) {info : DebugInfo}
    (hinfo : result.contract.debug = some info) :
    ∃ given, c.debug = some given ∧
      ∀ document, info.documentPath? document = given.documentPath? document := by
  obtain ⟨script, -, ⟨-, checksum, hsame⟩ | ⟨-, move, -, hmoved, -⟩⟩ := moved_of_optimize h
  · rw [hsame] at hinfo
    exact ⟨info, hinfo, fun _ => rfl⟩
  · rw [hmoved.debug] at hinfo
    obtain ⟨given, hgiven, rfl⟩ := Option.map_eq_some_iff.1 hinfo
    exact ⟨given, hgiven, fun _ => rfl⟩

end Optimizer

/-! ## Reading first, then writing -/

namespace OptimizeOptions

/-- What an optimization reads before it writes anything. -/
structure Input where
  config : Config
  stem : String
  contract : Contract

def gather (o : OptimizeOptions) : Simulated Input := do
  let config ← o.settings
  let stem ← liftExcept (ArtifactPaths.stem o.nef)
  let paths ← liftExcept (ArtifactPaths.resolve o.nef o.manifest o.debugInfo)
  let artifacts ← Artifacts.load paths o.lenient
  let contract ← liftExcept (artifacts.contract paths.manifest)
  return ⟨config, stem, contract⟩

def conclude (o : OptimizeOptions) (input : Input) : Simulated Unit := do
  printLine ("Optimizing " ++ input.stem ++ ".nef to " ++ input.stem ++ ".optimized.nef...")
  let done ← ofExcept (optimize input.config input.contract)
  done.report.summary.forM printLine
  writeContract o.directory input.stem done.contract
  if o.assembly then writeListing o.directory input.stem done.contract
  o.writeReport done
  o.writeTrace done
  printLine "Optimization finished."

/-- The command first reads all that it needs, then optimizes and writes. -/
theorem execute_eq (o : OptimizeOptions) : o.execute = o.gather >>= o.conclude := by
  simp only [execute, gather, conclude, bind_assoc, pure_bind]

def Finds (o : OptimizeOptions) (store : FileStore) (info : DebugInfo) : Prop :=
  ∃ paths bytes, ArtifactPaths.resolve o.nef o.manifest o.debugInfo = .ok paths ∧
    store.read? paths.debugInfo = some bytes ∧ DebugInfo.load bytes = .ok info

/-- Inputs that differ in the checksum at most, the first of which is read from a store. -/
structure Input.Kin (o : OptimizeOptions) (store : FileStore) (input input' : Input) : Prop where
  config : input'.config = input.config
  stem : input'.stem = input.stem
  contract : ∃ checksum,
    input'.contract = { input.contract with nef := { input.contract.nef with checksum } }
  unverified : input.config.verifyChecksum = false
  named : ArtifactPaths.stem o.nef = .ok input.stem
  debug : ∀ info, input.contract.debug = some info → o.Finds store info

end OptimizeOptions

open OptimizeOptions

section Reading

variable {o : OptimizeOptions} {store store' : FileStore} {R : FileStore.Kinship}

/-- With twin stores a lenient command reads inputs that are kin. -/
theorem alike_gather (hlenient : o.lenient = true) (h : store.Twin R store') (hR : Reseals R) :
    Alike (On store store') (Input.Kin o store) (On store store') o.gather o.gather := by
  unfold gather
  rw [hlenient]
  refine (alike_settings h hR hlenient).bind ?_
  rintro config _ ⟨rfl, hverify⟩
  refine (Alike.liftExcept (.self _)).bind ?_
  rintro stem _ ⟨rfl, hstem⟩
  refine (Alike.liftExcept (.self _)).bind ?_
  rintro paths _ ⟨rfl, hpaths⟩
  refine (alike_load h hR _).bind ?_
  -- From here on the two inputs differ in the checksum at most.
  rintro artifacts _ ⟨⟨checksum, rfl⟩, hdebug⟩
  unfold Artifacts.contract
  dsimp only
  cases artifacts.manifest with
  | none => exact (Alike.throw _ _).bind fun _ _ => False.elim
  | some manifest =>
      refine .pure ⟨rfl, rfl, ⟨checksum, rfl⟩, hverify, hstem, fun info hinfo => ?_⟩
      obtain ⟨bytes, hbytes, hload⟩ := hdebug info hinfo
      exact ⟨_, bytes, hpaths, hbytes, hload⟩

end Reading

/-! ## Leniency -/

/-- A document of debug information leads from a directory to a place, given the directories on the
way. -/
def DebugInfo.Names (info : DebugInfo) (here place : List String) : Prop :=
  ∃ document path, info.documentPath? document = some path ∧
    ∃ s : FileStore, s.here = here ∧ s.locate path = .ok place

namespace OptimizeOptions

def listingPath (o : OptimizeOptions) (stem : String) : String :=
  Path.join o.directory (stem ++ ".optimized.nef.txt")

/-- A listing goes to a place, and what it quotes is at another one. -/
def Quotes (o : OptimizeOptions) (store : FileStore) (source listing : List String) : Prop :=
  o.assembly = true ∧ (∃ info, o.Finds store info ∧ info.Names store.here source) ∧
    ∃ stem, ArtifactPaths.stem o.nef = .ok stem ∧
      ∃ s : FileStore, s.here = store.here ∧ s.locate (o.listingPath stem) = .ok listing

/-- Two files that are left behind where one was replaced by another: these two, or a listing that
quotes them. -/
def Leaves (o : OptimizeOptions) (store : FileStore) (place : List String)
    (bytes bytes' : List UInt8) : FileStore.Kinship where
  here := store.here
  allows q text text' := (q = place ∧ text = bytes ∧ text' = bytes') ∨ o.Quotes store place q

end OptimizeOptions

section Leniency

variable {o : OptimizeOptions} {store store' : FileStore} {place : List String}
  {bytes bytes' : List UInt8}

def Replaced (here place : List String) (bytes bytes' : List UInt8) : FileStore.Kinship where
  here := here
  allows q text text' := q = place ∧ text = bytes ∧ text' = bytes'

/-- A listing quotes nothing that was replaced, or it is among what is left behind. -/
theorem unrelated_or_leaves (hassembly : o.assembly = true) {input input' : Input}
    (h : input.Kin o store input') {result : Optimization}
    (hresult : optimize input.config input.contract = .ok result) :
    Unrelated (Replaced store.here place bytes bytes') result.contract.debug ∨
      ∀ s : FileStore, s.here = store.here →
        ∀ q text text', s.locate (o.listingPath input.stem) = .ok q →
        (o.Leaves store place bytes bytes').allows q text text' := by
  -- The result names the documents that were read, so it is enough to look at those.
  by_cases hnames : ∃ info, input.contract.debug = some info ∧ info.Names store.here place
  · obtain ⟨info, hinfo, hplace⟩ := hnames
    refine .inr fun s hhere q text text' hlisting =>
      .inr ⟨hassembly, ⟨info, h.debug info hinfo, hplace⟩, ?_⟩
    exact ⟨input.stem, h.named, s, hhere, hlisting⟩
  · refine .inl ?_
    rintro info document path hinfo hpath s hhere _ _ _ hlocate ⟨rfl, -, -⟩
    obtain ⟨given, hgiven, hsame⟩ := Optimizer.documentPath?_of_optimize hresult hinfo
    exact hnames ⟨given, hgiven, document, path, hsame document ▸ hpath, s, hhere, hlocate⟩

/-- Inputs that are kin lead to the same output, up to a listing that quotes the container. -/
theorem alike_conclude {input input' : Input} (h : input.Kin o store input') :
    Alike (Session.Twin (Replaced store.here place bytes bytes')) Eq
      (Session.Twin (o.Leaves store place bytes bytes'))
      (o.conclude input) (o.conclude input') := by
  have hmono : (Replaced store.here place bytes bytes').Widens
      (o.Leaves store place bytes bytes') :=
    ⟨rfl, fun _ _ _ => .inl⟩
  have hwiden : ∀ s s', Session.Twin (Replaced store.here place bytes bytes') s s' →
      Session.Twin (o.Leaves store place bytes bytes') s s' := fun _ _ hs => hs.mono hmono
  have hoptimize : optimize input'.config input'.contract =
      optimize input.config input.contract := by
    obtain ⟨checksum, hcontract⟩ := h.contract
    rw [h.config, hcontract]
    exact Optimizer.optimize_resealed h.unverified _ checksum
  unfold conclude
  rw [h.stem, hoptimize]
  -- Up to the listing, nothing but the replaced file differs.
  refine (alike_print _).andThen (fun _ _ _ => ?_) hwiden
  refine (Alike.ofExcept (.self _)).andThen ?_ hwiden
  rintro done _ ⟨rfl, hdone⟩
  refine (Alike.forM (fun _ => alike_print _) _).andThen (fun _ _ _ => ?_) hwiden
  refine (alike_writeContract _ _ _).andThen (fun _ _ _ => ?_) hwiden
  dsimp only
  -- From the listing on, files are only written.
  have hend : Alike (Session.Twin (o.Leaves store place bytes bytes')) Eq
      (Session.Twin (o.Leaves store place bytes bytes'))
      (do
        o.writeReport done
        o.writeTrace done
        printLine "Optimization finished.")
      (do
        o.writeReport done
        o.writeTrace done
        printLine "Optimization finished.") :=
    (alike_writeReport o done).bind fun _ _ _ => (alike_writeTrace o done).bind fun _ _ _ =>
      alike_print _
  split_ifs with hassembly
  · refine (alike_writeListing _ _ _ hmono ?_).andThen (fun _ _ _ => hend) fun _ _ => id
    exact unrelated_or_leaves hassembly h hdone
  · exact hend.mono hwiden fun _ _ => id

/-- The whole command: whether it reads one checksum or the other is not seen in what it writes. -/
theorem alike_execute (hlenient : o.lenient = true)
    (h : store.Twin (Replaced store.here place bytes bytes') store')
    (hcontainer : Nef.Resealed bytes bytes') :
    Alike (On store store') Eq (Session.Twin (o.Leaves store place bytes bytes')) o.execute
      o.execute := by
  have hR : Reseals (Replaced store.here place bytes bytes') := by
    rintro q b b' ⟨-, rfl, rfl⟩
    exact hcontainer
  have hon : ∀ s s', On store store' s s' →
      Session.Twin (Replaced store.here place bytes bytes') s s' := by
    rintro s s' ⟨rfl, rfl, houtput⟩
    exact ⟨h, houtput⟩
  rw [execute_eq]
  refine (alike_gather hlenient h hR).andThen ?_ fun s s' hs =>
    (hon s s' hs).mono ⟨rfl, fun _ _ _ => .inl⟩
  intro input input' hinput
  exact (alike_conclude hinput).mono hon fun _ _ => id

end Leniency

namespace CommandLine

/-- A command line that is understood ends as its command does. -/
theorem simulate_optimize {arguments : List String} {o : OptimizeOptions}
    (h : Invocation.parse arguments = .ok (.optimize o)) (store : FileStore) :
    simulate arguments store =
      match perform o.execute (.start store) with
      | (.ok _, s) => (.finished, s)
      | (.error fault, s) => (.failed fault, s) := by
  have hexecute : perform (Invocation.optimize o).execute (.start store) =
      perform o.execute (.start store) :=
    rfl
  unfold simulate run
  rw [h]
  dsimp only
  rw [StateT.run_bind, ← perform, hexecute]
  rcases perform o.execute (.start store) with ⟨_ | _, s⟩ <;> rfl

/-- A lenient command does not depend on the checksum that is stored in a container.  With any other
four bytes in its place the command ends with the same exit code, prints the same and leaves the
same files, but for the container itself and for a listing that quotes it as a source. -/
theorem lenient_ignores_checksum (arguments : List String) (o : OptimizeOptions) (store : FileStore)
    (place : List String) (front stored other : List UInt8) (nef : Nef)
    (harguments : Invocation.parse arguments = .ok (.optimize o)) (hlenient : o.lenient = true)
    (hfile : store.files.lookup place = some (front ++ stored))
    (hparse : Nef.parseUnchecked (front ++ stored) = .ok nef) (hstored : stored.length = 4)
    (hother : other.length = 4) :
    let changed := { store with files := FileStore.put place (front ++ other) store.files }
    let before := simulate arguments store
    let after := simulate arguments changed
    after.1.exitCode = before.1.exitCode ∧ after.2.output = before.2.output ∧
      before.2.store.Twin (o.Leaves store place (front ++ stored)
        (front ++ other)) after.2.store := by
  intro changed before after
  have htwin : store.Twin (Replaced store.here place (front ++ stored) (front ++ other)) changed :=
    FileStore.twin_put rfl hfile ⟨rfl, rfl, rfl⟩
  have halike := alike_execute hlenient htwin (Nef.resealed_append hstored hother hparse)
    (.start store) (.start changed) ⟨rfl, rfl, rfl⟩
  have hbefore : before = _ := simulate_optimize harguments store
  have hafter : after = _ := simulate_optimize harguments changed
  rw [hbefore, hafter]
  -- The faults may differ, as a container is no text for several reasons; the exit code does not.
  generalize perform o.execute (.start store) = result at halike
  generalize perform o.execute (.start changed) = result' at halike
  obtain ⟨ending, s⟩ := result
  obtain ⟨ending', s'⟩ := result'
  obtain ⟨hends, hsessions⟩ := halike
  cases hends with
  | ok _ => exact ⟨rfl, hsessions.output, hsessions.store⟩
  | error e e' => exact ⟨rfl, hsessions.output, hsessions.store⟩

end CommandLine

namespace Samples

def plainFront : List UInt8 := (plainFile 0 [0]).take 75

def plainManifest : String := "\x7b\"name\":\"T\",\"abi\":\x7b\"methods\":[]\x7d\x7d"

/-- A container with a checksum, its manifest, and settings that switch the verification off. -/
def plainFiles (checksum : List UInt8) : FileStore where
  files := [(["c.nef"], plainFront ++ checksum), (["c.manifest.json"], Utf8.encode plainManifest),
    (["c.json"], Utf8.encode "\x7b\"verify_checksum\":false\x7d")]
  directories := []

def plainOptions (config : Option String) (lenient : Bool) : OptimizeOptions :=
  ⟨"c.nef", none, none, some .off, config, none, lenient, false, none, none, none⟩

def lenientArguments : List String := ["optimize", "c.nef", "--level", "none", "--lenient"]

def configuredArguments : List String :=
  ["optimize", "c.nef", "--level", "none", "--config", "c.json"]

end Samples

namespace CommandLine

open Samples

/-- The checksum is wrong first and right then. -/
theorem lenient_ignores_checksum_plain :
    Invocation.parse lenientArguments = .ok (.optimize (plainOptions none true)) ∧
    (simulate lenientArguments (plainFiles [0, 0, 0, 0])).1 = .finished ∧
    (simulate lenientArguments (plainFiles [0x1C, 0x98, 0x03, 0x6A])).1.exitCode = 0 ∧
    (simulate lenientArguments (plainFiles [0, 0, 0, 0])).2.store.Twin
      ((plainOptions none true).Leaves (plainFiles [0, 0, 0, 0]) ["c.nef"]
        (plainFront ++ [0, 0, 0, 0]) (plainFront ++ [0x1C, 0x98, 0x03, 0x6A]))
      (simulate lenientArguments (plainFiles [0x1C, 0x98, 0x03, 0x6A])).2.store := by
  have harguments : Invocation.parse lenientArguments =
      .ok (.optimize (plainOptions none true)) := by
    decide +kernel
  have hparse : Nef.parseUnchecked (plainFront ++ [0, 0, 0, 0]) =
      .ok { plainNef with checksum := 0 } := by
    decide +kernel
  have hfinished : (simulate lenientArguments (plainFiles [0, 0, 0, 0])).1 = .finished := by
    decide +kernel
  obtain ⟨hcode, -, htwin⟩ :=
    lenient_ignores_checksum lenientArguments _ (plainFiles [0, 0, 0, 0]) ["c.nef"]
    plainFront [0, 0, 0, 0] [0x1C, 0x98, 0x03, 0x6A] _ harguments rfl rfl hparse rfl rfl
  rw [hfinished] at hcode
  exact ⟨harguments, hfinished, hcode, htwin⟩

/-- Settings that switch the verification off do not make a command lenient: the checksum is looked
at when the container is read. -/
theorem configured_depends_on_checksum :
    Invocation.parse configuredArguments = .ok (.optimize (plainOptions (some "c.json") false)) ∧
    (∃ config, (perform (plainOptions (some "c.json") false).settings
      (.start (plainFiles [0, 0, 0, 0]))).1 = .ok config ∧ config.verifyChecksum = false) ∧
    (simulate configuredArguments (plainFiles [0x1C, 0x98, 0x03, 0x6A])).1 = .finished ∧
    (simulate configuredArguments (plainFiles [0, 0, 0, 0])).1 =
      .failed (.rejected (.checksumMismatch 0 0x6A03981C)) := by
  refine ⟨by decide +kernel, ⟨⟨.off, 8, .trapping, 3, false⟩, ?_, rfl⟩, ?_, ?_⟩
  · decide +kernel
  · decide +kernel
  · decide +kernel

end CommandLine

end NeoScript
