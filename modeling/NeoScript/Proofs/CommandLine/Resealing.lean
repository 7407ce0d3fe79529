import NeoScript.CommandLine.Commands
import NeoScript.Proofs.CommandLine.Twins
import NeoScript.Proofs.Json.Agreement
import NeoScript.Proofs.Nef.Reading

/-!
# Resealing — files that differ in a checksum

* `Nef.Resealed` — two files of one container, which may differ in their checksums;
* `Nef.resealed_append` — any four bytes can stand at the end of a container;
* `Config.parse_lettered`, `Manifest.parse_lettered`, `DebugInfo.load_container` — a container is
  taken for nothing else;
* `optimize_resealed` — without verification, contracts that differ in their checksums have one
  result;
* `alike_settings`, `alike_load` — what is read from stores that differ in a checksum.
-/

namespace NeoScript

/-! ## Containers -/

namespace Nef

/-- Two files of one container, which may differ in their checksums. -/
def Resealed (bytes bytes' : List UInt8) : Prop :=
  ∃ nef checksum, parseUnchecked bytes = .ok nef ∧ parseUnchecked bytes' = .ok { nef with checksum }

/-- The checksum is in the last four bytes, and any four bytes are one. -/
theorem resealed_append {front stored other : List UInt8} {nef : Nef} (hstored : stored.length = 4)
    (hother : other.length = 4) (h : parseUnchecked (front ++ stored) = .ok nef) :
    Resealed (front ++ stored) (front ++ other) := by
  obtain ⟨hreadable, style, hsuits, hwrite⟩ := parseUnchecked_eq_ok_iff.1 h
  obtain ⟨hfront, -⟩ := List.append_inj' hwrite (by rw [Bytes.length_ofNat, hstored])
  have hlt : Bytes.toNat other < 0x100000000 := by
    have hbound := Bytes.toNat_lt other
    rwa [hother] at hbound
  -- Nothing else that is asked of a container or of its file looks at the checksum.
  refine ⟨nef, UInt32.ofNat (Bytes.toNat other), h, parseUnchecked_eq_ok_iff.2 ⟨?_, style, ?_, ?_⟩⟩
  · exact ⟨⟨⟨hreadable.compiler, hreadable.source, hreadable.tokens, hreadable.methods⟩,
      hreadable.nonempty, hreadable.script⟩, hreadable.noZero, hreadable.readable⟩
  · exact ⟨hsuits.compiler, hsuits.padding, hsuits.source, hsuits.count, hsuits.methods,
      hsuits.script⟩
  · have hchecksum : Bytes.ofNat 4 (Bytes.toNat other) = other := hother ▸ Bytes.ofNat_toNat other
    rw [write, UInt32.toNat_ofNat_of_lt' hlt, hchecksum, ← hfront]
    rfl

/-- A container begins with a letter. -/
theorem exists_cons_of_parseUnchecked {bytes : List UInt8} {nef : Nef}
    (h : parseUnchecked bytes = .ok nef) : ∃ rest, bytes = 0x4E :: rest := by
  obtain ⟨-, style, -, rfl⟩ := parseUnchecked_eq_ok_iff.1 h
  exact ⟨_, rfl⟩

end Nef

/-! ## Texts -/

/-- A text whose first byte is an `N` begins with this letter. -/
theorem Utf8.exists_toList_of_decode? {bytes : List UInt8} {text : String}
    (h : decode? (0x4E :: bytes) = some text) : ∃ cs, text.toList = 'N' :: cs := by
  have hencode : text.toList.flatMap encodeChar = 0x4E :: bytes := decode?_eq_some_iff.1 h
  cases htext : text.toList with
  | nil =>
      rw [htext] at hencode
      cases hencode
  | cons c cs =>
      rw [htext, List.flatMap_cons] at hencode
      -- A byte below 128 is a character of its own.
      have hread : readChar 0x4E bytes = (some c, cs.flatMap encodeChar) :=
        readChar_eq_some_iff.2 hencode
      cases hread
      exact ⟨cs, rfl⟩

namespace Json.Reader

theorem peekValue_letter (cs : List Char) : peekValue ('N' :: cs) = .ok ('N', 'N' :: cs) := rfl

/-- No object begins with a letter. -/
theorem object_letter {σ α : Type} (depth : Nat) (start : σ) (member : Nat → String → σ → Reader σ)
    (finish : σ → Reader α) (cs : List Char) (out : α × List Char) :
    object depth start member finish ('N' :: cs) ≠ .ok out := by
  unfold object
  rw [bind_of_ok (peekValue_letter cs), if_neg (by decide)]
  exact wrongShape_refuses _ _ _

/-- A text is refused if its reader refuses it. -/
theorem exists_error_of_run {α : Type} {x : Reader α} {text : String}
    (h : ∀ out, x text.toList ≠ .ok out) : ∃ e, (x.run text).mapError Error.json = .error e := by
  cases hrun : x.run text with
  | error fault => exact ⟨_, rfl⟩
  | ok a =>
      obtain ⟨rest, hread⟩ := run_eq_ok hrun
      exact absurd hread (h _)

end Json.Reader

def Lettered (text : String) : Prop :=
  ∃ cs, text.toList = 'N' :: cs

/-- A container that happens to be a text begins with the letter of its magic number. -/
theorem Nef.lettered {bytes : List UInt8} {nef : Nef} (h : parseUnchecked bytes = .ok nef)
    {text : String} (htext : Utf8.decode? bytes = some text) : Lettered text := by
  obtain ⟨rest, rfl⟩ := exists_cons_of_parseUnchecked h
  exact Utf8.exists_toList_of_decode? htext

/-- Settings begin with a brace. -/
theorem Config.parse_lettered {text : String} (h : Lettered text) : ∃ e, parse text = .error e := by
  obtain ⟨cs, hcs⟩ := h
  refine Json.Reader.exists_error_of_run fun out => ?_
  rw [hcs, read, Json.Reader.bind_of_ok (Json.Reader.peekValue_letter cs), if_neg (by decide)]
  exact Json.Reader.object_letter _ _ _ _ cs out

/-- So does a manifest. -/
theorem Manifest.parse_lettered {text : String} (h : Lettered text) :
    ∃ e, parse text = .error e := by
  obtain ⟨cs, hcs⟩ := h
  refine Json.Reader.exists_error_of_run fun out => ?_
  rw [hcs]
  exact Json.Reader.object_letter _ _ _ _ cs out

/-- So does debug information. -/
theorem DebugInfo.parse_lettered {text : String} (h : Lettered text) :
    ∃ e, parse text = .error e := by
  obtain ⟨cs, hcs⟩ := h
  refine Json.Reader.exists_error_of_run fun out => ?_
  rw [hcs]
  exact Json.Reader.object_letter _ _ _ _ cs out

/-- A container is no debug information, as an archive or as a text. -/
theorem DebugInfo.load_container {bytes : List UInt8} {nef : Nef}
    (h : Nef.parseUnchecked bytes = .ok nef) : ∃ e, load bytes = .error e := by
  obtain ⟨rest, rfl⟩ := Nef.exists_cons_of_parseUnchecked h
  -- Archives begin with another letter.
  have hmagic : archiveMagic.isPrefixOf (0x4E :: rest) = false := rfl
  rw [load, hmagic, if_neg Bool.false_ne_true]
  cases htext : Utf8.decode? (0x4E :: rest) with
  | none => exact ⟨_, rfl⟩
  | some text => exact parse_lettered (Nef.lettered h htext)

/-! ## Results -/

namespace Optimizer

/-- Without verification the checksum is always the right one afterwards. -/
theorem accept_of_not_verify {config : Config} (h : config.verifyChecksum = false) (c : Contract) :
    accept config c = do
      let checksum ← c.nef.computeChecksum
      return { c with nef := { c.nef with checksum } } := by
  unfold accept
  refine bind_congr fun computed => ?_
  by_cases heq : computed = c.nef.checksum
  · rw [if_pos heq, heq]
  · rw [if_neg heq, h, if_neg Bool.false_ne_true]

/-- Without the check of the checksum, optimization does not look at it. -/
theorem optimize_resealed {config : Config} (h : config.verifyChecksum = false) (c : Contract)
    (checksum : UInt32) :
    optimize config { c with nef := { c.nef with checksum } } = optimize config c := by
  unfold optimize
  rw [accept_of_not_verify h, accept_of_not_verify h]
  rfl

end Optimizer

/-! ## Reading -/

open Command

section Reading

variable {store store' : FileStore} {R : FileStore.Kinship} {α β : Type} {bytes bytes' : List UInt8}

/-- All files that are related are containers, up to their checksums. -/
def Reseals (R : FileStore.Kinship) : Prop :=
  ∀ place bytes bytes', R.allows place bytes bytes' → Nef.Resealed bytes bytes'

/-- What is made of a file is the same in both stores, if nothing is made of containers. -/
theorem ends_of_kin {ε : Type} {f : List UInt8 → Except ε α} (hR : Reseals R)
    (hf : ∀ bytes nef, Nef.parseUnchecked bytes = .ok nef → ∃ e, f bytes = .error e)
    (hkin : bytes' = bytes ∨ ∃ place, R.allows place bytes bytes') :
    Ends (fun a a' => a = a' ∧ f bytes = .ok a) (f bytes) (f bytes') := by
  rcases hkin with rfl | ⟨place, hkin⟩
  · exact .self _
  · obtain ⟨nef, checksum, hnef, hnef'⟩ := hR place bytes bytes' hkin
    obtain ⟨e, he⟩ := hf bytes nef hnef
    obtain ⟨e', he'⟩ := hf bytes' _ hnef'
    rw [he, he']
    exact .error e e'

/-- What a file spells, if it is a text that can be parsed. -/
def parsedText (path : String) (parse : String → Except Error α) (bytes : List UInt8) :
    Except CommandFault α :=
  match Utf8.decode? bytes with
  | some text => (parse text).mapError .rejected
  | none => .error (.file path)

/-- Reading a text and taking it apart is one step on the bytes of the file. -/
theorem readText_bind (path : String) (parse : String → Except Error α) (f : α → Simulated β) :
    (do
      let text ← readText path
      let a ← ofExcept (parse text)
      f a) = (do
      let bytes ← read path
      let a ← liftExcept (parsedText path parse bytes)
      f a) := by
  rw [readText, bind_assoc]
  -- What follows the bytes fails like the command does, with the same fault.
  refine bind_congr fun bytes => ?_
  unfold parsedText
  cases Utf8.decode? bytes with
  | none => rfl
  | some text =>
      dsimp only
      rw [pure_bind]
      cases parse text <;> rfl

/-- A container is no companion: whoever takes it for one fails. -/
theorem parsedText_container {nef : Nef} (h : Nef.parseUnchecked bytes = .ok nef)
    {parse : String → Except Error α} (hparse : ∀ text, Lettered text → ∃ e, parse text = .error e)
    (path : String) : ∃ e, parsedText path parse bytes = .error e := by
  unfold parsedText
  cases htext : Utf8.decode? bytes with
  | none => exact ⟨_, rfl⟩
  | some text =>
      obtain ⟨e, he⟩ := hparse text (Nef.lettered h htext)
      dsimp only
      rw [he]
      exact ⟨_, rfl⟩

/-- A text is read and parsed alike, if its parser accepts no container. -/
theorem alike_readText (h : store.Twin R store') (hR : Reseals R)
    {parse : String → Except Error α} (hparse : ∀ text, Lettered text → ∃ e, parse text = .error e)
    (f : α → β) (path : String) :
    Alike (On store store') (fun b b' => b = b' ∧ ∃ a, b = f a) (On store store')
      (do
        let text ← readText path
        let a ← ofExcept (parse text)
        return f a)
      (do
        let text ← readText path
        let a ← ofExcept (parse text)
        return f a) := by
  rw [readText_bind]
  refine (alike_read h path).bind ?_
  rintro bytes bytes' ⟨-, hkin⟩
  have hends := ends_of_kin hR (fun _ _ hnef => parsedText_container hnef hparse path) hkin
  refine (Alike.liftExcept hends).bind ?_
  rintro a _ ⟨rfl, -⟩
  exact .pure ⟨rfl, a, rfl⟩

/-- The settings are read alike, and a lenient command verifies no checksum. -/
theorem alike_settings (h : store.Twin R store') (hR : Reseals R) {o : OptimizeOptions}
    (hlenient : o.lenient = true) :
    Alike (On store store') (fun config config' => config = config' ∧ config.verifyChecksum = false)
      (On store store') o.settings o.settings := by
  have hadjust : ∀ config, (o.adjust config).verifyChecksum = false := by
    intro config
    simp [OptimizeOptions.adjust, hlenient]
  unfold OptimizeOptions.settings
  split
  · rename_i path _
    refine (alike_readText h hR (fun _ => Config.parse_lettered) o.adjust path).imp ?_
    rintro _ _ ⟨rfl, given, rfl⟩
    exact ⟨rfl, hadjust given⟩
  · exact .pure ⟨rfl, hadjust .default⟩

/-- A manifest is never the file that was sealed again, so twin stores give the same one. -/
theorem alike_loadManifest (h : store.Twin R store') (hR : Reseals R) (path : String) :
    Alike (On store store') Eq (On store store') (Artifacts.loadManifest path)
      (Artifacts.loadManifest path) := by
  refine (alike_fileExists h path).bind ?_
  rintro found _ rfl
  split
  · refine (alike_readText h hR (fun _ => Manifest.parse_lettered) some path).imp ?_
    rintro manifest _ ⟨rfl, -⟩
    rfl
  · exact .pure rfl

/-- The debug information is loaded alike; it is that of the first store. -/
theorem alike_loadDebug (h : store.Twin R store') (hR : Reseals R) (path : String) :
    Alike (On store store')
      (fun debug debug' => debug = debug' ∧
        ∀ info, debug = some info →
          ∃ bytes, store.read? path = some bytes ∧ DebugInfo.load bytes = .ok info)
      (On store store') (Artifacts.loadDebug path) (Artifacts.loadDebug path) := by
  refine (alike_fileExists h path).bind ?_
  rintro found _ rfl
  split
  · refine (alike_read h path).bind ?_
    rintro bytes bytes' ⟨hbytes, hkin⟩
    have hends := ends_of_kin hR (fun _ _ => DebugInfo.load_container) hkin
    refine (Alike.ofExcept hends).bind ?_
    rintro info _ ⟨rfl, hinfo⟩
    refine .pure ⟨rfl, ?_⟩
    rintro _ ⟨⟩
    exact ⟨bytes, hbytes, hinfo⟩
  · exact .pure ⟨rfl, nofun⟩

/-- Without a look at the checksum, containers are loaded alike up to their checksums. -/
theorem alike_load (h : store.Twin R store') (hR : Reseals R) (paths : ArtifactPaths) :
    Alike (On store store')
      (fun a a' => (∃ checksum, a' = { a with nef := { a.nef with checksum } }) ∧
        ∀ info, a.debug = some info →
          ∃ bytes, store.read? paths.debugInfo = some bytes ∧ DebugInfo.load bytes = .ok info)
      (On store store') (Artifacts.load paths true) (Artifacts.load paths true) := by
  refine (alike_read h paths.nef).bind ?_
  rintro bytes bytes' ⟨-, hkin⟩
  have hparse : Ends (fun nef nef' => ∃ checksum, nef' = { nef with checksum })
      (Nef.parseUnchecked bytes) (Nef.parseUnchecked bytes') := by
    -- A file that is no container is the same in both stores, and is refused in both.
    rcases hkin with rfl | ⟨place, hkin⟩
    · cases Nef.parseUnchecked bytes' with
      | ok nef => exact .ok ⟨nef.checksum, rfl⟩
      | error e => exact .error e e
    · obtain ⟨nef, checksum, hnef, hnef'⟩ := hR _ _ _ hkin
      rw [hnef, hnef']
      exact .ok ⟨checksum, rfl⟩
  refine (Alike.ofExcept hparse).bind ?_
  rintro nef _ ⟨checksum, rfl⟩
  refine (alike_loadManifest h hR paths.manifest).bind ?_
  rintro manifest _ rfl
  refine (alike_loadDebug h hR paths.debugInfo).bind ?_
  rintro debug _ ⟨rfl, hdebug⟩
  exact .pure ⟨⟨checksum, rfl⟩, hdebug⟩

end Reading

end NeoScript
