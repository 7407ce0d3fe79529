import Mathlib.Data.List.Forall2
import NeoScript.CommandLine.Artifacts

/-!
# Twins — one command in two sessions

Two sessions that hold the same but for some files, and what can be told of a command that runs in
both.

* `FileStore.Twin` — the same directories and names; what files hold is the same, or related;
* `Twin.read?`, `Twin.write?`, `Twin.createDirectories?` — what a program does with files keeps
  twins;
* `Command.Alike` — two commands that succeed together, and whose sessions stay related;
* `Alike.bind`, `Alike.forM` — commands in sequence, from what is known of each.
-/

namespace NeoScript

/-- Two options that are both there, and related, or both missing. -/
theorem cases_of_rel {α β : Type} {r : α → β → Prop} {o : Option α} {o' : Option β}
    (h : Option.Rel r o o') : (o = none ∧ o' = none) ∨ ∃ a b, o = some a ∧ o' = some b ∧ r a b := by
  cases h with
  | none => exact .inl ⟨rfl, rfl⟩
  | some hab => exact .inr ⟨_, _, rfl, rfl, hab⟩

/-! ## Stores -/

namespace FileStore

/-- What two stores with one working directory may hold at one place, other than the same. -/
structure Kinship where
  here : List String
  allows : List String → List UInt8 → List UInt8 → Prop

/-- Two files of one name that hold the same, or what is related at this place. -/
def Kin (R : Kinship) (file file' : List String × List UInt8) : Prop :=
  file'.1 = file.1 ∧ (file'.2 = file.2 ∨ R.allows file.1 file.2 file'.2)

/-- Two stores of the same names; what files hold is the same, or related. -/
structure Twin (R : Kinship) (s s' : FileStore) : Prop where
  here : s.here = R.here
  here' : s'.here = R.here
  directories : s'.directories = s.directories
  files : List.Forall₂ (Kin R) s.files s'.files

structure Kinship.Widens (R R' : Kinship) : Prop where
  here : R'.here = R.here
  allows : ∀ place bytes bytes', R.allows place bytes bytes' → R'.allows place bytes bytes'

variable {R R' : Kinship} {s s' : FileStore}

theorem Kin.refl (R : Kinship) (file : List String × List UInt8) : Kin R file file :=
  ⟨rfl, .inl rfl⟩

theorem forall₂_kin_refl (R : Kinship) (files : List (List String × List UInt8)) :
    List.Forall₂ (Kin R) files files :=
  List.forall₂_same.2 fun file _ => .refl R file

/-- Writing kin contents to one place keeps files kin. -/
theorem forall₂_kin_put {files files' : List (List String × List UInt8)}
    (h : List.Forall₂ (Kin R) files files') {place : List String} {bytes bytes' : List UInt8}
    (hbytes : bytes' = bytes ∨ R.allows place bytes bytes') :
    List.Forall₂ (Kin R) (put place bytes files) (put place bytes' files') := by
  induction h with
  | nil => exact .cons ⟨rfl, hbytes⟩ .nil
  | @cons file file' files files' hfile hfiles ih =>
      obtain ⟨known, old⟩ := file
      obtain ⟨known', old'⟩ := file'
      obtain ⟨rfl, hold⟩ : known' = known ∧ (old' = old ∨ R.allows known old old') := hfile
      -- Names are the same, so the first file of this place stands at one depth in both lists.
      unfold put
      split_ifs
      · exact .cons ⟨rfl, hbytes⟩ hfiles
      · exact .cons ⟨rfl, hold⟩ ih

/-- At every place both stores have no file, or files that are kin. -/
theorem Twin.lookup (h : Twin R s s') (place : List String) :
    Option.Rel (fun bytes bytes' => bytes' = bytes ∨ R.allows place bytes bytes')
      (s.files.lookup place)
      (s'.files.lookup place) := by
  have hfiles := h.files
  generalize s.files = files at hfiles
  generalize s'.files = files' at hfiles
  induction hfiles with
  | nil => exact .none
  | @cons file file' files files' hfile _ ih =>
      obtain ⟨known, old⟩ := file
      obtain ⟨known', old'⟩ := file'
      obtain ⟨rfl, hold⟩ : known' = known ∧ (old' = old ∨ R.allows known old old') := hfile
      -- The search compares names only, and these are the same.
      rw [List.lookup_cons, List.lookup_cons]
      cases hplace : place == known' with
      | true =>
          rw [eq_of_beq hplace]
          exact .some hold
      | false => exact ih

/-- Writing what is there already changes nothing. -/
theorem put_of_lookup {files : List (List String × List UInt8)} {place : List String}
    {bytes : List UInt8} (h : files.lookup place = some bytes) : put place bytes files = files := by
  induction files with
  | nil => cases h
  | cons file files ih =>
      obtain ⟨known, old⟩ := file
      rw [List.lookup_cons] at h
      cases hplace : place == known with
      | true =>
          rw [hplace] at h
          rw [put, if_pos (eq_of_beq hplace).symm, Option.some.inj h, eq_of_beq hplace]
      | false =>
          rw [hplace] at h
          rw [put, if_neg (ne_of_beq_false hplace).symm, ih h]

/-- A store and the same one with another file at a place. -/
theorem twin_put (hhere : s.here = R.here) {place : List String} {bytes bytes' : List UInt8}
    (hfile : s.files.lookup place = some bytes) (hbytes : R.allows place bytes bytes') :
    Twin R s { s with files := put place bytes' s.files } := by
  have hput := forall₂_kin_put (forall₂_kin_refl R s.files) (.inr hbytes)
  rw [put_of_lookup hfile] at hput
  exact ⟨hhere, hhere, rfl, hput⟩

namespace Twin

theorem mono (h : Twin R s s') (hR : R.Widens R') : Twin R' s s' :=
  ⟨h.here.trans hR.here.symm, h.here'.trans hR.here.symm, h.directories,
    h.files.imp fun _ _ hkin => ⟨hkin.1, hkin.2.imp_right (hR.allows _ _ _)⟩⟩

theorem base (h : Twin R s s') (path : String) : s'.base path = s.base path := by
  rw [FileStore.base, FileStore.base, h.here, h.here']

theorem isFile (h : Twin R s s') (place : List String) : s'.isFile place = s.isFile place := by
  unfold FileStore.isFile
  rcases cases_of_rel (h.lookup place) with ⟨hnone, hnone'⟩ | ⟨_, _, hsome, hsome', -⟩
  · rw [hnone, hnone']
  · rw [hsome, hsome', Option.isSome_some, Option.isSome_some]

theorem isDirectory (h : Twin R s s') (place : List String) :
    s'.isDirectory place = s.isDirectory place := by
  rw [FileStore.isDirectory, h.directories, FileStore.isDirectory]

/-- A path leads the same way in twins. -/
theorem step (h : Twin R s s') (place : List String) (text : String) :
    s'.step place text = s.step place text := by
  simp only [FileStore.step, h.isDirectory, h.isFile]

/-- Paths lead to the same places. -/
theorem locate (h : Twin R s s') (path : String) : s'.locate path = s.locate path := by
  have hstep : s'.step = s.step := funext fun place => funext (h.step place)
  rw [FileStore.locate, hstep, h.base, FileStore.locate]

theorem exists? (h : Twin R s s') (path : String) : s'.exists? path = s.exists? path := by
  simp only [FileStore.exists?, h.locate, h.isFile, h.isDirectory]

/-- Two files can be read, or none. -/
theorem read? (h : Twin R s s') (path : String) :
    Option.Rel (fun bytes bytes' => bytes' = bytes ∨
      ∃ place, s.locate path = .ok place ∧ R.allows place bytes bytes') (s.read? path)
        (s'.read? path) := by
  unfold FileStore.read?
  rw [h.locate]
  cases hplace : s.locate path with
  | error fault => exact .none
  | ok place =>
      dsimp only
      rcases cases_of_rel (h.lookup place) with ⟨hnone, hnone'⟩ | ⟨_, _, hsome, hsome', hbytes⟩
      · rw [hnone, hnone']
        exact .none
      · rw [hsome, hsome']
        exact .some (hbytes.imp_right fun hR => ⟨place, rfl, hR⟩)

/-- Two files can be written, or none. -/
theorem write? (h : Twin R s s') (path : String) {bytes bytes' : List UInt8}
    (hbytes : bytes' = bytes ∨ ∀ place, s.locate path = .ok place → R.allows place bytes bytes') :
    Option.Rel (Twin R) (s.write? path bytes) (s'.write? path bytes') := by
  unfold FileStore.write?
  rw [h.locate]
  cases hplace : s.locate path with
  | error fault => exact .none
  | ok place =>
      dsimp only
      rw [h.isDirectory]
      split_ifs
      · exact .none
      -- A place that is no directory can be written in both stores.
      · have hplaced : bytes' = bytes ∨ R.allows place bytes bytes' :=
          hbytes.imp_right fun hR => hR place hplace
        exact .some ⟨h.here, h.here', h.directories, forall₂_kin_put h.files hplaced⟩

theorem addDirectory (h : Twin R s s') (place : List String) :
    Option.Rel (Twin R) (s.addDirectory place) (s'.addDirectory place) := by
  unfold FileStore.addDirectory
  rw [h.isDirectory, h.isFile]
  split_ifs
  · exact .some h
  · exact .none
  · exact .some ⟨h.here, h.here', congrArg (place :: ·) h.directories, h.files⟩

/-- Twins stay twins when a path is created in both, or it can be created in neither. -/
theorem createAlong (h : Twin R s s') (texts : List String) (place : List String) :
    Option.Rel (Twin R) (FileStore.createAlong texts s place)
      (FileStore.createAlong texts s' place) := by
  induction texts generalizing s s' place with
  | nil => exact .some h
  | cons text texts ih =>
      -- Each text leads to the same place, where both stores get a directory or neither does.
      unfold FileStore.createAlong
      rw [h.step]
      cases s.step place text with
      | error fault => exact .none
      | ok next =>
          dsimp only
          rcases cases_of_rel (h.addDirectory next) with ⟨hnone, hnone'⟩ |
            ⟨_, _, hsome, hsome', hadded⟩
          · rw [hnone, hnone']
            exact .none
          · rw [hsome, hsome']
            exact ih hadded next

/-- The same with the directory in which the program works. -/
theorem createDirectories? (h : Twin R s s') (path : String) :
    Option.Rel (Twin R) (s.createDirectories? path) (s'.createDirectories? path) := by
  unfold FileStore.createDirectories?
  simp only [h.locate, h.isDirectory, h.base]
  split_ifs
  · exact .some h
  · exact .none
  · exact h.createAlong _ _

end Twin

end FileStore

/-! ## Sessions -/

/-- Sessions with twin stores that printed the same. -/
structure Session.Twin (R : FileStore.Kinship) (s s' : Session) : Prop where
  store : s.store.Twin R s'.store
  output : s'.output = s.output

theorem Session.Twin.mono {R R' : FileStore.Kinship} {s s' : Session} (h : s.Twin R s')
    (hR : R.Widens R') : s.Twin R' s' :=
  ⟨h.store.mono hR, h.output⟩

/-! ## Commands -/

/-- Two results that are both there, and related, or both missing. -/
inductive Ends {ε α β : Type} (S : α → β → Prop) : Except ε α → Except ε β → Prop where
  | ok {a : α} {b : β} (h : S a b) : Ends S (.ok a) (.ok b)
  | error (e e' : ε) : Ends S (.error e) (.error e')

theorem Ends.self {ε α : Type} (x : Except ε α) : Ends (fun a b => a = b ∧ x = .ok a) x x := by
  cases x with
  | ok a => exact .ok ⟨rfl, rfl⟩
  | error e => exact .error e e

theorem Ends.imp {ε α β : Type} {S S' : α → β → Prop} {x : Except ε α} {y : Except ε β}
    (h : Ends S x y) (hS : ∀ a b, S a b → S' a b) : Ends S' x y := by
  cases h with
  | ok hab => exact .ok (hS _ _ hab)
  | error e e' => exact .error e e'

theorem Ends.refl {ε α : Type} (x : Except ε α) : Ends Eq x x :=
  (Ends.self x).imp fun _ _ h => h.1

namespace Command

abbrev Simulated := Command (StateM Session)

variable {α β γ δ : Type}

/-- What a command results in, and the session after it. -/
def perform (x : Simulated α) (s : Session) : Except CommandFault α × Session :=
  x.run.run s

/-- A command that goes on runs the rest in the session that the first part left. -/
theorem perform_bind (x : Simulated α) (f : α → Simulated β) (s : Session) :
    perform (x >>= f) s =
      match perform x s with
      | (.ok a, t) => perform (f a) t
      | (.error e, t) => (.error e, t) := by
  have hrun : perform (x >>= f) s = ExceptT.bindCont f (perform x s).1 (perform x s).2 := rfl
  rw [hrun]
  rcases perform x s with ⟨a | e, t⟩ <;> rfl

/-- What only looks at the session cannot fail. -/
theorem perform_liftM (x : StateM Session α) (s : Session) :
    perform (liftM x) s = (.ok (x.run s).1, (x.run s).2) :=
  rfl

/-- The two commands succeed together from related sessions, with related results, and leave related
sessions behind, also if they fail. -/
def Alike (P : Session → Session → Prop) (S : α → β → Prop) (Q : Session → Session → Prop)
    (x : Simulated α) (y : Simulated β) : Prop :=
  ∀ s s', P s s' → Ends S (perform x s).1 (perform y s').1 ∧ Q (perform x s).2 (perform y s').2

namespace Alike

variable {P P' Q Q' : Session → Session → Prop} {S S' : α → β → Prop} {T : γ → δ → Prop}
  {x : Simulated α} {y : Simulated β}

theorem pure {a : α} {b : β} (h : S a b) : Alike P S P (pure a) (pure b) :=
  fun _ _ hP => ⟨.ok h, hP⟩

theorem throw (e e' : CommandFault) : Alike P S P (throw e) (throw e') :=
  fun _ _ hP => ⟨.error e e', hP⟩

theorem mono (h : Alike P S Q x y) (hP : ∀ s s', P' s s' → P s s') (hQ : ∀ s s', Q s s' → Q' s s') :
    Alike P' S Q' x y := by
  intro s s' hs
  obtain ⟨hends, hsessions⟩ := h s s' (hP s s' hs)
  exact ⟨hends, hQ _ _ hsessions⟩

theorem imp (h : Alike P S Q x y) (hS : ∀ a b, S a b → S' a b) : Alike P S' Q x y := by
  intro s s' hs
  obtain ⟨hends, hsessions⟩ := h s s' hs
  exact ⟨hends.imp hS, hsessions⟩

/-- Two commands in sequence.  A failure of the first leaves its own sessions behind. -/
theorem andThen (h : Alike P S P' x y) {f : α → Simulated γ} {g : β → Simulated δ}
    (hrest : ∀ a b, S a b → Alike P' T Q (f a) (g b)) (hQ : ∀ s s', P' s s' → Q s s') :
    Alike P T Q (x >>= f) (y >>= g) := by
  intro s s' hs
  have hfirst := h s s' hs
  rw [perform_bind, perform_bind]
  generalize perform x s = after at hfirst
  generalize perform y s' = after' at hfirst
  obtain ⟨result, t⟩ := after
  obtain ⟨result', t'⟩ := after'
  obtain ⟨hends, hsessions⟩ := hfirst
  -- Both commands go on, or both stop here with the sessions that they have.
  cases hends with
  | ok hab => exact hrest _ _ hab t t' hsessions
  | error e e' => exact ⟨.error e e', hQ t t' hsessions⟩

/-- Commands that end alike and go on alike end alike. -/
theorem bind (h : Alike P S P x y) {f : α → Simulated γ} {g : β → Simulated δ}
    (hrest : ∀ a b, S a b → Alike P T P (f a) (g b)) : Alike P T P (x >>= f) (y >>= g) :=
  h.andThen hrest fun _ _ => id

/-- Computations that end alike are commands that do. -/
theorem ofExcept {r : Except Error α} {r' : Except Error β} (h : Ends S r r') :
    Alike P S P (ofExcept r) (ofExcept r') := by
  cases h with
  | ok hab => exact .pure hab
  | error e e' => exact .throw _ _

theorem liftExcept {r : Except CommandFault α} {r' : Except CommandFault β} (h : Ends S r r') :
    Alike P S P (liftExcept r) (liftExcept r') := by
  cases h with
  | ok hab => exact .pure hab
  | error e e' => exact .throw _ _

theorem forM {f : γ → Simulated PUnit} (h : ∀ c, Alike P Eq P (f c) (f c)) (cs : List γ) :
    Alike P Eq P (cs.forM f) (cs.forM f) := by
  induction cs with
  | nil => exact .pure rfl
  | cons c cs ih => exact (h c).bind fun _ _ _ => ih

end Alike

/-! ## Reading -/

section Reading

variable {store store' : FileStore} {R : FileStore.Kinship}

/-- Sessions on two given stores that printed the same. -/
structure On (store store' : FileStore) (s s' : Session) : Prop where
  left : s.store = store
  right : s'.store = store'
  output : s'.output = s.output

def found (fault : CommandFault) : Option α → Except CommandFault α
  | some a => .ok a
  | none => .error fault

/-- Reading gives the contents of the file and leaves the session as it is. -/
theorem perform_read (path : String) (s : Session) :
    perform (read path) s = (found (.file path) (s.store.read? path), s) := by
  have hfile : (Host.readFile path : StateM Session (Option (List UInt8))).run s =
      (s.store.read? path, s) := rfl
  rw [read, perform_bind, perform_liftM, hfile]
  cases s.store.read? path <;> rfl

/-- Twins give the same contents, or contents that the kinship allows. -/
theorem alike_read (h : store.Twin R store') (path : String) :
    Alike (On store store')
      (fun bytes bytes' => store.read? path = some bytes ∧
        (bytes' = bytes ∨ ∃ place, R.allows place bytes bytes'))
      (On store store') (read path) (read path) := by
  intro s s' hs
  rw [perform_read, perform_read, hs.left, hs.right]
  rcases cases_of_rel (h.read? path) with ⟨hnone, hnone'⟩ | ⟨bytes, bytes', hsome, hsome', hbytes⟩
  · rw [hnone, hnone']
    exact ⟨.error _ _, hs⟩
  · rw [hsome, hsome']
    exact ⟨.ok ⟨rfl, hbytes.imp_right fun ⟨place, _, hR⟩ => ⟨place, hR⟩⟩, hs⟩

/-- Asking for a file leaves the session as it is. -/
theorem perform_fileExists (path : String) (s : Session) :
    perform (fileExists path) s = (found (.file path) (s.store.exists? path), s) := by
  have hfile : (Host.fileExists path : StateM Session (Option Bool)).run s =
      (s.store.exists? path, s) := rfl
  rw [fileExists, perform_bind, perform_liftM, hfile]
  cases s.store.exists? path <;> rfl

theorem alike_fileExists (h : store.Twin R store') (path : String) :
    Alike (On store store') Eq (On store store') (fileExists path) (fileExists path) := by
  intro s s' hs
  rw [perform_fileExists, perform_fileExists, hs.left, hs.right, h.exists?]
  exact ⟨.refl _, hs⟩

end Reading

/-! ## Writing -/

section Writing

variable {R : FileStore.Kinship}

/-- Takes over a changed store, if there is one. -/
def edited (fault : CommandFault) (s : Session) :
    Option FileStore → Except CommandFault Unit × Session
  | some store => (.ok (), { s with store })
  | none => (.error fault, s)

/-- Writing takes over the changed store, or fails and changes nothing. -/
theorem perform_write (path : String) (bytes : List UInt8) (s : Session) :
    perform (write path bytes) s = edited (.file path) s (s.store.write? path bytes) := by
  -- The host reports in its result whether there is a changed store.
  have hfile : (Host.writeFile path bytes : StateM Session Bool).run s =
      s.update (s.store.write? path bytes) := rfl
  rw [write, perform_bind, perform_liftM, hfile]
  cases s.store.write? path bytes <;> rfl

theorem perform_createDirectories (path : String) (s : Session) :
    perform (createDirectories path) s = edited (.file path) s
      (s.store.createDirectories? path) := by
  have hfile : (Host.createDirectories path : StateM Session Bool).run s =
      s.update (s.store.createDirectories? path) := rfl
  rw [createDirectories, perform_bind, perform_liftM, hfile]
  cases s.store.createDirectories? path <;> rfl

/-- Taking over changed stores keeps sessions twins. -/
theorem alike_edited {s s' : Session} (h : s.Twin R s') {store store' : Option FileStore}
    (hstore : Option.Rel (FileStore.Twin R) store store') (fault : CommandFault) :
    Ends Eq (edited fault s store).1 (edited fault s' store').1 ∧
      (edited fault s store).2.Twin R (edited fault s' store').2 := by
  cases hstore with
  | none => exact ⟨.error _ _, h⟩
  | some htwin => exact ⟨.ok rfl, htwin, h.output⟩

/-- Two files are written, or none.  What is written may be related, where the path leads. -/
theorem alike_write_kin (path : String) {bytes bytes' : List UInt8}
    (hbytes : bytes' = bytes ∨ ∀ s : FileStore, s.here = R.here →
      ∀ place, s.locate path = .ok place → R.allows place bytes bytes') :
    Alike (Session.Twin R) Eq (Session.Twin R) (write path bytes) (write path bytes') := by
  intro s s' hs
  rw [perform_write, perform_write]
  exact alike_edited hs (hs.store.write? path (hbytes.imp_right fun hR =>
    hR s.store hs.store.here)) _

theorem alike_write (path : String) (bytes : List UInt8) :
    Alike (Session.Twin R) Eq (Session.Twin R) (write path bytes) (write path bytes) :=
  alike_write_kin path (.inl rfl)

theorem alike_createDirectories (path : String) :
    Alike (Session.Twin R) Eq (Session.Twin R) (createDirectories path)
      (createDirectories path) := by
  intro s s' hs
  rw [perform_createDirectories, perform_createDirectories]
  exact alike_edited hs (hs.store.createDirectories? path) _

theorem alike_print (text : String) :
    Alike (Session.Twin R) Eq (Session.Twin R) (print text) (print text) :=
  fun _ _ hs => ⟨.ok rfl, hs.store, congrArg (· ++ text) hs.output⟩

end Writing

end Command

end NeoScript
