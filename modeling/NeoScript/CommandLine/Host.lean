import NeoScript.CommandLine.FileStore

/-!
# Host — what commands need of their surroundings

* `Host` — reading and writing files and printing, in any monad;
* `Session` — files in memory with what was printed, a host without a system.
-/

namespace NeoScript

/-- Files and a screen.  An operation that fails says so in its result. -/
class Host (m : Type → Type) where
  readFile : String → m (Option (List UInt8))
  /-- There is a file or a directory; none if this cannot be told. -/
  fileExists : String → m (Option Bool)
  writeFile : String → List UInt8 → m Bool
  createDirectories : String → m Bool
  print : String → m Unit

structure Session where
  store : FileStore
  output : String
  deriving DecidableEq, Repr

namespace Session

def start (store : FileStore) : Session := ⟨store, ""⟩

/-- Takes over a changed store, if there is one. -/
def update (s : Session) : Option FileStore → Bool × Session
  | some store => (true, { s with store })
  | none => (false, s)

instance : Host (StateM Session) where
  readFile path := do return (← get).store.read? path
  fileExists path := do return (← get).store.exists? path
  writeFile path bytes := fun s => s.update (s.store.write? path bytes)
  createDirectories path := fun s => s.update (s.store.createDirectories? path)
  print text := modify fun s => { s with output := s.output ++ text }

end Session

end NeoScript
