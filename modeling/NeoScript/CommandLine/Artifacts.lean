import NeoScript.CommandLine.Host
import NeoScript.Contract
import NeoScript.DebugInfo.Archive
import NeoScript.Listing
import NeoScript.Nef.Parse

/-!
# Artifacts — a container and the files beside it

The manifest and the debug information of `dir/X.nef` stand beside it, unless other paths are given.

* `CommandFault` — why a command fails;
* `ArtifactPaths` — where the files are;
* `Artifacts`, `Artifacts.load` — what they hold;
* `loadSources` — the source texts that debug information names.
-/

namespace NeoScript

/-! ## Faults -/

inductive CommandFault where
  | missingManifest (path : String)
  /-- The path of the container has no name to which the other names belong. -/
  | noStem (path : String)
  /-- A file cannot be read or written. -/
  | file (path : String)
  | rejected (error : Error)
  deriving DecidableEq, Repr

namespace CommandFault

def message : CommandFault → String
  | missingManifest path => path ++ " required for optimization"
  | noStem path => "cannot derive artifact names from " ++ path
  | file path => "file error: " ++ path
  | rejected error => error.message

end CommandFault

abbrev Command (m : Type → Type) := ExceptT CommandFault m

/-! ## Files -/

namespace Command

variable {m : Type → Type} [Monad m] [Host m]

def ofExcept {α : Type} (r : Except Error α) : Command m α :=
  match r with
  | .ok a => pure a
  | .error e => throw (.rejected e)

def read (path : String) : Command m (List UInt8) := do
  match ← (Host.readFile path : m (Option (List UInt8))) with
  | some bytes => return bytes
  | none => throw (.file path)

/-- Reads a text; a file that is not one fails like one that cannot be read. -/
def readText (path : String) : Command m String := do
  match Utf8.decode? (← read path) with
  | some text => return text
  | none => throw (.file path)

def fileExists (path : String) : Command m Bool := do
  match ← (Host.fileExists path : m (Option Bool)) with
  | some found => return found
  | none => throw (.file path)

def write (path : String) (bytes : List UInt8) : Command m Unit := do
  if ← (Host.writeFile path bytes : m Bool) then return () else throw (.file path)

def writeText (path text : String) : Command m Unit :=
  write path (Utf8.encode text)

def createDirectories (path : String) : Command m Unit := do
  if ← (Host.createDirectories path : m Bool) then return () else throw (.file path)

def print (text : String) : Command m Unit :=
  (Host.print text : m Unit)

def printLine (text : String) : Command m Unit :=
  print (text ++ "\n")

end Command

/-! ## Paths -/

structure ArtifactPaths where
  nef : String
  manifest : String
  debugInfo : String
  deriving DecidableEq, Repr

namespace ArtifactPaths

def stem (nef : String) : Except CommandFault String :=
  match Path.fileStem? nef with
  | some stem => .ok stem
  | none => .error (.noStem nef)

def sibling (nef ending : String) : Except CommandFault String := do
  return Path.withFileName nef ((← stem nef) ++ ending)

/-- The given paths, or those beside the container. -/
def resolve (nef : String) (manifest debugInfo : Option String) :
    Except CommandFault ArtifactPaths := do
  let manifest ← match manifest with
    | some path => pure path
    | none => sibling nef ".manifest.json"
  let debugInfo ← match debugInfo with
    | some path => pure path
    | none => sibling nef ".nefdbgnfo"
  return ⟨nef, manifest, debugInfo⟩

end ArtifactPaths

/-! ## Loading -/

structure Artifacts where
  nef : Nef
  manifest : Option Manifest
  debug : Option DebugInfo
  deriving Repr

variable {m : Type → Type} [Monad m] [Host m]

namespace Artifacts

open Command

/-- The manifest at a path, if there is a file. -/
def loadManifest (path : String) : Command m (Option Manifest) := do
  if ← fileExists path then
    let text ← readText path
    return some (← ofExcept (Manifest.parse text))
  else return none

/-- The debug information at a path, if there is a file. -/
def loadDebug (path : String) : Command m (Option DebugInfo) := do
  if ← fileExists path then
    let bytes ← read path
    return some (← ofExcept (DebugInfo.load bytes))
  else return none

/-- Reads the container and what is found beside it.  A lenient reader does not look at the
checksum. -/
def load (paths : ArtifactPaths) (lenient : Bool) : Command m Artifacts := do
  let bytes ← read paths.nef
  let nef ← ofExcept (if lenient then Nef.parseUnchecked bytes else Nef.parse bytes)
  let manifest ← loadManifest paths.manifest
  let debug ← loadDebug paths.debugInfo
  return ⟨nef, manifest, debug⟩

def contract (a : Artifacts) (manifestPath : String) : Except CommandFault Contract :=
  match a.manifest with
  | some manifest => .ok ⟨a.nef, manifest, a.debug⟩
  | none => .error (.missingManifest manifestPath)

end Artifacts

/-- Adds a document of debug information, if it can be read. -/
def loadSource (info : DebugInfo) (sources : Sources) (document : Nat) : m Sources := do
  match info.documentPath? document with
  | none => return sources
  | some path =>
      match (← Host.readFile path).bind Utf8.decode? with
      | some text => return sources.insert path text
      | none => return sources

/-- The documents that debug information names, as far as they can be read. -/
def loadSources : Option DebugInfo → m Sources
  | none => return .empty
  | some info => (List.range info.documents.length).foldlM (loadSource info) .empty

end NeoScript
