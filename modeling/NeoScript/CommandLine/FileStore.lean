import NeoScript.Text.Path
import NeoScript.Text.Utf8

/-!
# FileStore — a tree of files in memory

Places are named from the root of the tree.  A path that is not absolute leads from the directory in
which a program works.

* `FileStore.locate` — where a path leads;
* `FileStore.read?`, `FileStore.exists?`, `FileStore.write?`, `FileStore.createDirectories?` — what
  a program does with files.
-/

namespace NeoScript

inductive PathFault where
  | missing
  /-- It leads through a file, or a name is too long. -/
  | blocked
  deriving DecidableEq, Repr

/-- Files and directories by the names on the way to them, and the directory in which a program
works. -/
structure FileStore where
  files : List (List String × List UInt8)
  directories : List (List String)
  here : List String := []
  deriving DecidableEq, Repr

namespace FileStore

def empty (here : List String) : FileStore :=
  ⟨[], (List.range (here.length + 1)).map here.take, here⟩

def isFile (s : FileStore) (place : List String) : Bool :=
  (s.files.lookup place).isSome

/-- The root is a directory. -/
def isDirectory (s : FileStore) (place : List String) : Bool :=
  place.isEmpty || s.directories.contains place

def maxNameLength : Nat := 255

/-- Follows one text of a path; only a directory can be left behind.  Above the root is the root. -/
def step (s : FileStore) (place : List String) (text : String) : Except PathFault (List String) :=
  if s.isDirectory place then
    match Path.partOf text with
    | none => .ok place
    | some .parent => .ok place.dropLast
    | some _ =>
        if maxNameLength < Utf8.length text then .error .blocked else .ok (place ++ [text])
  else if s.isFile place then .error .blocked
  else .error .missing

def base (s : FileStore) (path : String) : List String :=
  if Path.isAbsolute path then [] else s.here

/-- Where a path leads: to a file, to a directory, or to a name that is free in a directory. -/
def locate (s : FileStore) (path : String) : Except PathFault (List String) :=
  if path = "" then .error .missing else (Path.cut path).foldlM s.step (s.base path)

def read? (s : FileStore) (path : String) : Option (List UInt8) :=
  match s.locate path with
  | .ok place => s.files.lookup place
  | .error _ => none

/-- There is a file or a directory; none if this cannot be told. -/
def exists? (s : FileStore) (path : String) : Option Bool :=
  match s.locate path with
  | .ok place => some (s.isFile place || s.isDirectory place)
  | .error .missing => some false
  | .error .blocked => none

def put (place : List String) (bytes : List UInt8) :
    List (List String × List UInt8) → List (List String × List UInt8)
  | [] => [(place, bytes)]
  | (known, old) :: rest =>
      if known = place then (place, bytes) :: rest else (known, old) :: put place bytes rest

def write? (s : FileStore) (path : String) (bytes : List UInt8) : Option FileStore :=
  match s.locate path with
  | .ok place =>
      if s.isDirectory place then none else some { s with files := put place bytes s.files }
  | .error _ => none

/-- Adds the directory at a place, unless it exists. -/
def addDirectory (s : FileStore) (place : List String) : Option FileStore :=
  if s.isDirectory place then some s
  else if s.isFile place then none
  else some { s with directories := place :: s.directories }

/-- Follows a path and creates what is missing on the way. -/
def createAlong : List String → FileStore → (place : List String) → Option FileStore
  | [], s, _ => some s
  | text :: rest, s, place =>
      match s.step place text with
      | .ok next => (s.addDirectory next).bind fun s => createAlong rest s next
      | .error _ => none

def endsInDot (path : String) : Bool :=
  ((Path.cut path).reverse.dropWhile (· == "")).head? == some "."

/-- Creates a directory with those on the way to it; a dot at the end creates nothing. -/
def createDirectories? (s : FileStore) (path : String) : Option FileStore :=
  let found := match s.locate path with
    | .ok place => s.isDirectory place
    | .error _ => false
  if found then some s
  else if path = "" ∨ endsInDot path then none
  else createAlong (Path.cut path) s (s.base path)

def insert (s : FileStore) (path : String) (bytes : List UInt8) : FileStore :=
  let place := s.base path ++ (Path.cut path).filter fun text => (Path.partOf text).isSome
  let ways := (List.range place.length).map place.take
  { s with
    files := put place bytes s.files
    directories := (ways.filter fun way => !s.isDirectory way) ++ s.directories }

/-- The files below the working directory that another store does not have with the same contents,
by their paths. -/
def changes (s before : FileStore) : List (String × List UInt8) :=
  (s.files.filter fun (place, bytes) =>
    s.here.isPrefixOf place && before.files.lookup place != some bytes).map
      fun (place, bytes) => ("/".intercalate (place.drop s.here.length), bytes)

end FileStore
end NeoScript
