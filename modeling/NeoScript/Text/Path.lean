/-!
# Path — names of files

A path is a text with slashes.  Repeated and trailing slashes do not count, nor does a dot except at
the very beginning.

* `Path.parts` — what a path consists of; paths with equal parts are equal;
* `Path.join`, `Path.fileName?`, `Path.fileStem?` — building paths and taking them apart;
* `Path.parent?`, `Path.withFileName` — neighbours in the same directory.
-/

namespace NeoScript

inductive PathPart where
  | root
  | current
  | parent
  | name (text : String)
  deriving DecidableEq, Repr

namespace Path

/-- Cuts at every slash.  `part` holds what was read of the current part, the last character
first. -/
def cutFrom (part : List Char) : List Char → List (List Char) → List (List Char)
  | [], out => (part.reverse :: out).reverse
  | c :: rest, out =>
      if c = '/' then cutFrom [] rest (part.reverse :: out) else cutFrom (c :: part) rest out

def cut (path : String) : List String :=
  (cutFrom [] path.toList []).map String.ofList

def isAbsolute (path : String) : Bool :=
  path.toList.head? = some '/'

/-- A text between slashes as a part; empty texts and dots are none. -/
def partOf (text : String) : Option PathPart :=
  if text = "" ∨ text = "." then none
  else if text = ".." then some .parent
  else some (.name text)

def parts (path : String) : List PathPart :=
  let texts := cut path
  let first : List PathPart :=
    if isAbsolute path then [.root] else if texts.head? = some "." then [.current] else []
  first ++ texts.filterMap partOf

/-- A path below another one; an absolute path stands for itself. -/
def join (base path : String) : String :=
  if isAbsolute path ∨ base = "" then path
  else if base.toList.getLast? = some '/' then base ++ path
  else base ++ "/" ++ path

def fileName? (path : String) : Option String :=
  match (parts path).getLast? with
  | some (.name text) => some text
  | _ => none

/-- The file name up to its last dot; a dot at its beginning does not count. -/
def fileStem? (path : String) : Option String :=
  (fileName? path).map fun name =>
    match (name.toList.reverse.dropWhile (· ≠ '.')).drop 1 with
    | [] => name
    | before => String.ofList before.reverse

/-- The path without trailing slashes and dots; `chars` is the path from its end. -/
def trimEnd : List Char → List Char
  | '/' :: rest => trimEnd rest
  | '.' :: '/' :: rest => trimEnd ('/' :: rest)
  | chars => chars

/-- The path without its last part; none if there is nothing to take away. -/
def parent? (path : String) : Option String :=
  match (parts path).getLast? with
  | none => none
  | some .root => none
  | some _ =>
      let base := (trimEnd path.toList.reverse).dropWhile (· ≠ '/')
      let trimmed := trimEnd base
      if trimmed.isEmpty ∧ isAbsolute path then some "/"
      else some (String.ofList trimmed.reverse)

def withFileName (path name : String) : String :=
  match fileName? path with
  | some _ => join ((parent? path).getD "") name
  | none => join path name

end Path
end NeoScript
