import NeoScript.Manifest

/-!
# DebugInfo — from addresses to source texts

* `DebugInfo`, `DebugMethod` — documents, methods and their sequence points;
* `DebugInfo.parse`, `DebugInfo.toJson` — reading and writing;
* `DebugInfo.starts` — where methods begin;
* `DebugInfo.mapAddresses` — the same information for moved addresses.
-/

namespace NeoScript

structure DebugMethod where
  id : String
  /-- A name space and a name, with a comma between. -/
  name : String
  range : AddressRange
  points : List SequencePoint
  extra : Members
  deriving Repr

structure DebugInfo where
  documents : List String
  documentRoot : Option String
  methods : List DebugMethod
  extra : Members
  deriving Repr

/-! ## Reading -/

open Json.Reader

def parsed {α : Type} (parse : String → Except AddressFault α) : Json.Reader α := do
  match parse (← text) with
  | .ok a => return a
  | .error fault => fail (.address fault)

namespace DebugMethod

/-- The members of a method, as far as they were read. -/
structure Draft where
  id : Option String
  name : Option String
  range : Option AddressRange
  points : Option (List SequencePoint)
  extra : Members

def Draft.finish (d : Draft) : Json.Reader DebugMethod := do
  return {
    id := ← required d.id
    name := ← required d.name
    range := ← required d.range
    points := d.points.getD []
    extra := d.extra }

def member (depth : Nat) (name : String) (d : Draft) : Json.Reader Draft :=
  match name with
  | "id" => do return { d with id := ← once d.id text }
  | "name" => do return { d with name := ← once d.name text }
  | "range" => do return { d with range := ← once d.range (parsed AddressRange.parse) }
  | "sequence-points" => do
      return { d with
        points := ← once d.points (array depth fun _ => parsed SequencePoint.parse) }
  | _ => do return { d with extra := ← carried depth name d.extra }

def read (depth : Nat) : Json.Reader DebugMethod :=
  object depth (Draft.mk none none none none []) member Draft.finish

def shortName (m : DebugMethod) : String :=
  match Text.splitOnce ',' m.name.toList with
  | some (_, rest) => String.ofList rest
  | none => m.name

def toJson (m : DebugMethod) : Json :=
  .object ([("id", .string m.id), ("name", .string m.name), ("range", .string m.range.render),
    ("sequence-points", .array (m.points.map fun p => .string p.render))] ++ m.extra)

end DebugMethod

namespace DebugInfo

/-- The members of debug information, as far as they were read. -/
structure Draft where
  documents : Option (List String)
  documentRoot : Option (Option String)
  methods : Option (List DebugMethod)
  extra : Members

def Draft.finish (d : Draft) : Json.Reader DebugInfo :=
  return {
    documents := d.documents.getD []
    documentRoot := d.documentRoot.getD none
    methods := d.methods.getD []
    extra := d.extra }

def member (depth : Nat) (name : String) (d : Draft) : Json.Reader Draft :=
  match name with
  | "documents" => do return { d with documents := ← once d.documents (array depth fun _ => text) }
  | "document-root" => do return { d with documentRoot := ← once d.documentRoot (optional text) }
  | "methods" => do return { d with methods := ← once d.methods (array depth DebugMethod.read) }
  | _ => do return { d with extra := ← carried depth name d.extra }

def read (depth : Nat) : Json.Reader DebugInfo :=
  object depth (Draft.mk none none none []) member Draft.finish

def parse (source : String) : Except Error DebugInfo :=
  ((read Json.maxDepth).run source).mapError .json

/-! ## Writing -/

/-- An absent document root is left out. -/
def toJson (info : DebugInfo) : Json :=
  .object ([("documents", Json.strings info.documents)] ++
    (info.documentRoot.map fun root => ("document-root", Json.string root)).toList ++
    [("methods", .array (info.methods.map DebugMethod.toJson))] ++ info.extra)

def render (info : DebugInfo) : String :=
  info.toJson.compact

/-! ## Addresses -/

/-- Where methods begin, in ascending order and without repetition. -/
def starts (info : DebugInfo) : List Nat :=
  (Std.TreeSet.ofList (info.methods.map (·.range.first))).toList

/-- Moves the addresses of a method.  Points that become equal are kept once, at the place of the
first. -/
def mapMethod (move : Nat → Except Error Nat) (m : DebugMethod) : Except Error DebugMethod := do
  let first ← move m.range.first
  let last ← move m.range.last
  let points ← m.points.mapM fun p => do return { p with address := ← move p.address }
  return { m with range := ⟨first, last⟩, points := points.eraseDups }

def mapAddresses (move : Nat → Except Error Nat) (info : DebugInfo) : Except Error DebugInfo := do
  return { info with methods := ← info.methods.mapM (mapMethod move) }

end DebugInfo

end NeoScript
