import Std.Data.TreeSet
import NeoScript.Json.Reader

/-!
# Manifest — the public face of a contract

Only the methods of a contract are typed.  Every other member of a manifest is carried along, so
that a manifest with other method offsets differs in nothing else.

* `Manifest`, `Abi`, `MethodEntry`, `Parameter` — the typed parts;
* `Manifest.parse`, `Manifest.toJson` — reading and writing;
* `Manifest.offsets`, `Manifest.method?` — where methods begin.
-/

namespace NeoScript

abbrev Members := List (String × Json)

structure Parameter where
  name : String
  type : String
  deriving DecidableEq, Repr

structure MethodEntry where
  name : String
  parameters : List Parameter
  returnType : String
  offset : Nat
  safe : Bool
  extra : Members
  deriving Repr

structure Abi where
  methods : List MethodEntry
  events : List Json
  extra : Members
  deriving Repr

structure Manifest where
  name : String
  abi : Abi
  extra : Members
  deriving Repr

/-! ## Reading -/

open Json.Reader

/-- Reads the value of a member that is carried along; the last value counts. -/
def carried (depth : Nat) (name : String) (extra : Members) : Json.Reader Members := do
  colon
  return Json.put extra name (← value depth)

namespace Parameter

/-- The members of a parameter, as far as they were read. -/
structure Draft where
  name : Option String
  type : Option String

def Draft.finish (d : Draft) : Json.Reader Parameter := do
  return ⟨← required d.name, ← required d.type⟩

/-- A parameter has no other members: they are skipped. -/
def member (_ : Nat) (name : String) (d : Draft) : Json.Reader Draft :=
  match name with
  | "name" => do return { d with name := ← once d.name text }
  | "type" => do return { d with type := ← once d.type text }
  | _ => do
      colon
      ignoredValue
      return d

def nextItem {α : Type} (first : Bool) (item : Json.Reader α) : Json.Reader α := do
  if ← hasItem first then item else fail .shape

/-- A parameter is an object, or an array of its two members. -/
def read (depth : Nat) : Json.Reader Parameter := do
  if (← peekValue) = '[' then
    nested depth fun _ => do
      let name ← nextItem true text
      let type ← nextItem false text
      endArray
      return ⟨name, type⟩
  else object depth (Draft.mk none none) member Draft.finish

end Parameter

namespace MethodEntry

/-- The members of a method, as far as they were read. -/
structure Draft where
  name : Option String
  parameters : Option (List Parameter)
  returnType : Option String
  offset : Option Nat
  safe : Option Bool
  extra : Members

def Draft.finish (d : Draft) : Json.Reader MethodEntry := do
  return {
    name := ← required d.name
    parameters := d.parameters.getD []
    returnType := ← required d.returnType
    offset := ← required d.offset
    safe := d.safe.getD false
    extra := d.extra }

def member (depth : Nat) (name : String) (d : Draft) : Json.Reader Draft :=
  match name with
  | "name" => do return { d with name := ← once d.name text }
  | "parameters" => do
      return { d with parameters := ← once d.parameters (array depth Parameter.read) }
  | "returntype" => do return { d with returnType := ← once d.returnType text }
  | "offset" => do return { d with offset := ← once d.offset word }
  | "safe" => do return { d with safe := ← once d.safe flag }
  | _ => do return { d with extra := ← carried depth name d.extra }

def read (depth : Nat) : Json.Reader MethodEntry :=
  object depth (Draft.mk none none none none none []) member Draft.finish

end MethodEntry

namespace Abi

/-- The members of an interface, as far as they were read. -/
structure Draft where
  methods : Option (List MethodEntry)
  events : Option (List Json)
  extra : Members

def Draft.finish (d : Draft) : Json.Reader Abi := do
  return ⟨← required d.methods, d.events.getD [], d.extra⟩

def member (depth : Nat) (name : String) (d : Draft) : Json.Reader Draft :=
  match name with
  | "methods" => do return { d with methods := ← once d.methods (array depth MethodEntry.read) }
  | "events" => do return { d with events := ← once d.events (array depth value) }
  | _ => do return { d with extra := ← carried depth name d.extra }

def read (depth : Nat) : Json.Reader Abi :=
  object depth (Draft.mk none none []) member Draft.finish

end Abi

namespace Manifest

/-- The members of a manifest, as far as they were read. -/
structure Draft where
  name : Option String
  abi : Option Abi
  extra : Members

def Draft.finish (d : Draft) : Json.Reader Manifest := do
  return ⟨← required d.name, ← required d.abi, d.extra⟩

def member (depth : Nat) (name : String) (d : Draft) : Json.Reader Draft :=
  match name with
  | "name" => do return { d with name := ← once d.name text }
  | "abi" => do return { d with abi := ← once d.abi (Abi.read depth) }
  | _ => do return { d with extra := ← carried depth name d.extra }

def read (depth : Nat) : Json.Reader Manifest :=
  object depth (Draft.mk none none []) member Draft.finish

def parse (source : String) : Except Error Manifest :=
  ((read Json.maxDepth).run source).mapError .json

end Manifest

/-! ## Writing -/

def Parameter.toJson (p : Parameter) : Json :=
  .object [("name", .string p.name), ("type", .string p.type)]

def MethodEntry.toJson (m : MethodEntry) : Json :=
  .object ([("name", .string m.name), ("parameters", .array (m.parameters.map Parameter.toJson)),
    ("returntype", .string m.returnType), ("offset", .nat m.offset), ("safe", .bool m.safe)] ++
    m.extra)

def Abi.toJson (abi : Abi) : Json :=
  .object ([("methods", .array (abi.methods.map MethodEntry.toJson)),
    ("events", .array abi.events)] ++
    abi.extra)

namespace Manifest

def toJson (m : Manifest) : Json :=
  .object ([("name", .string m.name), ("abi", m.abi.toJson)] ++ m.extra)

def render (m : Manifest) : String :=
  m.toJson.compact

/-! ## Methods -/

/-- Where methods begin, in ascending order and without repetition. -/
def offsets (m : Manifest) : List Nat :=
  (Std.TreeSet.ofList (m.abi.methods.map (·.offset))).toList

def method? (m : Manifest) (name : String) : Option MethodEntry :=
  m.abi.methods.find? fun entry => entry.name == name

end Manifest

end NeoScript
