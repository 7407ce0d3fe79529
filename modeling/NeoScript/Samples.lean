import NeoScript.Contract

/-!
# Samples — small contracts to try things on

* `Samples.manifest` — a manifest with methods at given offsets;
* `Samples.debugInfo` — debug information with a method for each range;
* `Samples.contract`, `Samples.counter` — whole contracts.
-/

namespace NeoScript
namespace Samples

def compiler : String := "nefopt-tests"

def emptyMembers : Members :=
  [("groups", .array []), ("features", .object []), ("supportedstandards", .array [])]

def method (name returnType : String) (offset : Nat) (safe : Bool) : MethodEntry :=
  ⟨name, [], returnType, offset, safe, []⟩

def manifest (name : String) (methods : List (String × Nat)) : Manifest where
  name := name
  abi := ⟨methods.map fun (m, offset) => method m "Any" offset false, [], []⟩
  extra := emptyMembers ++ [("permissions", .array []), ("trusts", .array []), ("extra", .null)]

def debugMembers (returnType : String) (locals : List String) : Members :=
  [("params", .array []), ("return", .string returnType), ("variables", Json.strings locals)]

/-- A method on its own lines, with a point at its first and at its last address. -/
def debugMethod (contract name : String) (range : AddressRange) (index : Nat) : DebugMethod :=
  let line := index * 10 + 1
  { id := contract ++ "." ++ name
    name := contract ++ "," ++ name
    range
    points := [⟨range.first, 0, line, 5, line, 20⟩, ⟨range.last, 0, line + 1, 5, line + 1, 6⟩]
    extra := debugMembers "Any" [] }

/-- Debug information with one document and a method for each range. -/
def debugInfo (contract : String) (methods : List (String × AddressRange)) : DebugInfo where
  documents := [contract ++ ".cs"]
  documentRoot := none
  methods := methods.zipIdx.map fun ((name, range), index) => debugMethod contract name range index
  extra := [("hash", .string ("0x" ++ String.ofList (List.replicate 40 '0'))),
    ("events", .array []), ("static-variables", .array [])]

/-- A contract whose manifest names the methods that its debug information describes. -/
def contract (script : Code) (methods : List (String × AddressRange)) : Except Error Contract := do
  let nef ← Nef.make compiler "" [] script
  let offsets := methods.map fun (name, range) => (name, range.first)
  return ⟨nef, manifest "Sample" offsets, some (debugInfo "Sample" methods)⟩

/-! ## Counter -/

/-- The first method stores a sum and returns a text unless it is zero; the second returns a
number. -/
def counterScript : Code :=
  #[0x57, 0x01, 0x00, 0x11, 0x12, 0x9E, 0x70, 0x68, 0x26, 0x06, 0x0C, 0x02, 0x68, 0x69, 0x40,
    0x01, 0xE8, 0x03, 0x40]

def counterManifest : Manifest where
  name := "Counter"
  abi := ⟨[method "main" "Any" 0 false, method "helper" "Integer" 15 true], [], []⟩
  extra := emptyMembers ++
    [("permissions", .array [.object [("contract", .string "*"), ("methods", .string "*")]]),
      ("trusts", .array []), ("extra", .object [("Author", .string "nefopt")])]

def counterDebugInfo : DebugInfo where
  documents := ["Counter.cs"]
  documentRoot := none
  methods :=
    [⟨"Counter.main", "Counter,main", ⟨0, 14⟩,
        [⟨0, 0, 5, 5, 5, 6⟩, ⟨3, 0, 6, 9, 6, 25⟩, ⟨7, 0, 7, 9, 7, 38⟩, ⟨14, 0, 8, 9, 8, 21⟩],
        debugMembers "Any" ["sum,Integer,0"]⟩,
      ⟨"Counter.helper", "Counter,helper", ⟨15, 18⟩,
        [⟨15, 0, 10, 5, 11, 17⟩, ⟨18, 0, 12, 1, 12, 2⟩], debugMembers "Integer" []⟩]
  extra := [("hash", .string "0x5fdd6f2e1b6b8bd4a5c9a6d6c0a0f5f2b8c9d0e1"),
    ("events", .array []), ("static-variables", .array [])]

def counter : Except Error Contract := do
  return ⟨← Nef.make compiler "" [] counterScript, counterManifest, some counterDebugInfo⟩

end Samples
end NeoScript
