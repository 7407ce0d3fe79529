import NeoScript.FlowGraph.Build
import NeoScript.Metrics
import NeoScript.Nef.Basic
import NeoScript.Relocation
import NeoScript.Validation

/-!
# Contract — a script with its companions

* `Contract` — container, manifest and debug information;
* `Contract.entryPoints`, `Contract.graph`, `Contract.metrics` — views of its script;
* `Contract.rebuild` — the contract around a relocated script;
* `Contract.verify` — checksum, operands and addresses.
-/

namespace NeoScript

structure Contract where
  nef : Nef
  manifest : Manifest
  debug : Option DebugInfo
  deriving Repr

namespace Contract

/-! ## Views -/

/-- Where methods begin, by manifest and debug information, in ascending order. -/
def entryPoints (c : Contract) : List Nat :=
  let starts := match c.debug with
    | some info => info.starts
    | none => []
  (Std.TreeSet.ofList (c.manifest.offsets ++ starts)).toList

def graph (c : Contract) : Except Error FlowGraph := do
  FlowGraph.build (← Script.decode c.nef.script) c.entryPoints

def metrics (c : Contract) : Except Error Metrics := do
  (← c.graph).metrics

/-! ## Checks -/

def checkChecksum (nef : Nef) : Except Error Unit := do
  let computed ← nef.computeChecksum
  if computed = nef.checksum then return ()
  else throw (.checksumMismatch nef.checksum computed)

/-- Every operand and every recorded address leads to an instruction. -/
def checkAddresses (c : Contract) : Except Error Unit := do
  let script ← validateScript c.nef.script
  validateAddresses script (some c.manifest) c.debug

def verify (c : Contract) : Except Error Unit := do
  checkChecksum c.nef
  c.checkAddresses

/-! ## Rebuilding -/

def moveMethod (map : AddressMap) (m : MethodEntry) : Except Error MethodEntry := do
  return { m with offset := ← map.resolve m.offset }

def moveManifest (map : AddressMap) (m : Manifest) : Except Error Manifest := do
  return { m with abi := { m.abi with methods := ← m.abi.methods.mapM (moveMethod map) } }

def moveDebug (map : AddressMap) : Option DebugInfo → Except Error (Option DebugInfo)
  | some info => (info.mapAddresses map.resolve).map some
  | none => .ok none

/-- The contract around a relocated script: the header stays, the checksum is new, and every
recorded address is moved. -/
def rebuild (c : Contract) (r : Relocation) : Except Error Contract := do
  let script ← encode r.instructions
  let nef ← c.nef.withScript script
  let manifest ← moveManifest r.addressMap c.manifest
  let debug ← moveDebug r.addressMap c.debug
  return ⟨nef, manifest, debug⟩

end Contract

end NeoScript
