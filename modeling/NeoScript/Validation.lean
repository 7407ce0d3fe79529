import NeoScript.DebugInfo.Basic
import NeoScript.Script

/-!
# Validation — every address that is mentioned begins an instruction

* `invalidTargets` — the address operands that lead nowhere;
* `validateScript` — a script without such operands;
* `validateAddresses` — the addresses in a manifest and in debug information.
-/

namespace NeoScript

/-- An operand that does not lead to an instruction. -/
structure InvalidTarget where
  pc : Nat
  op : Opcode
  target : Int
  deriving DecidableEq, Repr

/-- The relative addresses in the operand of an instruction; an absent handler has none. -/
def relativeTargets (ins : Instruction) : List Int :=
  match ins.jumpOffset? with
  | some offset => [offset]
  | none =>
      match ins.handlerOffsets? with
      | some (catchOffset, finallyOffset) => [catchOffset, finallyOffset].filter (· ≠ 0)
      | none => []

def invalidTargetsOf (script : Script) (ins : Instruction) : List InvalidTarget :=
  (relativeTargets ins).filterMap fun offset =>
    let target := (ins.pc : Int) + offset
    if 0 ≤ target ∧ target.toNat < script.length ∧ script.isBoundary target.toNat then none
    else some ⟨ins.pc, ins.op, target⟩

/-- All operands that lead nowhere, in the order of addresses. -/
def invalidTargets (script : Script) : List InvalidTarget :=
  script.instructions.toList.flatMap (invalidTargetsOf script)

/-- Decodes a script and refuses the first operand that leads nowhere. -/
def validateScript (code : Code) : Except Error Script := do
  let script ← Script.decode code
  match invalidTargets script with
  | [] => return script
  | first :: _ => throw (.invalidJumpTarget first.pc first.op first.target)

/-! ## Companions -/

def checkEntry (script : Script) (pc : Nat) : Except Error Unit :=
  if script.isBoundary pc then .ok () else .error (.invalidEntryPoint pc)

/-- An instruction begins here, or the script ends. -/
def isBoundaryOrEnd (script : Script) (pc : Nat) : Bool :=
  script.isBoundary pc || pc = script.length

def checkDebugMethod (script : Script) (m : DebugMethod) : Except Error Unit := do
  checkEntry script m.range.first
  if isBoundaryOrEnd script m.range.last then
    match m.points.find? fun p => !isBoundaryOrEnd script p.address with
    | some p => throw (.invalidDebugInfo (.sequencePoint p m.id))
    | none => return ()
  else throw (.invalidDebugInfo (.methodEnd m.id m.range.last))

def checkManifest (script : Script) : Option Manifest → Except Error Unit
  | some m => m.offsets.forM (checkEntry script)
  | none => .ok ()

def checkDebugInfo (script : Script) : Option DebugInfo → Except Error Unit
  | some info => info.methods.forM (checkDebugMethod script)
  | none => .ok ()

def validateAddresses (script : Script) (manifest : Option Manifest) (debug : Option DebugInfo) :
    Except Error Unit := do
  checkManifest script manifest
  checkDebugInfo script debug

end NeoScript
