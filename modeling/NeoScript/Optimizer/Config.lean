import NeoScript.Json.Reader
import NeoScript.Revision.Strategy

/-!
# Config — how a contract is optimized

* `Level` — which strategies run;
* `Config` — the settings and their defaults;
* `Config.parse`, `Config.toJson` — reading and writing.
-/

namespace NeoScript

/-! ## Levels -/

inductive Level where
  /-- None. -/
  | off
  /-- Folding. -/
  | basic
  /-- Folding and fusion. -/
  | experimental
  /-- Every strategy. -/
  | all
  deriving DecidableEq, Repr

namespace Level

def every : List Level := [off, basic, experimental, all]

def name : Level → String
  | off => "None"
  | basic => "Basic"
  | experimental => "Experimental"
  | all => "All"

def display : Level → String
  | off => "none"
  | basic => "basic"
  | experimental => "experimental"
  | all => "all"

def ofName? (name : String) : Option Level :=
  every.find? fun level => level.name == name

/-- The level of a shown name, in upper or lower case; otherwise the text of the fault. -/
def parse (text : String) : Except String Level :=
  let lower := text.map Char.toLower
  match every.find? fun level => level.display == lower with
  | some level => .ok level
  | none =>
      .error ("unknown optimization level '" ++ lower ++
        "' (expected none, basic, experimental or all)")

end Level

/-! ## Settings -/

structure Config where
  level : Level
  /-- The greatest number of passes; fewer if nothing changes any more. -/
  maxRounds : Nat
  arithmetic : ArithmeticPolicy
  /-- The least number of elements to fuse. -/
  fusionThreshold : Nat
  /-- Refuse a container whose checksum is wrong. -/
  verifyChecksum : Bool
  deriving DecidableEq, Repr

namespace Config

def default : Config where
  level := .all
  maxRounds := 8
  arithmetic := .trapping
  fusionThreshold := Fusion.leastThreshold
  verifyChecksum := true

def strategies (c : Config) : List Strategy :=
  match c.level with
  | .off => []
  | .basic => [.folding c.arithmetic]
  | .experimental => [.folding c.arithmetic, .fusion c.fusionThreshold]
  | .all => [.folding c.arithmetic, .fusion c.fusionThreshold]

end Config

/-! ## Reading -/

open Json.Reader

namespace ArithmeticPolicy

def readTable (depth : Nat) : Json.Reader ArithmeticPolicy :=
  object depth ⟨[]⟩
    (fun depth name p => do
      let op ← required (Opcode.ofMnemonicExact? name)
      colon
      return p.set op (← variant depth OverflowPolicy.ofName?))
    pure

def member (depth : Nat) (name : String) (seen : Option ArithmeticPolicy) :
    Json.Reader (Option ArithmeticPolicy) :=
  match name with
  | "overflow" => once seen (readTable depth)
  | _ => do
      colon
      ignoredValue
      return seen

/-- A policy is an object, or an array of its one member. -/
def read (depth : Nat) : Json.Reader ArithmeticPolicy := do
  if (← peekValue) = '[' then
    nested depth fun depth => do
      let table ← if ← hasItem true then readTable depth else fail .shape
      endArray
      return table
  else object depth none member required

def toJson (p : ArithmeticPolicy) : Json :=
  .object [("overflow",
    .object (p.overflow.map fun (op, policy) => (op.mnemonic, .string policy.name)))]

end ArithmeticPolicy

namespace Config

structure Draft where
  level : Option Level
  maxRounds : Option Nat
  arithmetic : Option ArithmeticPolicy
  fusionThreshold : Option Nat
  verifyChecksum : Option Bool

def Draft.finish (d : Draft) : Config where
  level := d.level.getD default.level
  maxRounds := d.maxRounds.getD default.maxRounds
  arithmetic := d.arithmetic.getD default.arithmetic
  fusionThreshold := d.fusionThreshold.getD default.fusionThreshold
  verifyChecksum := d.verifyChecksum.getD default.verifyChecksum

def readLevel (depth : Nat) : Json.Reader Level :=
  variant depth Level.ofName?

def member (depth : Nat) (name : String) (d : Draft) : Json.Reader Draft :=
  match name with
  | "level" => do return { d with level := ← once d.level (readLevel depth) }
  | "max_rounds" => do return { d with maxRounds := ← once d.maxRounds word }
  | "arithmetic" => do
      return { d with arithmetic := ← once d.arithmetic (ArithmeticPolicy.read depth) }
  | "fusion_threshold" => do return { d with fusionThreshold := ← once d.fusionThreshold word }
  | "verify_checksum" => do return { d with verifyChecksum := ← once d.verifyChecksum flag }
  | _ => do
      colon
      ignoredValue
      return d

/-- The next item of an array, unless the array ends. -/
def nextSetting {α : Type} (first : Bool) (item : Json.Reader α) : Json.Reader (Option α) := do
  if ← hasItem first then return some (← item) else return none

/-- Settings in order; those that are missing at the end have their defaults. -/
def readItems (depth : Nat) : Json.Reader Config := do
  let level ← nextSetting true (readLevel depth)
  let maxRounds ← nextSetting false word
  let arithmetic ← nextSetting false (ArithmeticPolicy.read depth)
  let fusionThreshold ← nextSetting false word
  let verifyChecksum ← nextSetting false flag
  endArray
  return (Draft.mk level maxRounds arithmetic fusionThreshold verifyChecksum).finish

/-- Settings are an object, or an array in the order of the members. -/
def read (depth : Nat) : Json.Reader Config := do
  if (← peekValue) = '[' then nested depth readItems
  else object depth (Draft.mk none none none none none) member fun d => pure d.finish

def parse (source : String) : Except Error Config :=
  ((read Json.maxDepth).run source).mapError .json

def toJson (c : Config) : Json :=
  .object [("level", .string c.level.name), ("max_rounds", .nat c.maxRounds),
    ("arithmetic", c.arithmetic.toJson), ("fusion_threshold", .nat c.fusionThreshold),
    ("verify_checksum", .bool c.verifyChecksum)]

end Config

end NeoScript
