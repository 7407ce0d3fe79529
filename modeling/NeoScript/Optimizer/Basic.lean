import NeoScript.Optimizer.Config
import NeoScript.Pass

/-!
# Optimizer — passes until nothing changes

* `Report` — sizes, fees and runs before and after;
* `Optimizer.rounds` — passes up to a limit;
* `optimize` — checks the contract, optimizes it and checks the result.
-/

namespace NeoScript

structure Report where
  level : Level
  sizeBefore : Nat
  sizeAfter : Nat
  /-- In percent; negative if the script grew. -/
  sizeReduction : Float
  instructionsBefore : Nat
  instructionsAfter : Nat
  feeBefore : Nat
  feeAfter : Nat
  /-- The passes that changed the program. -/
  rounds : Nat
  /-- The strategies that changed the program, each once. -/
  strategies : List String
  runs : List StrategyRun
  deriving Repr

structure Optimization where
  contract : Contract
  report : Report
  trace : List TraceEvent
  deriving Repr

namespace Optimizer

structure Progress where
  contract : Contract
  runs : List StrategyRun
  trace : List TraceEvent
  rounds : Nat
  deriving Repr

/-- Makes passes until one changes nothing, or the limit is reached. -/
def rounds (strategies : List Strategy) : (limit : Nat) → Progress → Except Error Progress
  | 0, p => .ok p
  | limit + 1, p => do
      let pass ← Pass.run p.contract strategies
      let trace := p.trace ++ pass.trace
      if pass.changed then
        rounds strategies limit ⟨pass.contract, p.runs ++ pass.runs, trace, p.rounds + 1⟩
      else return { p with contract := pass.contract, trace }

/-- Without strategies there is no pass. -/
def passes (config : Config) (c : Contract) : Except Error Progress :=
  let start : Progress := ⟨c, [], [], 0⟩
  match config.strategies with
  | [] => .ok start
  | strategies => rounds strategies config.maxRounds start

/-- The container with a checksum that fits, unless a wrong one is to be refused. -/
def accept (config : Config) (c : Contract) : Except Error Contract := do
  let computed ← c.nef.computeChecksum
  if computed = c.nef.checksum then return c
  else if config.verifyChecksum then throw (.checksumMismatch c.nef.checksum computed)
  else return { c with nef := { c.nef with checksum := computed } }

def reduction (before after : Nat) : Float :=
  if before = 0 then 0.0
  else
    let old := (UInt64.ofNat before).toFloat
    let new := (UInt64.ofNat after).toFloat
    (old - new) * 100.0 / old

end Optimizer

open Optimizer in
/-- Optimizes a contract.  A contract that does not pass the checks is refused before anything is
changed, and the result is checked again. -/
def optimize (config : Config) (c : Contract) : Except Error Optimization := do
  let c ← accept config c
  c.checkAddresses
  let before ← c.metrics
  let done ← passes config c
  done.contract.verify
  let after ← done.contract.metrics
  return {
    contract := done.contract
    report := {
      level := config.level
      sizeBefore := before.byteLength
      sizeAfter := after.byteLength
      sizeReduction := reduction before.byteLength after.byteLength
      instructionsBefore := before.instructionCount
      instructionsAfter := after.instructionCount
      feeBefore := before.staticFee
      feeAfter := after.staticFee
      rounds := done.rounds
      strategies := (done.runs.map (·.strategy)).eraseDups
      runs := done.runs }
    trace := done.trace }

end NeoScript
