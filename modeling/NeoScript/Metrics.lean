import NeoScript.FlowGraph.Basic

/-!
# Metrics — size, shape and price of a script

* `FlowGraph.reachable` — the nodes that a path from the entry reaches;
* `Metrics`, `FlowGraph.metrics` — the numbers, unless there is nothing to measure;
* `Metrics.feeChange`, `Metrics.sizeChange` — what changed between two measurements.
-/

namespace NeoScript

structure Metrics where
  byteLength : Nat
  instructionCount : Nat
  blockCount : Nat
  arcCount : Nat
  unreachableBlocks : Nat
  /-- The price of executing every instruction once. -/
  staticFee : Nat
  deriving DecidableEq, Repr

namespace FlowGraph

/-! ## Reachability -/

def successors (g : FlowGraph) : Array (List Node) :=
  g.arcs.foldl (fun table arc => table.modify arc.source (arc.target :: ·))
    (Array.replicate (g.blocks.length + 2) [])

/-- Marks the nodes on the agenda and all that follows from them.  Each node is expanded once, so
the number of arcs bounds the number of steps. -/
def explore (table : Array (List Node)) : (fuel : Nat) → List Node → Array Bool → Array Bool
  | 0, _, seen => seen
  | _ + 1, [], seen => seen
  | fuel + 1, node :: agenda, seen =>
      if seen.getD node true then explore table fuel agenda seen
      else explore table fuel (table.getD node [] ++ agenda) (seen.setIfInBounds node true)

def reachable (g : FlowGraph) : Array Bool :=
  explore g.successors (g.arcs.length + 2) [entryNode] (Array.replicate (g.blocks.length + 2) false)

def unreachable (g : FlowGraph) : List Node :=
  let seen := g.reachable
  (g.numberedBlocks.map (·.1)).filter fun node => !seen.getD node false

/-! ## Measuring -/

def allInstructions (g : FlowGraph) : Except Error (List Instruction) :=
  g.order.mapM fun id =>
    match g.arena.get? id with
    | some ins => .ok ins
    | none => .error (.metrics (.danglingInstruction id))

def metrics (g : FlowGraph) : Except Error Metrics :=
  if g.blocks.isEmpty then .error (.metrics .noBlocks)
  else do
    let instructions ← g.allInstructions
    return {
      byteLength := g.scriptLength
      instructionCount := instructions.length
      blockCount := g.blocks.length
      arcCount := g.arcs.length
      unreachableBlocks := g.unreachable.length
      staticFee := instructions.foldl (fun fee ins => fee + ins.op.price) 0 }

end FlowGraph

namespace Metrics

/-- The change of the static fee in percent; negative means cheaper. -/
def feeChange (before after : Metrics) : Float :=
  if before.staticFee = 0 then 0.0
  else
    let old := (UInt64.ofNat before.staticFee).toFloat
    let new := (UInt64.ofNat after.staticFee).toFloat
    (new - old) * 100.0 / old

def sizeChange (before after : Metrics) : Int :=
  (after.byteLength : Int) - (before.byteLength : Int)

end Metrics

end NeoScript
