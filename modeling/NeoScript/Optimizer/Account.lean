import NeoScript.Optimizer.Basic

/-!
# Account — reports of an optimization in JSON

* `Report.toJson` — sizes, fees and runs;
* `TraceEvent.toJson` — what happened, step by step;
* `FlowGraph.toJson` — blocks and arcs of a graph;
* `Optimization.toJson` — all of them, with the graph of the result.
-/

namespace NeoScript

def Json.double (x : Float) : Json := .number (.double x)

def StrategyRun.toJson (r : StrategyRun) : Json :=
  .object [("strategy", .string r.strategy), ("size_delta", .int r.sizeChange),
    ("fee_delta", .double r.feeChange), ("upgraded_jumps", .nat r.upgraded)]

def Report.toJson (r : Report) : Json :=
  .object [("level", .string r.level.name), ("original_size", .nat r.sizeBefore),
    ("optimized_size", .nat r.sizeAfter),
    ("size_reduction_percentage", .double r.sizeReduction),
    ("original_instructions", .nat r.instructionsBefore),
    ("optimized_instructions", .nat r.instructionsAfter), ("original_fee", .nat r.feeBefore),
    ("optimized_fee", .nat r.feeAfter), ("rounds", .nat r.rounds),
    ("strategies_applied", .strings r.strategies), ("runs", .array (r.runs.map StrategyRun.toJson))]

def Operation.toJson : Operation → Json
  | build blocks arcs =>
      .object [("Build", .object [("body_blocks", .nat blocks), ("edges", .nat arcs)])]
  | revise strategy changed =>
      .object [("Rewrite", .object [("strategy", .string strategy), ("changed", .bool changed)])]
  | relocate upgraded => .object [("Relocate", .object [("upgraded", .nat upgraded)])]

def TraceEvent.toJson (e : TraceEvent) : Json :=
  let moves (pairs : List (Nat × Nat)) : Json :=
    .object (pairs.map fun (old, new) => (toString old, .nat new))
  .object [("kind", e.operation.toJson), ("remapped_pcs", .ofOption moves e.moved)]

def Instruction.toJson (ins : Instruction) : Json :=
  .object [("pc", .nat ins.pc), ("op", .string ins.op.mnemonic),
    ("operand", .array (ins.operand.map fun b => .nat b.toNat))]

def Arc.toJson (a : Arc) : Json :=
  .object [("source", .nat a.source), ("target", .nat a.target), ("kind", .string a.kind.name)]

def FlowGraph.toJson (g : FlowGraph) : Json :=
  let block (entry : Node × Block) : Json :=
    let (node, b) := entry
    .object [("node", .nat node), ("start_pc", .nat b.start), ("control", .string b.control.label),
      ("instructions", .array ((g.instructionsOf b).map Instruction.toJson))]
  .object [("blocks", .array (g.numberedBlocks.map block)),
    ("edges", .array (g.arcs.map Arc.toJson)), ("script_len", .nat g.scriptLength)]

/-- Report, trace and the graph of the result. -/
def Optimization.toJson (o : Optimization) (g : FlowGraph) : Json :=
  .object [("report", o.report.toJson), ("trace", .array (o.trace.map TraceEvent.toJson)),
    ("cfg", g.toJson)]

end NeoScript
