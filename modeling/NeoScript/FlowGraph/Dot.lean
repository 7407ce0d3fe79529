import NeoScript.FlowGraph.Basic

/-!
# Dot — block graphs as drawings

* `FlowGraph.dot` — the text from which a graph is drawn: a line for each node and for each arc.
-/

namespace NeoScript
namespace FlowGraph

/-- The label of a block: its start and its instructions, with a line break of the drawing between
them. -/
def blockLabel (g : FlowGraph) (b : Block) : String :=
  s!"Block_{b.start}\\n" ++ "\\n".intercalate ((g.instructionsOf b).map Instruction.render)

def nodeLine (node : Node) (label : String) : String :=
  s!"    {node} [label=\"" ++ label ++ "\"];\n"

def arcLine (a : Arc) : String :=
  s!"    {a.source} -> {a.target} [label=\"" ++ a.kind.name ++ "\"];\n"

def dot (g : FlowGraph) : String :=
  let blocks := g.numberedBlocks.map fun (node, b) => nodeLine node (g.blockLabel b)
  String.join (["digraph CFG \x7b\n", nodeLine entryNode "Entry",
    nodeLine exitNode "Exit"] ++ blocks ++
    g.arcs.map arcLine ++ ["\x7d\n"])

end FlowGraph
end NeoScript
