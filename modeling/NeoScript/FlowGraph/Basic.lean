import NeoScript.FlowGraph.References
import NeoScript.Instruction

/-!
# FlowGraph — blocks of instructions and how control passes between them

* `Arena` — every instruction that was ever seen, by number;
* `Control` — how a block ends, and `Block` — a straight run of instructions;
* `Arc` — a labelled arc between nodes;
* `FlowGraph` — blocks, arcs and references of a script.

Node 0 is the entry, node 1 the exit, and the blocks follow in the order of their addresses.
-/

namespace NeoScript

/-! ## Arena -/

/-- An instruction and the address that it stands for in the script that was read; helpers that a
revision adds stand for none. -/
structure ArenaEntry where
  instruction : Instruction
  origin : Option Nat
  deriving DecidableEq, Repr

/-- Every instruction that was ever seen; numbers are never used twice. -/
structure Arena where
  entries : Array ArenaEntry
  deriving DecidableEq, Repr

namespace Arena

def ofInstructions (instructions : Array Instruction) : Arena :=
  ⟨instructions.map fun ins => ⟨ins, some ins.pc⟩⟩

def alloc (a : Arena) (ins : Instruction) (origin : Option Nat) : InstrId × Arena :=
  (a.entries.size, ⟨a.entries.push ⟨ins, origin⟩⟩)

def get? (a : Arena) (id : InstrId) : Option Instruction :=
  (a.entries[id]?).map (·.instruction)

def origin? (a : Arena) (id : InstrId) : Option Nat :=
  (a.entries[id]?).bind (·.origin)

def size (a : Arena) : Nat :=
  a.entries.size

end Arena

/-! ## Blocks and arcs -/

abbrev Node := Nat

/-- How control leaves a block; no next node means the end of the script. -/
inductive Control where
  | fallthrough (next : Option Node)
  | jump (target : Node)
  | branch (onTrue : Node) (onFalse : Option Node)
  /-- A call returns to `next`; the callee of a pointer call is not known. -/
  | call (callee next : Option Node)
  | enterTry (body catchNode finallyNode : Option Node)
  | endTry (target : Node)
  /-- The end of a finally block goes on where the pending end or exception leads. -/
  | dynamic
  | terminal
  deriving DecidableEq, Repr

namespace Control

def label : Control → String
  | fallthrough _ => "fallthrough"
  | jump _ => "jump"
  | branch _ _ => "branch"
  | call _ _ => "call"
  | enterTry _ _ _ => "try"
  | endTry _ => "endtry"
  | dynamic => "endfinally"
  | terminal => "terminal"

def nodes : Control → List (Option Node)
  | fallthrough next => [next]
  | jump target => [some target]
  | branch onTrue onFalse => [some onTrue, onFalse]
  | call callee next => [callee, next]
  | enterTry body catchNode finallyNode => [body, catchNode, finallyNode]
  | endTry target => [some target]
  | dynamic => []
  | terminal => []

end Control

structure Block where
  start : Nat
  ids : List InstrId
  control : Control
  deriving DecidableEq, Repr

inductive ArcKind where
  | fallthrough
  | jump
  | branchTrue
  | branchFalse
  | call
  | catchHandler
  | finallyHandler
  | endTry
  deriving DecidableEq, Repr

namespace ArcKind

def name : ArcKind → String
  | fallthrough => "Fallthrough"
  | jump => "Jump"
  | branchTrue => "BranchTrue"
  | branchFalse => "BranchFalse"
  | call => "Call"
  | catchHandler => "Catch"
  | finallyHandler => "Finally"
  | endTry => "EndTry"

end ArcKind

structure Arc where
  source : Node
  target : Node
  kind : ArcKind
  deriving DecidableEq, Repr

structure FlowGraph where
  arena : Arena
  references : References
  blocks : List Block
  arcs : List Arc
  /-- The method starts with which the graph was built. -/
  entryPoints : List Nat
  scriptLength : Nat

namespace FlowGraph

def entryNode : Node := 0
def exitNode : Node := 1

def blockNode (position : Nat) : Node := position + 2

def numberedBlocks (g : FlowGraph) : List (Node × Block) :=
  g.blocks.zipIdx.map fun (block, position) => (blockNode position, block)

def blockStarts (g : FlowGraph) : List Nat :=
  g.blocks.map (·.start)

/-- All instructions in the order of their addresses. -/
def order (g : FlowGraph) : List InstrId :=
  g.blocks.flatMap (·.ids)

def instructionsOf (g : FlowGraph) (block : Block) : List Instruction :=
  block.ids.filterMap g.arena.get?

end FlowGraph

end NeoScript
