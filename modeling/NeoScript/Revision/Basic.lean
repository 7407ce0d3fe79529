import NeoScript.FlowGraph.Basic

/-!
# Revision — a new order of instructions over a growing arena

* `Revision` — the arena, the order in which instructions are emitted, and the references;
* `Revision.standIn`, `Revision.fresh` — allocate a replacement or a helper;
* `Piece`, `Revision.placeAll` — a described order and its allocation;
* `reviseBlocks` — applies a change of blocks to every block of a graph.

References are kept by number, so no revision computes an offset.
-/

namespace NeoScript

/-- A program in terms of instruction numbers. -/
structure Revision where
  arena : Arena
  /-- The instructions in the order in which they are emitted. -/
  order : List InstrId
  references : References
  changed : Bool
  /-- The length of the script to which the origin addresses refer. -/
  scriptLength : Nat

abbrev Numbered := InstrId × Instruction

/-- What stands at a place of a new order. -/
inductive Piece where
  | keep (id : InstrId)
  /-- A replacement inherits origin and references. -/
  | standIn (ins : Instruction) (replaced : InstrId)
  /-- A helper has no origin, and nothing refers to it. -/
  | fresh (ins : Instruction)
  deriving DecidableEq, Repr

namespace Revision

/-- The program exactly as a graph holds it. -/
def identity (g : FlowGraph) : Revision where
  arena := g.arena
  order := g.order
  references := g.references
  changed := false
  scriptLength := g.scriptLength

def instructions (r : Revision) : List Instruction :=
  r.order.filterMap r.arena.get?

def fresh (r : Revision) (ins : Instruction) : InstrId × Revision :=
  let (id, arena) := r.arena.alloc ins none
  (id, { r with arena })

/-- Allocates a replacement, which inherits the origin address of the replaced instruction and every
reference to it. -/
def standIn (r : Revision) (ins : Instruction) (replaced : InstrId) : InstrId × Revision :=
  let (id, arena) := r.arena.alloc ins (r.arena.origin? replaced)
  (id, { r with arena, references := r.references.retarget replaced id })

def place (r : Revision) : Piece → InstrId × Revision
  | .keep id => (id, r)
  | .standIn ins replaced => r.standIn ins replaced
  | .fresh ins => r.fresh ins

/-- Allocates pieces from left to right; the numbers come out in the same order. -/
def placeAll (r : Revision) (pieces : List Piece) : List InstrId × Revision :=
  let step (state : List InstrId × Revision) (piece : Piece) : List InstrId × Revision :=
    let (ids, r) := state
    let (id, r) := r.place piece
    (id :: ids, r)
  let (ids, r) := pieces.foldl step ([], r)
  (ids.reverse, r)

def numbered (r : Revision) (ids : List InstrId) : List Numbered :=
  ids.filterMap fun id => (r.arena.get? id).map fun ins => (id, ins)

end Revision

/-- Applies a change of blocks to every block in the order of addresses and concatenates the
results, so no pattern crosses the end of a block.  The count of changes decides whether the program
changed. -/
def reviseBlocks (g : FlowGraph) (block : Revision → List InstrId → List InstrId × Nat × Revision) :
    Revision :=
  let step (state : List (List InstrId) × Nat × Revision) (b : Block) :
      List (List InstrId) × Nat × Revision :=
    let (done, total, r) := state
    let (ids, count, r) := block r b.ids
    (ids :: done, total + count, r)
  let (done, total, r) := g.blocks.foldl step ([], 0, Revision.identity g)
  { r with order := done.reverse.flatten, changed := 0 < total }

end NeoScript
