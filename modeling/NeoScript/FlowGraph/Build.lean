import NeoScript.FlowGraph.Basic
import NeoScript.Script

/-!
# Build — the block graph of a decoded script

A block starts at the first instruction, at a method start, at the target of an address operand and
behind every instruction that transfers control.

* `resolveTarget` — the address that an operand names, if an instruction begins there;
* `Survey.run` — the references and the block starts of a script;
* `cutBlocks` — the runs of instructions between block starts;
* `FlowGraph.build` — the graph, or the first fault.
-/

namespace NeoScript

open Std (TreeMap TreeSet)

/-! ## References and block starts -/

def resolveTarget (script : Script) (ins : Instruction) (offset : Int) : Except Error Nat :=
  let target := (ins.pc : Int) + offset
  if 0 ≤ target ∧ target.toNat < script.length ∧ script.isBoundary target.toNat then
    .ok target.toNat
  else .error (.invalidJumpTarget ins.pc ins.op target)

/-- What one pass over the instructions collects. -/
structure Survey where
  references : References
  starts : TreeSet Nat

namespace Survey

/-- Resolves a handler of a try and makes its address a block start. -/
def handler (script : Script) (ins : Instruction) (offset : Int) (starts : TreeSet Nat) :
    Except Error (Option InstrId × TreeSet Nat) :=
  if offset = 0 then .ok (none, starts)
  else do
    let pc ← resolveTarget script ins offset
    return (script.indexOf? pc, starts.insert pc)

def operands (script : Script) (s : Survey) (id : InstrId) (ins : Instruction) :
    Except Error Survey :=
  match ins.jumpOffset?, ins.handlerOffsets? with
  | some offset, _ => do
      let pc ← resolveTarget script ins offset
      let references := match script.indexOf? pc with
        | some target => s.references.addJump id target
        | none => s.references
      return ⟨references, s.starts.insert pc⟩
  | none, some (catchOffset, finallyOffset) => do
      let (catchId, starts) ← handler script ins catchOffset s.starts
      let (finallyId, starts) ← handler script ins finallyOffset starts
      return ⟨s.references.addTry id ⟨catchId, finallyId⟩, starts⟩
  | none, none => .ok s

def step (script : Script) (s : Survey) (entry : Instruction × Nat) : Except Error Survey := do
  let (ins, id) := entry
  let s ← s.operands script id ins
  if ins.op.isBlockEnding ∧ ins.next < script.length then
    return { s with starts := s.starts.insert ins.next }
  else return s

def run (script : Script) (entryPoints : List Nat) : Except Error Survey :=
  let first : TreeSet Nat := if script.instructions.isEmpty then ∅ else TreeSet.ofList [0]
  let starts := entryPoints.foldl (·.insert ·) first
  script.instructions.toList.zipIdx.foldlM (step script) ⟨.empty, starts⟩

end Survey

/-! ## Blocks -/

def consBlock (isStart : Nat → Bool) (entry : Instruction × Nat)
    (groups : List (List (Instruction × Nat))) : List (List (Instruction × Nat)) :=
  match groups with
  | [] => [[entry]]
  | group :: rest =>
      match group.head? with
      | some (ins, _) =>
          if isStart ins.pc then [entry] :: group :: rest else (entry :: group) :: rest
      | none => [entry] :: rest

/-- Cuts instructions into runs; each run but the first begins at a start. -/
def cutBlocks (isStart : Nat → Bool) (entries : List (Instruction × Nat)) :
    List (List (Instruction × Nat)) :=
  entries.foldr (consBlock isStart) []

namespace FlowGraph

def startOf (group : List (Instruction × Nat)) : Nat :=
  match group.head? with
  | some (ins, _) => ins.pc
  | none => 0

def nodesByStart (starts : List Nat) : TreeMap Nat Node :=
  starts.zipIdx.foldl (fun nodes (start, position) => nodes.insert start (blockNode position)) ∅

/-! ## Control -/

def targetNode (arena : Arena) (nodes : TreeMap Nat Node) (id : InstrId) : Except Error Node :=
  match arena.origin? id with
  | none => .error (.danglingTarget id)
  | some pc =>
      match nodes[pc]? with
      | some node => .ok node
      | none => .error (.invalidBlockStructure (.noBlockAt pc))

def jumpNode (arena : Arena) (references : References) (nodes : TreeMap Nat Node) (id : InstrId) :
    Except Error Node :=
  match references.jumps[id]? with
  | none => .error (.danglingTarget id)
  | some target => targetNode arena nodes target

def handlerNode (arena : Arena) (nodes : TreeMap Nat Node) :
    Option InstrId → Except Error (Option Node)
  | none => .ok none
  | some id => (targetNode arena nodes id).map some

/-- How a block that ends with the given instruction passes control on. -/
def controlOf (arena : Arena) (references : References) (nodes : TreeMap Nat Node)
    (last : Instruction) (id : InstrId) (next : Option Node) : Except Error Control :=
  let target := jumpNode arena references nodes id
  match last.op with
  | .jump .always _ => target.map .jump
  | .jump _ _ => target.map fun node => .branch node next
  | .call _ => target.map fun node => .call (some node) next
  | .callPointer => .ok (.call none next)
  | .enterTry _ => do
      let handlers := (references.tries[id]?).getD .none
      let catchNode ← handlerNode arena nodes handlers.catchId
      let finallyNode ← handlerNode arena nodes handlers.finallyId
      return .enterTry next catchNode finallyNode
  | .endTry _ => target.map .endTry
  | .endFinally => .ok .dynamic
  | op => if op.isTerminal then .ok .terminal else .ok (.fallthrough next)

def blockOf (arena : Arena) (references : References) (nodes : TreeMap Nat Node)
    (group : List (Instruction × Nat)) (next : Option Node) : Except Error Block :=
  let start := startOf group
  match group.getLast? with
  | none => .error (.invalidBlockStructure (.emptyBlock start))
  | some (last, id) =>
      (controlOf arena references nodes last id next).map fun control =>
        ⟨start, group.map (·.2), control⟩

/-! ## Arcs -/

/-- The arcs of a control descriptor; the end of the script is the exit node. -/
def controlArcs (source : Node) : Control → List Arc
  | .fallthrough next => [⟨source, next.getD exitNode, .fallthrough⟩]
  | .jump target => [⟨source, target, .jump⟩]
  | .branch onTrue onFalse =>
      [⟨source, onTrue, .branchTrue⟩, ⟨source, onFalse.getD exitNode, .branchFalse⟩]
  | .call callee next =>
      (callee.map fun node => ⟨source, node, .call⟩).toList ++
        [⟨source, next.getD exitNode, .fallthrough⟩]
  | .enterTry body catchNode finallyNode =>
      ⟨source, body.getD exitNode, .fallthrough⟩ ::
        ((catchNode.map fun node => ⟨source, node, .catchHandler⟩).toList ++
          (finallyNode.map fun node => ⟨source, node, .finallyHandler⟩).toList)
  | .endTry target => [⟨source, target, .endTry⟩]
  | .dynamic => [⟨source, exitNode, .fallthrough⟩]
  | .terminal => [⟨source, exitNode, .fallthrough⟩]

/-- The arc of a pointer: its target may be called later. -/
def pointerArc (arena : Arena) (references : References) (nodes : TreeMap Nat Node) (source : Node)
    (id : InstrId) : Except Error Arc :=
  match (references.jumps[id]?).bind arena.origin? |>.bind (nodes[·]?) with
  | some target => .ok ⟨source, target, .call⟩
  | none => .error (.danglingTarget id)

def pointerArcs (arena : Arena) (references : References) (nodes : TreeMap Nat Node) (source : Node)
    (group : List (Instruction × Nat)) : Except Error (List Arc) :=
  (group.filter fun (ins, _) => ins.op = .pushPointer).mapM fun (_, id) =>
    pointerArc arena references nodes source id

/-- The arcs from the entry node: to the first block, and to every other method start. -/
def entryArcs (nodes : TreeMap Nat Node) (blockCount : Nat) (entryPoints : List Nat) : List Arc :=
  let first := if blockCount = 0 then exitNode else blockNode 0
  let others := entryPoints.filterMap fun pc =>
    match nodes[pc]? with
    | some node => if node = blockNode 0 then none else some ⟨entryNode, node, .call⟩
    | none => none
  ⟨entryNode, first, .fallthrough⟩ :: others

/-! ## Graphs -/

def connect (arena : Arena) (references : References) (nodes : TreeMap Nat Node) (blockCount : Nat)
    (entry : List (Instruction × Nat) × Nat) : Except Error (Block × List Arc) := do
  let (group, position) := entry
  let next := if position + 1 < blockCount then some (blockNode (position + 1)) else none
  let block ← blockOf arena references nodes group next
  let source := blockNode position
  let pointers ← pointerArcs arena references nodes source group
  return (block, controlArcs source block.control ++ pointers)

/-- The block graph of a script with the given method starts. -/
def build (script : Script) (entryPoints : List Nat) : Except Error FlowGraph :=
  match entryPoints.find? fun pc => !script.isBoundary pc with
  | some pc => .error (.invalidEntryPoint pc)
  | none => do
      let survey ← Survey.run script entryPoints
      let arena := Arena.ofInstructions script.instructions
      let groups := cutBlocks survey.starts.contains script.instructions.toList.zipIdx
      let nodes := nodesByStart (groups.map startOf)
      let count := groups.length
      let parts ← groups.zipIdx.mapM (connect arena survey.references nodes count)
      return {
        arena
        references := survey.references
        blocks := parts.map (·.1)
        arcs := entryArcs nodes count entryPoints ++ parts.flatMap (·.2)
        entryPoints
        scriptLength := script.length }

end FlowGraph

end NeoScript
