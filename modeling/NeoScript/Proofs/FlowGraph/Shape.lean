import NeoScript.Proofs.FlowGraph.Build
import NeoScript.Proofs.Opcode

/-!
# Shape — graphs that differ inside their blocks only

* `FlowGraph.SameShape` — the same arcs, and blocks that pass control on in the same way;
* `FlowGraph.SameShape.unreachable_eq` — what can be reached depends on the shape only;
* `FlowGraph.getElem?_nodesByStart_congr` — tables of nodes agree where their starts correspond;
* `FlowGraph.jumpNode_eq_ok_iff`, `FlowGraph.handlerNode_eq_ok_iff` — an address operand leads to
  the node of the block at the address that it names;
* `FlowGraph.controlOf_congr`, `FlowGraph.controlOf_of_isLocal` — how control depends on the last
  operation.
-/

namespace NeoScript
namespace FlowGraph

open Std (TreeMap)

/-- The same arcs, and blocks that pass control on in the same way. -/
structure SameShape (g g' : FlowGraph) : Prop where
  controls : g.blocks.map (·.control) = g'.blocks.map (·.control)
  arcs : g.arcs = g'.arcs

namespace SameShape

variable {g g' g'' : FlowGraph}

theorem refl (g : FlowGraph) : g.SameShape g := ⟨rfl, rfl⟩

theorem trans (h : g.SameShape g') (h' : g'.SameShape g'') : g.SameShape g'' :=
  ⟨h.controls.trans h'.controls, h.arcs.trans h'.arcs⟩

theorem length_blocks (h : g.SameShape g') : g.blocks.length = g'.blocks.length := by
  have hlength := congrArg List.length h.controls
  rwa [List.length_map, List.length_map] at hlength

/-- The nodes and the controls of all blocks. -/
theorem numberedBlocks_eq (h : g.SameShape g') :
    g.numberedBlocks.map (fun entry => (entry.1, entry.2.control)) =
      g'.numberedBlocks.map fun entry => (entry.1, entry.2.control) := by
  have hviews : ∀ g : FlowGraph, g.numberedBlocks.map (fun entry => (entry.1, entry.2.control)) =
      (g.blocks.map (·.control)).zipIdx.map fun entry => (blockNode entry.2, entry.1) := by
    intro g
    rw [numberedBlocks, List.map_map, List.zipIdx_map, List.map_map]
    rfl
  rw [hviews, hviews, h.controls]

theorem nodes_eq (h : g.SameShape g') :
    g.numberedBlocks.map (·.1) = g'.numberedBlocks.map (·.1) := by
  have hnodes := congrArg (List.map Prod.fst) h.numberedBlocks_eq
  rw [List.map_map, List.map_map] at hnodes
  exact hnodes

/-- The search sees only arcs, so it finds the same nodes. -/
theorem reachable_eq (h : g.SameShape g') : g.reachable = g'.reachable := by
  simp only [reachable, successors, h.arcs, h.length_blocks]

/-- So the same blocks cannot be reached. -/
theorem unreachable_eq (h : g.SameShape g') : g.unreachable = g'.unreachable := by
  simp only [unreachable, h.reachable_eq, h.nodes_eq]

end SameShape

/-! ## Nodes -/

/-- Tables of nodes agree where their starts correspond. -/
theorem getElem?_nodesByStart_congr {φ : Nat → Nat → Prop} {starts starts' : List Nat}
    (hnodup : starts.Nodup) (hnodup' : starts'.Nodup) (h : List.Forall₂ φ starts starts')
    (hinj : ∀ {p q p' q'}, φ p q → φ p' q' → (p = p' ↔ q = q')) {p q : Nat} (hpq : φ p q) :
    (nodesByStart starts)[p]? = (nodesByStart starts')[q]? := by
  refine Option.ext fun node => ?_
  rw [getElem?_nodesByStart hnodup, getElem?_nodesByStart hnodup']
  refine exists_congr fun i => and_congr_left fun _ => ⟨fun hi => ?_, fun hi => ?_⟩
  · obtain ⟨q', hi', hpq'⟩ := Sequencing.exists_getElem?_of_forall₂ h hi
    rw [(hinj hpq hpq').1 rfl, hi']
  · obtain ⟨p', hi', hpq'⟩ := Sequencing.exists_getElem?_of_forall₂ h.flip hi
    rw [(hinj hpq hpq').2 rfl, hi']

/-- Method starts with the same nodes have the same arcs. -/
theorem entryArcs_congr {φ : Nat → Nat → Prop} {nodes nodes' : TreeMap Nat Node}
    (hnodes : ∀ {p q}, φ p q → nodes[p]? = nodes'[q]?) {starts starts' : List Nat}
    (h : List.Forall₂ φ starts starts') (count : Nat) :
    entryArcs nodes count starts = entryArcs nodes' count starts' := by
  simp only [entryArcs, List.cons.injEq, true_and]
  refine Sequencing.filterMap_eq_of_forall₂ (h.imp ?_)
  intro p q hpq
  simp only [hnodes hpq]

/-! ## Nodes by address -/

section Nodes

variable {script : Script} {code : Code} {references : References} {nodes : TreeMap Nat Node}
  {id p : Nat} {ins : Instruction} {offset : Int}

/-- The node of an instruction is the one at its address. -/
theorem targetNode_eq_ok_iff {arena : Arena} (h : arena.origin? id = some p) {node : Node} :
    targetNode arena nodes id = .ok node ↔ nodes[p]? = some node := by
  simp only [targetNode, h]
  cases nodes[p]? <;> simp

/-- The instruction to which an offset leads stands at the address that it names. -/
theorem origin?_of_leads {k : Nat} {target : Instruction}
    (htarget : script.instructions[k]? = some target)
    (hpc : (target.pc : Int) = ins.pc + offset) (hp : (p : Int) = ins.pc + offset) :
    (Arena.ofInstructions script.instructions).origin? k = some p := by
  rw [Arena.origin?_ofInstructions htarget, show target.pc = p by omega]

/-- The node of a jump is the one at the address that the operand names. -/
theorem jumpNode_eq_ok_iff (h : script.IsValid code) (hreferences : references.Describes script)
    (hid : script.instructions[id]? = some ins) (hoffset : ins.jumpOffset? = some offset)
    (hp : (p : Int) = ins.pc + offset) {node : Node} :
    jumpNode (.ofInstructions script.instructions) references nodes id = .ok node ↔
      nodes[p]? = some node := by
  obtain ⟨k, target, hk, htarget, hpc⟩ := exists_jump h hreferences hid hoffset
  simp only [jumpNode, hk]
  exact targetNode_eq_ok_iff (origin?_of_leads htarget hpc hp)

/-- The arc of a pointer leads to the node at the address that the operand names. -/
theorem pointerArc_eq_ok_iff (h : script.IsValid code) (hreferences : references.Describes script)
    (hid : script.instructions[id]? = some ins) (hoffset : ins.jumpOffset? = some offset)
    (hp : (p : Int) = ins.pc + offset) {source : Node} {arc : Arc} :
    pointerArc (.ofInstructions script.instructions) references nodes source id = .ok arc ↔
      ∃ node, nodes[p]? = some node ∧ ⟨source, node, .call⟩ = arc := by
  obtain ⟨k, target, hk, htarget, hpc⟩ := exists_jump h hreferences hid hoffset
  simp only [pointerArc, hk, Option.bind_some, origin?_of_leads htarget hpc hp]
  cases nodes[p]? <;> simp

/-- The node of a handler is the one at the address that its offset names. -/
theorem handlerNode_eq_ok_iff (h : script.IsValid code) (hid : script.instructions[id]? = some ins)
    (hoffset : offset ∈ relativeTargets ins) (hne : offset ≠ 0) (hp : (p : Int) = ins.pc + offset)
    {handler : Option Node} :
    handlerNode (.ofInstructions script.instructions) nodes (script.handlerId? ins offset) =
      .ok handler ↔
      ∃ node, nodes[p]? = some node ∧ some node = handler := by
  have hmem : ins ∈ script.instructions.toList := Array.mem_toList_iff.2 (Array.mem_of_getElem? hid)
  obtain ⟨k, target, hk, htarget, hpc⟩ := h.exists_targetId? hmem hoffset
  simp only [Script.handlerId?, if_neg hne, hk, handlerNode, Sequencing.map_eq_ok,
    targetNode_eq_ok_iff (origin?_of_leads htarget hpc hp)]

end Nodes

/-! ## Control -/

section Control

variable {arena : Arena} {references : References} {nodes : TreeMap Nat Node} {id : InstrId}
  {next : Option Node}

/-- The reach of the last operation does not matter. -/
theorem controlOf_congr {last last' : Instruction} (h : last.op.toLong = last'.op.toLong) :
    controlOf arena references nodes last id next =
      controlOf arena references nodes last' id next := by
  have hlong : ∀ ins : Instruction, controlOf arena references nodes ins id next =
      controlOf arena references nodes ⟨ins.pc, ins.op.toLong, ins.operand⟩ id next := by
    rintro ⟨pc, op, operand⟩
    cases op <;> try rfl
    case jump condition reach => cases condition <;> rfl
  rw [hlong last, hlong last', h]
  rfl

/-- Control passes on behind a local operation. -/
theorem controlOf_of_isLocal {last : Instruction} (h : last.op.isLocal = true) :
    controlOf arena references nodes last id next = .ok (.fallthrough next) := by
  unfold controlOf
  split
  case h_8 =>
    have hterminal : last.op.isTerminal = false := by
      have hstraight := (Opcode.isLocal_iff.1 h).1
      revert hstraight
      cases last.op <;> simp [Opcode.isBlockEnding, Opcode.isTerminal]
    rw [hterminal]
    rfl
  all_goals
    rename_i hop
    rw [hop] at h
    cases h

end Control

end FlowGraph
end NeoScript
