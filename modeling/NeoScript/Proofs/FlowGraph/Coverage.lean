import NeoScript.Proofs.FlowGraph.Partition
import NeoScript.Proofs.FlowGraph.Reachability
import NeoScript.Proofs.FlowGraph.Shape
import NeoScript.Proofs.Machine.Safety

/-!
# Coverage — a run stays in the blocks that a path from the entry reaches

* `FlowGraph.Covers` — a block that can be reached holds the instruction at an address;
* `FlowGraph.Describes.covers_of_target`, `FlowGraph.Describes.covers_next` — an instruction of such
  a block leads to such blocks only;
* `Machine.run_covered` — so every instruction that a run executes is in such a block, and the
  blocks that are counted as unreachable are never executed.
-/

namespace NeoScript

open Std (TreeMap)

/-! ## Arcs of the last instruction -/

theorem Opcode.isTerminal_of_passesOn {op : Opcode} (h : op.passesOn = true) :
    op.isTerminal = false := by
  revert h
  cases op <;> simp [passesOn, isTerminal]

namespace FlowGraph

section Control

variable {arena : Arena} {references : References} {nodes : TreeMap Nat Node} {last : Instruction}
  {id : InstrId} {next : Option Node} {control : Control}

/-- Where an invocation may go on behind an instruction, an arc leads to the next block. -/
theorem exists_arc_next (h : controlOf arena references nodes last id next = .ok control)
    (hpasses : last.op.passesOn = true) (source : Node) :
    ∃ arc ∈ controlArcs source control, arc.target = next.getD exitNode := by
  unfold controlOf at h
  -- A plain jump, the end of a try body and the end of a finally block do not pass on.
  split at h
  case h_1 hop => simp [hop, Opcode.passesOn] at hpasses
  case h_2 =>
    obtain ⟨node, -, rfl⟩ := Sequencing.map_eq_ok.1 h
    simp [controlArcs]
  case h_3 =>
    obtain ⟨node, -, rfl⟩ := Sequencing.map_eq_ok.1 h
    simp [controlArcs]
  case h_4 =>
    cases h
    simp [controlArcs]
  case h_5 =>
    obtain ⟨catchNode, -, hrest⟩ := Sequencing.bind_eq_ok.1 h
    obtain ⟨finallyNode, -, hcontrol⟩ := Sequencing.bind_eq_ok.1 hrest
    cases hcontrol
    simp [controlArcs]
  case h_6 hop => simp [hop, Opcode.passesOn] at hpasses
  case h_7 hop => simp [hop, Opcode.passesOn] at hpasses
  case h_8 =>
    rw [Opcode.isTerminal_of_passesOn hpasses] at h
    cases h
    simp [controlArcs]

/-- An arc leads where an instruction that transfers control does. -/
theorem exists_arc_target (h : controlOf arena references nodes last id next = .ok control)
    (hsingle : last.op.hasSingleTarget = true) (hpointer : last.op ≠ .pushPointer) (source : Node) :
    ∃ arc ∈ controlArcs source control, jumpNode arena references nodes id = .ok arc.target := by
  unfold controlOf at h
  -- A pointer call, a try and the end of a finally block have no single target, and of the other
  -- operations only a pointer has one.
  split at h
  case h_4 hop => simp [hop, Opcode.hasSingleTarget] at hsingle
  case h_5 hop => simp [hop, Opcode.hasSingleTarget] at hsingle
  case h_7 hop => simp [hop, Opcode.hasSingleTarget] at hsingle
  case h_8 => cases hop : last.op <;> simp_all [Opcode.hasSingleTarget]
  all_goals
    obtain ⟨node, hnode, rfl⟩ := Sequencing.map_eq_ok.1 h
    simp [controlArcs, hnode]

/-- Arcs lead to the handlers of a try that are there. -/
theorem exists_arc_handler (h : controlOf arena references nodes last id next = .ok control)
    (htry : last.op.isTry = true) {handlers : HandlerIds}
    (hhandlers : references.tries[id]? = some handlers) {handler : Option InstrId}
    (hhandler : handler = handlers.catchId ∨ handler = handlers.finallyId) {node : Node}
    (hnode : handlerNode arena nodes handler = .ok (some node)) (source : Node) :
    ∃ arc ∈ controlArcs source control, arc.target = node := by
  have hop : ∃ reach, last.op = .enterTry reach := by
    revert htry
    cases last.op <;> simp [Opcode.isTry]
  obtain ⟨reach, hop⟩ := hop
  simp only [controlOf, hop, hhandlers, Option.getD_some] at h
  obtain ⟨catchNode, hcatch, hrest⟩ := Sequencing.bind_eq_ok.1 h
  obtain ⟨finallyNode, hfinally, hcontrol⟩ := Sequencing.bind_eq_ok.1 hrest
  cases hcontrol
  rcases hhandler with rfl | rfl
  · cases hnode.symm.trans hcatch
    simp [controlArcs]
  · cases hnode.symm.trans hfinally
    simp [controlArcs]

end Control

end FlowGraph

/-! ## What follows in the runs -/

namespace Script.IsCutInto

variable {script : Script} {code : Code} {entryPoints : List Nat}
  {groups : List (List (Instruction × Nat))} {group : List (Instruction × Nat)}
  {entry : Instruction × Nat}

/-- Control leaves a run behind its last instruction only. -/
theorem getLast?_of_isBlockEnding (h : script.IsCutInto entryPoints groups)
    (hreading : script.IsReading code) (hgroup : group ∈ groups) (hentry : entry ∈ group)
    (hends : entry.1.op.isBlockEnding = true) : group.getLast? = some entry := by
  obtain ⟨front, back, rfl⟩ := List.append_of_mem hentry
  cases back with
  | nil => simp
  | cons entry' back =>
      rw [h.isBlockEnding_eq_false hreading hgroup] at hends
      cases hends

/-- Behind the last of all instructions the code ends. -/
theorem next_eq_size (h : script.IsCutInto entryPoints groups) (hreading : script.IsReading code)
    {before : List (Instruction × Nat)} (hflatten : groups.flatten = before ++ [entry]) :
    entry.1.next = code.size := by
  have hlist : before.map (·.1) ++ [entry.1] = script.instructions.toList := by
    have hmap := congrArg (List.map Prod.fst) (hflatten.symm.trans h.flatten)
    rwa [List.zipIdx_map_fst, List.map_append, List.map_singleton] at hmap
  have hplaced := hreading.placed
  have hsize := hreading.size
  rw [← hlist, Placed.append_iff, Placed.cons_iff] at hplaced
  rw [← hlist, totalSize_append, totalSize_cons, totalSize_nil] at hsize
  unfold Instruction.next
  omega

/-- What follows an instruction is in the same run, or the instruction is the last of its run and
the next run begins or the code ends. -/
theorem next_cases (h : script.IsCutInto entryPoints groups) (hreading : script.IsReading code)
    {position : Nat} (hposition : groups[position]? = some group) (hentry : entry ∈ group) :
    (∃ entry' ∈ group, entry'.1.pc = entry.1.next) ∨
      group.getLast? = some entry ∧
        ((∃ group', groups[position + 1]? = some group' ∧ FlowGraph.startOf group' = entry.1.next) ∨
          entry.1.next = code.size) := by
  obtain ⟨front, back, rfl⟩ := List.append_of_mem hentry
  obtain ⟨hlt, hat⟩ := List.getElem?_eq_some_iff.1 hposition
  have hsplit := (List.take_append_drop position groups).symm
  rw [List.drop_eq_getElem_cons hlt, hat] at hsplit
  have hflatten : groups.flatten = ((groups.take position).flatten ++ front) ++
      entry :: (back ++ (groups.drop (position + 1)).flatten) :=
    (congrArg List.flatten hsplit).trans (by simp)
  -- The next instruction is behind this one in its run, the first of the next run, or there is
  -- none.
  cases back with
  | cons entry' back => exact .inl ⟨entry', by simp, h.pc_eq_next hreading hflatten⟩
  | nil =>
      refine .inr ⟨by simp, ?_⟩
      cases hafter : groups.drop (position + 1) with
      | nil =>
          rw [hafter] at hflatten
          exact .inr (h.next_eq_size hreading hflatten)
      | cons group' after =>
          have hgroup' : groups[position + 1]? = some group' := by
            rw [← List.head?_drop, hafter, List.head?_cons]
          obtain ⟨first, rest, rfl, -⟩ := h.cut group' (List.mem_of_getElem? hgroup')
          rw [hafter] at hflatten
          exact .inl ⟨_, hgroup', h.pc_eq_next hreading hflatten⟩

end Script.IsCutInto

/-! ## Addresses in blocks that can be reached -/

namespace FlowGraph

variable {script : Script} {code : Code} {starts : List Nat} {g : FlowGraph}
  {groups : List (List (Instruction × Nat))}

/-- A block that can be reached holds the instruction at an address. -/
def Covers (g : FlowGraph) (pc : Nat) : Prop :=
  ∃ position block id, g.blocks[position]? = some block ∧ id ∈ block.ids ∧
    g.arena.origin? id = some pc ∧ g.CanReach (blockNode position)

namespace Describes

/-- An address is covered if its instruction is in a run whose node can be reached. -/
theorem covers_iff (h : g.Describes script starts groups) {pc : Nat} :
    g.Covers pc ↔ ∃ position group entry, groups[position]? = some group ∧ entry ∈ group ∧
      entry.1.pc = pc ∧ g.CanReach (blockNode position) := by
  constructor
  · rintro ⟨position, block, id, hblock, hid, horigin, hreach⟩
    obtain ⟨group, hgroup, -, hids⟩ := h.exists_group hblock
    rw [hids] at hid
    obtain ⟨entry, hentry, rfl⟩ := List.mem_map.1 hid
    have hins := h.cut.mem_iff.1 ⟨group, List.mem_of_getElem? hgroup, hentry⟩
    rw [h.origin?_arena, hins, Option.map_some] at horigin
    exact ⟨position, group, entry, hgroup, hentry, Option.some.inj horigin, hreach⟩
  · rintro ⟨position, group, entry, hgroup, hentry, rfl, hreach⟩
    obtain ⟨block, hblock, -, hids⟩ := h.exists_block hgroup
    have hins := h.cut.mem_iff.1 ⟨group, List.mem_of_getElem? hgroup, hentry⟩
    refine ⟨position, block, entry.2, hblock, ?_, ?_, hreach⟩
    · rw [hids]
      exact List.mem_map_of_mem hentry
    · rw [h.origin?_arena, hins, Option.map_some]

/-- The start of a block that can be reached. -/
theorem covers_of_node (h : g.Describes script starts groups) (hreading : script.IsReading code)
    {pc : Nat} {node : Node} (hnode : (nodesByStart (groups.map startOf))[pc]? = some node)
    (hreach : g.CanReach node) : g.Covers pc := by
  obtain ⟨position, hstart, rfl⟩ := (getElem?_nodesByStart (h.cut.nodup_starts hreading)).1 hnode
  rw [List.getElem?_map] at hstart
  obtain ⟨group, hgroup, rfl⟩ := Option.map_eq_some_iff.1 hstart
  obtain ⟨first, rest, rfl, -⟩ := h.cut.cut group (List.mem_of_getElem? hgroup)
  exact h.covers_iff.2 ⟨position, _, first, hgroup, List.mem_cons_self, rfl, hreach⟩

/-- The arcs that leave a run are those of its last instruction and those of its pointers. -/
theorem exists_control (h : g.Describes script starts groups) {position : Nat}
    {group : List (Instruction × Nat)} (hposition : groups[position]? = some group) :
    ∃ last control pointers, group.getLast? = some last ∧
      controlOf (.ofInstructions script.instructions) g.references
          (nodesByStart (groups.map startOf)) last.1 last.2
          (if position + 1 < groups.length then some (blockNode (position + 1)) else none) =
        .ok control ∧
      pointerArcs (.ofInstructions script.instructions) g.references
        (nodesByStart (groups.map startOf)) (blockNode position) group = .ok pointers ∧
      (∀ arc ∈ controlArcs (blockNode position) control,
        g.Follows (blockNode position) arc.target) ∧
      ∀ arc ∈ pointers, g.Follows (blockNode position) arc.target := by
  obtain ⟨part, hconnect, -, harcs⟩ := h.exists_connect_of_group hposition
  obtain ⟨block, hblock, hrest⟩ := Sequencing.bind_eq_ok.1 hconnect
  obtain ⟨pointers, hpointers, hpart⟩ := Sequencing.bind_eq_ok.1 hrest
  cases hpart
  unfold blockOf at hblock
  split at hblock
  · cases hblock
  · rename_i last id hlast
    obtain ⟨control, hcontrol, rfl⟩ := Sequencing.map_eq_ok.1 hblock
    refine ⟨(last, id), control, pointers, hlast, hcontrol, hpointers, ?_, ?_⟩
    · intro arc harc
      exact ⟨arc, harcs arc (List.mem_append_left _ harc), source_of_mem_controlArcs harc, rfl⟩
    · intro arc harc
      exact ⟨arc, harcs arc (List.mem_append_right _ harc),
        source_of_mem_pointerArcs hpointers harc, rfl⟩

variable {position : Nat} {group : List (Instruction × Nat)} {ins : Instruction} {id p : Nat}
  {offset : Int}

/-- The target of an instruction in a block that can be reached. -/
theorem covers_of_jump (h : g.Describes script starts groups) (hvalid : script.IsValid code)
    (hposition : groups[position]? = some group) (hentry : (ins, id) ∈ group)
    (hreach : g.CanReach (blockNode position)) (hoffset : ins.jumpOffset? = some offset)
    (hp : (p : Int) = ins.pc + offset) : g.Covers p := by
  have hgroup := List.mem_of_getElem? hposition
  have hid := h.cut.mem_iff.1 ⟨group, hgroup, hentry⟩
  obtain ⟨last, control, pointers, hlast, hcontrol, hpointers, hfollows, hpointed⟩ :=
    h.exists_control hposition
  -- A pointer may be pushed anywhere in a run; whatever else has a target is the last instruction.
  by_cases hpointer : ins.op = .pushPointer
  · obtain ⟨arc, harc, hok⟩ :=
      Sequencing.exists_right_of_forall₂ (Sequencing.mapM_eq_ok.1 hpointers)
      (List.mem_filter.2 ⟨hentry, by simpa using hpointer⟩)
    obtain ⟨node, hnode, rfl⟩ := (pointerArc_eq_ok_iff hvalid h.references hid hoffset hp).1 hok
    exact h.covers_of_node hvalid.toIsReading hnode (hreach.follow (hpointed _ harc))
  · have hsingle := Instruction.hasSingleTarget_of_jumpOffset? hoffset
    have hends := Opcode.isBlockEnding_of_hasSingleTarget hsingle hpointer
    cases hlast.symm.trans (h.cut.getLast?_of_isBlockEnding hvalid.toIsReading hgroup hentry hends)
    obtain ⟨arc, harc, hnode⟩ := exists_arc_target hcontrol hsingle hpointer (blockNode position)
    rw [jumpNode_eq_ok_iff hvalid h.references hid hoffset hp] at hnode
    exact h.covers_of_node hvalid.toIsReading hnode (hreach.follow (hfollows arc harc))

/-- A handler of a try in a block that can be reached. -/
theorem covers_of_handler (h : g.Describes script starts groups) (hvalid : script.IsValid code)
    (hposition : groups[position]? = some group) (hentry : (ins, id) ∈ group)
    (hreach : g.CanReach (blockNode position)) {a b : Int}
    (hoffsets : ins.handlerOffsets? = some (a, b))
    (hwhich : offset = a ∨ offset = b) (hne : offset ≠ 0) (hp : (p : Int) = ins.pc + offset) :
    g.Covers p := by
  have hgroup := List.mem_of_getElem? hposition
  have hid := h.cut.mem_iff.1 ⟨group, hgroup, hentry⟩
  have hmem : ins ∈ script.instructions.toList := Array.mem_toList_iff.2 (Array.mem_of_getElem? hid)
  have htry := Instruction.isTry_of_handlerOffsets? hoffsets
  have hends := Opcode.isBlockEnding_of_isTry htry
  obtain ⟨last, control, pointers, hlast, hcontrol, -, hfollows, -⟩ := h.exists_control hposition
  -- A try ends its block, so its arcs are the control of the block.
  cases hlast.symm.trans (h.cut.getLast?_of_isBlockEnding hvalid.toIsReading hgroup hentry hends)
  have htarget : offset ∈ relativeTargets ins :=
    Instruction.mem_relativeTargets_iff.2 (.inr ⟨a, b, hoffsets, hwhich, hne⟩)
  obtain ⟨handler, hhandler⟩ := exists_handlerNode hvalid h.cut hmem offset fun _ => htarget
  obtain ⟨node, hnode, rfl⟩ := (handlerNode_eq_ok_iff hvalid hid htarget hne hp).1 hhandler
  have htries : g.references.tries[id]? = some ⟨script.handlerId? ins a,
      script.handlerId? ins b⟩ := by
    rw [h.references.tries, hid]
    simp [Script.handlerTargets?, hoffsets]
  have hwhich' : script.handlerId? ins offset = script.handlerId? ins a ∨
      script.handlerId? ins offset = script.handlerId? ins b :=
    hwhich.imp (fun heq => by rw [heq]) (fun heq => by rw [heq])
  obtain ⟨arc, harc, rfl⟩ :=
    exists_arc_handler hcontrol htry htries hwhich' hhandler (blockNode position)
  exact h.covers_of_node hvalid.toIsReading hnode (hreach.follow (hfollows arc harc))

/-- Every address that an instruction in a block that can be reached names. -/
theorem covers_of_target (h : g.Describes script starts groups) (hvalid : script.IsValid code)
    (hposition : groups[position]? = some group) (hentry : (ins, id) ∈ group)
    (hreach : g.CanReach (blockNode position)) (hoffset : offset ∈ relativeTargets ins)
    (hp : (p : Int) = ins.pc + offset) : g.Covers p := by
  rcases Instruction.mem_relativeTargets_iff.1 hoffset with hjump | ⟨a, b, hoffsets, hwhich, hne⟩
  · exact h.covers_of_jump hvalid hposition hentry hreach hjump hp
  · exact h.covers_of_handler hvalid hposition hentry hreach hoffsets hwhich hne hp

/-- Where an invocation may go on behind an instruction in a block that can be reached. -/
theorem covers_next (h : g.Describes script starts groups) (hreading : script.IsReading code)
    (hposition : groups[position]? = some group) (hentry : (ins, id) ∈ group)
    (hreach : g.CanReach (blockNode position)) (hpasses : ins.op.passesOn = true) :
    g.Covers ins.next ∨ ins.next = code.size := by
  rcases h.cut.next_cases hreading hposition hentry with ⟨entry, hmem, hpc⟩ | ⟨hlast, hbehind⟩
  · exact .inl (h.covers_iff.2 ⟨position, group, entry, hposition, hmem, hpc, hreach⟩)
  · refine hbehind.imp_left ?_
    rintro ⟨group', hgroup', hstart⟩
    obtain ⟨last, control, -, hlast', hcontrol, -, hfollows, -⟩ := h.exists_control hposition
    cases hlast.symm.trans hlast'
    obtain ⟨arc, harc, htarget⟩ := exists_arc_next hcontrol hpasses (blockNode position)
    have hlt := (List.getElem?_eq_some_iff.1 hgroup').1
    rw [if_pos hlt, Option.getD_some] at htarget
    refine h.covers_of_node hreading (hstart ▸ h.cut.getElem?_nodesByStart hreading hgroup') ?_
    rw [← htarget]
    exact hreach.follow (hfollows arc harc)

/-! ### Where runs begin -/

/-- The entry leads to the first block. -/
theorem follows_first (h : g.Describes script starts groups) (hne : groups ≠ []) :
    g.Follows entryNode (blockNode 0) := by
  obtain ⟨parts, -, -, harcs⟩ := h.connected
  refine ⟨⟨entryNode, blockNode 0, .fallthrough⟩, ?_, rfl, rfl⟩
  rw [harcs, entryArcs, if_neg (mt List.length_eq_zero_iff.1 hne)]
  exact List.mem_append_left _ List.mem_cons_self

/-- The entry leads to every method that begins elsewhere. -/
theorem follows_method (h : g.Describes script starts groups) {pc : Nat} (hpc : pc ∈ starts)
    {node : Node}
    (hnode : (nodesByStart (groups.map startOf))[pc]? = some node) (hne : node ≠ blockNode 0) :
    g.Follows entryNode node := by
  obtain ⟨parts, -, -, harcs⟩ := h.connected
  refine ⟨⟨entryNode, node, .call⟩, ?_, rfl, rfl⟩
  rw [harcs, entryArcs]
  refine List.mem_append_left _ (List.mem_cons_of_mem _ (List.mem_filterMap.2 ⟨pc, hpc, ?_⟩))
  simp only [hnode, if_neg hne]

/-- The first instruction. -/
theorem covers_zero (h : g.Describes script starts groups) (hreading : script.IsReading code) :
    g.Covers 0 ∨ 0 = code.size := by
  have hlist := congrArg (List.map Prod.fst) h.cut.flatten
  rw [List.zipIdx_map_fst] at hlist
  cases hgroups : groups with
  | nil =>
      -- Without blocks there are no instructions.
      right
      rw [← hreading.size, ← hlist, hgroups]
      rfl
  | cons group rest =>
      left
      have hposition : groups[0]? = some group := by
        rw [hgroups, List.getElem?_cons_zero]
      obtain ⟨first, others, rfl, -⟩ := h.cut.cut group (List.mem_of_getElem? hposition)
      have hplaced := hreading.placed
      rw [← hlist, hgroups] at hplaced
      have hreach : g.CanReach (blockNode 0) :=
        .single (h.follows_first (hgroups ▸ List.cons_ne_nil _ _))
      exact h.covers_iff.2 ⟨0, _, first, hposition, List.mem_cons_self, hplaced.1, hreach⟩

/-- The start of a method. -/
theorem covers_method (h : g.Describes script starts groups) (hreading : script.IsReading code)
    {pc : Nat} (hpc : pc ∈ starts) (hboundary : script.isBoundary pc = true) : g.Covers pc := by
  obtain ⟨ins, hmem, rfl⟩ := hreading.isBoundary_iff.1 hboundary
  obtain ⟨id, hid⟩ := List.getElem?_of_mem hmem
  rw [Array.getElem?_toList] at hid
  obtain ⟨group, hgroup, -⟩ := h.cut.mem_iff.2 hid
  obtain ⟨node, hnode, -⟩ := targetNode_of_isStart hreading h.cut hid (.inr (.inl hpc))
  refine h.covers_of_node hreading hnode (Relation.ReflTransGen.single ?_)
  by_cases hfirst : node = blockNode 0
  · exact hfirst ▸ h.follows_first (List.ne_nil_of_mem hgroup)
  · exact h.follows_method hpc hnode hfirst

/-! ### Blocks of an address -/

/-- An instruction is in one block only. -/
theorem position_unique (h : g.Describes script starts groups) {i j : Nat} {a b : Block}
    {id : InstrId}
    (hi : g.blocks[i]? = some a) (hj : g.blocks[j]? = some b) (ha : id ∈ a.ids) (hb : id ∈ b.ids) :
    i = j := by
  have hnodup : g.order.Nodup := h.order_eq ▸ List.nodup_range
  have hdisjoint := List.pairwise_iff_getElem.1 (List.nodup_flatMap.1 hnodup).2
  obtain ⟨hilt, rfl⟩ := List.getElem?_eq_some_iff.1 hi
  obtain ⟨hjlt, rfl⟩ := List.getElem?_eq_some_iff.1 hj
  rcases Nat.lt_trichotomy i j with hlt | heq | hlt
  · exact absurd hb (hdisjoint i j hilt hjlt hlt ha)
  · exact heq
  · exact absurd ha (hdisjoint j i hjlt hilt hlt hb)

/-- No two instructions stand for one address. -/
theorem id_unique (h : g.Describes script starts groups) (hreading : script.IsReading code)
    {a b : InstrId} {pc : Nat} (ha : g.arena.origin? a = some pc)
    (hb : g.arena.origin? b = some pc) : a = b := by
  rw [h.origin?_arena, Option.map_eq_some_iff] at ha hb
  exact Option.some.inj ((hreading.indexOf?_eq_some_iff.2 ha).symm.trans
    (hreading.indexOf?_eq_some_iff.2 hb))

/-- An address in a block that can be reached is in no other block. -/
theorem canReach_of_covers (h : g.Describes script starts groups) (hreading : script.IsReading code)
    {pc : Nat} (hcovers : g.Covers pc) {node : Node} {block : Block}
    (hblock : (node, block) ∈ g.numberedBlocks)
    {id : InstrId} (hid : id ∈ block.ids) (horigin : g.arena.origin? id = some pc) :
    g.CanReach node := by
  obtain ⟨position, other, id', hother, hid', horigin', hreach⟩ := hcovers
  obtain ⟨position', hposition', rfl⟩ := mem_numberedBlocks_iff.1 hblock
  cases h.id_unique hreading horigin horigin'
  cases h.position_unique hposition' hother hid hid'
  exact hreach

end Describes

/-! ## Runs -/

def SameCovered (g : FlowGraph) (p q : Nat) : Prop :=
  p = q ∧ g.Covers p

/-- Equal addresses in blocks that can be reached or at the end of the code. -/
def SameCoveredPlace (g : FlowGraph) (code : Code) (p q : Nat) : Prop :=
  p = q ∧ (g.Covers p ∨ p = code.size)

theorem oneToOne_sameCovered (g : FlowGraph) : OneToOne g.SameCovered := by
  rintro p q p' q' ⟨rfl, _⟩ ⟨rfl, _⟩
  exact Iff.rfl

/-- From an instruction in a block that can be reached a step leads to such instructions only. -/
theorem Describes.stepsAlike (h : g.Describes script starts groups) (hvalid : script.IsValid code)
    {p : Nat} (hp : g.SameCoveredPlace code p p) :
    StepsAlike g.SameCovered (g.SameCoveredPlace code) code code p p := by
  obtain ⟨-, hcovers | hend⟩ := hp
  · obtain ⟨position, group, ⟨ins, id⟩, hposition, hentry, rfl, hreach⟩ := h.covers_iff.1 hcovers
    have hid := h.cut.mem_iff.1 ⟨group, List.mem_of_getElem? hposition, hentry⟩
    have hmem : ins ∈ script.instructions.toList :=
      Array.mem_toList_iff.2 (Array.mem_of_getElem? hid)
    have hlt := hvalid.lt_of_isBoundary (hvalid.isBoundary_iff.2 ⟨ins, hmem, rfl⟩)
    have hdecoded := hvalid.decoded ins hmem
    have htargets : ∀ offset ∈ relativeTargets ins,
        ∃ p, Machine.addressFrom code ins.pc offset = .ok p ∧ g.SameCovered p p := by
      intro offset hoffset
      obtain ⟨p, hok, hp, -⟩ := hvalid.addressFrom_of_leads (hvalid.leads ins hmem offset hoffset)
      exact ⟨p, hok, rfl, h.covers_of_target hvalid hposition hentry hreach hoffset hp⟩
    refine .moved hlt hlt hdecoded hdecoded (hvalid.toIsReading.moved_self hmem htargets) ?_
    intro hpasses
    exact ⟨rfl, h.covers_next hvalid.toIsReading hposition hentry hreach hpasses⟩
  · exact .finish (Nat.le_of_eq hend.symm) (Nat.le_of_eq hend.symm)

end FlowGraph

namespace Machine

variable {script : Script} {code : Code} {entryPoints : List Nat} {g : FlowGraph}

/-- The next step of a machine executes the instruction at an address. -/
def Executes (code : Code) (m : Machine) (pc : Nat) : Prop :=
  ∃ frame, m.frames.head? = some frame ∧ frame.ip = pc ∧ pc < code.size

/-- Runs execute instructions in blocks that can be reached. -/
theorem covers_of_executes {groups : List (List (Instruction × Nat))}
    (h : g.Describes script entryPoints groups) (hvalid : script.IsValid code)
    {m m' : Machine}
    (hm : Machine.Related g.SameCovered (g.SameCoveredPlace code) (g.SameCoveredPlace code) m m)
    (hreaches : Reaches code m m') {pc : Nat} (hexecutes : m'.Executes code pc) : g.Covers pc := by
  -- All addresses that the machine holds are such, in its values and in every frame and handler:
  -- what a throw, a return or the end of a finally block leads to was covered when it was stored.
  have hm' := hm.of_reaches g.oneToOne_sameCovered (fun _ _ hpq => ⟨hpq.1, .inl hpq.2⟩)
    (fun _ hp => h.stepsAlike hvalid hp) hreaches
  obtain ⟨frame, hframe, rfl, hlt⟩ := hexecutes
  have hframes := List.forall₂_same.1 (Related.forall₂_of_framesRelated hm'.frames)
  have hip := (hframes frame (List.mem_of_head? hframe)).ip
  exact hip.2.resolve_right (Nat.ne_of_lt hlt)

/-- A run from the first instruction or from a method executes instructions in blocks that a path
from the entry reaches, however long it is and whatever exceptions it raises; so it executes none of
the blocks that are counted as unreachable. -/
theorem run_covered (hdecode : Script.decode code = .ok script)
    (hbuild : FlowGraph.build script entryPoints = .ok g) {entry : Nat}
    (hentry : entry = 0 ∨ entry ∈ entryPoints) {heap : Heap} (hheap : heap.Pointerless)
    {arguments : List Value} (harguments : ∀ p, Value.pointer p ∉ arguments) :
    (∀ m pc, Reaches code (start heap entry arguments) m → m.Executes code pc →
      ∃ node block id ins, (node, block) ∈ g.numberedBlocks ∧ g.CanReach node ∧ id ∈ block.ids ∧
        g.arena.origin? id = some pc ∧ g.arena.get? id = some ins ∧ decodeAt code pc = .ok ins) ∧
    (∀ node, node ∈ g.unreachable ↔
      (∃ block, (node, block) ∈ g.numberedBlocks) ∧ ¬ g.CanReach node) ∧
    (∀ metrics, g.metrics = .ok metrics → metrics.unreachableBlocks = g.unreachable.length) ∧
    ∀ node ∈ g.unreachable, ∀ block, (node, block) ∈ g.numberedBlocks → ∀ id ∈ block.ids,
      ∀ m pc, Reaches code (start heap entry arguments) m → m.Executes code pc →
        g.arena.origin? id ≠ some pc := by
  have hreading := Script.decode_eq_ok_iff.1 hdecode
  obtain ⟨hvalid, hmethods, groups, h⟩ := FlowGraph.describes_of_build hreading hbuild
  have hstart : g.Covers entry ∨ entry = code.size := by
    rcases hentry with rfl | hmethod
    · exact h.covers_zero hreading
    · exact .inl (h.covers_method hreading hmethod (hmethods entry hmethod))
  have hcovers : ∀ m pc, Reaches code (start heap entry arguments) m → m.Executes code pc →
      g.Covers pc := by
    intro m pc hreaches hexecutes
    exact covers_of_executes h hvalid (start_related ⟨rfl, hstart⟩ hheap harguments)
      hreaches hexecutes
  refine ⟨?_, fun _ => h.mem_unreachable_iff, fun _ => FlowGraph.unreachableBlocks_of_metrics, ?_⟩
  · intro m pc hreaches hexecutes
    obtain ⟨position, block, id, hblock, hid, horigin, hreach⟩ := hcovers m pc hreaches hexecutes
    obtain ⟨ins, hins, rfl⟩ := Option.map_eq_some_iff.1 ((h.origin?_arena id).symm.trans horigin)
    have hmem : ins ∈ script.instructions.toList :=
      Array.mem_toList_iff.2 (Array.mem_of_getElem? hins)
    exact ⟨FlowGraph.blockNode position, block, id, ins,
      FlowGraph.mem_numberedBlocks_iff.2 ⟨position, hblock, rfl⟩, hreach, hid, horigin,
      (h.get?_arena id).trans hins, hreading.decoded ins hmem⟩
  · intro node hnode block hblock id hid m pc hreaches hexecutes horigin
    exact (h.mem_unreachable_iff.1 hnode).2
      (h.canReach_of_covers hreading (hcovers m pc hreaches hexecutes) hblock hid horigin)

end Machine

/-- A pointer is called inside a try, what it calls throws, and nothing leads behind the throw. -/
def Samples.thrownScript : Code :=
  #[0x3B, 0x0B, 0x00, 0x0A, 0x0B, 0x00, 0x00, 0x00, 0x36, 0x3D, 0x04, 0x45, 0x40, 0x40, 0x3A, 0x40]

/-- No run executes what stands behind the throw. -/
theorem Machine.run_covered_thrown : ∃ script g,
    Script.decode Samples.thrownScript = .ok script ∧ FlowGraph.build script [] = .ok g ∧
    Heap.empty.Pointerless ∧ (∀ p, Value.pointer p ∉ [Value.int 7]) ∧
    (∃ metrics, g.metrics = .ok metrics ∧ metrics.unreachableBlocks = 1) ∧
    ∀ m, Reaches Samples.thrownScript (start .empty 0 [.int 7]) m →
      ¬ m.Executes Samples.thrownScript 15 := by
  obtain ⟨script, hdecode⟩ : ∃ script, Script.decode Samples.thrownScript = .ok script := ⟨_, rfl⟩
  -- The last instruction has number 8, and its block is counted.
  have hcompute : (do
      let script ← Script.decode Samples.thrownScript
      let g ← FlowGraph.build script []
      let metrics ← g.metrics
      return (decide (∃ entry ∈ g.numberedBlocks, entry.1 ∈ g.unreachable ∧ 8 ∈ entry.2.ids),
        g.arena.origin? 8, metrics.unreachableBlocks)) = .ok (true, some 15, 1) := by
    decide +kernel
  rw [hdecode, Sequencing.ok_bind] at hcompute
  obtain ⟨g, hbuild, hrest⟩ := Sequencing.bind_eq_ok.1 hcompute
  obtain ⟨metrics, hmetrics, hviews⟩ := Sequencing.bind_eq_ok.1 hrest
  obtain ⟨hcounted, hviews⟩ := Prod.mk.inj (Except.ok.inj hviews)
  obtain ⟨horigin, hcount⟩ := Prod.mk.inj hviews
  obtain ⟨⟨node, block⟩, hblock, hnode, hid⟩ := of_decide_eq_true hcounted
  have hheap := Heap.pointerless_empty
  have harguments : ∀ p, Value.pointer p ∉ [Value.int 7] := by simp
  refine ⟨script, g, hdecode, hbuild, hheap, harguments, ⟨metrics, hmetrics, hcount⟩, ?_⟩
  intro m hreaches hexecutes
  obtain ⟨-, -, -, hnever⟩ := run_covered hdecode hbuild (.inl rfl) hheap harguments
  exact hnever node hnode block hblock 8 hid m 15 hreaches hexecutes horigin

end NeoScript
