import NeoScript.Metrics
import NeoScript.Proofs.FlowGraph.Cut
import NeoScript.Proofs.FlowGraph.Survey

/-!
# Build — every valid script has a block graph

* `Script.IsCutInto` — the runs of a script between its block starts;
* `FlowGraph.Describes` — a graph holds a script, its references and these runs, connected;
* `FlowGraph.build_of_isValid` — the graph of a valid script is built without a fault;
* `FlowGraph.Describes.metrics_eq` — and it can be measured.
-/

namespace NeoScript

open Std (TreeMap TreeSet)

/-! ## Nodes -/

namespace FlowGraph

variable {starts : List Nat} {pc : Nat}

/-- The node of an address is the one of the block that starts there. -/
theorem getElem?_nodesByStart (hnodup : starts.Nodup) {node : Node} :
    (nodesByStart starts)[pc]? = some node ↔
      ∃ position, starts[position]? = some pc ∧ blockNode position = node := by
  refine (Table.getElem?_fill_zipIdx id (by rwa [List.map_id]) blockNode).trans ?_
  simp

end FlowGraph

/-! ## Runs -/

/-- The runs of a script between its block starts, with the numbers of the instructions. -/
structure Script.IsCutInto (script : Script) (entryPoints : List Nat)
    (groups : List (List (Instruction × Nat))) : Prop where
  flatten : groups.flatten = script.instructions.toList.zipIdx
  cut : IsCut (script.IsStart entryPoints) groups

namespace Script.IsCutInto

variable {script : Script} {entryPoints : List Nat} {groups : List (List (Instruction × Nat))}

/-- A cut loses no instruction, keeps their numbers and adds none. -/
theorem mem_iff (h : script.IsCutInto entryPoints groups) {ins : Instruction} {id : Nat} :
    (∃ group ∈ groups, (ins, id) ∈ group) ↔ script.instructions[id]? = some ins := by
  rw [← List.mem_flatten, h.flatten, List.mk_mem_zipIdx_iff_getElem?, Array.getElem?_toList]

/-- The number of an instruction is its position. -/
theorem length_before (h : script.IsCutInto entryPoints groups)
    {before after : List (List (Instruction × Nat))}
    {ins : Instruction} {id : Nat} {rest : List (Instruction × Nat)}
    (hgroups : groups = before ++ ((ins, id) :: rest) :: after) : before.flatten.length = id := by
  have hflatten := h.flatten
  rw [hgroups] at hflatten
  have hentry := congrArg (·[before.flatten.length]?) hflatten
  simp only [List.flatten_append, List.flatten_cons, List.cons_append, List.getElem?_append_right,
    Nat.le_refl, Nat.sub_self, List.getElem?_cons_zero, List.getElem?_zipIdx] at hentry
  obtain ⟨other, _, heq⟩ := Option.map_eq_some_iff.1 hentry.symm
  simpa using congrArg Prod.snd heq

/-- A start is at the front of a run. -/
theorem exists_split (h : script.IsCutInto entryPoints groups) {ins : Instruction} {id : Nat}
    (hid : script.instructions[id]? = some ins) (hstart : script.IsStart entryPoints ins.pc) :
    ∃ before rest after, groups = before ++ ((ins, id) :: rest) :: after := by
  obtain ⟨group, hgroup, hmem⟩ := h.mem_iff.2 hid
  obtain ⟨first, rest, rfl, _, hrest⟩ := h.cut group hgroup
  obtain ⟨before, after, heq⟩ := List.append_of_mem hgroup
  rcases List.mem_cons.1 hmem with hfirst | hmem
  · rw [← hfirst] at heq
    exact ⟨before, rest, after, heq⟩
  · exact absurd hstart (hrest _ hmem)

/-- A start is the start of a run. -/
theorem exists_startOf (h : script.IsCutInto entryPoints groups) {ins : Instruction} {id : Nat}
    (hid : script.instructions[id]? = some ins) (hstart : script.IsStart entryPoints ins.pc) :
    ∃ group ∈ groups, FlowGraph.startOf group = ins.pc := by
  obtain ⟨before, rest, after, heq⟩ := h.exists_split hid hstart
  exact ⟨(ins, id) :: rest, by simp [heq], rfl⟩

/-- The starts of the runs stand in the order of the addresses. -/
theorem sublist_starts {IsStart : Nat → Prop} (h : IsCut IsStart groups) :
    List.Sublist (groups.map FlowGraph.startOf) (groups.flatten.map (·.1.pc)) := by
  induction groups with
  | nil => simp
  | cons group groups ih =>
      obtain ⟨first, rest, rfl, _⟩ := h group (List.mem_cons_self ..)
      have hlater := ih fun g hg => h g (List.mem_cons_of_mem _ hg)
      rw [List.map_cons, List.flatten_cons, List.cons_append, List.map_cons]
      refine List.Sublist.cons_cons _ ?_
      rw [List.map_append]
      exact hlater.trans (List.sublist_append_right _ _)

/-- No two runs start at the same address. -/
theorem nodup_starts {code : Code} (hreading : script.IsReading code)
    (h : script.IsCutInto entryPoints groups) : (groups.map FlowGraph.startOf).Nodup := by
  refine (sublist_starts h.cut).nodup ?_
  rw [h.flatten, Table.map_zipIdx Instruction.pc]
  exact hreading.placed.nodup_pc

/-- A node is found by the address at which its run begins. -/
theorem getElem?_nodesByStart {code : Code} (hreading : script.IsReading code)
    (h : script.IsCutInto entryPoints groups) {group : List (Instruction × Nat)} {position : Nat}
    (hposition : groups[position]? = some group) :
    (FlowGraph.nodesByStart (groups.map FlowGraph.startOf))[FlowGraph.startOf group]? =
      some (FlowGraph.blockNode position) := by
  refine (FlowGraph.getElem?_nodesByStart (h.nodup_starts hreading)).2 ⟨position, ?_, rfl⟩
  rw [List.getElem?_map, hposition]
  rfl

end Script.IsCutInto

/-! ## Control -/

namespace Arena

theorem origin?_ofInstructions {instructions : Array Instruction} {id : Nat} {ins : Instruction}
    (h : instructions[id]? = some ins) :
    (ofInstructions instructions).origin? id = some ins.pc := by
  simp [origin?, ofInstructions, h]

theorem get?_ofInstructions {instructions : Array Instruction} (id : Nat) :
    (ofInstructions instructions).get? id = instructions[id]? := by
  simp only [get?, ofInstructions, Array.getElem?_map, Option.map_map]
  cases instructions[id]? <;> rfl

end Arena

namespace FlowGraph

section Build

variable {script : Script} {code : Code} {entryPoints : List Nat}
  {groups : List (List (Instruction × Nat))} {survey : Survey}

/-- A block start has a node, whichever way it is asked for. -/
theorem targetNode_of_isStart (h : script.IsReading code)
    (hcut : script.IsCutInto entryPoints groups)
    {id : Nat} {ins : Instruction} (hid : script.instructions[id]? = some ins)
    (hstart : script.IsStart entryPoints ins.pc) :
    ∃ node, (nodesByStart (groups.map startOf))[ins.pc]? = some node ∧
      targetNode (.ofInstructions script.instructions) (nodesByStart (groups.map startOf)) id =
        .ok node := by
  obtain ⟨group, hgroup, hpc⟩ := hcut.exists_startOf hid hstart
  obtain ⟨position, hposition⟩ := List.getElem?_of_mem hgroup
  have hnode := hcut.getElem?_nodesByStart h hposition
  rw [hpc] at hnode
  refine ⟨_, hnode, ?_⟩
  simp only [targetNode, Arena.origin?_ofInstructions hid, hnode]

variable {references : References}

/-- A single address operand is recorded with the instruction to which it leads. -/
theorem exists_jump (h : script.IsValid code) (hreferences : references.Describes script) {id : Nat}
    {ins : Instruction} (hid : script.instructions[id]? = some ins) {offset : Int}
    (hoffset : ins.jumpOffset? = some offset) :
    ∃ k target, references.jumps[id]? = some k ∧ script.instructions[k]? = some target ∧
      (target.pc : Int) = ins.pc + offset := by
  have hmem : ins ∈ script.instructions.toList := Array.mem_toList_iff.2 (Array.mem_of_getElem? hid)
  have htargets : offset ∈ relativeTargets ins := by
    simp [Instruction.relativeTargets_of_jumpOffset? hoffset]
  obtain ⟨k, target, hk, htarget, hpc⟩ := h.exists_targetId? hmem htargets
  refine ⟨k, target, ?_, htarget, hpc⟩
  rw [hreferences.jumps, hid]
  simp [Script.jumpTarget?, hoffset, hk]

/-- The target of an instruction with a single address operand begins a block. -/
theorem exists_jumpNode (h : script.IsValid code) (hcut : script.IsCutInto entryPoints groups)
    (hreferences : references.Describes script) {id : Nat} {ins : Instruction}
    (hid : script.instructions[id]? = some ins) (hsingle : ins.op.hasSingleTarget = true) :
    ∃ k target node, references.jumps[id]? = some k ∧ script.instructions[k]? = some target ∧
      (nodesByStart (groups.map startOf))[target.pc]? = some node ∧
      jumpNode (.ofInstructions script.instructions) references
        (nodesByStart (groups.map startOf)) id =
        .ok node := by
  have hmem : ins ∈ script.instructions.toList := Array.mem_toList_iff.2 (Array.mem_of_getElem? hid)
  obtain ⟨offset, hoffset⟩ := (h.fits hmem).exists_jumpOffset? hsingle
  have htargets : offset ∈ relativeTargets ins := by
    simp [Instruction.relativeTargets_of_jumpOffset? hoffset]
  obtain ⟨k, target, hjump, htarget, hpc⟩ := exists_jump h hreferences hid hoffset
  obtain ⟨node, hnode, hok⟩ := targetNode_of_isStart h.toIsReading hcut htarget
    (.of_target hmem htargets hpc entryPoints)
  exact ⟨k, target, node, hjump, htarget, hnode, by simp only [jumpNode, hjump, hok]⟩

/-- A handler that is there begins a block. -/
theorem exists_handlerNode (h : script.IsValid code) (hcut : script.IsCutInto entryPoints groups)
    {ins : Instruction} (hmem : ins ∈ script.instructions.toList) (offset : Int)
    (hoffset : offset ≠ 0 → offset ∈ relativeTargets ins) :
    ∃ node, handlerNode (.ofInstructions script.instructions) (nodesByStart (groups.map startOf))
      (script.handlerId? ins offset) = .ok node := by
  unfold Script.handlerId?
  by_cases hzero : offset = 0
  · exact ⟨none, by simp [hzero, handlerNode]⟩
  · obtain ⟨k, target, hk, htarget, hpc⟩ := h.exists_targetId? hmem (hoffset hzero)
    obtain ⟨node, _, hok⟩ := targetNode_of_isStart h.toIsReading hcut htarget
      (.of_target hmem (hoffset hzero) hpc entryPoints)
    refine ⟨some node, ?_⟩
    rw [if_neg hzero, hk]
    exact Sequencing.map_eq_ok.2 ⟨node, hok, rfl⟩

/-- The control of a block can be told, since operands of a valid script lead to block starts. -/
theorem exists_controlOf (h : script.IsValid code) (hcut : script.IsCutInto entryPoints groups)
    (hreferences : references.Describes script) {id : Nat} {ins : Instruction}
    (hid : script.instructions[id]? = some ins) (next : Option Node) :
    ∃ control, controlOf (.ofInstructions script.instructions) references
      (nodesByStart (groups.map startOf)) ins id next = .ok control := by
  have hmem : ins ∈ script.instructions.toList := Array.mem_toList_iff.2 (Array.mem_of_getElem? hid)
  have hjump : ∀ f : Node → Control, ins.op.hasSingleTarget = true →
      ∃ control, (jumpNode (.ofInstructions script.instructions) references
        (nodesByStart (groups.map startOf)) id).map f = .ok control := by
    intro f hsingle
    obtain ⟨_, _, node, _, _, _, hok⟩ := exists_jumpNode h hcut hreferences hid hsingle
    exact ⟨f node, Sequencing.map_eq_ok.2 ⟨node, hok, rfl⟩⟩
  -- Every operation that needs the target of its jump has one; the other arcs need no lookup.
  unfold controlOf
  split
  · rename_i hop
    exact hjump _ (by rw [hop]; rfl)
  · rename_i hop
    exact hjump _ (by rw [hop]; rfl)
  · rename_i hop
    exact hjump _ (by rw [hop]; rfl)
  · exact ⟨_, rfl⟩
  · rename_i hop
    have htry : ins.op.isTry = true := by rw [hop]; rfl
    obtain ⟨a, b, hoffsets⟩ := (h.fits hmem).exists_handlerOffsets? htry
    have htargets := Instruction.relativeTargets_of_isTry htry hoffsets
    have hhandlers : (references.tries[id]?).getD .none =
        ⟨script.handlerId? ins a, script.handlerId? ins b⟩ := by
      rw [hreferences.tries, hid]
      simp [Script.handlerTargets?, hoffsets]
    obtain ⟨catchNode, hcatch⟩ := exists_handlerNode h hcut hmem a
      (fun ha => by simp [htargets, ha])
    obtain ⟨finallyNode, hfinally⟩ := exists_handlerNode h hcut hmem b
      (fun hb => by simp [htargets, hb])
    rw [hhandlers]
    exact ⟨_, Sequencing.bind_eq_ok.2 ⟨_, hcatch, Sequencing.bind_eq_ok.2 ⟨_, hfinally, rfl⟩⟩⟩
  · rename_i hop
    exact hjump _ (by rw [hop]; rfl)
  · exact ⟨_, rfl⟩
  · split
    · exact ⟨_, rfl⟩
    · exact ⟨_, rfl⟩

/-- A run becomes a block of the same instructions. -/
theorem exists_blockOf (h : script.IsValid code) (hcut : script.IsCutInto entryPoints groups)
    (hreferences : references.Describes script) {group : List (Instruction × Nat)}
    (hgroup : group ∈ groups) (next : Option Node) :
    ∃ block, blockOf (.ofInstructions script.instructions) references
        (nodesByStart (groups.map startOf)) group next = .ok block ∧
      block.start = startOf group ∧ block.ids = group.map (·.2) := by
  -- The run is not empty, and its last instruction decides the control.
  obtain ⟨first, rest, heq, _⟩ := hcut.cut group hgroup
  have hne : group ≠ [] := by simp [heq]
  have hlast := List.getLast?_eq_some_getLast hne
  have hnumber : script.instructions[(group.getLast hne).2]? = some (group.getLast hne).1 :=
    hcut.mem_iff.1 ⟨group, hgroup, List.getLast_mem hne⟩
  obtain ⟨control, hcontrol⟩ := exists_controlOf h hcut hreferences hnumber next
  refine ⟨⟨startOf group, group.map (·.2), control⟩, ?_, rfl, rfl⟩
  simp only [blockOf, hlast]
  exact Sequencing.map_eq_ok.2 ⟨control, hcontrol, rfl⟩

/-- Every pointer of a valid script has an arc. -/
theorem exists_pointerArcs (h : script.IsValid code) (hcut : script.IsCutInto entryPoints groups)
    (hreferences : references.Describes script) {group : List (Instruction × Nat)}
    (hgroup : group ∈ groups) (source : Node) :
    ∃ arcs, pointerArcs (.ofInstructions script.instructions) references
      (nodesByStart (groups.map startOf)) source group = .ok arcs := by
  refine Sequencing.exists_mapM_eq_ok fun entry hentry => ?_
  obtain ⟨hmem, hop⟩ := List.mem_filter.1 hentry
  have hsingle : entry.1.op.hasSingleTarget = true := by
    rw [of_decide_eq_true hop]
    rfl
  obtain ⟨k, target, node, hjump, htarget, hnode, _⟩ :=
    exists_jumpNode h hcut hreferences (hcut.mem_iff.1 ⟨group, hgroup, hmem⟩) hsingle
  refine ⟨⟨source, node, .call⟩, ?_⟩
  simp [pointerArc, hjump, Arena.origin?_ofInstructions htarget, hnode]

/-- So blocks and arcs can be made of every run. -/
theorem exists_connect (h : script.IsValid code) (hcut : script.IsCutInto entryPoints groups)
    (hreferences : references.Describes script) {group : List (Instruction × Nat)}
    (hgroup : group ∈ groups) (count position : Nat) :
    ∃ part, connect (.ofInstructions script.instructions) references
        (nodesByStart (groups.map startOf)) count (group, position) = .ok part ∧
      part.1.start = startOf group ∧ part.1.ids = group.map (·.2) := by
  obtain ⟨block, hblock, hstart, hids⟩ := exists_blockOf h hcut hreferences hgroup
    (if position + 1 < count then some (blockNode (position + 1)) else none)
  obtain ⟨arcs, harcs⟩ := exists_pointerArcs h hcut hreferences hgroup (blockNode position)
  refine ⟨(block, controlArcs (blockNode position) block.control ++ arcs), ?_, hstart, hids⟩
  exact Sequencing.bind_eq_ok.2 ⟨block, hblock, Sequencing.bind_eq_ok.2 ⟨arcs, harcs, rfl⟩⟩

end Build

/-! ## Graphs -/

/-- A graph holds a script, its references and its runs, and what connects them. -/
structure Describes (g : FlowGraph) (script : Script) (starts : List Nat)
    (groups : List (List (Instruction × Nat))) : Prop where
  cut : script.IsCutInto starts groups
  arena : g.arena = .ofInstructions script.instructions
  references : g.references.Describes script
  blockStarts : g.blocks.map (·.start) = groups.map startOf
  blockIds : g.blocks.map (·.ids) = groups.map fun group => group.map (·.2)
  connected : ∃ parts, List.Forall₂ (fun entry part =>
      connect (.ofInstructions script.instructions) g.references (nodesByStart (groups.map startOf))
        groups.length entry = .ok part) groups.zipIdx parts ∧
    g.blocks = parts.map (·.1) ∧
    g.arcs = entryArcs (nodesByStart (groups.map startOf)) groups.length starts ++
      parts.flatMap (·.2)
  entryPoints : g.entryPoints = starts
  scriptLength : g.scriptLength = script.length

variable {script : Script} {code : Code} {starts : List Nat}

/-- The survey cuts a script into runs; an empty script has none. -/
theorem isCutInto_of_describes (h : script.IsReading code) {survey : Survey}
    (hsurvey : survey.Describes script starts) :
    script.IsCutInto starts (cutBlocks survey.starts.contains
      script.instructions.toList.zipIdx) := by
  refine ⟨flatten_cutBlocks _, ?_⟩
  have hiff : ∀ pc, survey.starts.contains pc = true ↔ script.IsStart starts pc := by
    intro pc
    rw [TreeSet.contains_iff_mem]
    exact hsurvey.starts pc
  -- The first instruction is a start, so no run lacks one.
  have hfirst : ∀ entry, script.instructions.toList.zipIdx.head? = some entry →
      survey.starts.contains entry.1.pc = true := by
    intro entry hentry
    rw [hiff]
    cases hxs : script.instructions.toList with
    | nil => simp [hxs] at hentry
    | cons first rest =>
        have hplaced := h.placed
        rw [hxs] at hplaced hentry
        simp only [List.zipIdx_cons, List.head?_cons, Option.some.injEq] at hentry
        subst hentry
        exact .inl ⟨hplaced.1, by simp [hxs]⟩
  intro group hgroup
  obtain ⟨first, rest, heq, hfirst, hrest⟩ := isCut_cutBlocks _ hfirst group hgroup
  exact ⟨first, rest, heq, (hiff _).1 hfirst, fun entry hentry hstart =>
    hrest entry hentry ((hiff _).2 hstart)⟩

/-- Every valid script with proper method starts has a graph. -/
theorem build_of_isValid (h : script.IsValid code)
    (hstarts : ∀ pc ∈ starts, script.isBoundary pc = true) :
    ∃ g groups, build script starts = .ok g ∧ g.Describes script starts groups := by
  -- The survey, the cut into runs and the arcs of each run succeed one after the other.
  obtain ⟨survey, hrun, hsurvey⟩ := Survey.run_of_leads h.leads starts
  have hcut := isCutInto_of_describes h.toIsReading hsurvey
  generalize hgroups : cutBlocks survey.starts.contains script.instructions.toList.zipIdx =
    groups at hcut
  have hconnect : ∀ entry ∈ groups.zipIdx, ∃ part, connect (.ofInstructions script.instructions)
        survey.references (nodesByStart (groups.map startOf)) groups.length entry = .ok part ∧
      part.1.start = startOf entry.1 ∧ part.1.ids = entry.1.map (·.2) := by
    intro entry hentry
    have hgroup : entry.1 ∈ groups := List.fst_mem_of_mem_zipIdx hentry
    exact exists_connect h hcut hsurvey.references hgroup groups.length entry.2
  obtain ⟨parts, hparts, hviews⟩ := Sequencing.exists_mapM hconnect
  let g : FlowGraph := {
    arena := .ofInstructions script.instructions
    references := survey.references
    blocks := parts.map (·.1)
    arcs := entryArcs (nodesByStart (groups.map startOf)) groups.length starts ++
    parts.flatMap (·.2)
    entryPoints := starts
    scriptLength := script.length }
  refine ⟨g, groups, ?_, hcut, rfl, hsurvey.references, ?_, ?_,
    ⟨parts, Sequencing.mapM_eq_ok.1 hparts, rfl, rfl⟩, rfl, rfl⟩
  · have hfind : starts.find? (fun pc => !script.isBoundary pc) = none := by
      rw [List.find?_eq_none]
      intro pc hpc
      simp [hstarts pc hpc]
    simp only [build, hfind]
    refine Sequencing.bind_eq_ok.2 ⟨survey, hrun, ?_⟩
    simp only [hgroups]
    exact Sequencing.bind_eq_ok.2 ⟨parts, hparts, rfl⟩
  · rw [List.map_map, ← Table.map_zipIdx startOf]
    exact (Sequencing.map_eq_of_forall₂ (hviews.imp fun _ _ hview => hview.1.symm)).symm
  · rw [List.map_map, ← Table.map_zipIdx (fun group : List (Instruction × Nat) => group.map (·.2))]
    exact (Sequencing.map_eq_of_forall₂ (hviews.imp fun _ _ hview => hview.2.symm)).symm

namespace Describes

variable {g : FlowGraph} {groups : List (List (Instruction × Nat))}

theorem length_blocks (h : g.Describes script starts groups) : g.blocks.length = groups.length := by
  simpa using congrArg List.length h.blockStarts

/-- The blocks hold the instructions in the order of the script, each once. -/
theorem order_eq (h : g.Describes script starts groups) :
    g.order = List.range script.instructions.size := by
  have hflatten : g.order = (g.blocks.map (·.ids)).flatten := by
    simp [order, List.flatMap_def]
  rw [hflatten, h.blockIds, ← List.map_flatten, h.cut.flatten, List.zipIdx_map_snd]
  simp [List.range_eq_range']

/-- A graph holds the instructions of its script. -/
theorem allInstructions_eq (h : g.Describes script starts groups) :
    g.allInstructions = .ok script.instructions.toList := by
  refine Sequencing.mapM_eq_ok.2 (Sequencing.forall₂_iff_getElem?.2 ⟨by simp [h.order_eq], ?_⟩)
  intro k id ins hid hins
  rw [h.order_eq] at hid
  obtain ⟨_, rfl⟩ := List.getElem?_eq_some_iff.1 hid
  rw [Array.getElem?_toList] at hins
  simp [h.arena, Arena.get?_ofInstructions, hins]

/-- The graph of a script that is not empty can be measured. -/
theorem metrics_eq (h : g.Describes script starts groups) (hne : script.instructions.toList ≠ []) :
    g.metrics = .ok {
      byteLength := script.length
      instructionCount := script.instructions.toList.length
      blockCount := g.blocks.length
      arcCount := g.arcs.length
      unreachableBlocks := g.unreachable.length
      staticFee := script.instructions.toList.foldl (fun fee ins => fee + ins.op.price) 0 } := by
  have hblocks : g.blocks.isEmpty = false := by
    rw [Bool.eq_false_iff]
    intro hempty
    have hids := h.blockIds
    rw [List.isEmpty_iff.1 hempty, List.map_nil] at hids
    have hgroups : groups = [] := List.map_eq_nil_iff.1 hids.symm
    have hflatten := h.cut.flatten
    rw [hgroups, List.flatten_nil] at hflatten
    exact hne (by simpa using hflatten.symm)
  simp only [metrics, hblocks, h.allInstructions_eq, Sequencing.ok_bind, h.scriptLength]
  rfl

end Describes

end FlowGraph

end NeoScript
