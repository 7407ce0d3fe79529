import NeoScript.Proofs.FlowGraph.Acceptance
import NeoScript.Proofs.Opcode

/-!
# Partition — blocks are the straight pieces of a script

* `Script.OpensBlock` — the reasons for which a block starts at an address;
* `Script.IsCutInto.isBlockEnding_eq_false` — control leaves a run behind its last instruction only;
* `FlowGraph.build_partition` — the blocks of a graph cut its script exactly at these addresses.
-/

namespace NeoScript

/-! ## Where blocks start -/

/-- A block starts at an address: the script or a method begins there, an operand names it, or
control leaves in front of it. -/
inductive Script.OpensBlock (script : Script) (entryPoints : List Nat) (pc : Nat) : Prop where
  | first : pc = 0 → OpensBlock script entryPoints pc
  | method : pc ∈ entryPoints → OpensBlock script entryPoints pc
  /-- The target of a jump, a call, the end of a try body or a pointer. -/
  | target {ins : Instruction} {offset : Int} : ins ∈ script.instructions.toList →
      ins.jumpOffset? = some offset → (pc : Int) = ins.pc + offset →
        OpensBlock script entryPoints pc
  /-- A handler of a try that is there. -/
  | handler {ins : Instruction} {catchOffset finallyOffset offset : Int} :
      ins ∈ script.instructions.toList → ins.handlerOffsets? = some (catchOffset, finallyOffset) →
      offset = catchOffset ∨ offset = finallyOffset → offset ≠ 0 → (pc : Int) = ins.pc + offset →
      OpensBlock script entryPoints pc
  | behind {ins : Instruction} : ins ∈ script.instructions.toList → ins.op.isBlockEnding = true →
      pc = ins.next → OpensBlock script entryPoints pc

namespace Instruction

variable {ins : Instruction} {offset : Int}

theorem hasSingleTarget_of_jumpOffset? (h : ins.jumpOffset? = some offset) :
    ins.op.hasSingleTarget = true := by
  cases hsingle : ins.op.hasSingleTarget with
  | true => rfl
  | false =>
      rw [jumpOffset?_eq_none hsingle] at h
      cases h

theorem isTry_of_handlerOffsets? {offsets : Int × Int} (h : ins.handlerOffsets? = some offsets) :
    ins.op.isTry = true := by
  cases htry : ins.op.isTry with
  | true => rfl
  | false =>
      rw [handlerOffsets?_eq_none htry] at h
      cases h

theorem handlerOffsets?_of_jumpOffset? (h : ins.jumpOffset? = some offset) :
    ins.handlerOffsets? = none := by
  cases hhandlers : ins.handlerOffsets? with
  | none => rfl
  | some offsets =>
      have hnone :=
        jumpOffset?_eq_none (Opcode.hasSingleTarget_of_isTry (isTry_of_handlerOffsets? hhandlers))
      cases h.symm.trans hnone

/-- The relative addresses of an instruction are its target or its handlers that are there. -/
theorem mem_relativeTargets_iff :
    offset ∈ relativeTargets ins ↔ ins.jumpOffset? = some offset ∨
      ∃ a b, ins.handlerOffsets? = some (a, b) ∧ (offset = a ∨ offset = b) ∧ offset ≠ 0 := by
  cases hjump : ins.jumpOffset? with
  | some other =>
      rw [relativeTargets_of_jumpOffset? hjump, handlerOffsets?_of_jumpOffset? hjump]
      simp [eq_comm]
  | none =>
      cases hhandlers : ins.handlerOffsets? with
      | none => simp [relativeTargets, hjump, hhandlers]
      | some offsets =>
          obtain ⟨a, b⟩ := offsets
          simp [relativeTargets, hjump, hhandlers, and_assoc]

end Instruction

namespace Script

variable {script : Script} {code : Code} {entryPoints : List Nat} {ins : Instruction}

/-- At the address of an instruction, the survey has a start for one of these reasons only. -/
theorem IsValid.isStart_iff_opensBlock (h : script.IsValid code)
    (hmem : ins ∈ script.instructions.toList) :
    script.IsStart entryPoints ins.pc ↔ script.OpensBlock entryPoints ins.pc := by
  constructor
  · rintro (⟨hzero, -⟩ | hmethod | ⟨source, hsource, ⟨offset, hoffset, hpc⟩ | ⟨hend, -, hpc⟩⟩)
    · exact .first hzero
    · exact .method hmethod
    · -- A target that is named is an address, so it is not cut off at zero.
      have hnonneg := (h.leads source hsource offset hoffset).nonneg
      have hleads : (ins.pc : Int) = source.pc + offset := by omega
      rcases Instruction.mem_relativeTargets_iff.1 hoffset with hjump |
        ⟨a, b, hhandlers, hwhich, hne⟩
      · exact .target hsource hjump hleads
      · exact .handler hsource hhandlers hwhich hne hleads
    · exact .behind hsource hend hpc
  · have hnamed : ∀ {source : Instruction} {offset : Int}, source ∈ script.instructions.toList →
        offset ∈ relativeTargets source → (ins.pc : Int) = source.pc + offset →
        script.IsStart entryPoints ins.pc := by
      intro source offset hsource hoffset hpc
      exact .inr (.inr ⟨source, hsource, .inl ⟨offset, hoffset, by omega⟩⟩)
    intro hopens
    cases hopens with
    | first hzero => exact .inl ⟨hzero, List.ne_nil_of_mem hmem⟩
    | method hmethod => exact .inr (.inl hmethod)
    | target hsource hjump hpc =>
        exact hnamed hsource (Instruction.mem_relativeTargets_iff.2 (.inl hjump)) hpc
    | handler hsource hhandlers hwhich hne hpc =>
        exact hnamed hsource (Instruction.mem_relativeTargets_iff.2
          (.inr ⟨_, _, hhandlers, hwhich, hne⟩)) hpc
    | behind hsource hend hpc =>
        have hlt := h.lt_of_isBoundary (h.isBoundary_iff.2 ⟨ins, hmem, rfl⟩)
        rw [← h.length_eq, hpc] at hlt
        exact .inr (.inr ⟨_, hsource, .inr ⟨hend, hlt, hpc⟩⟩)

end Script

/-! ## Runs -/

namespace Script.IsCutInto

variable {script : Script} {code : Code} {entryPoints : List Nat}
  {groups : List (List (Instruction × Nat))}

/-- Neighbours in the runs are neighbours in the script. -/
theorem pc_eq_next (h : script.IsCutInto entryPoints groups) (hreading : script.IsReading code)
    {before after : List (Instruction × Nat)} {entry entry' : Instruction × Nat}
    (hflatten : groups.flatten = before ++ entry :: entry' :: after) :
    entry'.1.pc = entry.1.next := by
  have hlist : before.map (·.1) ++ entry.1 :: entry'.1 :: after.map (·.1) =
      script.instructions.toList := by
    have hmap := congrArg (List.map Prod.fst) (hflatten.symm.trans h.flatten)
    rwa [List.zipIdx_map_fst, List.map_append, List.map_cons, List.map_cons] at hmap
  have hplaced := hreading.placed
  rw [← hlist, Placed.append_iff, Placed.cons_iff, Placed.cons_iff] at hplaced
  unfold Instruction.next
  omega

/-- Control leaves a run behind its last instruction only: what follows in the run is not a
start. -/
theorem isBlockEnding_eq_false (h : script.IsCutInto entryPoints groups)
    (hreading : script.IsReading code) {front back : List (Instruction × Nat)}
    {entry entry' : Instruction × Nat} (hgroup : front ++ entry :: entry' :: back ∈ groups) :
    entry.1.op.isBlockEnding = false := by
  rw [← Bool.not_eq_true]
  intro hend
  obtain ⟨before, after, hsplit⟩ := List.append_of_mem hgroup
  have hflatten : groups.flatten =
      (before.flatten ++ front) ++ entry :: entry' :: (back ++ after.flatten) := by
    simp [hsplit]
  have hnext := h.pc_eq_next hreading hflatten
  have hmem : ∀ other ∈ front ++ entry :: entry' :: back, other.1 ∈ script.instructions.toList := by
    intro other hother
    exact Array.mem_toList_iff.2 (Array.mem_of_getElem? (h.mem_iff.1 ⟨_, hgroup, hother⟩))
  have hlt := hreading.lt_of_isBoundary (hreading.isBoundary_iff.2 ⟨_, hmem entry' (by simp), rfl⟩)
  rw [← hreading.length_eq, hnext] at hlt
  -- So the instruction behind it is a start, and it is not the first of its run.
  have hstart : script.IsStart entryPoints entry'.1.pc :=
    .inr (.inr ⟨entry.1, hmem entry (by simp), .inr ⟨hend, hlt, hnext⟩⟩)
  obtain ⟨first, rest, heq, -, hrest⟩ := h.cut _ hgroup
  refine hrest entry' ?_ hstart
  cases front with
  | nil =>
      cases heq
      exact List.mem_cons_self ..
  | cons other front =>
      cases heq
      simp

end Script.IsCutInto

/-! ## Graphs -/

namespace FlowGraph

variable {script : Script} {code : Code} {starts : List Nat} {g : FlowGraph}
  {groups : List (List (Instruction × Nat))}

namespace Describes

/-- Every block is a run of the script. -/
theorem exists_group (h : g.Describes script starts groups) {position : Nat} {block : Block}
    (hposition : g.blocks[position]? = some block) :
    ∃ group, groups[position]? = some group ∧ block.start = startOf group ∧
      block.ids = group.map (·.2) := by
  have hstart := congrArg (·[position]?) h.blockStarts
  have hids := congrArg (·[position]?) h.blockIds
  simp only [List.getElem?_map, hposition, Option.map_some] at hstart hids
  obtain ⟨group, hgroup, heq⟩ := Option.map_eq_some_iff.1 hstart.symm
  rw [hgroup, Option.map_some] at hids
  exact ⟨group, hgroup, heq.symm, Option.some.inj hids⟩

/-- Every run of the script is a block. -/
theorem exists_block (h : g.Describes script starts groups) {position : Nat}
    {group : List (Instruction × Nat)} (hposition : groups[position]? = some group) :
    ∃ block, g.blocks[position]? = some block ∧ block.start = startOf group ∧
      block.ids = group.map (·.2) := by
  have hlt : position < g.blocks.length :=
    h.length_blocks ▸ (List.getElem?_eq_some_iff.1 hposition).1
  obtain ⟨group', hgroup', hstart, hids⟩ := h.exists_group (List.getElem?_eq_getElem hlt)
  cases hposition.symm.trans hgroup'
  exact ⟨_, List.getElem?_eq_getElem hlt, hstart, hids⟩

theorem mem_group (h : g.Describes script starts groups) {block : Block}
    (hblock : block ∈ g.blocks) :
    ∃ group ∈ groups, block.start = startOf group ∧ block.ids = group.map (·.2) := by
  obtain ⟨position, hposition⟩ := List.getElem?_of_mem hblock
  obtain ⟨group, hgroup, hviews⟩ := h.exists_group hposition
  exact ⟨group, List.mem_of_getElem? hgroup, hviews⟩

theorem get?_arena (h : g.Describes script starts groups) (id : InstrId) :
    g.arena.get? id = script.instructions[id]? := by
  rw [h.arena, Arena.get?_ofInstructions]

theorem origin?_arena (h : g.Describes script starts groups) (id : InstrId) :
    g.arena.origin? id = (script.instructions[id]?).map (·.pc) := by
  rw [h.arena]
  cases hid : script.instructions[id]? with
  | none => simp [Arena.origin?, Arena.ofInstructions, hid]
  | some ins => rw [Arena.origin?_ofInstructions hid, Option.map_some]

/-- Blocks stand in the order of their addresses. -/
theorem pairwise_starts (h : g.Describes script starts groups) (hreading : script.IsReading code) :
    (g.blocks.map (·.start)).Pairwise (· < ·) := by
  rw [h.blockStarts]
  refine List.Pairwise.sublist (Script.IsCutInto.sublist_starts h.cut.cut) ?_
  rw [h.cut.flatten, Table.map_zipIdx Instruction.pc, List.pairwise_map]
  exact hreading.placed.pairwise_pc

/-- A block begins with the instruction at its start. -/
theorem exists_first (h : g.Describes script starts groups) {block : Block}
    (hblock : block ∈ g.blocks) :
    ∃ first rest, block.ids = first :: rest ∧ g.arena.origin? first = some block.start := by
  obtain ⟨group, hgroup, hstart, hids⟩ := h.mem_group hblock
  obtain ⟨⟨ins, id⟩, rest, rfl, -⟩ := h.cut.cut group hgroup
  have hid := h.cut.mem_iff.1 ⟨_, hgroup, List.mem_cons_self ..⟩
  refine ⟨id, rest.map Prod.snd, hids, ?_⟩
  rw [h.origin?_arena, hid, Option.map_some, hstart]
  rfl

/-- The starts of blocks are the starts of the survey. -/
theorem exists_start_iff (h : g.Describes script starts groups) {id : Nat} {ins : Instruction}
    (hid : script.instructions[id]? = some ins) :
    (∃ block ∈ g.blocks, block.start = ins.pc) ↔ script.IsStart starts ins.pc := by
  constructor
  · rintro ⟨block, hblock, hpc⟩
    obtain ⟨group, hgroup, hstart, -⟩ := h.mem_group hblock
    obtain ⟨first, rest, rfl, hfirst, -⟩ := h.cut.cut group hgroup
    rw [← hpc, hstart]
    exact hfirst
  · intro hstart
    obtain ⟨group, hgroup, hpc⟩ := h.cut.exists_startOf hid hstart
    obtain ⟨position, hposition⟩ := List.getElem?_of_mem hgroup
    obtain ⟨block, hblock, heq, -⟩ := h.exists_block hposition
    exact ⟨block, List.mem_of_getElem? hblock, heq.trans hpc⟩

/-- Only the last instruction of a block may transfer control. -/
theorem isBlockEnding_eq_false (h : g.Describes script starts groups)
    (hreading : script.IsReading code)
    {block : Block} (hblock : block ∈ g.blocks) {front : List InstrId} {last : InstrId}
    (hids : block.ids = front ++ [last]) {id : InstrId} (hid : id ∈ front) {ins : Instruction}
    (hins : g.arena.get? id = some ins) : ins.op.isBlockEnding = false := by
  obtain ⟨group, hgroup, -, hgroupIds⟩ := h.mem_group hblock
  obtain ⟨before, after, hfront⟩ := List.append_of_mem hid
  -- Another number follows in the block, so another entry follows in the run.
  obtain ⟨next, back, hnext⟩ : ∃ next back, after ++ [last] = next :: back :=
    List.exists_cons_of_ne_nil (by simp)
  rw [hgroupIds, hfront, List.append_assoc, List.cons_append, hnext] at hids
  obtain ⟨xs, ys, rfl, -, hys⟩ := List.map_eq_append_iff.1 hids
  obtain ⟨⟨entry, _⟩, zs, rfl, rfl, hzs⟩ := List.map_eq_cons_iff.1 hys
  obtain ⟨entry', ws, rfl, -, -⟩ := List.map_eq_cons_iff.1 hzs
  have hentry := h.cut.mem_iff.1 ⟨_, hgroup, List.mem_append_right xs (List.mem_cons_self ..)⟩
  rw [h.get?_arena, hentry] at hins
  cases hins
  exact h.cut.isBlockEnding_eq_false hreading hgroup

/-- What an instruction refers to begins a block. -/
theorem refersTo_start (h : g.Describes script starts groups) (hvalid : script.IsValid code)
    {source target : InstrId} (hrefers : g.references.RefersTo source target) :
    ∃ ins, script.instructions[target]? = some ins ∧ script.IsStart starts ins.pc := by
  -- The number that an operand of the source names belongs to the instruction where it leads.
  have hnamed : ∀ {ins : Instruction} {offset : Int}, ins ∈ script.instructions.toList →
      offset ∈ relativeTargets ins → script.targetId? ins offset = some target →
      ∃ ins, script.instructions[target]? = some ins ∧ script.IsStart starts ins.pc := by
    intro ins offset hmem hoffset htarget
    obtain ⟨k, found, hk, hfound, hpc⟩ := hvalid.exists_targetId? hmem hoffset
    cases htarget.symm.trans hk
    exact ⟨found, hfound, .of_target hmem hoffset hpc starts⟩
  rcases hrefers with hjump | ⟨handlers, htries, hhandler⟩
  · rw [h.references.jumps] at hjump
    obtain ⟨ins, hins, hoperand⟩ := Option.bind_eq_some_iff.1 hjump
    obtain ⟨offset, hoffset, htarget⟩ := Option.bind_eq_some_iff.1 hoperand
    exact hnamed (Array.mem_toList_iff.2 (Array.mem_of_getElem? hins))
      (Instruction.mem_relativeTargets_iff.2 (.inl hoffset)) htarget
  · rw [h.references.tries] at htries
    obtain ⟨ins, hins, hoperand⟩ := Option.bind_eq_some_iff.1 htries
    obtain ⟨⟨a, b⟩, hoffsets, rfl⟩ := Option.map_eq_some_iff.1 hoperand
    have hmem : ins ∈ script.instructions.toList :=
      Array.mem_toList_iff.2 (Array.mem_of_getElem? hins)
    have hpresent : ∀ offset, (offset = a ∨ offset = b) →
        script.handlerId? ins offset = some target →
        ∃ ins, script.instructions[target]? = some ins ∧ script.IsStart starts ins.pc := by
      intro offset hwhich hid
      unfold Script.handlerId? at hid
      split at hid
      · cases hid
      · rename_i hne
        exact hnamed hmem
          (Instruction.mem_relativeTargets_iff.2 (.inr ⟨a, b, hoffsets, hwhich, hne⟩)) hid
    rcases List.mem_append.1 hhandler with hcatch | hfinally
    · exact hpresent a (.inl rfl) (Option.mem_toList.1 hcatch)
    · exact hpresent b (.inr rfl) (Option.mem_toList.1 hfinally)

/-- Only the first instruction of a block may be referred to. -/
theorem head?_of_refersTo (h : g.Describes script starts groups) (hvalid : script.IsValid code)
    {block : Block} (hblock : block ∈ g.blocks) {source target : InstrId}
    (hrefers : g.references.RefersTo source target) (hmem : target ∈ block.ids) :
    block.ids.head? = some target := by
  obtain ⟨ins, hins, hstart⟩ := h.refersTo_start hvalid hrefers
  obtain ⟨group, hgroup, -, hids⟩ := h.mem_group hblock
  obtain ⟨first, rest, rfl, -, hrest⟩ := h.cut.cut group hgroup
  rw [hids, List.map_cons, List.mem_cons] at hmem
  rw [hids, List.map_cons, List.head?_cons]
  rcases hmem with rfl | hmem
  · rfl
  · obtain ⟨entry, hentry, rfl⟩ := List.mem_map.1 hmem
    have hfound := h.cut.mem_iff.1 ⟨_, hgroup, List.mem_cons_of_mem first hentry⟩
    cases hins.symm.trans hfound
    exact absurd hstart (hrest entry hentry)

end Describes

/-- The blocks of a graph are the straight pieces of its script: in the order of their addresses
they hold every instruction once, they start exactly where the script, a method, an operand or a
transfer of control asks for it, and so only the last instruction of a block may transfer control
and only the first may be referred to. -/
theorem build_partition (hdecode : Script.decode code = .ok script)
    (hbuild : build script starts = .ok g) :
    (g.blocks.map (·.start)).Pairwise (· < ·) ∧
    (∀ block ∈ g.blocks, ∃ first rest, block.ids = first :: rest ∧
      g.arena.origin? first = some block.start) ∧
    g.order = List.range script.instructions.size ∧
    (∀ id, g.arena.get? id = script.instructions[id]? ∧
      g.arena.origin? id = (script.instructions[id]?).map (·.pc)) ∧
    (∀ ins ∈ script.instructions.toList,
      (∃ block ∈ g.blocks, block.start = ins.pc) ↔ script.OpensBlock starts ins.pc) ∧
    (∀ block ∈ g.blocks, ∀ front last, block.ids = front ++ [last] →
      ∀ id ∈ front, ∀ ins, g.arena.get? id = some ins → ins.op.isBlockEnding = false) ∧
    ∀ block ∈ g.blocks, ∀ source target, g.references.RefersTo source target →
      target ∈ block.ids → block.ids.head? = some target := by
  have hreading := Script.decode_eq_ok_iff.1 hdecode
  obtain ⟨hvalid, -, groups, h⟩ := describes_of_build hreading hbuild
  refine ⟨h.pairwise_starts hreading, fun block hblock => h.exists_first hblock, h.order_eq,
    fun id => ⟨h.get?_arena id, h.origin?_arena id⟩, ?_, ?_, ?_⟩
  · intro ins hmem
    obtain ⟨id, hid⟩ := List.getElem?_of_mem hmem
    rw [Array.getElem?_toList] at hid
    rw [h.exists_start_iff hid, hvalid.isStart_iff_opensBlock hmem]
  · intro block hblock front last hids id hid ins hins
    exact h.isBlockEnding_eq_false hreading hblock hids hid hins
  · intro block hblock source target hrefers hmem
    exact h.head?_of_refersTo hvalid hblock hrefers hmem

end FlowGraph

/-- A pointer is pushed and dropped in front of a try with a catch block, and a method begins at the
last instruction. -/
def Samples.partedScript : Code :=
  #[0x0A, 0x0E, 0x00, 0x00, 0x00, 0x45, 0x3B, 0x05, 0x00, 0x3D, 0x05, 0x45, 0x3D, 0x02, 0x40,
    0x11, 0x40]

/-- Blocks start for every reason: at the script and the method, where the pointer, the ends of the
try and its catch block lead, and behind what transfers control. -/
theorem FlowGraph.build_partition_parted : ∃ script g,
    Script.decode Samples.partedScript = .ok script ∧ build script [16] = .ok g ∧
    g.blockStarts = [0, 9, 11, 14, 15, 16] ∧ g.order = List.range script.instructions.size ∧
    ∀ ins ∈ script.instructions.toList,
      (∃ block ∈ g.blocks, block.start = ins.pc) ↔ script.OpensBlock [16] ins.pc := by
  obtain ⟨script, hdecode⟩ : ∃ script, Script.decode Samples.partedScript = .ok script := ⟨_, rfl⟩
  have hcompute : (do
      let script ← Script.decode Samples.partedScript
      let g ← build script [16]
      return g.blockStarts) = .ok [0, 9, 11, 14, 15, 16] := by
    decide +kernel
  rw [hdecode, Sequencing.ok_bind] at hcompute
  obtain ⟨g, hbuild, hstarts⟩ := Sequencing.bind_eq_ok.1 hcompute
  obtain ⟨-, -, horder, -, hopens, -⟩ := build_partition hdecode hbuild
  exact ⟨script, g, hdecode, hbuild, Except.ok.inj hstarts, horder, hopens⟩

end NeoScript
