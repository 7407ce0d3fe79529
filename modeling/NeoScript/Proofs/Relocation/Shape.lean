import NeoScript.Proofs.FlowGraph.Shape
import NeoScript.Proofs.Relocation.Blocks

/-!
# Shape — a relocated script has a graph of the same shape

* `FlowGraph.Aligned.controlOf` — carried instructions lead to the same nodes;
* `FlowGraph.RunCarried`, `FlowGraph.Aligned.connect` — runs that begin, end and push pointers alike
  are connected alike;
* `FlowGraph.Describes.sameShape` — graphs of such runs have the same shape;
* `Transferred.forall₂_runCarried` — relocation carries the runs of a script.
-/

namespace NeoScript

namespace FlowGraph

open Std (TreeMap)

/-! ## Carried instructions -/

/-- Two valid scripts with their references and with tables of nodes that agree where addresses
stand for one another. -/
structure Aligned (φ : Nat → Nat → Prop) (script : Script) (references : References)
    (nodes : TreeMap Nat Node)
    (script' : Script) (references' : References) (nodes' : TreeMap Nat Node) : Prop where
  valid : ∃ code, script.IsValid code
  valid' : ∃ code, script'.IsValid code
  references : references.Describes script
  references' : references'.Describes script'
  nodes : ∀ {p q}, φ p q → nodes[p]? = nodes'[q]?

namespace Aligned

variable {φ : Nat → Nat → Prop} {script script' : Script} {references references' : References}
  {nodes nodes' : TreeMap Nat Node} {id id' : Nat} {ins ins' : Instruction}

/-- A carried jump leads to the same node. -/
theorem jumpNode (h : Aligned φ script references nodes script' references' nodes')
    (hid : script.instructions[id]? = some ins) (hid' : script'.instructions[id']? = some ins')
    (hcarried : ins.Carried φ ins') (hsingle : ins.op.hasSingleTarget = true) {node : Node}
    (hnode : jumpNode (.ofInstructions script.instructions) references nodes id = .ok node) :
    FlowGraph.jumpNode (.ofInstructions script'.instructions) references' nodes' id' =
      .ok node := by
  obtain ⟨code, hvalid⟩ := h.valid
  obtain ⟨code', hvalid'⟩ := h.valid'
  obtain ⟨a, b, ha, hb, p, q, hpq, hp, hq⟩ := hcarried.target hsingle
  rw [jumpNode_eq_ok_iff hvalid h.references hid ha hp, h.nodes hpq] at hnode
  exact (jumpNode_eq_ok_iff hvalid' h.references' hid' hb hq).2 hnode

/-- A carried pointer has the same arc. -/
theorem pointerArc (h : Aligned φ script references nodes script' references' nodes')
    (hid : script.instructions[id]? = some ins) (hid' : script'.instructions[id']? = some ins')
    (hcarried : ins.Carried φ ins') (hsingle : ins.op.hasSingleTarget = true) {source : Node}
    {arc : Arc}
    (harc : pointerArc (.ofInstructions script.instructions) references nodes source id = .ok arc) :
    FlowGraph.pointerArc (.ofInstructions script'.instructions) references' nodes' source id' =
      .ok arc := by
  obtain ⟨code, hvalid⟩ := h.valid
  obtain ⟨code', hvalid'⟩ := h.valid'
  obtain ⟨a, b, ha, hb, p, q, hpq, hp, hq⟩ := hcarried.target hsingle
  rw [pointerArc_eq_ok_iff hvalid h.references hid ha hp, h.nodes hpq] at harc
  exact (pointerArc_eq_ok_iff hvalid' h.references' hid' hb hq).2 harc

/-- A carried handler has the same node. -/
theorem handlerNode (h : Aligned φ script references nodes script' references' nodes')
    (hid : script.instructions[id]? = some ins) (hid' : script'.instructions[id']? = some ins')
    {a b : Int}
    (hcarried : HandlerCarried φ ins.pc ins'.pc a b) (ha : a ≠ 0 → a ∈ relativeTargets ins)
    (hb : b ≠ 0 → b ∈ relativeTargets ins') {handler : Option Node}
    (hhandler : handlerNode (.ofInstructions script.instructions) nodes (script.handlerId? ins a) =
      .ok handler) :
    FlowGraph.handlerNode (.ofInstructions script'.instructions) nodes'
      (script'.handlerId? ins' b) =
      .ok handler := by
  obtain ⟨code, hvalid⟩ := h.valid
  obtain ⟨code', hvalid'⟩ := h.valid'
  cases hcarried with
  | absent => exact hhandler
  | present hne hne' hmoved =>
      obtain ⟨p, q, hpq, hp, hq⟩ := hmoved
      rw [handlerNode_eq_ok_iff hvalid hid (ha hne) hne hp, h.nodes hpq] at hhandler
      exact (handlerNode_eq_ok_iff hvalid' hid' (hb hne') hne' hq).2 hhandler

/-- A block that ends with a carried instruction passes control on to the same nodes. -/
theorem controlOf (h : Aligned φ script references nodes script' references' nodes')
    (hid : script.instructions[id]? = some ins) (hid' : script'.instructions[id']? = some ins')
    (hcarried : ins.Carried φ ins') {next : Option Node} {control : Control}
    (hcontrol : controlOf (.ofInstructions script.instructions) references nodes ins id next =
      .ok control) :
    FlowGraph.controlOf (.ofInstructions script'.instructions) references' nodes' ins' id' next =
      .ok control := by
  have hjump : ∀ f : Node → Control, ins.op.hasSingleTarget = true →
      (FlowGraph.jumpNode (.ofInstructions script.instructions) references nodes id).map f =
        .ok control →
      (FlowGraph.jumpNode (.ofInstructions script'.instructions) references' nodes' id').map f =
        .ok control := by
    intro f hsingle hmap
    obtain ⟨node, hnode, rfl⟩ := Sequencing.map_eq_ok.1 hmap
    exact Sequencing.map_eq_ok.2 ⟨node, h.jumpNode hid hid' hcarried hsingle hnode, rfl⟩
  -- Both instructions have the same long form, so one case split serves both sides.
  rw [← controlOf_congr hcarried.op]
  unfold FlowGraph.controlOf at hcontrol ⊢
  split at hcontrol
  · rename_i hop
    exact hjump _ (by rw [hop]; rfl) hcontrol
  · rename_i hop
    exact hjump _ (by rw [hop]; rfl) hcontrol
  · rename_i hop
    exact hjump _ (by rw [hop]; rfl) hcontrol
  · exact hcontrol
  · rename_i hop
    have htry : ins.op.isTry = true := by rw [hop]; rfl
    have htry' : ins'.op.isTry = true := by
      rw [← Opcode.isTry_toLong, ← hcarried.op, Opcode.isTry_toLong, htry]
    obtain ⟨a, b, a', b', holds, hnews, hcatch, hfinally⟩ := hcarried.handlers htry
    have htargets := Instruction.relativeTargets_of_isTry htry holds
    have htargets' := Instruction.relativeTargets_of_isTry htry' hnews
    have hhandlers : references.tries[id]? =
        some ⟨script.handlerId? ins a, script.handlerId? ins b⟩ := by
      rw [h.references.tries, hid]
      simp [Script.handlerTargets?, holds]
    have hhandlers' : references'.tries[id']? =
        some ⟨script'.handlerId? ins' a', script'.handlerId? ins' b'⟩ := by
      rw [h.references'.tries, hid']
      simp [Script.handlerTargets?, hnews]
    rw [hhandlers, Option.getD_some] at hcontrol
    rw [hhandlers', Option.getD_some]
    obtain ⟨catchNode, hcatchNode, hcontrol⟩ := Sequencing.bind_eq_ok.1 hcontrol
    obtain ⟨finallyNode, hfinallyNode, hcontrol⟩ := Sequencing.bind_eq_ok.1 hcontrol
    refine Sequencing.bind_eq_ok.2 ⟨catchNode, ?_,
      Sequencing.bind_eq_ok.2 ⟨finallyNode, ?_, hcontrol⟩⟩
    · exact h.handlerNode hid hid' hcatch (fun ha => by simp [htargets, ha])
        (fun ha => by simp [htargets', ha]) hcatchNode
    · exact h.handlerNode hid hid' hfinally (fun hb => by simp [htargets, hb])
        (fun hb => by simp [htargets', hb]) hfinallyNode
  · rename_i hop
    exact hjump _ (by rw [hop]; rfl) hcontrol
  · exact hcontrol
  · exact hcontrol

end Aligned

/-! ## Runs -/

/-- Runs that begin at addresses which stand for one another, end alike and push the same
pointers. -/
structure RunCarried (φ : Nat → Nat → Prop) (group group' : List (Instruction × Nat)) : Prop where
  start : φ (startOf group) (startOf group')
  last : ∃ last last', group.getLast? = some last ∧ group'.getLast? = some last' ∧
    (last.1.Carried φ last'.1 ∨ last.1.op.isLocal = true ∧ last'.1.op.isLocal = true)
  pointers : List.Forall₂ (fun entry entry' : Instruction × Nat => entry.1.Carried φ entry'.1)
    (group.filter fun entry => entry.1.op = .pushPointer)
    (group'.filter fun entry => entry.1.op = .pushPointer)

namespace Aligned

variable {φ : Nat → Nat → Prop} {script script' : Script} {references references' : References}
  {nodes nodes' : TreeMap Nat Node} {group group' : List (Instruction × Nat)}

/-- The control of a carried run is the same, since its last instruction is carried. -/
theorem blockOf (h : Aligned φ script references nodes script' references' nodes')
    (hgroup : ∀ entry ∈ group, script.instructions[entry.2]? = some entry.1)
    (hgroup' : ∀ entry ∈ group', script'.instructions[entry.2]? = some entry.1)
    (hrun : RunCarried φ group group') {next : Option Node} {block block' : Block}
    (hblock : blockOf (.ofInstructions script.instructions) references nodes group next = .ok block)
    (hblock' : FlowGraph.blockOf (.ofInstructions script'.instructions) references' nodes'
      group' next =
      .ok block') : block.control = block'.control := by
  -- Only the last instruction of a run decides; a local one passes control on to the next block.
  obtain ⟨last, last', hlast, hlast', halike⟩ := hrun.last
  simp only [FlowGraph.blockOf, hlast] at hblock
  simp only [FlowGraph.blockOf, hlast'] at hblock'
  obtain ⟨control, hcontrol, rfl⟩ := Sequencing.map_eq_ok.1 hblock
  obtain ⟨control', hcontrol', rfl⟩ := Sequencing.map_eq_ok.1 hblock'
  rcases halike with hcarried | ⟨hlocal, hlocal'⟩
  · have hsame := h.controlOf (hgroup last (List.mem_of_getLast? hlast))
      (hgroup' last' (List.mem_of_getLast? hlast')) hcarried hcontrol
    exact Except.ok.inj (hsame.symm.trans hcontrol')
  · rw [controlOf_of_isLocal hlocal] at hcontrol
    rw [controlOf_of_isLocal hlocal'] at hcontrol'
    exact Except.ok.inj (hcontrol.symm.trans hcontrol')

/-- A carried run pushes the same pointers, as local instructions push none. -/
theorem pointerArcs (h : Aligned φ script references nodes script' references' nodes')
    (hgroup : ∀ entry ∈ group, script.instructions[entry.2]? = some entry.1)
    (hgroup' : ∀ entry ∈ group', script'.instructions[entry.2]? = some entry.1)
    (hrun : RunCarried φ group group') {source : Node} {arcs : List Arc}
    (harcs : pointerArcs (.ofInstructions script.instructions) references nodes source group =
      .ok arcs) :
    FlowGraph.pointerArcs (.ofInstructions script'.instructions) references' nodes' source group' =
      .ok arcs := by
  have hpointers := hrun.pointers
  unfold FlowGraph.pointerArcs at harcs ⊢
  rw [Sequencing.mapM_eq_ok] at harcs ⊢
  refine Sequencing.forall₂_iff_getElem?.2 ⟨hpointers.length_eq.symm.trans harcs.length_eq, ?_⟩
  intro k entry' arc hentry' harc
  obtain ⟨entry, hentry, hcarried⟩ := Sequencing.exists_getElem?_of_forall₂ hpointers.flip hentry'
  obtain ⟨arc', harc', hok⟩ := Sequencing.exists_getElem?_of_forall₂ harcs hentry
  cases Option.some.inj (harc.symm.trans harc')
  obtain ⟨hmem, hop⟩ := List.mem_filter.1 (List.mem_of_getElem? hentry)
  obtain ⟨hmem', -⟩ := List.mem_filter.1 (List.mem_of_getElem? hentry')
  have hsingle : entry.1.op.hasSingleTarget = true := by
    rw [of_decide_eq_true hop]
    rfl
  exact h.pointerArc (hgroup entry hmem) (hgroup' entry' hmem') hcarried hsingle hok

/-- Blocks of such runs pass control on in the same way, and the same arcs leave them. -/
theorem connect (h : Aligned φ script references nodes script' references' nodes')
    (hgroup : ∀ entry ∈ group, script.instructions[entry.2]? = some entry.1)
    (hgroup' : ∀ entry ∈ group', script'.instructions[entry.2]? = some entry.1)
    (hrun : RunCarried φ group group') {count position : Nat} {part part' : Block × List Arc}
    (hpart : connect (.ofInstructions script.instructions) references nodes count (group,
      position) =
      .ok part)
    (hpart' : FlowGraph.connect (.ofInstructions script'.instructions) references' nodes' count
      (group', position) = .ok part') : part.1.control = part'.1.control ∧ part.2 = part'.2 := by
  obtain ⟨block, hblock, hpart⟩ := Sequencing.bind_eq_ok.1 hpart
  obtain ⟨arcs, harcs, hpart⟩ := Sequencing.bind_eq_ok.1 hpart
  obtain ⟨block', hblock', hpart'⟩ := Sequencing.bind_eq_ok.1 hpart'
  obtain ⟨arcs', harcs', hpart'⟩ := Sequencing.bind_eq_ok.1 hpart'
  cases hpart
  cases hpart'
  have hcontrol := h.blockOf hgroup hgroup' hrun hblock hblock'
  cases Except.ok.inj ((h.pointerArcs hgroup hgroup' hrun harcs).symm.trans harcs')
  exact ⟨hcontrol, by rw [hcontrol]⟩

end Aligned

/-- Graphs whose runs and entry points correspond have the same shape. -/
theorem Describes.sameShape {φ : Nat → Nat → Prop} {script script' : Script} {code code' : Code}
    {starts starts' : List Nat} {groups groups' : List (List (Instruction × Nat))}
    {g g' : FlowGraph}
    (hg : g.Describes script starts groups) (hg' : g'.Describes script' starts' groups')
    (hvalid : script.IsValid code) (hvalid' : script'.IsValid code')
    (hinj : ∀ {p q p' q'}, φ p q → φ p' q' → (p = p' ↔ q = q'))
    (hruns : List.Forall₂ (RunCarried φ) groups groups') (hstarts : List.Forall₂ φ starts starts') :
    g.SameShape g' := by
  obtain ⟨parts, hparts, hblocks, harcs⟩ := hg.connected
  obtain ⟨parts', hparts', hblocks', harcs'⟩ := hg'.connected
  have hnodes : ∀ {p q}, φ p q → (nodesByStart (groups.map startOf))[p]? =
      (nodesByStart (groups'.map startOf))[q]? := by
    refine getElem?_nodesByStart_congr (hg.cut.nodup_starts hvalid.toIsReading)
      (hg'.cut.nodup_starts hvalid'.toIsReading) ?_ hinj
    rw [List.forall₂_map_left_iff, List.forall₂_map_right_iff]
    exact hruns.imp fun _ _ hrun => hrun.start
  have haligned :
      Aligned φ script g.references (nodesByStart (groups.map startOf)) script' g'.references
      (nodesByStart (groups'.map startOf)) :=
    ⟨⟨code, hvalid⟩, ⟨code', hvalid'⟩, hg.references, hg'.references, hnodes⟩
  -- Block by block: runs at the same position have the same node, and so has what follows them.
  have hsame : List.Forall₂ (fun part part' : Block × List Arc =>
      part.1.control = part'.1.control ∧ part.2 = part'.2) parts parts' := by
    have hlength : parts.length = parts'.length := by
      rw [← hparts.length_eq, ← hparts'.length_eq, List.length_zipIdx, List.length_zipIdx,
        hruns.length_eq]
    refine Sequencing.forall₂_iff_getElem?.2 ⟨hlength, ?_⟩
    intro k part part' hpart hpart'
    obtain ⟨entry, hentry, hok⟩ := Sequencing.exists_getElem?_of_forall₂ hparts.flip hpart
    obtain ⟨entry', hentry', hok'⟩ := Sequencing.exists_getElem?_of_forall₂ hparts'.flip hpart'
    rw [List.getElem?_zipIdx] at hentry hentry'
    obtain ⟨group, hgroup, rfl⟩ := Option.map_eq_some_iff.1 hentry
    obtain ⟨group', hgroup', rfl⟩ := Option.map_eq_some_iff.1 hentry'
    have hrun := (Sequencing.forall₂_iff_getElem?.1 hruns).2 k group group' hgroup hgroup'
    rw [← hruns.length_eq] at hok'
    exact haligned.connect (fun _ hmem => hg.cut.mem_iff.1 ⟨group,
      List.mem_of_getElem? hgroup, hmem⟩)
      (fun _ hmem => hg'.cut.mem_iff.1 ⟨group', List.mem_of_getElem? hgroup', hmem⟩) hrun hok hok'
  refine ⟨?_, ?_⟩
  · rw [hblocks, hblocks', List.map_map, List.map_map]
    exact Sequencing.map_eq_of_forall₂ (hsame.imp fun _ _ heq => heq.1)
  · rw [harcs, harcs', ← hruns.length_eq, entryArcs_congr hnodes hstarts, List.flatMap_def,
      List.flatMap_def, Sequencing.map_eq_of_forall₂ (hsame.imp fun _ _ heq => heq.2)]

end FlowGraph

/-! ## Relocated runs -/

open FlowGraph (RunCarried startOf)

theorem startOf_of_placed {start : Nat} {group : List (Instruction × Nat)} (hne : group ≠ [])
    (h : Placed start (group.map Prod.fst)) : startOf group = start := by
  obtain ⟨first, rest, rfl⟩ := List.exists_cons_of_ne_nil hne
  exact h.1

section Links

variable {φ : Nat → Nat → Prop} {links : List Link}

/-- Links end with a carried instruction, or with local ones. -/
theorem exists_getLast (hne : links ≠ []) (hlinked : ∀ l ∈ links, Linked φ l)
    (hproper : ∀ l ∈ links, l.1.Proper) :
    ∃ old new, (links.flatMap Link.olds).getLast? = some old ∧
      (links.flatMap Link.news).getLast? = some new ∧
      (old.Carried φ new ∨ old.op.isLocal = true ∧ new.op.isLocal = true) := by
  obtain ⟨front, l, rfl⟩ := (List.eq_nil_or_concat' links).resolve_left hne
  have hlast : l ∈ front ++ [l] := by simp
  have hnews_ne := (hlinked l hlast).news_ne_nil
  have holds := List.getLast?_eq_some_getLast (Link.olds_ne_nil l)
  have hnews := List.getLast?_eq_some_getLast hnews_ne
  refine ⟨l.olds.getLast (Link.olds_ne_nil l), l.news.getLast hnews_ne, ?_, ?_, ?_⟩
  · simp [List.getLast?_append, holds]
  · simp [List.getLast?_append, hnews]
  · rcases (hlinked l hlast).kept_or_local (hproper l hlast) with
      ⟨entry, ins, rfl, hcarried⟩ | ⟨hlocal, hlocal'⟩
    · exact .inl hcarried
    · exact .inr ⟨hlocal _ (List.getLast_mem _), (hlocal' _ (List.getLast_mem _)).1⟩

theorem filter_pushPointer_of_isLocal {xs : List Instruction}
    (h : ∀ ins ∈ xs, ins.op.isLocal = true) :
    xs.filter (fun ins => ins.op = .pushPointer) = [] := by
  rw [List.filter_eq_nil_iff]
  intro ins hins hop
  have hlocal := h ins hins
  rw [of_decide_eq_true hop] at hlocal
  cases hlocal

/-- Links carry all pointers along. -/
theorem forall₂_pointers (hlinked : ∀ l ∈ links, Linked φ l) (hproper : ∀ l ∈ links, l.1.Proper) :
    List.Forall₂ (Instruction.Carried φ)
      ((links.flatMap Link.olds).filter fun ins => ins.op = .pushPointer)
      ((links.flatMap Link.news).filter fun ins => ins.op = .pushPointer) := by
  induction links with
  | nil => exact .nil
  | cons l links ih =>
      rw [List.forall_mem_cons] at hlinked hproper
      rw [List.flatMap_cons, List.flatMap_cons, List.filter_append, List.filter_append]
      refine List.rel_append ?_ (ih hlinked.2 hproper.2)
      rcases hlinked.1.kept_or_local hproper.1 with ⟨entry, ins, rfl, hcarried⟩ | ⟨hlocal, hlocal'⟩
      · -- Pointers have one form only, so a carried one is still a pointer.
        have hop : entry.2.op = .pushPointer ↔ ins.op = .pushPointer :=
          ⟨fun h => Opcode.eq_pushPointer_of_toLong (h ▸ hcarried.op),
            fun h => Opcode.eq_pushPointer_of_toLong (h ▸ hcarried.op.symm)⟩
        change List.Forall₂ _ ([entry.2].filter _) ([ins].filter _)
        by_cases hpointer : ins.op = .pushPointer
        · simpa [hop.2 hpointer, hpointer] using hcarried
        · simp [hop, hpointer]
      · rw [filter_pushPointer_of_isLocal hlocal,
          filter_pushPointer_of_isLocal fun ins hins => (hlocal' ins hins).1]
        exact .nil

end Links

namespace Transferred

variable {script : Script} {code : Code} {xs : List Instruction}

/-- The run of a block and the new run. -/
theorem runCarried {before after : List (List Link)} {block : List Link}
    (h : Transferred script (before ++ block :: after).flatten xs) (hread : script.IsReading code)
    (hne : block ≠ []) {group group' : List (Instruction × Nat)}
    (hgroup : block.flatMap Link.olds = group.map Prod.fst)
    (hgroup' : group'.map Prod.fst = block.flatMap Link.news) :
    RunCarried (Lands (before ++ block :: after).flatten) group group' := by
  have hlinked : ∀ l ∈ block, Linked (Lands (before ++ block :: after).flatten) l := fun l hl =>
    h.linked l (by simp [hl])
  have hproper : ∀ l ∈ block, l.1.Proper := fun l hl => h.proper l (by simp [hl])
  refine ⟨?_, ?_, ?_⟩
  · obtain ⟨hplaced, hplaced'⟩ := h.placed_block hread
    obtain ⟨l, ls, rfl⟩ := List.exists_cons_of_ne_nil hne
    have hgroup_ne : group ≠ [] := by
      rintro rfl
      exact Link.olds_ne_nil l (List.append_eq_nil_iff.1 hgroup).1
    have hgroup_ne' : group' ≠ [] := by
      rintro rfl
      exact (hlinked l (List.mem_cons_self ..)).news_ne_nil
        (List.append_eq_nil_iff.1 hgroup'.symm).1
    rw [hgroup] at hplaced
    rw [← hgroup'] at hplaced'
    rw [startOf_of_placed hgroup_ne hplaced, startOf_of_placed hgroup_ne' hplaced']
    exact lands_block
  · -- The last links decide how both runs end.
    obtain ⟨old, new, hold, hnew, halike⟩ := exists_getLast hne hlinked hproper
    rw [hgroup, List.getLast?_map] at hold
    rw [← hgroup', List.getLast?_map] at hnew
    obtain ⟨last, hlast, rfl⟩ := Option.map_eq_some_iff.1 hold
    obtain ⟨last', hlast', rfl⟩ := Option.map_eq_some_iff.1 hnew
    exact ⟨last, last', hlast, hlast', halike⟩
  · have hpointers := forall₂_pointers hlinked hproper
    rw [hgroup, ← hgroup', List.filter_map, List.filter_map, List.forall₂_map_left_iff,
      List.forall₂_map_right_iff] at hpointers
    exact hpointers

/-- Relocation carries the runs of a script. -/
theorem forall₂_runCarried {blocks : List (List Link)} {groups : List (List (Instruction × Nat))}
    {starts : List Nat} (h : Transferred script blocks.flatten xs) (hread : script.IsReading code)
    (hcut : script.IsCutInto starts groups) (hdivides : Divides groups blocks) :
    List.Forall₂ (RunCarried (Lands blocks.flatten)) groups (regroup 0 blocks) := by
  have hregroup := forall₂_regroup 0 blocks
  refine Sequencing.forall₂_iff_getElem?.2 ⟨hdivides.length_eq.trans hregroup.length_eq, ?_⟩
  intro k group group' hgroup hgroup'
  obtain ⟨block, hblock, holds⟩ := Sequencing.exists_getElem?_of_forall₂ hdivides hgroup
  have hnews := (Sequencing.forall₂_iff_getElem?.1 hregroup).2 k block group' hblock hgroup'
  obtain ⟨l, ls, rfl⟩ := hdivides.ne_nil hcut (List.mem_of_getElem? hblock)
  obtain ⟨before, after, rfl⟩ := List.append_of_mem (List.mem_of_getElem? hblock)
  exact h.runCarried hread (by simp) holds hnews

end Transferred

end NeoScript
