import Mathlib.Logic.Relation
import NeoScript.Proofs.FlowGraph.Build

/-!
# Reachability — the search finds exactly what a path from the entry reaches

* `FlowGraph.Follows`, `FlowGraph.CanReach` — arcs and paths between nodes;
* `FlowGraph.Searching` — what the search keeps: it has found the entry and all that follows what it
  marked, and nothing else; `Searching.skip` and `Searching.take` — one node, and
  `Searching.explore` — the whole agenda;
* `FlowGraph.Describes.mem_unreachable_iff` — the blocks that are counted as unreachable are those
  that no path reaches.
-/

namespace NeoScript
namespace FlowGraph

open Std (TreeMap)

def Follows (g : FlowGraph) (a b : Node) : Prop :=
  ∃ arc ∈ g.arcs, arc.source = a ∧ arc.target = b

def CanReach (g : FlowGraph) (node : Node) : Prop :=
  Relation.ReflTransGen g.Follows entryNode node

theorem CanReach.follow {g : FlowGraph} {a b : Node} (h : g.CanReach a) (hab : g.Follows a b) :
    g.CanReach b :=
  Relation.ReflTransGen.tail h hab

/-! ## The table of arcs -/

section Table

variable {g : FlowGraph} {a b : Node}

/-- Each arc adds its target to the list of its source. -/
theorem getD_modify_successors (arcs : List Arc) (table : Array (List Node)) (ha : a < table.size) :
    (arcs.foldl (fun table arc => table.modify arc.source (arc.target :: ·)) table).getD a [] =
      ((arcs.filter (·.source = a)).map (·.target)).reverse ++ table.getD a [] := by
  induction arcs generalizing table with
  | nil => rfl
  | cons arc arcs ih =>
      rw [List.foldl_cons, ih _ (by rwa [Array.size_modify])]
      by_cases hsource : arc.source = a
      · simp [hsource, Array.getElem_modify, ha]
      · simp [hsource, Array.getElem_modify, ha]

/-- The successors of a node are the targets of its arcs, the last one first. -/
theorem getD_successors (ha : a < g.blocks.length + 2) :
    g.successors.getD a [] = ((g.arcs.filter (·.source = a)).map (·.target)).reverse := by
  unfold successors
  rw [getD_modify_successors _ _ (by rwa [Array.size_replicate])]
  simp [Array.getD_eq_getD_getElem?, ha]

/-- The table of successors has the arcs of the graph, and no others. -/
theorem mem_successors (ha : a < g.blocks.length + 2) :
    b ∈ g.successors.getD a [] ↔ g.Follows a b := by
  rw [getD_successors ha, List.mem_reverse, List.mem_map]
  unfold Follows
  simp [and_assoc]

end Table

/-! ## The search -/

def Marked (seen : Array Bool) (node : Node) : Prop :=
  seen[node]? = some true

/-- The arcs of the nodes at which the search has not been. -/
def openArcs (g : FlowGraph) (seen : Array Bool) : Nat :=
  g.arcs.countP fun arc => seen[arc.source]? = some false

section Search

variable {g : FlowGraph} {seen : Array Bool} {node a b : Node}

theorem marked_of_skipped (h : seen.getD node true = true) (hlt : node < seen.size) :
    Marked seen node := by
  simpa [Marked, hlt] using h

theorem getElem?_of_not_skipped (h : ¬ seen.getD node true = true) : seen[node]? = some false := by
  rw [Array.getD_eq_getD_getElem?] at h
  cases hnode : seen[node]? with
  | none => simp [hnode] at h
  | some b => simpa [hnode] using h

/-- Marking a node marks no other. -/
theorem marked_set_iff (h : seen[node]? = some false) :
    Marked (seen.setIfInBounds node true) a ↔ a = node ∨ Marked seen a := by
  have hlt := (Array.getElem?_eq_some_iff.1 h).1
  unfold Marked
  rw [Array.getElem?_setIfInBounds]
  by_cases ha : node = a
  · simp [ha, ha ▸ hlt]
  · simp [ha, Ne.symm ha]

theorem unmarked_set_iff (h : seen[node]? = some false) :
    (seen.setIfInBounds node true)[a]? = some false ↔ a ≠ node ∧ seen[a]? = some false := by
  have hlt := (Array.getElem?_eq_some_iff.1 h).1
  rw [Array.getElem?_setIfInBounds]
  by_cases ha : node = a
  · simp [ha, ha ▸ hlt]
  · simp [ha, Ne.symm ha]

/-- Marking a node closes its arcs, as many as it puts on the agenda. -/
theorem length_successors_add_openArcs (hsize : seen.size = g.blocks.length + 2)
    (h : seen[node]? = some false) :
    (g.successors.getD node []).length + g.openArcs (seen.setIfInBounds node true) =
      g.openArcs seen := by
  have hlt := (Array.getElem?_eq_some_iff.1 h).1
  rw [getD_successors (hsize ▸ hlt), List.length_reverse,
    List.length_map, ← List.countP_eq_length_filter]
  simp only [openArcs, unmarked_set_iff h]
  generalize g.arcs = arcs
  induction arcs with
  | nil => rfl
  | cons arc arcs ih =>
      simp only [List.countP_cons, ← ih]
      by_cases hsource : arc.source = node
      · simp [hsource, h]
        omega
      · simp [hsource]
        omega

/-- What the search keeps from one node to the next. -/
structure Searching (g : FlowGraph) (agenda : List Node) (seen : Array Bool) : Prop where
  size : seen.size = g.blocks.length + 2
  /-- Only what a path reaches is marked or awaited. -/
  reached : ∀ a, Marked seen a ∨ a ∈ agenda → g.CanReach a
  /-- The entry has been found. -/
  rooted : Marked seen entryNode ∨ entryNode ∈ agenda
  /-- Whatever follows a marked node has been found as well. -/
  closed : ∀ a b, Marked seen a → g.Follows a b → b < seen.size → Marked seen b ∨ b ∈ agenda

namespace Searching

variable {agenda : List Node}

theorem entry_lt (h : Searching g agenda seen) : entryNode < seen.size := by
  rw [h.size]
  exact Nat.zero_lt_succ _

/-- A node that is marked already, or that is none of the graph, is left out. -/
theorem skip (h : Searching g (node :: agenda) seen) (hskip : seen.getD node true = true) :
    Searching g agenda seen := by
  have hfound : ∀ a, a < seen.size → Marked seen a ∨ a ∈ node :: agenda → Marked seen a ∨
      a ∈ agenda := by
    intro a hlt ha
    rcases ha with ha | ha
    · exact .inl ha
    · rcases List.mem_cons.1 ha with rfl | ha
      · exact .inl (marked_of_skipped hskip hlt)
      · exact .inr ha
  refine ⟨h.size, fun a ha => h.reached a (ha.imp_right (List.mem_cons_of_mem _)), ?_, ?_⟩
  · exact hfound _ h.entry_lt h.rooted
  · exact fun a b ha hab hb => hfound b hb (h.closed a b ha hab hb)

/-- A node is marked, and its targets go on the agenda. -/
theorem take (h : Searching g (node :: agenda) seen) (hnode : seen[node]? = some false) :
    Searching g (g.successors.getD node [] ++ agenda) (seen.setIfInBounds node true) := by
  have htargets : ∀ b, b ∈ g.successors.getD node [] ↔ g.Follows node b := fun b =>
    mem_successors (h.size ▸ (Array.getElem?_eq_some_iff.1 hnode).1)
  have hfound : ∀ a, Marked seen a ∨ a ∈ node :: agenda →
      Marked (seen.setIfInBounds node true) a ∨ a ∈ g.successors.getD node [] ++ agenda := by
    intro a ha
    rw [marked_set_iff hnode]
    rcases ha with ha | ha
    · exact .inl (.inr ha)
    · rcases List.mem_cons.1 ha with rfl | ha
      · exact .inl (.inl rfl)
      · exact .inr (List.mem_append_right _ ha)
  refine ⟨by rw [Array.size_setIfInBounds, h.size], ?_, hfound _ h.rooted, ?_⟩
  · intro a ha
    rw [marked_set_iff hnode, List.mem_append, htargets] at ha
    rcases ha with (rfl | ha) | (hfollows | ha)
    · exact h.reached _ (.inr List.mem_cons_self)
    · exact h.reached a (.inl ha)
    · exact (h.reached node (.inr List.mem_cons_self)).follow hfollows
    · exact h.reached a (.inr (List.mem_cons_of_mem _ ha))
  · intro a b ha hab hb
    rw [Array.size_setIfInBounds] at hb
    rcases (marked_set_iff hnode).1 ha with rfl | ha
    · exact .inr (List.mem_append_left _ ((htargets b).2 hab))
    · exact hfound b (h.closed a b ha hab hb)

/-- With enough fuel the search comes to the end of its agenda. -/
theorem explore {fuel : Nat} (h : Searching g agenda seen)
    (hfuel : agenda.length + g.openArcs seen ≤ fuel) :
    Searching g [] (explore g.successors fuel agenda seen) := by
  -- What is on the agenda or may still come there gets less with every node that is taken.
  induction fuel generalizing agenda seen with
  | zero =>
      have hnil : agenda = [] := List.length_eq_zero_iff.1 (by omega)
      exact hnil ▸ h
  | succ fuel ih =>
      cases agenda with
      | nil => exact h
      | cons node agenda =>
          rw [List.length_cons] at hfuel
          by_cases hskip : seen.getD node true = true
          · rw [FlowGraph.explore, if_pos hskip]
            exact ih (h.skip hskip) (by omega)
          · have hnode := getElem?_of_not_skipped hskip
            have hopen := length_successors_add_openArcs h.size hnode
            rw [FlowGraph.explore, if_neg hskip]
            exact ih (h.take hnode) (by rw [List.length_append]; omega)

end Searching

/-- The search from the entry marks exactly the nodes of the graph that a path reaches. -/
theorem marked_reachable_iff (hsources : ∀ arc ∈ g.arcs, arc.source < g.blocks.length + 2)
    (hnode : node < g.blocks.length + 2) : Marked g.reachable node ↔ g.CanReach node := by
  have hblank : ∀ a, ¬ Marked (Array.replicate (g.blocks.length + 2) false) a := by
    intro a ha
    simp [Marked, Array.getElem?_replicate] at ha
  have hopen : g.openArcs (Array.replicate (g.blocks.length + 2) false) ≤ g.arcs.length :=
    List.countP_le_length
  have hstart : Searching g [entryNode] (Array.replicate (g.blocks.length + 2) false) := by
    refine ⟨Array.size_replicate, ?_, .inr (List.mem_singleton_self _), fun a _ ha =>
      absurd ha (hblank a)⟩
    rintro a (ha | ha)
    · exact absurd ha (hblank a)
    · rw [List.mem_singleton.1 ha]
      exact .refl
  have hend : Searching g [] g.reachable :=
    hstart.explore (by simp only [List.length_singleton]; omega)
  have hfound : ∀ {a : Node}, Marked g.reachable a ∨ a ∈ [] → Marked g.reachable a := fun ha =>
    ha.resolve_right List.not_mem_nil
  constructor
  · exact fun hmarked => hend.reached node (.inl hmarked)
  · intro hreach
    induction hreach with
    | refl => exact hfound hend.rooted
    | @tail a b _ hab ih =>
        -- An inner node of the path is the source of an arc, so it lies in the graph.
        obtain ⟨arc, harc, rfl, rfl⟩ := id hab
        exact hfound (hend.closed _ _ (ih (hsources arc harc)) hab (hend.size ▸ hnode))

end Search

theorem unreachableBlocks_of_metrics {g : FlowGraph} {m : Metrics} (h : g.metrics = .ok m) :
    m.unreachableBlocks = g.unreachable.length := by
  unfold metrics at h
  split at h
  · cases h
  · obtain ⟨instructions, -, h⟩ := Sequencing.bind_eq_ok.1 h
    cases h
    rfl

/-! ## Arcs of built graphs -/

theorem mem_numberedBlocks_iff {g : FlowGraph} {node : Node} {block : Block} :
    (node, block) ∈ g.numberedBlocks ↔
      ∃ position, g.blocks[position]? = some block ∧ blockNode position = node := by
  unfold numberedBlocks
  rw [List.mem_map]
  constructor
  · rintro ⟨⟨_, position⟩, hentry, heq⟩
    cases heq
    exact ⟨position, List.mk_mem_zipIdx_iff_getElem?.1 hentry, rfl⟩
  · rintro ⟨position, hposition, rfl⟩
    exact ⟨(block, position), List.mk_mem_zipIdx_iff_getElem?.2 hposition, rfl⟩

section Arcs

variable {source : Node} {arc : Arc}

theorem source_of_mem_controlArcs {control : Control} (h : arc ∈ controlArcs source control) :
    arc.source = source := by
  have hall : ∀ arc ∈ controlArcs source control, arc.source = source := by
    cases control <;> simp [controlArcs, or_imp, forall_and]
  exact hall arc h

theorem source_of_mem_pointerArcs {arena : Arena} {references : References}
    {nodes : TreeMap Nat Node} {group : List (Instruction × Nat)} {arcs : List Arc}
    (h : pointerArcs arena references nodes source group = .ok arcs) (hmem : arc ∈ arcs) :
    arc.source = source := by
  obtain ⟨⟨_, id⟩, -, harc⟩ := Sequencing.exists_left_of_forall₂ (Sequencing.mapM_eq_ok.1 h) hmem
  dsimp only [pointerArc] at harc
  split at harc
  · cases harc
    rfl
  · cases harc

theorem source_of_mem_entryArcs {nodes : TreeMap Nat Node} {count : Nat} {starts : List Nat}
    (h : arc ∈ entryArcs nodes count starts) : arc.source = entryNode := by
  rcases List.mem_cons.1 h with rfl | h
  · rfl
  · obtain ⟨pc, -, harc⟩ := List.mem_filterMap.1 h
    grind

end Arcs

namespace Describes

variable {script : Script} {starts : List Nat} {g : FlowGraph}
  {groups : List (List (Instruction × Nat))}

/-- The block of a run, with the arcs that leave it. -/
theorem exists_connect_of_group (h : g.Describes script starts groups) {position : Nat}
    {group : List (Instruction × Nat)} (hposition : groups[position]? = some group) :
    ∃ part, connect (.ofInstructions script.instructions) g.references
      (nodesByStart (groups.map startOf))
        groups.length (group, position) = .ok part ∧
      g.blocks[position]? = some part.1 ∧ ∀ arc ∈ part.2, arc ∈ g.arcs := by
  obtain ⟨parts, hparts, hblocks, harcs⟩ := h.connected
  have hentry : groups.zipIdx[position]? = some (group, position) := by
    rw [List.getElem?_zipIdx, hposition, Option.map_some, Nat.zero_add]
  obtain ⟨part, hpart, hconnect⟩ := Sequencing.exists_getElem?_of_forall₂ hparts hentry
  refine ⟨part, hconnect, by rw [hblocks, List.getElem?_map, hpart, Option.map_some], ?_⟩
  intro arc harc
  rw [harcs, List.mem_append, List.mem_flatMap]
  exact .inr ⟨part, List.mem_of_getElem? hpart, harc⟩

/-- Arcs leave the entry and the blocks only. -/
theorem source_lt (h : g.Describes script starts groups) :
    ∀ arc ∈ g.arcs, arc.source < g.blocks.length + 2 := by
  intro arc harc
  obtain ⟨parts, hparts, -, harcs⟩ := h.connected
  rw [harcs, List.mem_append, List.mem_flatMap] at harc
  rcases harc with harc | ⟨part, hpart, harc⟩
  · rw [source_of_mem_entryArcs harc]
    exact Nat.zero_lt_succ _
  · obtain ⟨⟨group, position⟩, hentry, hconnect⟩ := Sequencing.exists_left_of_forall₂ hparts hpart
    obtain ⟨block, -, hrest⟩ := Sequencing.bind_eq_ok.1 hconnect
    obtain ⟨pointers, hpointers, hpart⟩ := Sequencing.bind_eq_ok.1 hrest
    cases hpart
    have hsource : arc.source = blockNode position := by
      rcases List.mem_append.1 harc with harc | harc
      · exact source_of_mem_controlArcs harc
      · exact source_of_mem_pointerArcs hpointers harc
    have hlt := (List.getElem?_eq_some_iff.1 (List.mk_mem_zipIdx_iff_getElem?.1 hentry)).1
    rw [hsource, h.length_blocks]
    exact Nat.add_lt_add_right hlt 2

/-- The blocks that are counted as unreachable are those that no path from the entry reaches. -/
theorem mem_unreachable_iff (h : g.Describes script starts groups) {node : Node} :
    node ∈ g.unreachable ↔ (∃ block, (node, block) ∈ g.numberedBlocks) ∧ ¬ g.CanReach node := by
  have hnodes : node ∈ g.numberedBlocks.map (·.1) ↔ ∃ block, (node, block) ∈ g.numberedBlocks := by
    simp
  unfold unreachable
  rw [List.mem_filter, hnodes]
  refine and_congr_right fun hblock => ?_
  obtain ⟨block, hblock⟩ := hblock
  obtain ⟨position, hposition, rfl⟩ := mem_numberedBlocks_iff.1 hblock
  have hlt : blockNode position < g.blocks.length + 2 :=
    Nat.add_lt_add_right (List.getElem?_eq_some_iff.1 hposition).1 2
  rw [← marked_reachable_iff h.source_lt hlt, Marked]
  cases hseen : g.reachable[blockNode position]? with
  | none => simp [Array.getD_eq_getD_getElem?, hseen]
  | some seen => cases seen <;> simp [Array.getD_eq_getD_getElem?, hseen]

end Describes

end FlowGraph
end NeoScript
