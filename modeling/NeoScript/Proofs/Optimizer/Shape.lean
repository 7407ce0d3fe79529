import Mathlib.Data.List.Sort
import NeoScript.Proofs.Optimizer.Totality
import NeoScript.Proofs.Pass.Settled
import NeoScript.Proofs.Relocation.Shape

/-!
# Shape — an optimization keeps the block graph

* `Contract.Rebuilt.sameShape` — a rebuilt contract has a graph of the same shape;
* `Pass.Reaches.sameShape` — so has every contract that strategies lead to;
* `optimize_keeps_shape` — the result of an optimization has the same nodes, arcs and controls, and
  the same numbers of them.
-/

namespace NeoScript

/-! ## Entry points -/

section Ascending

variable {φ : Nat → Nat → Prop} {xs ys : List Nat}

/-- A relation that keeps the order keeps ascending lists ascending. -/
theorem pairwise_of_forall₂ (hφ : ∀ {p q p' q'}, φ p q → φ p' q' → (p < p' ↔ q < q'))
    (h : List.Forall₂ φ xs ys) (hxs : xs.Pairwise (· < ·)) : ys.Pairwise (· < ·) := by
  induction h with
  | nil => exact .nil
  | cons hxy hrest ih =>
      rw [List.pairwise_cons] at hxs
      refine .cons ?_ (ih hxs.2)
      intro y' hy'
      obtain ⟨x', hx', hxy'⟩ := Sequencing.exists_left_of_forall₂ hrest hy'
      exact (hφ hxy hxy').1 (hxs.1 x' hx')

/-- Ascending lists correspond place by place if the second one holds the images of the first. -/
theorem forall₂_of_pairwise (hφ : ∀ {p q p' q'}, φ p q → φ p' q' → (p < p' ↔ q < q'))
    (hxs : xs.Pairwise (· < ·)) (hys : ys.Pairwise (· < ·)) (hexists : ∀ p ∈ xs, ∃ q, φ p q)
    (hmem : ∀ q, q ∈ ys ↔ ∃ p ∈ xs, φ p q) : List.Forall₂ φ xs ys := by
  -- The images of the first list, in its order, are ascending and the same numbers as the second
  -- list.
  obtain ⟨images, himages⟩ := Sequencing.exists_forall₂ hexists
  have hsorted := pairwise_of_forall₂ hφ himages hxs
  have hsame : ∀ q, q ∈ images ↔ q ∈ ys := by
    intro q
    rw [hmem]
    constructor
    · exact Sequencing.exists_left_of_forall₂ himages
    · rintro ⟨p, hp, hpq⟩
      obtain ⟨q', hq', hpq'⟩ := Sequencing.exists_right_of_forall₂ himages hp
      have hlt := hφ hpq hpq'
      have hgt := hφ hpq' hpq
      rwa [show q = q' by omega]
  rwa [← hsorted.eq_of_mem_iff hys hsame]

end Ascending

/-! ## Contracts -/

namespace Contract

def SameShape (c c' : Contract) : Prop :=
  ∃ g g', c.graph = .ok g ∧ c'.graph = .ok g' ∧ g.SameShape g'

theorem Checked.sameShape {c : Contract} {script : Script} (h : c.Checked script) :
    c.SameShape c := by
  obtain ⟨g, _, hg, -⟩ := h.exists_graph
  exact ⟨g, g, hg, hg, .refl g⟩

theorem SameShape.trans {c c' c'' : Contract} (h : c.SameShape c') (h' : c'.SameShape c'') :
    c.SameShape c'' := by
  obtain ⟨g, g', hg, hg', hsame⟩ := h
  obtain ⟨other, g'', hother, hg'', hsame'⟩ := h'
  cases Except.ok.inj (hg'.symm.trans hother)
  exact ⟨g, g'', hg, hg'', hsame.trans hsame'⟩

section Rebuilt

variable {c c' : Contract} {script : Script} {links : List Link} {xs : List Instruction}
  {g : FlowGraph}
  {groups : List (List (Instruction × Nat))} {parts : List (List Segment)} {r : Revision}

/-- The entry points of a rebuilt contract, in order. -/
theorem Rebuilt.forall₂_entryPoints (h : c.Rebuilt c' script links xs) (hchecked : c.Checked script)
    (hrewrites : Rewrites g script c.entryPoints groups parts r)
    (hparts : links.map Prod.fst = parts.flatten) :
    List.Forall₂ (Lands links) c.entryPoints c'.entryPoints := by
  refine forall₂_of_pairwise h.transferred.lands_lt_iff (pairwise_entryPoints c)
    (pairwise_entryPoints c')
    ?_ h.entryPoints
  intro p hp
  exact hrewrites.exists_lands h.transferred hparts hchecked.valid.toIsReading
    (hchecked.isBoundary_entryPoints p hp) (.inr (.inl hp))

/-- A rebuilt contract has a graph of the same shape. -/
theorem Rebuilt.sameShape (h : c.Rebuilt c' script links xs) (hchecked : c.Checked script)
    (hrewrites : Rewrites g script c.entryPoints groups parts r)
    (hparts : links.map Prod.fst = parts.flatten) : c.SameShape c' := by
  have hstarts := h.forall₂_entryPoints hchecked hrewrites hparts
  obtain ⟨blocks, rfl, hblocks⟩ := exists_blocks hparts
  obtain ⟨g₀, groups₀, hg, hdescribes⟩ := hchecked.exists_graph
  obtain ⟨g', groups', hg', hdescribes'⟩ := h.checked.exists_graph
  -- A script is cut in one way, so the runs of both graphs are those that the blocks of links
  -- spell.
  cases hdescribes.cut.unique hrewrites.graph.cut
  have hdivides := hrewrites.divides hblocks
  have hread := hchecked.valid.toIsReading
  cases hdescribes'.cut.unique (h.transferred.isCutInto_regroup hread h.checked.valid.toIsReading
    hdescribes.cut hdivides h.entryPoints)
  exact ⟨g₀, g', hg, hg', hdescribes.sameShape hdescribes' hchecked.valid h.checked.valid
    h.transferred.lands_inj (h.transferred.forall₂_runCarried hread hdescribes.cut hdivides)
    hstarts⟩

end Rebuilt

end Contract

/-! ## Passes -/

namespace Pass

variable {strategies : List Strategy} {c : Contract} {script : Script} {p p' : Pass} {s : Strategy}

/-- One strategy keeps the shape of the graph. -/
theorem step_sameShape (h : p.contract.Checked script) (hstep : p.step s = .ok p') :
    p.contract.SameShape p'.contract := by
  obtain ⟨g, groups, parts, counts, hrewrites, -, hstepped⟩ := step_stepped h s
  rw [hstep] at hstepped
  cases hstepped with
  | unchanged => exact h.sameShape
  | rebuilt _ hrebuilt hparts => exact hrebuilt.sameShape h hrewrites hparts

/-- Strategies keep the graph. -/
theorem Reaches.sameShape (hc : c.Checked script) (h : Reaches strategies c p) :
    c.SameShape p.contract := by
  induction h with
  | start => exact hc.sameShape
  | @step p p' s hreach _ hstep ih =>
      obtain ⟨script', hp⟩ := hreach.checked hc
      exact ih.trans (step_sameShape hp hstep)

end Pass

open Optimizer

/-- The graph does not depend on the checksum. -/
theorem graph_of_accept {config : Config} {c c₀ : Contract} (h : accept config c = .ok c₀) :
    c₀.graph = c.graph := by
  obtain ⟨-, hscript, hmanifest, hdebug⟩ := accept_eq_ok h
  simp only [Contract.graph, Contract.entryPoints, hscript, hmanifest, hdebug]

/-- Graphs of the same shape have the same counts. -/
theorem FlowGraph.SameShape.metrics {g g' : FlowGraph} (h : g.SameShape g') {m m' : Metrics}
    (hm : g.metrics = .ok m) (hm' : g'.metrics = .ok m') :
    m.blockCount = m'.blockCount ∧ m.arcCount = m'.arcCount ∧
      m.unreachableBlocks = m'.unreachableBlocks := by
  unfold FlowGraph.metrics at hm hm'
  split_ifs at hm hm'
  obtain ⟨instructions, -, hm⟩ := Sequencing.bind_eq_ok.1 hm
  obtain ⟨instructions', -, hm'⟩ := Sequencing.bind_eq_ok.1 hm'
  cases hm
  cases hm'
  exact ⟨h.length_blocks, congrArg List.length h.arcs, congrArg List.length h.unreachable_eq⟩

/-- An optimization keeps the nodes of a contract's graph, the way in which each block passes
control on, and the arcs in their order. -/
theorem optimize_keeps_shape (config : Config) (c : Contract) (result : Optimization)
    (h : optimize config c = .ok result) :
    ∃ g g' m m', c.graph = .ok g ∧ result.contract.graph = .ok g' ∧
      g'.numberedBlocks.map (fun entry => (entry.1, entry.2.control)) =
        g.numberedBlocks.map (fun entry => (entry.1, entry.2.control)) ∧
      g'.arcs = g.arcs ∧
      c.metrics = .ok m ∧ result.contract.metrics = .ok m' ∧
      m'.blockCount = m.blockCount ∧ m'.arcCount = m.arcCount ∧
      m'.unreachableBlocks = m.unreachableBlocks := by
  obtain ⟨c₀, done, haccept, haddresses, hpasses, -, hreturns⟩ := optimize_eq_ok h
  obtain ⟨m, m', hm, hm', -⟩ := hreturns.compares
  obtain ⟨script, hchecked⟩ := checked_of_accept haccept haddresses
  obtain ⟨g, g', hg, hg', hsame⟩ := (reaches_of_passes hchecked hpasses).sameShape hchecked
  obtain ⟨g₀, hg₀, hmeasure⟩ := Sequencing.bind_eq_ok.1 hm
  obtain ⟨g₀', hg₀', hmeasure'⟩ := Sequencing.bind_eq_ok.1 hm'
  cases Except.ok.inj (hg.symm.trans hg₀)
  cases Except.ok.inj (hg'.symm.trans hg₀')
  obtain ⟨hblocks, harcs, hunreachable⟩ := hsame.metrics hmeasure hmeasure'
  rw [hreturns.contract]
  -- Accepting a contract can repair its checksum, which the graph does not see.
  have hgraph := (graph_of_accept haccept).symm.trans hg
  exact ⟨g, g', m, m', hgraph, hg', hsame.numberedBlocks_eq.symm, hsame.arcs.symm,
    Sequencing.bind_eq_ok.2 ⟨g, hgraph, hmeasure⟩, hm', hblocks.symm, harcs.symm, hunreachable.symm⟩

/-- A sum decides about a branch; a pointer to the last instruction is pushed and dropped. -/
def Samples.branchScript : Code :=
  #[0x11, 0x12, 0x9E, 0x0A, 0x09, 0x00, 0x00, 0x00, 0x45, 0x24, 0x03, 0x21, 0x40]

/-- The sum is folded, and the blocks behind it begin earlier. -/
theorem optimize_branch_keeps_shape : ∃ c result g g',
    Samples.contract Samples.branchScript [("main", ⟨0, 12⟩)] = .ok c ∧
    optimize .default c = .ok result ∧ c.graph = .ok g ∧ result.contract.graph = .ok g' ∧
    g.blockStarts = [0, 11, 12] ∧ g'.blockStarts = [0, 9, 10] ∧ g.arcs.length = 6 ∧
      g'.arcs = g.arcs := by
  have hcompute : (do
      let c ← Samples.contract Samples.branchScript [("main", ⟨0, 12⟩)]
      let result ← optimize .default c
      let g ← c.graph
      let g' ← result.contract.graph
      return (g.blockStarts, g'.blockStarts, g.arcs.length)) =
      .ok ([0, 11, 12], [0, 9, 10], 6) := by
    decide +kernel
  obtain ⟨c, hc, hcompute⟩ := Sequencing.bind_eq_ok.1 hcompute
  obtain ⟨result, hresult, hcompute⟩ := Sequencing.bind_eq_ok.1 hcompute
  obtain ⟨g, g', -, -, hg, hg', -, harcs, -⟩ := optimize_keeps_shape .default c result hresult
  simp only [hg, hg', Sequencing.ok_bind] at hcompute
  obtain ⟨hstarts, hrest⟩ := Prod.mk.inj (Except.ok.inj hcompute)
  obtain ⟨hstarts', hcount⟩ := Prod.mk.inj hrest
  exact ⟨c, result, g, g', hc, hresult, hg, hg', hstarts, hstarts', hcount, harcs⟩

end NeoScript
