import Mathlib.Algebra.GroupWithZero.Nat
import NeoScript.Proofs.Revision.Placement

/-!
# Segment — blocks as rows of kept and replaced parts

* `Segment` — an instruction that stays, or several that others replace;
* `EditsBlocks` — a change of blocks replaces segments and nothing else;
* `reviseBlocks_spec` — then the whole program is edited, block by block.
-/

namespace NeoScript

/-- A part of a block and what stands in its place. -/
inductive Segment where
  | kept (entry : Numbered)
  /-- The first replacement inherits address and references of the first instruction. -/
  | replaced (head : Numbered) (rest : List Numbered) (first : Instruction)
      (others : List Instruction)
  deriving DecidableEq, Repr

namespace Segment

def olds : Segment → List Numbered
  | kept entry => [entry]
  | replaced head rest _ _ => head :: rest

def news : Segment → List Instruction
  | kept entry => [entry.2]
  | replaced _ _ first others => first :: others

def pieces : Segment → List Piece
  | kept entry => [.keep entry.1]
  | replaced head _ first others => .standIn first head.1 :: others.map .fresh

def isKept : Segment → Bool
  | kept _ => true
  | replaced .. => false

/-- The pieces of a segment keep or replace its own instructions, in their order. -/
theorem id?_pieces (s : Segment) :
    List.Sublist (s.pieces.filterMap Piece.id?) (s.olds.map (·.1)) := by
  cases s with
  | kept entry => simp [pieces, olds, Piece.id?]
  | replaced head rest first others =>
      have hothers : (others.map Piece.fresh).filterMap Piece.id? = [] := by
        simp [List.filterMap_map, Function.comp_def, Piece.id?]
      simp [pieces, olds, Piece.id?, hothers]

theorem id?_flatMap_pieces (segments : List Segment) :
    List.Sublist ((segments.flatMap pieces).filterMap Piece.id?)
      ((segments.flatMap olds).map (·.1)) := by
  induction segments with
  | nil => simp
  | cons s segments ih =>
      rw [List.flatMap_cons, List.flatMap_cons, List.filterMap_append, List.map_append]
      exact s.id?_pieces.append ih

end Segment

/-! ## Blocks one after the other -/

namespace Edited

variable {r r' r'' : Revision} {block block' ids ids' : List InstrId} {pieces pieces' : List Piece}

theorem nil (hexact : r.references.Exact) : Edited r [] [] [] r :=
  ⟨.refl _, .refl _, .nil, .nil, hexact, ⟨id, .refl _, fun _ _ _ => rfl, .nil⟩, rfl⟩

/-- Two blocks that have no instruction in common. -/
theorem append (h : Edited r block pieces ids r') (h' : Edited r' block' pieces' ids' r'')
    (hblock : ∀ id ∈ block, id < r.arena.size) (hblock' : ∀ id ∈ block', id < r.arena.size)
    (hdisjoint : List.Disjoint block block') :
    Edited r (block ++ block') (pieces ++ pieces') (ids ++ ids') r'' := by
  obtain ⟨f, hrenamed, hothers, hown⟩ := h.renamed
  obtain ⟨g, hrenamed', hothers', hown'⟩ := h'.renamed
  have hknown' : ∀ piece ∈ pieces', ∀ old, piece.id? = some old → old ∈ block' :=
    fun piece hpiece old hold => mem_block_of_id? h'.sources hpiece hold
  -- A number of the first block is not one of the second block, before and after the change.
  have hout : ∀ id ∈ ids, id < r'.arena.size ∧ id ∉ block' := by
    intro id hid
    refine ⟨h.lt_size hblock hid, fun hmem => ?_⟩
    exact h.notMem (hblock' id hmem) (fun hfirst => hdisjoint hfirst hmem) hid
  refine ⟨h.grows.trans h'.grows, ?_, ?_, ?_, h'.exact, ⟨g ∘ f, hrenamed.trans hrenamed', ?_, ?_⟩,
    h'.scriptLength.trans h.scriptLength⟩
  · rw [List.filterMap_append]
    exact h.sources.append h'.sources
  · refine List.rel_append (h.placed.imp fun _ _ hp => hp.grow h'.grows) ?_
    have hlater := (List.forall₂_and_left _ _).2 ⟨hknown', h'.placed⟩
    exact hlater.imp fun _ _ hp => hp.2.weaken h.grows fun old hold => hblock' old (hp.1 old hold)
  · refine List.Nodup.append h.nodup h'.nodup ?_
    exact fun id hid => h'.notMem (hout id hid).1 (hout id hid).2
  · intro id hid hnot
    rw [List.mem_append, not_or] at hnot
    rw [Function.comp_apply, hothers id hid hnot.1,
      hothers' id (Nat.lt_of_lt_of_le hid h.grows.size_le) hnot.2]
  · refine List.rel_append ?_ ?_
    · have hids : List.Forall₂ (fun piece id => id ∈ ids ∧
          ∀ old, Piece.id? piece = some old → f old = id) pieces ids := by
        rw [List.forall₂_iff_zip] at hown ⊢
        exact ⟨hown.1, fun hmem => ⟨(List.of_mem_zip hmem).2, hown.2 hmem⟩⟩
      refine hids.imp ?_
      rintro piece id ⟨hid, hmoved⟩ old hold
      rw [Function.comp_apply, hmoved old hold]
      exact hothers' id (hout id hid).1 (hout id hid).2
    · have hlater := (List.forall₂_and_left _ _).2 ⟨hknown', hown'⟩
      refine hlater.imp ?_
      rintro piece id ⟨hmem, hmoved⟩ old hold
      have hnot : old ∉ block := fun hfirst => hdisjoint hfirst (hmem old hold)
      rw [Function.comp_apply, hothers old (hblock' old (hmem old hold)) hnot, hmoved old hold]

end Edited

namespace Revision

/-- Growing the arena changes nothing about known numbers. -/
theorem numbered_eq {r r' : Revision} (hgrows : r.arena.Grows r'.arena) {ids : List InstrId}
    (hids : ∀ id ∈ ids, id < r.arena.size) : r'.numbered ids = r.numbered ids := by
  unfold numbered
  refine List.filterMap_congr fun id hid => ?_
  rw [hgrows.get?_eq (hids id hid)]

/-- A numbered instruction is one of the arena under one of the numbers. -/
theorem mem_numbered {r : Revision} {ids : List InstrId} {entry : Numbered} :
    entry ∈ r.numbered ids ↔ entry.1 ∈ ids ∧ r.arena.get? entry.1 = some entry.2 := by
  unfold numbered
  rw [List.mem_filterMap]
  constructor
  · rintro ⟨id, hid, hentry⟩
    obtain ⟨ins, hins, rfl⟩ := Option.map_eq_some_iff.1 hentry
    exact ⟨hid, hins⟩
  · rintro ⟨hid, hins⟩
    exact ⟨entry.1, hid, by simp [hins]⟩

theorem lt_size_of_mem_numbered {r : Revision} {ids : List InstrId} {entry : Numbered}
    (h : entry ∈ r.numbered ids) : entry.1 < r.arena.size := by
  obtain ⟨found, hfound, -⟩ := Option.map_eq_some_iff.1 (mem_numbered.1 h).2
  exact Arena.lt_size_of_getElem? hfound

theorem map_fst_numbered {r : Revision} {ids : List InstrId}
    (hids : ∀ id ∈ ids, id < r.arena.size) : (r.numbered ids).map (·.1) = ids := by
  induction ids with
  | nil => rfl
  | cons id ids ih =>
      rw [List.forall_mem_cons] at hids
      obtain ⟨entry, hentry⟩ : ∃ entry, r.arena.entries[id]? = some entry :=
        ⟨_, Array.getElem?_eq_getElem hids.1⟩
      have hcons : r.numbered (id :: ids) = (id, entry.instruction) :: r.numbered ids := by
        simp [numbered, Arena.get?, hentry]
      rw [hcons, List.map_cons, ih hids.2]

end Revision

/-- A change of blocks replaces segments; a predicate says which ones, with what count of
changes. -/
def EditsBlocks (change : Revision → List InstrId → List InstrId × Nat × Revision)
    (Allowed : List Segment → Nat → Prop) : Prop :=
  ∀ r ids, r.references.Exact → ids.Nodup → (∀ id ∈ ids, id < r.arena.size) →
    ∃ segments, segments.flatMap Segment.olds = r.numbered ids ∧
      Allowed segments (change r ids).2.1 ∧
      Edited r ids (segments.flatMap Segment.pieces) (change r ids).1 (change r ids).2.2

section ReviseBlocks

variable {change : Revision → List InstrId → List InstrId × Nat × Revision}
  {Allowed : List Segment → Nat → Prop}

/-- Blocks are changed one after the other, each without regard to the others. -/
theorem reviseBlocks_foldl (h : EditsBlocks change Allowed) (blocks : List Block) {r : Revision}
    (hexact : r.references.Exact) (hnodup : (blocks.flatMap (·.ids)).Nodup)
    (hknown : ∀ id ∈ blocks.flatMap (·.ids), id < r.arena.size) (done : List (List InstrId))
    (total : Nat) :
    ∃ (parts : List (List Segment)) (counts : List Nat) (blockIds : List (List InstrId))
      (r' : Revision), blocks.foldl (fun (state : List (List InstrId) × Nat × Revision) b =>
        ((change state.2.2 b.ids).1 :: state.1, state.2.1 + (change state.2.2 b.ids).2.1,
          (change state.2.2 b.ids).2.2)) (done, total, r) =
        (blockIds.reverse ++ done, total + counts.sum, r') ∧
      List.Forall₂ (fun b segments => segments.flatMap Segment.olds =
        r.numbered b.ids) blocks parts ∧
      List.Forall₂ Allowed parts counts ∧
      Edited r (blocks.flatMap (·.ids))
        (parts.flatten.flatMap Segment.pieces) blockIds.flatten r' := by
  induction blocks generalizing r done total with
  | nil => exact ⟨[], [], [], r, by simp, .nil, .nil, .nil hexact⟩
  | cons b blocks ih =>
      rw [List.flatMap_cons] at hnodup hknown
      have hsplit := List.nodup_append'.1 hnodup
      have hfirst : ∀ id ∈ b.ids, id < r.arena.size := fun id hid =>
        hknown id (List.mem_append_left _ hid)
      have hrest : ∀ id ∈ blocks.flatMap (·.ids), id < r.arena.size := fun id hid =>
        hknown id (List.mem_append_right _ hid)
      obtain ⟨segments, holds, hallowed, hedited⟩ := h r b.ids hexact hsplit.1 hfirst
      obtain ⟨parts, counts, blockIds, r', hfold, hparts, hcounts, hedited'⟩ :=
        ih hedited.exact hsplit.2.1
          (fun id hid => Nat.lt_of_lt_of_le (hrest id hid) hedited.grows.size_le)
          ((change r b.ids).1 :: done) (total + (change r b.ids).2.1)
      -- The arena only grows, so the other blocks still read as they did in `r`.
      refine ⟨segments :: parts, (change r b.ids).2.1 :: counts,
        (change r b.ids).1 :: blockIds, r', ?_, .cons holds ?_, .cons hallowed hcounts, ?_⟩
      · rw [List.foldl_cons, hfold]
        simp [Nat.add_assoc]
      · have hblocks := (List.forall₂_and_left (p := fun b => b ∈ blocks) _ _).2
          ⟨fun _ hb => hb, hparts⟩
        refine hblocks.imp ?_
        rintro b' segments' ⟨hb', holds'⟩
        rw [holds', Revision.numbered_eq hedited.grows]
        exact fun id hid => hrest id (List.mem_flatMap.2 ⟨b', hb', hid⟩)
      · rw [List.flatMap_cons, List.flatten_cons, List.flatMap_append, List.flatten_cons]
        exact hedited.append hedited' hfirst hrest hsplit.2.2

/-- The whole program is edited; it counts as changed if some block does. -/
theorem reviseBlocks_spec (h : EditsBlocks change Allowed) {g : FlowGraph}
    (hexact : g.references.Exact) (hnodup : g.order.Nodup)
    (hknown : ∀ id ∈ g.order, id < g.arena.size) :
    ∃ parts counts,
      List.Forall₂ (fun b segments => segments.flatMap Segment.olds =
        (Revision.identity g).numbered b.ids) g.blocks parts ∧
      List.Forall₂ Allowed parts counts ∧
      (reviseBlocks g change).changed = decide (0 < counts.sum) ∧
      Edited (Revision.identity g) g.order (parts.flatten.flatMap Segment.pieces)
        (reviseBlocks g change).order (reviseBlocks g change) := by
  obtain ⟨parts, counts, blockIds, r', hfold, hparts, hcounts, hedited⟩ :=
    reviseBlocks_foldl h g.blocks (r := Revision.identity g) hexact hnodup hknown [] 0
  have hrevise : reviseBlocks g change =
      { r' with order := blockIds.flatten, changed := 0 < counts.sum } := by
    unfold reviseBlocks
    simp only [hfold]
    simp
  refine ⟨parts, counts, hparts, hcounts, by rw [hrevise], ?_⟩
  rw [hrevise]
  exact ⟨hedited.grows, hedited.sources, hedited.placed, hedited.nodup, hedited.exact,
    hedited.renamed, hedited.scriptLength⟩

end ReviseBlocks

end NeoScript
