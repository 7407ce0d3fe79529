import Mathlib.Data.List.Forall2
import NeoScript.Proofs.FlowGraph.References
import NeoScript.Proofs.Sequencing
import NeoScript.Revision.Basic

/-!
# Placement — what happens to a block when pieces are allocated

* `Arena.Grows` — numbers keep their instructions;
* `Piece.PlacedAs` — the number that a piece receives, and what stands behind it;
* `Edited` — a block became a list of pieces: kept instructions keep their numbers, new ones are
  fresh, and every reference to an instruction follows the piece that keeps or replaces it;
* `Edited.placeAll`, `Edited.trans` — pieces that are allocated at once, and in two stages.
-/

namespace NeoScript

/-! ## Arenas -/

namespace Arena

/-- Every entry of the first arena is in the second. -/
structure Grows (a a' : Arena) : Prop where
  size_le : a.size ≤ a'.size
  entries : ∀ id : Nat, id < a.size → a'.entries[id]? = a.entries[id]?

namespace Grows

variable {a a' a'' : Arena}

theorem refl (a : Arena) : a.Grows a :=
  ⟨Nat.le_refl _, fun _ _ => rfl⟩

theorem trans (h : a.Grows a') (h' : a'.Grows a'') : a.Grows a'' := by
  refine ⟨Nat.le_trans h.size_le h'.size_le, fun id hid => ?_⟩
  rw [h'.entries id (Nat.lt_of_lt_of_le hid h.size_le), h.entries id hid]

theorem alloc (a : Arena) (ins : Instruction) (origin : Option Nat) :
    a.Grows (a.alloc ins origin).2 := by
  refine ⟨by simp [Arena.alloc, size], fun id hid => ?_⟩
  have hne : id ≠ a.entries.size := Nat.ne_of_lt hid
  simp [Arena.alloc, Array.getElem?_push, hne]

/-- The origin of an instruction never changes. -/
theorem origin?_eq (h : a.Grows a') {id : InstrId} (hid : id < a.size) :
    a'.origin? id = a.origin? id := by
  simp only [origin?, h.entries id hid]

/-- Nor does the instruction behind a number. -/
theorem get?_eq (h : a.Grows a') {id : InstrId} (hid : id < a.size) : a'.get? id = a.get? id := by
  simp only [get?, h.entries id hid]

end Grows

theorem getElem?_alloc (a : Arena) (ins : Instruction) (origin : Option Nat) :
    (a.alloc ins origin).2.entries[a.size]? = some ⟨ins, origin⟩ := by
  simp [alloc, size]

theorem lt_size_of_getElem? {a : Arena} {id : Nat} {entry : ArenaEntry}
    (h : a.entries[id]? = some entry) : id < a.size :=
  (Array.getElem?_eq_some_iff.1 h).1

end Arena

/-! ## Pieces -/

namespace Piece

def id? : Piece → Option InstrId
  | keep id => some id
  | standIn _ replaced => some replaced
  | fresh _ => none

/-- The number of a piece: kept ones keep theirs, and new ones are behind all that were known. -/
inductive PlacedAs (a a' : Arena) : Piece → InstrId → Prop where
  | keep (id : InstrId) : PlacedAs a a' (.keep id) id
  | standIn {ins : Instruction} {replaced id : InstrId} (hnew : a.size ≤ id)
      (hentry : a'.entries[id]? = some ⟨ins, a.origin? replaced⟩) :
      PlacedAs a a' (.standIn ins replaced) id
  | fresh {ins : Instruction} {id : InstrId} (hnew : a.size ≤ id)
      (hentry : a'.entries[id]? = some ⟨ins, none⟩) : PlacedAs a a' (.fresh ins) id

namespace PlacedAs

variable {a a' a'' : Arena} {piece : Piece} {id : InstrId}

/-- A piece stays placed while the arena grows. -/
theorem grow (h : PlacedAs a a' piece id) (hgrows : a'.Grows a'') : PlacedAs a a'' piece id := by
  cases h with
  | keep id => exact .keep id
  | standIn hnew hentry =>
      exact .standIn hnew ((hgrows.entries _ (Arena.lt_size_of_getElem? hentry)).trans hentry)
  | fresh hnew hentry =>
      exact .fresh hnew ((hgrows.entries _ (Arena.lt_size_of_getElem? hentry)).trans hentry)

/-- Pieces that were placed later were placed, if what they replace was known before. -/
theorem weaken (h : PlacedAs a' a'' piece id) (hgrows : a.Grows a')
    (hknown : ∀ old, piece.id? = some old → old < a.size) : PlacedAs a a'' piece id := by
  cases h with
  | keep id => exact .keep id
  | standIn hnew hentry =>
      refine .standIn (Nat.le_trans hgrows.size_le hnew) ?_
      rw [hentry, hgrows.origin?_eq (hknown _ rfl)]
  | fresh hnew hentry => exact .fresh (Nat.le_trans hgrows.size_le hnew) hentry

/-- A piece keeps its number or receives a new one. -/
theorem cases_id (h : PlacedAs a a' piece id) : piece = .keep id ∨ a.size ≤ id := by
  cases h with
  | keep => exact .inl rfl
  | standIn hnew _ => exact .inr hnew
  | fresh hnew _ => exact .inr hnew

theorem lt_size (h : PlacedAs a a' piece id) (hgrows : a.Grows a')
    (hknown : ∀ old, piece.id? = some old → old < a.size) : id < a'.size := by
  cases h with
  | keep => exact Nat.lt_of_lt_of_le (hknown id rfl) hgrows.size_le
  | standIn _ hentry => exact Arena.lt_size_of_getElem? hentry
  | fresh _ hentry => exact Arena.lt_size_of_getElem? hentry

/-- What keeps or replaces an instruction has its origin. -/
theorem origin?_eq (h : PlacedAs a a' piece id) (hgrows : a.Grows a') {old : InstrId}
    (hold : piece.id? = some old) (hknown : old < a.size) : a'.origin? id = a.origin? old := by
  cases h with
  | keep =>
      cases hold
      exact hgrows.origin?_eq hknown
  | standIn _ hentry =>
      cases hold
      simp [Arena.origin?, hentry]
  | fresh _ _ => cases hold

theorem forall_lt_size {pieces : List Piece} {ids : List InstrId}
    (h : List.Forall₂ (PlacedAs a a') pieces ids) (hgrows : a.Grows a')
    (hknown : ∀ piece ∈ pieces, ∀ old, piece.id? = some old → old < a.size) :
    ∀ id ∈ ids, id < a'.size := by
  intro id hid
  obtain ⟨piece, hpiece, hplaced⟩ := Sequencing.exists_left_of_forall₂ h hid
  exact hplaced.lt_size hgrows (hknown piece hpiece)

end PlacedAs

end Piece

/-! ## Edited blocks -/

/-- A block became a list of pieces. -/
structure Edited (r : Revision) (block : List InstrId) (pieces : List Piece) (ids : List InstrId)
    (r' : Revision) : Prop where
  grows : r.arena.Grows r'.arena
  /-- Pieces come from the block, in order. -/
  sources : List.Sublist (pieces.filterMap Piece.id?) block
  placed : List.Forall₂ (Piece.PlacedAs r.arena r'.arena) pieces ids
  nodup : ids.Nodup
  exact : r'.references.Exact
  /-- References follow the pieces, and references to other blocks stay. -/
  renamed : ∃ f, References.Renamed f r.references r'.references ∧
    (∀ id, id < r.arena.size → id ∉ block → f id = id) ∧
    List.Forall₂ (fun piece id => ∀ old, Piece.id? piece = some old → f old = id) pieces ids
  scriptLength : r'.scriptLength = r.scriptLength

namespace Edited

variable {r r' r'' : Revision} {block : List InstrId} {pieces : List Piece} {ids : List InstrId}

theorem mem_block_of_id? (hsources : List.Sublist (pieces.filterMap Piece.id?) block)
    {piece : Piece}
    (hpiece : piece ∈ pieces) {old : InstrId} (hold : piece.id? = some old) : old ∈ block :=
  hsources.subset (List.mem_filterMap.2 ⟨piece, hpiece, hold⟩)

/-- Every number of an edited block comes from a piece. -/
theorem exists_piece (h : Edited r block pieces ids r') {id : InstrId} (hid : id ∈ ids) :
    ∃ piece ∈ pieces, Piece.PlacedAs r.arena r'.arena piece id :=
  Sequencing.exists_left_of_forall₂ h.placed hid

/-- A number of the new block is kept or new. -/
theorem mem_cases (h : Edited r block pieces ids r') {id : InstrId} (hid : id ∈ ids) :
    id ∈ block ∨ r.arena.size ≤ id := by
  rcases h.exists_piece hid with ⟨piece, hpiece, hplaced⟩
  rcases hplaced.cases_id with rfl | hnew
  · exact .inl (mem_block_of_id? h.sources hpiece rfl)
  · exact .inr hnew

/-- What was known and is not in the block is not in the new block. -/
theorem notMem (h : Edited r block pieces ids r') {id : InstrId} (hid : id < r.arena.size)
    (hnot : id ∉ block) : id ∉ ids := by
  intro hmem
  rcases h.mem_cases hmem with hblock | hnew
  · exact hnot hblock
  · exact absurd hid (Nat.not_lt.2 hnew)

theorem lt_size (h : Edited r block pieces ids r') (hblock : ∀ id ∈ block, id < r.arena.size)
    {id : InstrId} (hid : id ∈ ids) : id < r'.arena.size :=
  Piece.PlacedAs.forall_lt_size h.placed h.grows
    (fun _ hpiece old hold => hblock old (mem_block_of_id? h.sources hpiece hold)) id hid

end Edited

/-! ## Allocation -/

namespace Revision

variable {r : Revision}

/-- One piece and its number. -/
theorem place_placedAs (r : Revision) (piece : Piece) :
    r.arena.Grows (r.place piece).2.arena ∧
      Piece.PlacedAs r.arena (r.place piece).2.arena piece (r.place piece).1 := by
  cases piece with
  | keep kept => exact ⟨.refl _, .keep kept⟩
  | standIn ins replaced => exact ⟨.alloc .., .standIn (Nat.le_refl _) (Arena.getElem?_alloc ..)⟩
  | fresh ins => exact ⟨.alloc .., .fresh (Nat.le_refl _) (Arena.getElem?_alloc ..)⟩

/-- The references that follow a piece. -/
theorem place_spec (hexact : r.references.Exact) (piece : Piece) :
    (r.place piece).2.references.Exact ∧ (r.place piece).2.scriptLength = r.scriptLength ∧
      ∃ f, References.Renamed f r.references (r.place piece).2.references ∧
        (∀ id, id < r.arena.size → piece.id? ≠ some id → f id = id) ∧
        ∀ old, piece.id? = some old → f old = (r.place piece).1 := by
  cases piece with
  | keep kept =>
      refine ⟨hexact, rfl, id, .refl _, fun _ _ _ => rfl, ?_⟩
      intro old hold
      exact (Option.some.inj hold).symm
  | standIn ins replaced =>
      obtain ⟨hrenamed, hexact'⟩ := hexact.retarget replaced r.arena.size
      refine ⟨hexact', rfl, substitute replaced r.arena.size, hrenamed, ?_, ?_⟩
      · intro id _ hne
        have hid : id ≠ replaced := fun heq => hne (congrArg some heq.symm)
        simp [substitute, hid]
      · intro old hold
        cases hold
        simp [substitute, place, standIn, Arena.alloc, Arena.size]
  | fresh ins =>
      refine ⟨hexact, rfl, id, .refl _, fun _ _ _ => rfl, ?_⟩
      intro old hold
      cases hold

theorem placeAll_cons (r : Revision) (piece : Piece) (pieces : List Piece) :
    r.placeAll (piece :: pieces) =
      ((r.place piece).1 :: ((r.place piece).2.placeAll pieces).1,
        ((r.place piece).2.placeAll pieces).2) := by
  -- The numbers so far only stand in front of what is added.
  have hfold : ∀ (pieces : List Piece) (done : List InstrId) (r : Revision),
      pieces.foldl (fun (state : List InstrId × Revision) piece =>
          ((state.2.place piece).1 :: state.1, (state.2.place piece).2)) (done, r) =
        ((pieces.foldl (fun (state : List InstrId × Revision) piece =>
          ((state.2.place piece).1 :: state.1, (state.2.place piece).2)) ([], r)).1 ++ done,
        (pieces.foldl (fun (state : List InstrId × Revision) piece =>
          ((state.2.place piece).1 :: state.1, (state.2.place piece).2)) ([], r)).2) := by
    intro pieces
    induction pieces with
    | nil => intro done r; rfl
    | cons piece pieces ih =>
        intro done r
        simp only [List.foldl_cons]
        rw [ih, ih [(r.place piece).1]]
        simp
  simp only [placeAll, List.foldl_cons]
  rw [hfold]
  simp

/-- Pieces that keep instructions allocate nothing. -/
theorem placeAll_keep_append (r : Revision) (ids : List InstrId) (pieces : List Piece) :
    r.placeAll (ids.map .keep ++ pieces) = (ids ++ (r.placeAll pieces).1,
      (r.placeAll pieces).2) := by
  induction ids with
  | nil => rfl
  | cons id ids ih =>
      rw [List.map_cons, List.cons_append, placeAll_cons]
      simp [place, ih]

/-- Pieces and their numbers. -/
theorem placeAll_placedAs {pieces : List Piece}
    (hknown : ∀ piece ∈ pieces, ∀ old, piece.id? = some old → old < r.arena.size) :
    r.arena.Grows (r.placeAll pieces).2.arena ∧
      List.Forall₂ (Piece.PlacedAs r.arena (r.placeAll pieces).2.arena) pieces
        (r.placeAll pieces).1 := by
  induction pieces generalizing r with
  | nil => exact ⟨.refl _, .nil⟩
  | cons piece pieces ih =>
      rw [List.forall_mem_cons] at hknown
      obtain ⟨hgrows, hplaced⟩ := r.place_placedAs piece
      obtain ⟨hgrows', hrest⟩ := ih fun p hp old hold =>
        Nat.lt_of_lt_of_le (hknown.2 p hp old hold) hgrows.size_le
      have hlater := (List.forall₂_and_left _ _).2 ⟨hknown.2, hrest⟩
      rw [placeAll_cons]
      exact ⟨hgrows.trans hgrows',
        .cons (hplaced.grow hgrows') (hlater.imp fun _ _ hp => hp.2.weaken hgrows hp.1)⟩

end Revision

namespace Edited

variable {r r' r'' : Revision} {block : List InstrId} {pieces : List Piece} {ids : List InstrId}

theorem origin?_eq (h : Edited r block pieces ids r') (hblock : ∀ id ∈ block, id < r.arena.size)
    {piece : Piece} {id old : InstrId} (hmem : (piece, id) ∈ pieces.zip ids)
    (hold : piece.id? = some old) : r'.arena.origin? id = r.arena.origin? old :=
  (List.forall₂_zip h.placed hmem).origin?_eq h.grows hold
    (hblock old (mem_block_of_id? h.sources (List.of_mem_zip hmem).1 hold))

theorem of_sublist {part : List InstrId} (h : Edited r part pieces ids r')
    (hpart : List.Sublist part block) : Edited r block pieces ids r' := by
  obtain ⟨f, hrenamed, hothers, hown⟩ := h.renamed
  refine ⟨h.grows, h.sources.trans hpart, h.placed, h.nodup, h.exact, ⟨f, hrenamed, ?_, hown⟩,
    h.scriptLength⟩
  exact fun id hid hnot => hothers id hid fun hmem => hnot (hpart.subset hmem)

/-- Pieces that are allocated from left to right. -/
theorem placeAll (hexact : r.references.Exact)
    (hknown : ∀ piece ∈ pieces, ∀ old, piece.id? = some old → old < r.arena.size)
    (hnodup : (pieces.filterMap Piece.id?).Nodup) :
    Edited r (pieces.filterMap Piece.id?) pieces (r.placeAll pieces).1 (r.placeAll pieces).2 := by
  induction pieces generalizing r with
  | nil =>
      exact ⟨.refl _, .refl _, .nil, .nil, hexact, ⟨id, .refl _, fun _ _ _ => rfl, .nil⟩, rfl⟩
  | cons piece pieces ih =>
      obtain ⟨hgrowsAll, hplacedAll⟩ := Revision.placeAll_placedAs hknown
      rw [List.forall_mem_cons] at hknown
      obtain ⟨hgrows, hplaced⟩ := r.place_placedAs piece
      obtain ⟨hexact₁, hlength, f, hrenamed, hothers, hown⟩ := Revision.place_spec hexact piece
      have hsublist := (List.sublist_cons_self piece pieces).filterMap Piece.id?
      have hrest := ih hexact₁ (fun p hp old hold =>
        Nat.lt_of_lt_of_le (hknown.2 p hp old hold) hgrows.size_le) (hsublist.nodup hnodup)
      -- No later piece keeps or replaces what the piece in front does.
      have hfirst : ∀ old, piece.id? = some old → old ∉ pieces.filterMap Piece.id? := by
        intro old hold
        rw [List.filterMap_cons_some hold] at hnodup
        exact (List.nodup_cons.1 hnodup).1
      have hlt := hplaced.lt_size hgrows hknown.1
      have hout : (r.place piece).1 ∉ pieces.filterMap Piece.id? := by
        rcases hplaced.cases_id with hkeep | hnew
        · exact hfirst _ (congrArg Piece.id? hkeep)
        · intro hmem
          rcases List.mem_filterMap.1 hmem with ⟨p, hp, hid⟩
          exact absurd (hknown.2 p hp _ hid) (Nat.not_lt.2 hnew)
      have hfresh : (r.place piece).1 ∉ ((r.place piece).2.placeAll pieces).1 :=
        hrest.notMem hlt hout
      obtain ⟨g, hrenamed', hothers', hown'⟩ := hrest.renamed
      rw [Revision.placeAll_cons] at hgrowsAll hplacedAll ⊢
      refine ⟨hgrowsAll, .refl _, hplacedAll, List.nodup_cons.2 ⟨hfresh, hrest.nodup⟩, hrest.exact,
        ⟨g ∘ f, hrenamed.trans hrenamed', ?_, ?_⟩, hrest.scriptLength.trans hlength⟩
      · intro id hid hnot
        have hne : piece.id? ≠ some id := fun heq =>
          hnot (List.mem_filterMap.2 ⟨piece, List.mem_cons_self .., heq⟩)
        rw [Function.comp_apply, hothers id hid hne, hothers' id
          (Nat.lt_of_lt_of_le hid hgrows.size_le) fun hmem => hnot (hsublist.subset hmem)]
      · refine .cons ?_ ?_
        · intro old hold
          rw [Function.comp_apply, hown old hold, hothers' _ hlt hout]
        · have hlater := (List.forall₂_and_left (p := fun p => p ∈ pieces) _ _).2
            ⟨fun _ hp => hp, hown'⟩
          refine hlater.imp ?_
          rintro p id ⟨hp, hid⟩ old hold
          have hne : piece.id? ≠ some old := fun heq =>
            hfirst old heq (List.mem_filterMap.2 ⟨p, hp, hold⟩)
          rw [Function.comp_apply, hothers old (hknown.2 p hp old hold) hne, hid old hold]

end Edited

/-! ## Keeping -/

namespace Edited

variable {r : Revision} {block : List InstrId}

/-- A block that stays as it is. -/
theorem keepAll (hexact : r.references.Exact) (hnodup : block.Nodup) :
    Edited r block (block.map .keep) block r := by
  have hids : (block.map Piece.keep).filterMap Piece.id? = block := by
    simp [List.filterMap_map, Function.comp_def, Piece.id?]
  refine ⟨.refl _, by rw [hids], ?_, hnodup, hexact, ⟨id, .refl _, fun _ _ _ => rfl, ?_⟩, rfl⟩
  · rw [List.forall₂_map_left_iff, List.forall₂_same]
    exact fun id _ => .keep id
  · rw [List.forall₂_map_left_iff, List.forall₂_same]
    intro id _ old hold
    exact (Option.some.inj hold).symm

end Edited

/-! ## Two stages -/

/-- What a piece of a second stage is in terms of the block in front of the first stage, if the
first stage gave these pieces these numbers. -/
inductive Piece.Composed (placed : List (Piece × InstrId)) : Piece → Piece → Prop where
  | keep {piece : Piece} {id : InstrId} (hmem : (piece, id) ∈ placed) :
      Composed placed piece (.keep id)
  | standIn {piece : Piece} {id old : InstrId} {ins : Instruction} (hmem : (piece, id) ∈ placed)
      (hold : piece.id? = some old) : Composed placed (.standIn ins old) (.standIn ins id)
  | fresh (ins : Instruction) : Composed placed (.fresh ins) (.fresh ins)

/-- The number of a piece of the second stage. -/
theorem Piece.Composed.placedAs {a a' a'' : Arena} {placed : List (Piece × InstrId)}
    {piece piece' : Piece} {id : InstrId} (h : Composed placed piece piece')
    (hplaced : ∀ {p : Piece} {i : InstrId}, (p, i) ∈ placed → PlacedAs a a' p i)
    (hknown : ∀ {p : Piece} {i old : InstrId}, (p, i) ∈ placed → p.id? = some old → old < a.size)
    (hgrows : a.Grows a') (hgrows' : a'.Grows a'') (h' : PlacedAs a' a'' piece' id) :
    PlacedAs a a'' piece id := by
  cases h with
  | keep hmem =>
      cases h'
      exact (hplaced hmem).grow hgrows'
  | standIn hmem hold =>
      cases h' with
      | standIn hnew hentry =>
          rw [(hplaced hmem).origin?_eq hgrows hold (hknown hmem hold)] at hentry
          exact .standIn (Nat.le_trans hgrows.size_le hnew) hentry
  | fresh ins =>
      cases h' with
      | fresh hnew hentry => exact .fresh (Nat.le_trans hgrows.size_le hnew) hentry

namespace Edited

variable {r r' r'' : Revision} {block ids ids' : List InstrId} {pieces pieces' both : List Piece}

/-- Edits are composed. -/
theorem trans (h : Edited r block pieces ids r') (h' : Edited r' ids pieces' ids' r'')
    (hblock : ∀ id ∈ block, id < r.arena.size)
    (hboth : List.Forall₂ (Piece.Composed (pieces.zip ids)) both pieces')
    (hsources : List.Sublist (both.filterMap Piece.id?) block) : Edited r block both ids' r'' := by
  obtain ⟨f, hrenamed, hothers, hown⟩ := h.renamed
  obtain ⟨g, hrenamed', hothers', hown'⟩ := h'.renamed
  refine ⟨h.grows.trans h'.grows, hsources, ?_, h'.nodup, h'.exact,
    ⟨g ∘ f, hrenamed.trans hrenamed', ?_, ?_⟩, h'.scriptLength.trans h.scriptLength⟩
  · refine Sequencing.forall₂_trans ?_ hboth h'.placed
    intro piece piece' id hcomposed hplaced
    exact hcomposed.placedAs (List.forall₂_zip h.placed)
      (fun hmem hold => hblock _ (mem_block_of_id? h.sources (List.of_mem_zip hmem).1 hold))
      h.grows h'.grows hplaced
  · intro id hid hnot
    rw [Function.comp_apply, hothers id hid hnot,
      hothers' id (Nat.lt_of_lt_of_le hid h.grows.size_le) (h.notMem hid hnot)]
  · refine Sequencing.forall₂_trans ?_ hboth hown'
    intro piece piece' id hcomposed hid old hold
    cases hcomposed with
    | keep hmem => rw [Function.comp_apply, List.forall₂_zip hown hmem old hold, hid _ rfl]
    | standIn hmem hold' =>
        cases hold
        rw [Function.comp_apply, List.forall₂_zip hown hmem _ hold', hid _ rfl]
    | fresh ins => cases hold

/-- The last two pieces give way to a new instruction, which stands in for the first of them. -/
theorem merge {first second : Piece} {i j start : InstrId}
    (h : Edited r block (pieces ++ [first, second]) (ids ++ [i, j]) r')
    (hblock : ∀ id ∈ block, id < r.arena.size) (hstart : first.id? = some start)
    (ins : Instruction) :
    Edited r block (pieces ++ [.standIn ins start]) (ids ++ [(r'.standIn ins i).1])
      (r'.standIn ins i).2 := by
  have hlength : pieces.length = ids.length := by
    simpa using h.placed.length_eq
  have hzip : (pieces ++ [first, second]).zip (ids ++ [i, j]) =
      pieces.zip ids ++ [(first, i), (second, j)] := by
    simp [List.zip_append hlength]
  -- As a second stage the merge keeps what is in front, and replaces one of the two by the new
  -- instruction.
  have hstage : Edited r' (ids ++ [i, j]) (ids.map .keep ++ [.standIn ins i])
      (ids ++ [(r'.standIn ins i).1]) (r'.standIn ins i).2 := by
    have hsources : (ids.map Piece.keep ++ [Piece.standIn ins i]).filterMap Piece.id? =
        ids ++ [i] := by
      simp [List.filterMap_map, Function.comp_def, Piece.id?]
    have hsublist : List.Sublist (ids ++ [i]) (ids ++ [i, j]) := by simp
    have hknown : ∀ piece ∈ ids.map Piece.keep ++ [Piece.standIn ins i], ∀ old,
        piece.id? = some old → old < r'.arena.size := fun piece hpiece old hold =>
      h.lt_size hblock (mem_block_of_id? (hsources ▸ hsublist) hpiece hold)
    have hall := placeAll h.exact hknown (hsources ▸ hsublist.nodup h.nodup)
    rw [hsources, Revision.placeAll_keep_append] at hall
    exact hall.of_sublist hsublist
  refine h.trans hstage hblock ?_ ?_
  · refine List.rel_append ?_ (.cons (.standIn (by simp [hzip]) hstart) .nil)
    rw [List.forall₂_map_right_iff, List.forall₂_iff_zip]
    exact ⟨hlength, fun hmem => .keep (by simp [hzip, hmem])⟩
  · refine List.Sublist.trans ?_ h.sources
    rw [List.filterMap_append, List.filterMap_append, List.filterMap_cons_some hstart]
    exact (List.Sublist.refl _).append (by simp [Piece.id?])

end Edited

end NeoScript
