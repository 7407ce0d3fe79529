import NeoScript.Proofs.Revision.Core
import NeoScript.Proofs.Revision.Tiling

/-!
# Fusion — what the two stages do to a block

Every array that the first stage lowers is packed by the second, and apart from that the second
stage sees what stood in the block.  So both together replace arrays of constants, and nothing else.

* `Shows` — an instruction of the block between the stages, and the piece from which it comes;
* `FusedInto` — the segments of a fused block;
* `FusedInto.unfusable` — no array is left;
* `fuseBlock_editsBlocks` — fusion edits blocks in this way.
-/

namespace NeoScript
namespace Fusion

/-! ## Between the stages -/

/-- An instruction that comes from a piece, where the pieces received the given numbers. -/
structure Shows (a : Arena) (placed : List (Piece × InstrId)) (piece : Piece) (entry : Numbered) :
    Prop where
  mem : (piece, entry.1) ∈ placed
  kept : ∀ id, piece = .keep id → entry.1 = id ∧ a.get? id = some entry.2
  standIn : ∀ ins old, piece = .standIn ins old → entry.2 = ins
  fresh : ∀ ins, piece = .fresh ins → entry.2 = ins

/-- Numbered instructions are those of the arena. -/
theorem forall₂_numbered {r : Revision} {ids : List InstrId}
    (hids : ∀ id ∈ ids, id < r.arena.size) :
    List.Forall₂ (fun id (entry : Numbered) => entry.1 = id ∧ r.arena.get? id = some entry.2) ids
      (r.numbered ids) := by
  have hfst := Revision.map_fst_numbered hids
  rw [← List.forall₂_eq_eq_eq, List.forall₂_map_left_iff] at hfst
  have hmem := (List.forall₂_and_left _ _).2 ⟨fun entry hentry =>
      Revision.mem_numbered.1 hentry, hfst⟩
  refine List.Forall₂.flip (hmem.imp ?_)
  rintro entry id ⟨⟨_, hget⟩, rfl⟩
  exact ⟨rfl, hget⟩

/-- The instructions of an allocated block show its pieces. -/
theorem forall₂_shows {r r' : Revision} {ids : List InstrId} {pieces : List Piece}
    (hgrows : r.arena.Grows r'.arena)
    (hplaced : List.Forall₂ (Piece.PlacedAs r.arena r'.arena) pieces ids)
    (hknown : ∀ piece ∈ pieces, ∀ old, piece.id? = some old → old < r.arena.size) :
    List.Forall₂ (Shows r.arena (pieces.zip ids)) pieces (r'.numbered ids) := by
  have hzip : List.Forall₂ (fun piece id => (piece, id) ∈ pieces.zip ids ∧
      Piece.PlacedAs r.arena r'.arena piece id) pieces ids := by
    rw [List.forall₂_iff_zip]
    exact ⟨hplaced.length_eq, fun hmem => ⟨hmem, List.forall₂_zip hplaced hmem⟩⟩
  have hids := Piece.PlacedAs.forall_lt_size hplaced hgrows hknown
  refine Sequencing.forall₂_trans ?_ hzip (forall₂_numbered hids)
  rintro piece id ⟨id', ins⟩ ⟨hmem, hpiece⟩ ⟨rfl, hget⟩
  refine ⟨hmem, ?_, ?_, ?_⟩
  · rintro kept rfl
    cases hpiece
    have hlt := hknown _ (List.of_mem_zip hmem).1 _ rfl
    exact ⟨rfl, by rw [← hgrows.get?_eq hlt, hget]⟩
  · rintro ins' old rfl
    cases hpiece with
    | standIn _ hentry =>
        simp only [Arena.get?, hentry, Option.map_some, Option.some.injEq] at hget
        exact hget.symm
  · rintro ins' rfl
    cases hpiece with
    | fresh _ hentry =>
        simp only [Arena.get?, hentry, Option.map_some, Option.some.injEq] at hget
        exact hget.symm

variable {a : Arena} {placed : List (Piece × InstrId)}

/-- Lowered appends are stores at ascending indices. -/
theorem storeRun_of_appendRun {run after front : List Numbered} {values : List Instruction}
    {i : Nat} (hrun : AppendRun run values) (hknown : ∀ entry ∈ run, a.get? entry.1 = some entry.2)
    (hbound : i + values.length ≤ 1024)
    (hshows : List.Forall₂ (Shows a placed) (storePieces i values.length (run ++ after)) front) :
    StoreRun front (enumerated i values) := by
  induction hrun generalizing i front with
  | nil =>
      cases hshows
      exact .nil
  | @cons dup value append run values hdup hvalue happend hrun ih =>
      simp only [List.length_cons] at hbound
      obtain ⟨push, hpush⟩ := Instruction.exists_smallestPush?_natCast (n := i) (by omega)
      simp only [List.forall_mem_cons] at hknown
      simp only [List.length_cons, List.cons_append, storePieces, hpush, Option.map_some,
        Option.toList_some, List.nil_append] at hshows
      -- Four pieces stand for the three instructions of an append.
      obtain ⟨e₁, _, h₁, hshows₁, rfl⟩ := List.forall₂_cons_left_iff.1 hshows
      obtain ⟨e₂, _, h₂, hshows₂, rfl⟩ := List.forall₂_cons_left_iff.1 hshows₁
      obtain ⟨e₃, _, h₃, hshows₃, rfl⟩ := List.forall₂_cons_left_iff.1 hshows₂
      obtain ⟨e₄, _, h₄, hshows₄, rfl⟩ := List.forall₂_cons_left_iff.1 hshows₃
      have hdup' : e₁.2 = dup.2 := Option.some.inj ((h₁.kept _ rfl).2.symm.trans hknown.1)
      have hvalue' : e₃.2 = value.2 := Option.some.inj ((h₃.kept _ rfl).2.symm.trans hknown.2.1)
      have hrest := ih hknown.2.2.2 (i := i + 1) (by omega) hshows₄
      have henumerated : enumerated i (value.2 :: values) = (i, e₃.2) ::
          enumerated (i + 1) values := by
        simp [enumerated, hvalue']
      rw [henumerated]
      refine .cons (hdup' ▸ hdup) ?_ (hvalue' ▸ hvalue) ?_ hrest
      · rw [h₂.fresh _ rfl]
        exact (Instruction.smallestPush?_spec hpush).1
      · rw [h₄.standIn _ _ rfl]
        rfl

/-! ## The first stage -/

/-- What holds of an instruction that the first stage keeps. -/
structure KeptByFirst (threshold : Nat) (placed : List (Piece × InstrId)) (head : Numbered)
    (rest : List Numbered) : Prop where
  none : loweredAppends? threshold head rest = none
  mem : (.keep head.1, head.1) ∈ placed

/-- An array that the first stage lowers, and what it becomes. -/
structure Lowered (threshold : Nat) (placed : List (Piece × InstrId)) (head : Numbered)
    (run : List Numbered) (values : List Instruction) (news : List Numbered) : Prop where
  array : AppendedArray threshold head run values
  news : ∃ count allocation stores, news = count :: allocation :: stores ∧
    Instruction.smallestPush? values.length = some count.2 ∧ allocation.2.op = .newArray ∧
    StoreRun stores (enumerated 0 values) ∧ (.standIn count.2 head.1, count.1) ∈ placed

def ReplacedByFirst (threshold : Nat) (placed : List (Piece × InstrId))
    (olds after news : List Numbered) : Prop :=
  ∃ head run values, olds = head :: run ∧ appendRun 0 after = 0 ∧
    Lowered threshold placed head run values news

/-- Arrays are fused from the threshold up to the greatest number of elements. -/
theorem fuses_iff {threshold n : Nat} :
    fuses threshold n = true ↔ threshold ≤ n ∧ n ≤ maxElements := by
  simp only [fuses, Bool.and_eq_true, decide_eq_true_eq]

theorem length_le_of_fuses {threshold n : Nat} (h : fuses threshold n = true) :
    threshold ≤ n ∧ n ≤ 1024 :=
  fuses_iff.1 h

/-- A block is kept or replaced part by part in the first stage. -/
theorem tiled_of_scans {threshold count : Nat} {block front : List Numbered} {pieces : List Piece}
    (hscans : Scans (loweredAppends? threshold) block pieces count)
    (hshows : List.Forall₂ (Shows a placed) pieces front)
    (hknown : ∀ entry ∈ block, a.get? entry.1 = some entry.2) :
    Tiled (KeptByFirst threshold placed) (ReplacedByFirst threshold placed) block front := by
  induction hscans generalizing front with
  | nil =>
      cases hshows
      exact .nil
  | @keep head rest pieces count hnone hrest ih =>
      rw [List.forall_mem_cons] at hknown
      obtain ⟨⟨id, ins⟩, front, hhead, hfront, rfl⟩ := List.forall₂_cons_left_iff.1 hshows
      obtain ⟨hid, hget⟩ := hhead.kept _ rfl
      have hentry : (id, ins) = head := by
        refine Prod.ext hid (Option.some.inj (hget.symm.trans hknown.1))
      have hmem := hhead.mem
      rw [hentry] at hmem ⊢
      exact .keep ⟨hnone, hmem⟩ (ih hfront hknown.2)
  | @replace head rest lowered pieces taken count hsome hrest ih =>
      rw [List.forall_mem_cons] at hknown
      obtain ⟨run, after, values, push, rfl, harray, hends, rfl, hpush, rfl⟩ :=
        loweredAppends?_eq_some hsome
      obtain ⟨first, front, rfl, hfirst, hfront⟩ := Sequencing.exists_append_of_forall₂ hshows
      -- What was placed for the array: its count, its allocation and the stores.
      obtain ⟨e₁, _, h₁, hshows₁, rfl⟩ := List.forall₂_cons_left_iff.1 hfirst
      obtain ⟨e₂, stores, h₂, hshows₂, rfl⟩ := List.forall₂_cons_left_iff.1 hshows₁
      rw [List.drop_left] at hrest ih
      have hlater := ih hfront fun entry hentry => hknown.2 entry (List.mem_append_right _ hentry)
      have hstores := storeRun_of_appendRun harray.run
        (fun entry hentry => hknown.2 entry (List.mem_append_left _ hentry))
        (by simpa using (length_le_of_fuses harray.fuses).2) hshows₂
      have hcount : e₁.2 = push := h₁.standIn _ _ rfl
      have hallocation : e₂.2.op = .newArray := by rw [h₂.fresh _ rfl]; rfl
      have hreplaced :
          ReplacedByFirst threshold placed (head :: run) after (e₁ :: e₂ :: stores) := by
        refine ⟨head, run, values, rfl, hends, harray, e₁, e₂, stores, rfl, ?_, hallocation,
          hstores, ?_⟩
        · rw [hcount, hpush]
        · rw [hcount]
          exact h₁.mem
      exact .replace hreplaced hlater

/-! ## Parts that break runs -/

/-- A constant belongs to no array by itself. -/
theorem op_of_isConstant {ins : Instruction} (h : ins.isConstant = true) :
    (ins.op ≠ .dup ∧ ins.op ≠ .append ∧ ins.op ≠ .setItem ∧ isSizedAllocation ins.op = false) ∧
      ins.op ≠ .newArray0 := by
  unfold Instruction.isConstant at h
  revert h
  cases ins.op <;> simp [isSizedAllocation, Opcode.isIntPush, Opcode.isDataPush]

theorem isConstant_of_pushedInteger? {ins : Instruction} {value : Int}
    (h : ins.pushedInteger? = some value) : ins.isConstant = true := by
  unfold Instruction.pushedInteger? at h
  unfold Instruction.isConstant
  revert h
  cases ins.op <;> simp [Opcode.isIntPush]

/-- An allocation with its stores ends every run before it. -/
theorem breaks_of_storeRun {count allocation : Numbered} {stores : List (Nat × Instruction)}
    {run : List Numbered} (hcount : count.2.isConstant = true)
    (hallocation : isSizedAllocation allocation.2.op = true) (hrun : StoreRun run stores)
    (hpos : 0 < stores.length) : Breaks (count :: allocation :: run) := by
  cases hrun with
  | nil => cases hpos
  | cons hdup _ _ _ _ =>
      refine ⟨(op_of_isConstant hcount).1, ?_, ?_⟩
      · revert hallocation
        cases allocation.2.op <;> simp [isSizedAllocation]
      · simp [hdup]

theorem breaks_of_appendedArray {threshold : Nat} (hpos : 0 < threshold) {head : Numbered}
    {run : List Numbered} {values : List Instruction}
    (h : AppendedArray threshold head run values) : Breaks (head :: run) := by
  have hlength := (length_le_of_fuses h.fuses).1
  cases hrun : h.run with
  | nil => exact absurd hlength (Nat.not_le.2 hpos)
  | cons hdup hvalue _ _ =>
      refine ⟨?_, ?_, (op_of_isConstant hvalue).1.2.2.1⟩
      · simp [h.head, isSizedAllocation]
      · simp [hdup]

theorem breaks_of_storedArray {threshold : Nat} (hpos : 0 < threshold) {head allocation : Numbered}
    {run : List Numbered} {values : List Instruction}
    (h : StoredArray threshold head allocation run values) :
    Breaks (head :: allocation :: run) := by
  obtain ⟨stores, hrun, hlength, _⟩ := h.run
  have hthreshold := (length_le_of_fuses h.fuses).1
  exact breaks_of_storeRun (isConstant_of_pushedInteger? h.head) h.allocation hrun (by omega)

/-- The stores that stand for appends end every run before them. -/
theorem breaks_of_lowered {threshold : Nat} (hpos : 0 < threshold) {head : Numbered}
    {run news : List Numbered} {values : List Instruction}
    (h : Lowered threshold placed head run values news) : Breaks news := by
  obtain ⟨count, allocation, stores, rfl, hcount, hallocation, hrun, _⟩ := h.news
  have hthreshold := (length_le_of_fuses h.array.fuses).1
  refine breaks_of_storeRun ?_ (by simp [hallocation, isSizedAllocation]) hrun ?_
  · exact isConstant_of_pushedInteger? (Instruction.smallestPush?_spec hcount).1
  · simp only [enumerated, List.length_map, List.length_zipIdx]
    omega

/-- So what the first stage replaces ends runs, before and after. -/
theorem breaksRuns_first {threshold : Nat} (hpos : 0 < threshold) :
    BreaksRuns (ReplacedByFirst threshold placed) := by
  rintro olds after news ⟨head, run, values, rfl, -, hlowered⟩
  exact ⟨breaks_of_appendedArray hpos hlowered.array, breaks_of_lowered hpos hlowered⟩

/-! ## Both stages -/

/-- The segments of a fused block: arrays of constants are replaced from left to right, with all
appends, and every other instruction stays. -/
inductive FusedInto (threshold : Nat) : List Numbered → List Segment → Prop where
  | nil : FusedInto threshold [] []
  | keep {head : Numbered} {rest : List Numbered} {segments : List Segment}
      (hlowered : loweredAppends? threshold head rest = none)
      (hpacked : packedStores? threshold head rest = none) (h : FusedInto threshold rest segments) :
      FusedInto threshold (head :: rest) (.kept head :: segments)
  | array {head : Numbered} {run after : List Numbered} {values others : List Instruction}
      {first : Instruction} {segments : List Segment}
      (harray : BuildsArray threshold head run values)
      (hends : head.2.op = .newArray0 → appendRun 0 after = 0)
      (hpacking : Packing values first others) (h : FusedInto threshold after segments) :
      FusedInto threshold (head :: (run ++ after)) (.replaced head run first others :: segments)

/-- The segments of fusion hold the block. -/
theorem FusedInto.olds {threshold : Nat} {block : List Numbered} {segments : List Segment}
    (h : FusedInto threshold block segments) : segments.flatMap Segment.olds = block := by
  induction h with
  | nil => rfl
  | keep _ _ _ ih => rw [List.flatMap_cons, ih]; rfl
  | array _ _ _ _ ih => rw [List.flatMap_cons, ih]; rfl

/-- A lowered array is a sized array all of whose elements are stored. -/
theorem storedArray_of_lowered {threshold : Nat} {head : Numbered} {run news : List Numbered}
    {values : List Instruction} (h : Lowered threshold placed head run values news) :
    ∃ count allocation stores, news = count :: allocation :: stores ∧
      StoredArray threshold count allocation stores values ∧
      (.standIn count.2 head.1, count.1) ∈ placed := by
  obtain ⟨count, allocation, stores, rfl, hcount, hallocation, hrun, hmem⟩ := h.news
  refine ⟨count, allocation, stores, rfl, ⟨?_, ?_, ⟨_, hrun, ?_, ?_⟩, h.array.fuses⟩, hmem⟩
  · exact (Instruction.smallestPush?_spec hcount).1
  · simp [hallocation, isSizedAllocation]
  · simp [enumerated]
  · simpa using assign_enumerated [] values

theorem drop_array (allocation : Numbered) (run after : List Numbered) :
    (allocation :: (run ++ after)).drop (1 + run.length) = after := by
  simp [Nat.add_comm 1]

theorem composed_fresh (others : List Instruction) :
    List.Forall₂ (Piece.Composed placed) (others.map .fresh) (others.map .fresh) := by
  rw [List.forall₂_map_left_iff, List.forall₂_map_right_iff, List.forall₂_same]
  exact fun ins _ => .fresh ins

/-- What the second stage makes of the block between the stages is a fused block. -/
theorem fusedInto_of_scans {threshold count : Nat} (hpos : 0 < threshold)
    {block front : List Numbered}
    {pieces : List Piece} (hscans : Scans (packedStores? threshold) front pieces count)
    (htiled : Tiled (KeptByFirst threshold placed) (ReplacedByFirst threshold placed) block front) :
    ∃ segments, FusedInto threshold block segments ∧
      List.Forall₂ (Piece.Composed placed) (segments.flatMap Segment.pieces) pieces ∧
      (count = 0 → ∀ s ∈ segments, s.isKept = true) := by
  have hbreaks : BreaksRuns (ReplacedByFirst threshold placed) := breaksRuns_first hpos
  induction hscans generalizing block with
  | nil =>
      rw [htiled.eq_nil hbreaks]
      exact ⟨[], .nil, .nil, fun _ _ hs => (List.not_mem_nil hs).elim⟩
  | @keep head rest pieces count hnone hrest ih =>
      rcases htiled.cases_front with ⟨xs, rfl, hkept, h⟩ |
        ⟨olds, news, xs, ys, rfl, heq, hreplaced, h⟩
      · obtain ⟨segments, hfused, hpieces, hzero⟩ := ih h
        refine ⟨.kept head :: segments, .keep hkept.none ?_ hfused,
          .cons (.keep hkept.mem) hpieces, ?_⟩
        · rwa [← packedStores?_tiled hbreaks h]
        · exact fun hcount => List.forall_mem_cons.2 ⟨rfl, hzero hcount⟩
      · -- A lowered array would have been packed.
        obtain ⟨_, run, values, rfl, -, hlowered⟩ := hreplaced
        obtain ⟨first, allocation, stores, rfl, harray, _⟩ := storedArray_of_lowered hlowered
        rw [List.cons_append, List.cons_append] at heq
        cases heq
        obtain ⟨last, others, _, hpacked⟩ := packedStores?_of_storedArray harray hpos ys
        rw [hpacked] at hnone
        cases hnone
  | @replace head rest packed pieces taken count hsome hrest ih =>
      rcases htiled.cases_front with ⟨xs, rfl, hkept, h⟩ |
        ⟨olds, news, xs, ys, rfl, heq, hreplaced, h⟩
      · rw [packedStores?_tiled hbreaks h] at hsome
        obtain ⟨allocation, run, after, values, last, others, rfl, harray, rfl, hpacking, rfl⟩ :=
          packedStores?_eq_some hsome
        obtain ⟨stores, hrun, _⟩ := harray.run
        have hhead : head.2.op ≠ .newArray0 :=
          (op_of_isConstant (isConstant_of_pushedInteger? harray.head)).2
        -- Nothing of a stored array was replaced by the first stage.
        obtain ⟨rest, rfl, h₁⟩ := h.exists_cons hbreaks fun front hfront hbreak => by
          obtain ⟨x, y, z, others, rfl, hx, _⟩ := hbreak.exists_cons
          simp only [List.cons_prefix_cons] at hfront
          simp [hfront.1, harray.allocation] at hx
        obtain ⟨rest, rfl, h₂⟩ := h₁.exists_after hbreaks hrun
        rw [drop_array] at ih
        obtain ⟨segments, hfused, hpieces, _⟩ := ih h₂
        refine ⟨.replaced head (allocation :: run) last others :: segments,
          .array (.stores harray) (fun hop => absurd hop hhead) hpacking hfused, ?_, nofun⟩
        exact .cons (.standIn hkept.mem rfl) (List.rel_append (composed_fresh others) hpieces)
      · obtain ⟨original, run, values, rfl, hends, hlowered⟩ := hreplaced
        obtain ⟨first, allocation, stores, rfl, harray, hmem⟩ := storedArray_of_lowered hlowered
        rw [List.cons_append, List.cons_append] at heq
        cases heq
        obtain ⟨last, others, hpacking, hpacked⟩ := packedStores?_of_storedArray harray hpos ys
        rw [hpacked] at hsome
        cases hsome
        rw [drop_array] at ih
        obtain ⟨segments, hfused, hpieces, _⟩ := ih h
        refine ⟨.replaced original run last others :: segments,
          .array (.appends hlowered.array) (fun _ => hends) hpacking hfused, ?_, nofun⟩
        exact .cons (.standIn hmem rfl) (List.rel_append (composed_fresh others) hpieces)

/-! ## What is left -/

theorem isConstant_of_storeRun {run : List Numbered} {stores : List (Nat × Instruction)}
    (h : StoreRun run stores) : ∀ s ∈ stores, s.2.isConstant = true := by
  induction h with
  | nil => simp
  | cons _ _ hvalue _ _ ih => exact List.forall_mem_cons.2 ⟨hvalue, ih⟩

theorem BuildsArray.isConstant {threshold : Nat} {head : Numbered} {run : List Numbered}
    {values : List Instruction} (h : BuildsArray threshold head run values) :
    ∀ v ∈ values, v.isConstant = true := by
  cases h with
  | appends h => exact h.run.isConstant
  | stores h =>
      obtain ⟨stores, hrun, hperm⟩ := h.exists_perm
      intro v hv
      obtain ⟨store, hstore, rfl⟩ := List.mem_map.1 (hperm.subset hv)
      exact isConstant_of_storeRun hrun store hstore

def Quiet (ins : Instruction) : Prop :=
  (ins.op ≠ .dup ∧ ins.op ≠ .append ∧ ins.op ≠ .setItem ∧ isSizedAllocation ins.op = false) ∧
    ins.op ≠ .newArray0

/-- A packed array begins no further array. -/
theorem quiet_packing {threshold : Nat} {head : Numbered} {run : List Numbered}
    {values others : List Instruction} {first : Instruction}
    (harray : BuildsArray threshold head run values) (hpacking : Packing values first others) :
    ∃ front, first :: others = front ++ [.simple .pack] ∧ values.length < front.length ∧
      ∀ ins ∈ front, Quiet ins := by
  obtain ⟨push, hpush, heq⟩ := hpacking.exists_push
  refine ⟨values.reverse ++ [push], by simp [heq], by simp, ?_⟩
  intro ins hins
  rcases List.mem_append.1 hins with hvalue | hlast
  · exact op_of_isConstant (harray.isConstant ins (List.mem_reverse.1 hvalue))
  · rw [List.mem_singleton.1 hlast]
    exact op_of_isConstant (isConstant_of_pushedInteger? (Instruction.smallestPush?_spec hpush).1)

/-- New instructions as numbered ones; patterns do not see the numbers. -/
def unnumbered (xs : List Instruction) : List Numbered :=
  xs.map fun ins => (0, ins)

def ReplacedByBoth (threshold : Nat) (olds _after news : List Numbered) : Prop :=
  ∃ head run values first others, olds = head :: run ∧ news = unnumbered (first :: others) ∧
    BuildsArray threshold head run values ∧ Packing values first others

/-- An array ends every run before it, and it is not empty. -/
theorem BuildsArray.breaks {threshold : Nat} (hpos : 0 < threshold) {head : Numbered}
    {run : List Numbered} {values : List Instruction} (h : BuildsArray threshold head run values) :
    Breaks (head :: run) ∧ 0 < values.length := by
  cases h with
  | appends h =>
      exact ⟨breaks_of_appendedArray hpos h, Nat.lt_of_lt_of_le hpos (length_le_of_fuses h.fuses).1⟩
  | stores h =>
      exact ⟨breaks_of_storedArray hpos h, Nat.lt_of_lt_of_le hpos (length_le_of_fuses h.fuses).1⟩

/-- What both stages together replace ends runs, before and after. -/
theorem breaksRuns_both {threshold : Nat} (hpos : 0 < threshold) :
    BreaksRuns (ReplacedByBoth threshold) := by
  rintro olds after news ⟨head, run, values, first, others, rfl, rfl, harray, hpacking⟩
  obtain ⟨hbreaks, hlength⟩ := harray.breaks hpos
  refine ⟨hbreaks, ?_⟩
  obtain ⟨front, heq, hfront, hquiet⟩ := quiet_packing harray hpacking
  rw [heq]
  match front, hfront, hquiet with
  | [_], hfront, _ => exact absurd (Nat.lt_one_iff.1 hfront) (Nat.ne_of_gt hlength)
  | x :: y :: rest, _, hquiet =>
      obtain ⟨hx, hy, hrest⟩ : Quiet x ∧ Quiet y ∧ ∀ ins ∈ rest, Quiet ins := by
        simpa using hquiet
      cases rest with
      | nil => exact ⟨hx.1, hy.1.2.imp id And.left, nofun⟩
      | cons z rest =>
          exact ⟨hx.1, hy.1.2.imp id And.left, (hrest z (List.mem_cons_self ..)).1.2.2.1⟩

namespace Unfusable

variable {threshold : Nat} {block : List Numbered}

theorem nil : Unfusable threshold [] := by
  intro head rest hsuffix
  cases List.suffix_nil.1 hsuffix

/-- A block without arrays stays so if none begins with the instruction in front. -/
theorem cons {head : Numbered} (h : Unfusable threshold block)
    (hlowered : loweredAppends? threshold head block = none)
    (hpacked : packedStores? threshold head block = none) :
    Unfusable threshold (head :: block) := by
  intro x rest hsuffix
  rcases List.suffix_cons_iff.1 hsuffix with heq | hrest
  · cases heq
    exact ⟨hlowered, hpacked⟩
  · exact h x rest hrest

/-- No array begins in a packing. -/
theorem append_pack (h : Unfusable threshold block) {front : List Instruction}
    (hquiet : ∀ ins ∈ front, Quiet ins) :
    Unfusable threshold (unnumbered (front ++ [.simple .pack]) ++ block) := by
  induction front with
  | nil =>
      refine h.cons ?_ ?_
      · simp [loweredAppends?, Instruction.simple, Instruction.unplaced]
      · cases block <;>
          simp [packedStores?, elementCount?, Instruction.pushedInteger?, Instruction.simple,
            Instruction.unplaced]
  | cons x front ih =>
      rw [List.forall_mem_cons] at hquiet
      refine (ih hquiet.2).cons ?_ ?_
      · simp [loweredAppends?, hquiet.1.2]
      · -- What follows is no allocation.
        cases front with
        | nil =>
            simp [unnumbered, packedStores?, Instruction.simple, Instruction.unplaced,
              isSizedAllocation]
        | cons y front =>
            simp [unnumbered, packedStores?, (hquiet.2 y (List.mem_cons_self ..)).1.2.2.2]

end Unfusable

/-- What stands in a fused block, where kept instructions have their numbers. -/
def shown : Segment → List Numbered
  | .kept entry => [entry]
  | .replaced _ _ first others => unnumbered (first :: others)

theorem shown_snd (segments : List Segment) :
    (segments.flatMap shown).map (·.2) = segments.flatMap Segment.news := by
  rw [List.map_flatMap]
  congr 1
  funext s
  cases s with
  | kept entry => rfl
  | replaced head rest first others => simp [shown, unnumbered, Segment.news, Function.comp_def]

/-- Segments that are all kept show the block as it was. -/
theorem shown_of_isKept {segments : List Segment} (h : ∀ x ∈ segments, x.isKept = true) :
    segments.flatMap shown = segments.flatMap Segment.olds := by
  refine List.flatMap_congr fun x hx => ?_
  cases x with
  | kept entry => rfl
  | replaced head rest first others => cases h _ hx

/-- Both stages together keep or replace a block part by part. -/
theorem FusedInto.tiled {threshold : Nat} {block : List Numbered} {segments : List Segment}
    (h : FusedInto threshold block segments) :
    Tiled (fun head rest => loweredAppends? threshold head rest = none ∧
      packedStores? threshold head rest = none) (ReplacedByBoth threshold) block
      (segments.flatMap shown) := by
  induction h with
  | nil => exact .nil
  | keep hlowered hpacked _ ih => exact .keep ⟨hlowered, hpacked⟩ ih
  | array harray _ hpacking _ ih => exact .replace ⟨_, _, _, _, _, rfl, rfl, harray, hpacking⟩ ih

/-- No array is left in a fused block. -/
theorem FusedInto.unfusable {threshold : Nat} (hpos : 0 < threshold) {block : List Numbered}
    {segments : List Segment} (h : FusedInto threshold block segments) :
    Unfusable threshold (segments.flatMap shown) := by
  have hbreaks := breaksRuns_both hpos
  have htiled := h.tiled
  clear h
  generalize segments.flatMap shown = output at htiled ⊢
  induction htiled with
  | nil => exact .nil
  | keep hkept h ih =>
      refine ih.cons ((loweredAppends?_eq_none_tiled hbreaks h).2 hkept.1) ?_
      rw [packedStores?_tiled hbreaks h]
      exact hkept.2
  | replace hreplaced _ ih =>
      obtain ⟨head, run, values, first, others, rfl, rfl, harray, hpacking⟩ := hreplaced
      obtain ⟨front, heq, _, hquiet⟩ := quiet_packing harray hpacking
      rw [heq]
      exact ih.append_pack hquiet

/-! ## Blocks -/

/-- The segments of a fused block and the count of replacements. -/
structure FusedAs (threshold : Nat) (segments : List Segment) (count : Nat) : Prop where
  fused : FusedInto threshold (segments.flatMap Segment.olds) segments
  kept : count = 0 → ∀ s ∈ segments, s.isKept = true
  stays : Unfusable threshold (segments.flatMap Segment.olds) → count = 0

/-- Where a pattern is found nowhere, everything is kept. -/
theorem Scans.of_none {pattern? : Numbered → List Numbered → Option (Nat × List Piece)}
    {block : List Numbered} {pieces : List Piece} {count : Nat}
    (h : Scans pattern? block pieces count)
    (hnone : ∀ head rest, head :: rest <:+ block → pattern? head rest = none) :
    pieces = block.map (fun entry => .keep entry.1) ∧ count = 0 := by
  induction h with
  | nil => exact ⟨rfl, rfl⟩
  | keep _ _ ih =>
      obtain ⟨hpieces, hcount⟩ := ih fun head rest hsuffix =>
        hnone head rest (hsuffix.trans (List.suffix_cons ..))
      exact ⟨by rw [hpieces, List.map_cons], hcount⟩
  | replace hsome _ _ =>
      rw [hnone _ _ (List.suffix_refl _)] at hsome
      cases hsome

/-- Pieces of a scan come from the block, in order. -/
theorem Scans.sources {pattern? : Numbered → List Numbered → Option (Nat × List Piece)}
    (hpattern : ∀ head rest taken front, pattern? head rest = some (taken, front) →
      List.Sublist (front.filterMap Piece.id?) (head.1 :: (rest.take taken).map (·.1)))
    {block : List Numbered} {pieces : List Piece} {count : Nat}
    (h : Scans pattern? block pieces count) :
    List.Sublist (pieces.filterMap Piece.id?) (block.map (·.1)) := by
  induction h with
  | nil => exact .slnil
  | keep _ _ ih => exact ih.cons_cons _
  | @replace head rest front pieces taken count hsome _ ih =>
      rw [List.filterMap_append]
      have hboth := (hpattern _ _ _ _ hsome).append ih
      rwa [List.cons_append, ← List.map_append, List.take_append_drop] at hboth

theorem sources_storePieces (index n : Nat) (rest : List Numbered) :
    List.Sublist ((storePieces index n rest).filterMap Piece.id?)
      ((rest.take (3 * n)).map (·.1)) := by
  fun_induction storePieces index n rest with
  | case1 index n dup value append rest ih =>
      have hfresh : (((Instruction.smallestPush? index).map Piece.fresh).toList).filterMap
          Piece.id? = [] := by
        cases Instruction.smallestPush? index <;> rfl
      rw [Nat.mul_succ]
      simpa [List.filterMap_append, hfresh, Piece.id?] using ih
  | case2 index n rest hshort => exact List.nil_sublist _

/-- The pieces that stand for appends keep or replace instructions of the part that is taken. -/
theorem sources_lowered (threshold : Nat) (head : Numbered) (rest : List Numbered) (taken : Nat)
    (front : List Piece) (h : loweredAppends? threshold head rest = some (taken, front)) :
    List.Sublist (front.filterMap Piece.id?) (head.1 :: (rest.take taken).map (·.1)) := by
  obtain ⟨run, after, values, count, rfl, harray, _, rfl, _, rfl⟩ := loweredAppends?_eq_some h
  have hstores := sources_storePieces 0 values.length (run ++ after)
  rw [← harray.run.length_eq] at hstores
  simpa [List.filterMap_cons, Piece.id?] using hstores

theorem sources_packed (threshold : Nat) (head : Numbered) (rest : List Numbered) (taken : Nat)
    (front : List Piece) (h : packedStores? threshold head rest = some (taken, front)) :
    List.Sublist (front.filterMap Piece.id?) (head.1 :: (rest.take taken).map (·.1)) := by
  obtain ⟨allocation, run, after, values, last, others, rfl, _, rfl, _, rfl⟩ :=
    packedStores?_eq_some h
  have hothers : (others.map Piece.fresh).filterMap Piece.id? = [] := by
    simp [List.filterMap_map, Function.comp_def, Piece.id?]
  simp [Piece.id?, hothers]

/-- Pieces of a scan keep and replace known instructions. -/
theorem Scans.lt_size {pattern? : Numbered → List Numbered → Option (Nat × List Piece)}
    {r : Revision} {ids : List InstrId} {pieces : List Piece} {count : Nat}
    (hpattern : ∀ head rest taken front, pattern? head rest = some (taken, front) →
      List.Sublist (front.filterMap Piece.id?) (head.1 :: (rest.take taken).map (·.1)))
    (h : Scans pattern? (r.numbered ids) pieces count) :
    ∀ piece ∈ pieces, ∀ old, piece.id? = some old → old < r.arena.size := by
  intro piece hpiece old hold
  obtain ⟨entry, hentry, rfl⟩ :=
    List.mem_map.1 ((h.sources hpattern).subset (List.mem_filterMap.2 ⟨piece, hpiece, hold⟩))
  exact Revision.lt_size_of_mem_numbered hentry

/-- A scanned block, allocated. -/
theorem Scans.edited {pattern? : Numbered → List Numbered → Option (Nat × List Piece)}
    {r : Revision} {ids : List InstrId} {pieces : List Piece} {count : Nat}
    (hpattern : ∀ head rest taken front, pattern? head rest = some (taken, front) →
      List.Sublist (front.filterMap Piece.id?) (head.1 :: (rest.take taken).map (·.1)))
    (h : Scans pattern? (r.numbered ids) pieces count) (hexact : r.references.Exact)
    (hnodup : ids.Nodup) (hknown : ∀ id ∈ ids, id < r.arena.size) :
    Edited r ids pieces (r.placeAll pieces).1 (r.placeAll pieces).2 := by
  have hsources := h.sources hpattern
  rw [Revision.map_fst_numbered hknown] at hsources
  refine (Edited.placeAll hexact ?_ (hsources.nodup hnodup)).of_sublist hsources
  exact fun piece hpiece old hold => hknown old (Edited.mem_block_of_id? hsources hpiece hold)

end Fusion

theorem Revision.placeAll_keep (r : Revision) (ids : List InstrId) :
    r.placeAll (ids.map .keep) = (ids, r) := by
  simpa [placeAll] using r.placeAll_keep_append ids []

namespace Fusion

/-- Both stages of the fusion of a block, and the segments into which it divides. -/
structure Stages (threshold : Nat) (r : Revision) (ids : List InstrId) (pieces pieces' : List Piece)
    (lowered packed : Nat) (segments : List Segment) : Prop where
  first : Scans (loweredAppends? threshold) (r.numbered ids) pieces lowered
  second : Scans (packedStores? threshold) ((r.placeAll pieces).2.numbered (r.placeAll pieces).1)
    pieces' packed
  fuse : fuseBlock threshold r ids = (((r.placeAll pieces).2.placeAll pieces').1, lowered + packed,
    ((r.placeAll pieces).2.placeAll pieces').2)
  fused : FusedInto threshold (r.numbered ids) segments
  composed : List.Forall₂ (Piece.Composed (pieces.zip (r.placeAll pieces).1))
    (segments.flatMap Segment.pieces) pieces'
  kept : packed = 0 → ∀ s ∈ segments, s.isKept = true

/-- Fusion is made in two stages, each of which replaces parts of the block. -/
theorem exists_stages {threshold : Nat} (hpos : 0 < threshold) (r : Revision) (ids : List InstrId) :
    ∃ pieces pieces' lowered packed segments,
      Stages threshold r ids pieces pieces' lowered packed segments := by
  have hfirst := replaceAll_scans (loweredAppends? threshold) (r.numbered ids)
  obtain ⟨pieces, lowered, hlowered⟩ : ∃ pieces lowered,
      replaceAll (loweredAppends? threshold) (r.numbered ids) = (pieces, lowered) := ⟨_, _, rfl⟩
  rw [hlowered] at hfirst
  have hsecond := replaceAll_scans (packedStores? threshold)
    ((r.placeAll pieces).2.numbered (r.placeAll pieces).1)
  obtain ⟨pieces', packed, hpacked⟩ : ∃ pieces' packed, replaceAll (packedStores? threshold)
      ((r.placeAll pieces).2.numbered (r.placeAll pieces).1) = (pieces', packed) := ⟨_, _, rfl⟩
  rw [hpacked] at hsecond
  have hknown := hfirst.lt_size (sources_lowered threshold)
  obtain ⟨hgrows, hplaced⟩ := Revision.placeAll_placedAs hknown
  have htiled := tiled_of_scans hfirst (forall₂_shows hgrows hplaced hknown) fun entry hentry =>
    (Revision.mem_numbered.1 hentry).2
  obtain ⟨segments, hfused, hcomposed, hkept⟩ := fusedInto_of_scans hpos hsecond htiled
  refine ⟨pieces, pieces', lowered, packed, segments, hfirst, hsecond, ?_, hfused, hcomposed, hkept⟩
  simp [fuseBlock, lowerAppends, packStores, hlowered, hpacked]

end Fusion

open Fusion in
/-- Fusion replaces the arrays of constants of a block. -/
theorem fuseBlock_editsBlocks {threshold : Nat} (hpos : 0 < threshold) :
    EditsBlocks (fuseBlock threshold) (FusedAs threshold) := by
  intro r ids hexact hnodup hknown
  obtain ⟨pieces, pieces', lowered, packed, segments, h⟩ := exists_stages hpos r ids
  have hedited := h.first.edited (sources_lowered threshold) hexact hnodup hknown
  have hedited' := h.second.edited (sources_packed threshold) hedited.exact hedited.nodup
    fun id hid => hedited.lt_size hknown hid
  have holds := h.fused.olds
  rw [h.fuse]
  refine ⟨segments, holds, ⟨by rw [holds]; exact h.fused, ?_, ?_⟩, ?_⟩
  · exact fun hcount => h.kept (Nat.eq_zero_of_add_eq_zero_left hcount)
  · -- Where nothing can be fused, the first stage leaves the block as it is.
    intro hunfusable
    rw [holds] at hunfusable
    obtain ⟨hpieces, hlowered⟩ :=
      h.first.of_none fun head rest hsuffix => (hunfusable head rest hsuffix).1
    have hkeep : pieces = ids.map .keep := by
      rw [hpieces, ← congrArg (List.map Piece.keep) (Revision.map_fst_numbered hknown),
        List.map_map]
      rfl
    have hsecond := h.second
    rw [hkeep, Revision.placeAll_keep] at hsecond
    have hpacked := (hsecond.of_none fun head rest hsuffix => (hunfusable head rest hsuffix).2).2
    rw [hlowered, hpacked]
  · refine hedited.trans hedited' hknown h.composed ?_
    have hsources := Segment.id?_flatMap_pieces segments
    rwa [holds, Revision.map_fst_numbered hknown] at hsources

end NeoScript
