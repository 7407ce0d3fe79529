import Mathlib.Data.Finset.Card
import Mathlib.Order.Bounds.Basic
import NeoScript.Proofs.Relocation.Lookup
import NeoScript.Proofs.Relocation.Operands

/-!
# Minimality — no more references become long than must

Making a reference long pushes instructions apart and never brings two of them closer.  So a
reference that is out of reach in some layout is out of reach in every layout with more long
references, and the loop of layouts lengthens only what every solution has to lengthen.

* `widenAt` — a program with the references at chosen positions made long;
* `InReach` — every reference that is left short reaches its targets;
* `Loops` — the loop of layouts, with the number of layouts and of lengthened references;
* `address_widenAt` — the distance of two instructions grows with the chosen positions;
* `strained_subset` — what a layout strains belongs to every solution that contains the chosen
  positions;
* `relocate_widens_least` — relocation lengthens the least solution.
-/

namespace NeoScript
namespace Relocation

/-! ## Chosen positions -/

def shortPositions (program : List Located) : Finset Nat :=
  (Finset.range program.length).filter fun k => (program[k]?).any fun l => isShort l.instruction.op

/-- The program with the references at the chosen positions made long. -/
def widenAt (chosen : Finset Nat) (program : List Located) : List Located :=
  program.mapIdx fun k l => if k ∈ chosen then lengthen l else l

def address (program : List Located) (k : Nat) : Nat :=
  (layout program).2.getD k 0

/-- Every reference that is short reaches all its targets with one signed byte. -/
def InReach (program : List Located) : Prop :=
  ∀ (k : Nat) (l : Located), program[k]? = some l → isShort l.instruction.op = true →
    ∀ d ∈ distances (layout program).2 (address program k) l.targets, -128 ≤ d ∧ d ≤ 127

def strained (program : List Located) : Finset Nat :=
  (Finset.range program.length).filter fun k =>
    (program[k]?).any (isStrained (layout program).2 (address program k))

variable {program : List Located} {chosen larger : Finset Nat} {k : Nat} {l : Located}

theorem mem_shortPositions :
    k ∈ shortPositions program ↔ ∃ l, program[k]? = some l ∧ isShort l.instruction.op = true := by
  simp only [shortPositions, Finset.mem_filter, Finset.mem_range, Option.any_eq_true]
  constructor
  · exact And.right
  · rintro ⟨l, hl, hshort⟩
    exact ⟨(List.getElem?_eq_some_iff.1 hl).1, l, hl, hshort⟩

theorem mem_strained :
    k ∈ strained program ↔
      ∃ l, program[k]? = some l ∧ isStrained (layout program).2 (address program k) l = true := by
  simp only [strained, Finset.mem_filter, Finset.mem_range, Option.any_eq_true]
  constructor
  · exact And.right
  · rintro ⟨l, hl, hstrained⟩
    exact ⟨(List.getElem?_eq_some_iff.1 hl).1, l, hl, hstrained⟩

theorem getElem?_widenAt (chosen : Finset Nat) (program : List Located) (k : Nat) :
    (widenAt chosen program)[k]? =
      (program[k]?).map fun l => if k ∈ chosen then lengthen l else l := by
  rw [widenAt, List.getElem?_mapIdx]

@[simp] theorem length_widenAt (chosen : Finset Nat) (program : List Located) :
    (widenAt chosen program).length = program.length := by
  rw [widenAt, List.length_mapIdx]

theorem widenAt_empty (program : List Located) : widenAt ∅ program = program := by
  apply List.ext_getElem?
  intro k
  rw [getElem?_widenAt]
  simp

/-! ## Addresses -/

theorem getElem?_layout (program : List Located) (k : Nat) :
    (layout program).2.toList[k]? = (program[k]?).map fun _ => address program k := by
  have hsize : (layout program).2.size = program.length := by
    rw [← Array.length_toList, length_layout]
  cases hl : program[k]? with
  | none =>
      have hge : program.length ≤ k := List.getElem?_eq_none_iff.1 hl
      simp [hsize, hge]
  | some l =>
      have hlt : k < (layout program).2.size := hsize ▸ (List.getElem?_eq_some_iff.1 hl).1
      simp [address, Array.getD, hlt]

/-- An instruction stands behind all those before it. -/
theorem getElem?_addressesFrom {start k : Nat} {xs : List Instruction} (hk : k < xs.length) :
    (addressesFrom start xs)[k]? = some (start + totalSize (xs.take k)) := by
  induction xs generalizing start k with
  | nil => cases hk
  | cons ins xs ih =>
      cases k with
      | zero => simp [addressesFrom]
      | succ k =>
          rw [addressesFrom, List.getElem?_cons_succ, ih (Nat.lt_of_succ_lt_succ hk),
            List.take_succ_cons, totalSize_cons, Nat.add_assoc]

/-- An instruction begins behind all those in front of it. -/
theorem address_eq {k : Nat} (hk : k < program.length) :
    address program k = totalSize ((program.map (·.instruction)).take k) := by
  have hlength : k < (program.map (·.instruction)).length := by simpa using hk
  have hget := @getElem?_addressesFrom 0 _ _ hlength
  rw [address, layout_eq, Array.getD_eq_getD_getElem?, List.getElem?_toArray, hget]
  simp

/-- What lies between two instructions. -/
theorem address_eq_add {i j : Nat} (hij : i ≤ j) (hj : j < program.length) :
    address program j =
      address program i + totalSize (((program.map (·.instruction)).take j).drop i) := by
  rw [address_eq hj, address_eq (Nat.lt_of_le_of_lt hij hj)]
  have hsplit := List.take_append_drop i ((program.map (·.instruction)).take j)
  rw [List.take_take, Nat.min_eq_left hij] at hsplit
  rw [← totalSize_append, hsplit]

theorem address_of_length_le {k : Nat} (hk : program.length ≤ k) : address program k = 0 := by
  have hsize : (layout program).2.size ≤ k := by
    rwa [← Array.length_toList, length_layout]
  rw [address, Array.getD_eq_getD_getElem?, Array.getElem?_eq_none hsize, Option.getD_none]

/-- More long references make no instruction shorter. -/
theorem forall₂_size_widenAt (hsub : chosen ⊆ larger) (program : List Located) :
    List.Forall₂ (fun a b : Instruction => a.size ≤ b.size)
      ((widenAt chosen program).map (·.instruction))
        ((widenAt larger program).map (·.instruction)) := by
  rw [Sequencing.forall₂_iff_getElem?]
  refine ⟨by simp, ?_⟩
  intro k a b ha hb
  simp only [List.getElem?_map, getElem?_widenAt, Option.map_map] at ha hb
  obtain ⟨l, hl, rfl⟩ := Option.map_eq_some_iff.1 ha
  rw [hl] at hb
  cases hb
  have hsize := (size_lengthen l).1
  by_cases hk : k ∈ chosen
  · simp [hk, hsub hk]
  · by_cases hk' : k ∈ larger
    · simpa [hk, hk'] using hsize
    · simp [hk, hk']

/-- Two instructions do not come closer when more references are long. -/
theorem address_widenAt (hsub : chosen ⊆ larger) {i j : Nat} (hij : i ≤ j)
    (hj : j < program.length) :
    ∃ gap gap', address (widenAt chosen program) j = address (widenAt chosen program) i + gap ∧
      address (widenAt larger program) j = address (widenAt larger program) i + gap' ∧
        gap ≤ gap' := by
  refine ⟨_, _, address_eq_add hij (by simpa using hj), address_eq_add hij (by simpa using hj), ?_⟩
  have hsizes := forall₂_size_widenAt hsub program
  exact totalSize_le_of_forall₂ (List.forall₂_drop i (List.forall₂_take j hsizes))

/-! ## Reach -/

theorem fitsSigned_one_iff {d : Int} : Bytes.fitsSigned 1 d = true ↔ -128 ≤ d ∧ d ≤ 127 := by
  rw [Bytes.fitsSigned_iff]
  have hpow : (Nat.pow 2 (8 * 1 - 1) : Int) = 128 := by decide
  rw [hpow]
  omega

/-- A target that is in reach with more long references is in reach with fewer. -/
theorem distanceTo_widenAt (hsub : chosen ⊆ larger) (hk : k < program.length) (target : Option Nat)
    (h : Bytes.fitsSigned 1 (distanceTo (layout (widenAt larger program)).2
      (address (widenAt larger program) k) target) = true) :
    Bytes.fitsSigned 1 (distanceTo (layout (widenAt chosen program)).2
      (address (widenAt chosen program) k) target) = true := by
  rw [fitsSigned_one_iff] at h ⊢
  cases target with
  | none => exact h
  | some j =>
      change -128 ≤ (address (widenAt larger program) j : Int) - address
        (widenAt larger program) k ∧
        (address (widenAt larger program) j : Int) - address (widenAt larger program) k ≤ 127 at h
      change -128 ≤ (address (widenAt chosen program) j : Int) - address
        (widenAt chosen program) k ∧
        (address (widenAt chosen program) j : Int) - address (widenAt chosen program) k ≤ 127
      -- The target follows, or precedes, or lies outside of the program and counts as its
      -- beginning.
      by_cases hj : j < program.length
      · rcases Nat.le_total k j with hkj | hjk
        · obtain ⟨gap, gap', hchosen, hlarger, hgap⟩ := address_widenAt hsub hkj hj
          omega
        · obtain ⟨gap, gap', hchosen, hlarger, hgap⟩ := address_widenAt hsub hjk hk
          omega
      · have houtside : ∀ set : Finset Nat, address (widenAt set program) j = 0 := fun set =>
          address_of_length_le (by simpa using hj)
        obtain ⟨gap, gap', hchosen, hlarger, hgap⟩ := address_widenAt hsub (Nat.zero_le k) hk
        have hzero : ∀ set : Finset Nat, address (widenAt set program) 0 = 0 := by
          intro set
          rw [address_eq (by simpa using Nat.lt_of_le_of_lt (Nat.zero_le k) hk)]
          rfl
        have hout := houtside chosen
        have hout' := houtside larger
        have hbegin := hzero chosen
        have hbegin' := hzero larger
        omega

/-- A short reference is strained if one of its targets is out of reach. -/
theorem isStrained_eq_true_iff {addresses : Array Nat} {pc : Nat} :
    isStrained addresses pc l = true ↔
      isShort l.instruction.op = true ∧
        ∃ target ∈ l.targets, Bytes.fitsSigned 1 (distanceTo addresses pc target) = false := by
  simp [isStrained, distances_eq]

/-- Nothing is strained exactly if everything is in reach. -/
theorem inReach_iff : InReach program ↔ strained program = ∅ := by
  constructor
  · intro h
    rw [Finset.eq_empty_iff_forall_notMem]
    intro k hk
    obtain ⟨l, hl, hstrained⟩ := mem_strained.1 hk
    obtain ⟨hshort, target, htarget, hfits⟩ := isStrained_eq_true_iff.1 hstrained
    have hreach := h k l hl hshort _ (by rw [distances_eq]; exact List.mem_map_of_mem htarget)
    rw [fitsSigned_one_iff.2 hreach] at hfits
    cases hfits
  · intro h k l hl hshort d hd
    rw [distances_eq] at hd
    obtain ⟨target, htarget, rfl⟩ := List.mem_map.1 hd
    rw [← fitsSigned_one_iff]
    by_contra hfits
    have hmem : k ∈ strained program := mem_strained.2
      ⟨l, hl, isStrained_eq_true_iff.2 ⟨hshort, target, htarget, Bool.eq_false_iff.2 hfits⟩⟩
    rw [h] at hmem
    exact Finset.notMem_empty k hmem

/-- Only a reference that was short and is not chosen can be strained. -/
theorem exists_of_mem_strained (h : k ∈ strained (widenAt chosen program)) :
    k ∉ chosen ∧ ∃ l, program[k]? = some l ∧ isShort l.instruction.op = true ∧
      isStrained (layout (widenAt chosen program)).2 (address (widenAt chosen program) k) l =
        true := by
  obtain ⟨l', hl', hstrained⟩ := mem_strained.1 h
  rw [getElem?_widenAt] at hl'
  obtain ⟨l, hl, rfl⟩ := Option.map_eq_some_iff.1 hl'
  by_cases hk : k ∈ chosen
  · rw [if_pos hk] at hstrained
    have hshort := isShort_of_isStrained hstrained
    rw [show (lengthen l).instruction.op = l.instruction.op.toLong from rfl,
      isShort_toLong] at hshort
    cases hshort
  · rw [if_neg hk] at hstrained
    exact ⟨hk, l, hl, isShort_of_isStrained hstrained, hstrained⟩

/-- What a layout strains belongs to every solution that contains the chosen positions. -/
theorem strained_subset (hsub : chosen ⊆ larger) (hreach : InReach (widenAt larger program)) :
    strained (widenAt chosen program) ⊆ larger := by
  intro k hk
  -- Outside of the solution the reference is short there too, and the distance only grew.
  by_contra hout
  obtain ⟨-, l, hl, hshort, hstrained⟩ := exists_of_mem_strained hk
  obtain ⟨-, target, htarget, hfits⟩ := isStrained_eq_true_iff.1 hstrained
  have hlt : k < program.length := (List.getElem?_eq_some_iff.1 hl).1
  have hkept : (widenAt larger program)[k]? = some l := by
    rw [getElem?_widenAt, hl, Option.map_some, if_neg hout]
  have hlarger := fitsSigned_one_iff.2
    (hreach k l hkept hshort _ (by rw [distances_eq]; exact List.mem_map_of_mem htarget))
  rw [distanceTo_widenAt hsub hlt target hlarger] at hfits
  cases hfits

/-! ## Rounds -/

/-- One round makes exactly the strained references long. -/
theorem getElem?_widenOnce (program : List Located) (k : Nat) :
    (widenOnce (layout program).2 program)[k]? =
      (program[k]?).map fun l => if k ∈ strained program then lengthen l else l := by
  rw [widenOnce, List.getElem?_zipWith, getElem?_layout]
  cases hl : program[k]? with
  | none => rfl
  | some l =>
      have hmem : k ∈ strained program ↔
          isStrained (layout program).2 (address program k) l = true := by
        simp [mem_strained, hl]
      simp only [Option.map_some, hmem]

/-- A round adds to the chosen positions what the layout strains. -/
theorem widenOnce_widenAt (chosen : Finset Nat) (program : List Located) :
    widenOnce (layout (widenAt chosen program)).2 (widenAt chosen program) =
      widenAt (chosen ∪ strained (widenAt chosen program)) program := by
  apply List.ext_getElem?
  intro k
  rw [getElem?_widenOnce, getElem?_widenAt, getElem?_widenAt, Option.map_map]
  congr 1
  funext l
  by_cases hstrained : k ∈ strained (widenAt chosen program)
  · have hnew := (exists_of_mem_strained hstrained).1
    simp [hstrained, hnew]
  · simp [hstrained]

/-- Counting flags is counting their positions. -/
theorem count_true_eq_card (flags : List Bool) :
    flags.count true = ((Finset.range flags.length).filter fun k =>
      flags[k]? = some true).card := by
  induction flags using List.reverseRecOn with
  | nil => rfl
  | append_singleton flags flag ih =>
      have hfront : (Finset.range flags.length).filter (fun k =>
          (flags ++ [flag])[k]? = some true) =
          (Finset.range flags.length).filter fun k => flags[k]? = some true := by
        refine Finset.filter_congr fun k hk => ?_
        rw [List.getElem?_append_left (Finset.mem_range.1 hk)]
      rw [List.count_append, List.length_append, List.length_singleton, Finset.range_add_one,
        Finset.filter_insert, hfront, ih]
      cases flag with
      | false => simp
      | true => simp

theorem strainedCount_eq_card (program : List Located) :
    strainedCount (layout program).2 program = (strained program).card := by
  rw [strainedCount, count_true_eq_card, List.length_zipWith, length_layout, Nat.min_self]
  congr 1
  ext k
  simp only [Finset.mem_filter, Finset.mem_range, mem_strained, List.getElem?_zipWith,
    getElem?_layout]
  cases hl : program[k]? with
  | none => simp
  | some l =>
      have hlt : k < program.length := (List.getElem?_eq_some_iff.1 hl).1
      simp [hlt]

/-- The loop of layouts: how many it makes, from which program to which, and how many references
become long on the way. -/
inductive Loops : (layouts : Nat) → (program final : List Located) → (upgraded : Nat) → Prop where
  | settled {program : List Located} (h : strainedCount (layout program).2 program = 0) :
      Loops 1 program program 0
  | again {layouts upgraded : Nat} {program final : List Located}
      (h : strainedCount (layout program).2 program ≠ 0)
      (hrest : Loops layouts (widenOnce (layout program).2 program) final upgraded) :
      Loops (layouts + 1) program final (strainedCount (layout program).2 program + upgraded)

/-- With as much fuel as there are short references the loop runs to its end.  Each round but the
last lengthens one of them at least. -/
theorem exists_loops {fuel : Nat} (hfuel : shortCount program ≤ fuel) (upgraded : Nat) :
    ∃ layouts count, layouts ≤ shortCount program + 1 ∧
      Loops layouts program (widen fuel program upgraded).1 count ∧
      (widen fuel program upgraded).2 = upgraded + count := by
  -- The fuel bounds the short references: a round moves the strained ones out of their number.
  have hround : ∀ program : List Located,
      shortCount (widenOnce (layout program).2 program) + strainedCount (layout program).2 program =
        shortCount program := fun program =>
    (widenOnce_spec (layout program).2 (length_layout program)).2
  induction fuel generalizing program upgraded with
  | zero =>
      have hzero : strainedCount (layout program).2 program = 0 := by
        have hcount := hround program
        omega
      exact ⟨1, 0, Nat.le_add_left .., .settled hzero, rfl⟩
  | succ fuel ih =>
      have hcount := hround program
      simp only [widen]
      split
      · rename_i hzero
        exact ⟨1, 0, Nat.le_add_left .., .settled hzero, rfl⟩
      · rename_i n hstrained
        obtain ⟨layouts, count, hlayouts, hloops, hupgraded⟩ :=
          @ih (widenOnce (layout program).2 program) (by omega) (upgraded + (n + 1))
        refine ⟨layouts + 1, strainedCount (layout program).2 program + count, by omega,
          .again (by omega) hloops, ?_⟩
        rw [hupgraded, hstrained, Nat.add_assoc]

/-- Wherever the loop starts, it adds the positions that every solution has to add. -/
theorem Loops.exists_least {layouts upgraded : Nat} {start final : List Located}
    (h : Loops layouts start final upgraded) (hstart : start = widenAt chosen program)
    (hshort : chosen ⊆ shortPositions program) :
    ∃ least, final = widenAt least program ∧ least ⊆ shortPositions program ∧
      least.card = chosen.card + upgraded ∧ InReach final ∧
      ∀ solution, chosen ⊆ solution → InReach (widenAt solution program) → least ⊆ solution := by
  induction h generalizing chosen with
  | settled hzero =>
      rw [strainedCount_eq_card, Finset.card_eq_zero, ← inReach_iff] at hzero
      exact ⟨chosen, hstart, hshort, rfl, hzero, fun _ hsub _ => hsub⟩
  | @again layouts upgraded start final _ _ ih =>
      subst hstart
      have hdisjoint : Disjoint chosen (strained (widenAt chosen program)) :=
        Finset.disjoint_right.2 fun k hk => (exists_of_mem_strained hk).1
      have hmore : chosen ∪ strained (widenAt chosen program) ⊆ shortPositions program := by
        refine Finset.union_subset hshort fun k hk => ?_
        obtain ⟨-, l, hl, hop, -⟩ := exists_of_mem_strained hk
        exact mem_shortPositions.2 ⟨l, hl, hop⟩
      -- What is strained belongs to every solution above the chosen positions, so it is chosen
      -- next.
      obtain ⟨least, hfinal, hleast, hcard, hreach, hminimal⟩ :=
        ih (widenOnce_widenAt chosen program) hmore
      refine ⟨least, hfinal, hleast, ?_, hreach, ?_⟩
      · rw [hcard, Finset.card_union_of_disjoint hdisjoint, strainedCount_eq_card, Nat.add_assoc]
      · intro solution hsub hsolution
        exact hminimal solution (Finset.union_subset hsub
          (strained_subset hsub hsolution)) hsolution

/-! ## Relocation -/

/-- An instruction is placed with the operation that it has. -/
theorem op_of_place {addresses : Array Nat} {pc : Nat} {ins : Instruction}
    (h : place addresses pc l = .ok ins) : ins.op = l.instruction.op := by
  unfold place at h
  split at h
  · cases h
    rfl
  · obtain ⟨parts, -, hparts⟩ := Sequencing.bind_eq_ok.1 h
    cases hparts
    rfl

/-- Relocation keeps the operations of the widened program. -/
theorem relocate_eq_ok_of_widen {r : Revision} {result : Relocation}
    (hlocate : locate r = .ok program) (h : relocate r = .ok result) :
    result.upgraded = (widen (shortCount program) program 0).2 ∧
      result.instructions.map (·.op) =
        (widen (shortCount program) program 0).1.map (·.instruction.op) := by
  unfold relocate at h
  rw [hlocate, Sequencing.ok_bind] at h
  obtain ⟨instructions, hplace, hresult⟩ := Sequencing.bind_eq_ok.1 h
  cases hresult
  refine ⟨rfl, ?_⟩
  generalize (widen (shortCount program) program 0).1 = final at hplace
  have hops : List.Forall₂ (fun (entry : Nat × Located) (ins : Instruction) =>
      entry.2.instruction.op = ins.op) ((layout final).2.toList.zip final) instructions :=
    (Sequencing.mapM_eq_ok.1 hplace).imp fun _ _ hins => (op_of_place hins).symm
  have hzip : ((layout final).2.toList.zip final).map Prod.snd = final :=
    List.map_snd_zip (Nat.le_of_eq (length_layout final).symm)
  calc
    instructions.map (·.op)
        = ((layout final).2.toList.zip final).map (fun entry => entry.2.instruction.op) :=
          (Sequencing.map_eq_of_forall₂ hops).symm
    _ = (((layout final).2.toList.zip final).map Prod.snd).map (·.instruction.op) := by
          rw [List.map_map]
          rfl
    _ = final.map (·.instruction.op) := by rw [hzip]

/-- If every reference can be followed, the loop of layouts ends, and it lengthens the least set of
short references with which all others are in reach.  Nothing else changes its operation. -/
theorem relocate_widens_least (r : Revision) (hnodup : r.order.Nodup)
    (hresolve : ∀ id ∈ r.order, ¬ r.Dangles id) :
    ∃ (program : List Located) (layouts : Nat) (least : Finset Nat), locate r = .ok program ∧
      layouts ≤ shortCount program + 1 ∧ Loops layouts program (widenAt least program) least.card ∧
      widen (shortCount program) program 0 = (widenAt least program, least.card) ∧
      IsLeast {chosen : Finset Nat | chosen ⊆ shortPositions program ∧
        InReach (widenAt chosen program)}
        least ∧
      ∀ result, relocate r = .ok result → result.upgraded = least.card ∧
        result.instructions.map (·.op) = program.mapIdx fun k l =>
          if k ∈ least then l.instruction.op.toLong else l.instruction.op := by
  obtain ⟨program, hlocate⟩ := (exists_locate_iff hnodup).2 hresolve
  obtain ⟨layouts, count, hlayouts, hloops, hupgraded⟩ :=
    exists_loops (Nat.le_refl (shortCount program)) 0
  obtain ⟨least, hfinal, hshort, hcard, hreach, hminimal⟩ :=
    hloops.exists_least (widenAt_empty program).symm (Finset.empty_subset _)
  rw [Finset.card_empty, Nat.zero_add] at hcard
  rw [Nat.zero_add, ← hcard] at hupgraded
  rw [hfinal, ← hcard] at hloops
  rw [hfinal] at hreach
  refine ⟨program, layouts, least, hlocate, hlayouts, hloops, Prod.ext hfinal hupgraded,
    ⟨⟨hshort, hreach⟩, ?_⟩, ?_⟩
  · rintro solution ⟨-, hsolution⟩
    exact hminimal solution (Finset.empty_subset _) hsolution
  · intro result hresult
    obtain ⟨hcount, hops⟩ := relocate_eq_ok_of_widen hlocate hresult
    refine ⟨hcount.trans hupgraded, ?_⟩
    rw [hops, hfinal]
    apply List.ext_getElem?
    intro k
    rw [List.getElem?_map, getElem?_widenAt, List.getElem?_mapIdx, Option.map_map]
    congr 1
    funext l
    exact apply_ite (fun l : Located => l.instruction.op) _ _ _

end Relocation

/-- Two jumps of which the first just reaches its target, until the second one becomes long. -/
def Samples.cascade : Revision where
  arena := ⟨#[⟨.unplaced (.jump .always .short) [0], some 0⟩,
    ⟨.unplaced (.jump .always .short) [0], some 2⟩, ⟨.pushData (List.replicate 121 7), some 4⟩,
    ⟨.unplaced (.pushInt .w2) [0, 1], some 127⟩, ⟨.simple .ret, some 130⟩]⟩
  order := [0, 1, 2, 3, 4]
  references := (References.empty.addJump 0 3).addJump 1 4
  changed := true
  scriptLength := 131

open Relocation in
/-- Both jumps become long, one in each round. -/
theorem relocate_cascade :
    ∃ program result, locate Samples.cascade = .ok program ∧ relocate Samples.cascade = .ok result ∧
      shortCount program = 2 ∧ result.upgraded = 2 ∧
      ∃ (layouts : Nat) (least : Finset Nat), layouts ≤ 3 ∧ least.card = 2 ∧
        Loops layouts program (widenAt least program) 2 ∧
        IsLeast {chosen : Finset Nat | chosen ⊆ shortPositions program ∧
          InReach (widenAt chosen program)}
          least := by
  have hcount : (locate Samples.cascade).map shortCount = .ok 2 := by decide +kernel
  have hupgraded : (relocate Samples.cascade).map (·.upgraded) = .ok 2 := by decide +kernel
  obtain ⟨program, hlocate, hshort⟩ := Sequencing.map_eq_ok.1 hcount
  obtain ⟨result, hresult, htwo⟩ := Sequencing.map_eq_ok.1 hupgraded
  have hnodup : Samples.cascade.order.Nodup := by decide
  have hresolve := (exists_locate_iff hnodup).1 ⟨program, hlocate⟩
  obtain ⟨located, layouts, least, hlocated, hlayouts, hloops, -, hleast, hrelocate⟩ :=
    relocate_widens_least Samples.cascade hnodup hresolve
  cases Except.ok.inj (hlocate.symm.trans hlocated)
  have hcard : least.card = 2 := (hrelocate result hresult).1.symm.trans htwo
  rw [hshort] at hlayouts
  rw [hcard] at hloops
  exact ⟨program, result, hlocate, hresult, hshort, htwo, layouts, least, hlayouts, hcard,
    hloops, hleast⟩

end NeoScript
