import NeoScript.Proofs.Arithmetic
import NeoScript.Proofs.Sequencing
import NeoScript.Revision.Fusion

/-!
# Patterns — the instructions that build an array of constants

* `Scans` — a block is replaced from left to right by what a pattern recognises;
* `AppendRun`, `StoreRun` — appends to an array and indexed stores, with the values that they enter;
* `assign` — the elements after some stores, unless an index is out of range or comes twice;
* `loweredAppends?_eq_some`, `packedStores?_eq_some` — what the two patterns recognise.
-/

namespace NeoScript
namespace Fusion

/-! ## Scanning -/

/-- The pieces that replace a block, and the number of replacements. -/
inductive Scans (pattern? : Numbered → List Numbered → Option (Nat × List Piece)) :
    List Numbered → List Piece → Nat → Prop where
  | nil : Scans pattern? [] [] 0
  | keep {head : Numbered} {rest : List Numbered} {pieces : List Piece} {count : Nat}
      (hnone : pattern? head rest = none) (hrest : Scans pattern? rest pieces count) :
      Scans pattern? (head :: rest) (.keep head.1 :: pieces) count
  | replace {head : Numbered} {rest : List Numbered} {front pieces : List Piece} {taken count : Nat}
      (hsome : pattern? head rest = some (taken, front))
      (hrest : Scans pattern? (rest.drop taken) pieces count) :
      Scans pattern? (head :: rest) (front ++ pieces) (count + 1)

/-- The loop goes through the block from left to right, within its fuel. -/
theorem replaceFrom_scans (pattern? : Numbered → List Numbered → Option (Nat × List Piece))
    {fuel : Nat} {block : List Numbered} (hfuel : block.length ≤ fuel) (output : List Piece)
    (count : Nat) :
    ∃ pieces n, replaceFrom pattern? fuel block output count =
      (output.reverse ++ pieces, count + n) ∧
      Scans pattern? block pieces n := by
  induction fuel generalizing block output count with
  | zero =>
      have hnil : block = [] := List.length_eq_zero_iff.1 (Nat.le_zero.1 hfuel)
      subst hnil
      exact ⟨[], 0, by simp [replaceFrom], .nil⟩
  | succ fuel ih =>
      cases block with
      | nil => exact ⟨[], 0, by simp [replaceFrom], .nil⟩
      | cons head rest =>
          have hrest : rest.length ≤ fuel := Nat.le_of_succ_le_succ hfuel
          cases hpattern : pattern? head rest with
          | none =>
              obtain ⟨pieces, n, heq, hscans⟩ := ih hrest (.keep head.1 :: output) count
              refine ⟨.keep head.1 :: pieces, n, ?_, .keep hpattern hscans⟩
              simp [replaceFrom, hpattern, heq]
          | some found =>
              obtain ⟨taken, front⟩ := found
              have hdrop : (rest.drop taken).length ≤ fuel := by
                rw [List.length_drop]
                omega
              obtain ⟨pieces, n, heq, hscans⟩ := ih hdrop (front.reverse ++ output) (count + 1)
              refine ⟨front ++ pieces, n + 1, ?_, .replace hpattern hscans⟩
              simp [replaceFrom, hpattern, heq]
              omega

/-- Going through a block replaces what the pattern takes and keeps the rest. -/
theorem replaceAll_scans (pattern? : Numbered → List Numbered → Option (Nat × List Piece))
    (block : List Numbered) :
    Scans pattern? block (replaceAll pattern? block).1 (replaceAll pattern? block).2 := by
  obtain ⟨pieces, n, heq, hscans⟩ :=
    replaceFrom_scans pattern? (Nat.le_refl block.length) [] 0
  rw [replaceAll, heq]
  simpa using hscans

/-! ## Appends -/

/-- Appends of constants to a duplicated array, with the constants in order. -/
inductive AppendRun : List Numbered → List Instruction → Prop where
  | nil : AppendRun [] []
  | cons {dup value append : Numbered} {run : List Numbered} {values : List Instruction}
      (hdup : dup.2.op = .dup) (hvalue : value.2.isConstant = true)
      (happend : append.2.op = .append) (hrun : AppendRun run values) :
      AppendRun (dup :: value :: append :: run) (value.2 :: values)

theorem AppendRun.length_eq {run : List Numbered} {values : List Instruction}
    (h : AppendRun run values) : run.length = 3 * values.length := by
  induction h with
  | nil => rfl
  | cons _ _ _ _ ih =>
      simp only [List.length_cons]
      omega

theorem AppendRun.isConstant {run : List Numbered} {values : List Instruction}
    (h : AppendRun run values) : ∀ v ∈ values, v.isConstant = true := by
  induction h with
  | nil => simp
  | cons _ hvalue _ _ ih => exact List.forall_mem_cons.2 ⟨hvalue, ih⟩

/-- A block begins with the appends that are counted, and no append follows them. -/
theorem exists_appendRun (rest : List Numbered) (count : Nat) :
    ∃ run after values, rest = run ++ after ∧ AppendRun run values ∧
      appendRun count rest = count + values.length ∧ appendRun 0 after = 0 := by
  fun_induction appendRun count rest with
  | case1 count dup value append rest hit ih =>
      obtain ⟨run, after, values, rfl, hrun, hcount, hends⟩ := ih
      simp only [isAppend, Bool.and_eq_true, decide_eq_true_eq] at hit
      refine ⟨dup :: value :: append :: run, after, value.2 :: values, rfl,
        .cons hit.1.1 hit.1.2 hit.2 hrun, ?_, hends⟩
      rw [hcount, List.length_cons]
      omega
  | case2 count dup value append rest hmiss =>
      exact ⟨[], _, [], rfl, .nil, rfl, by simp [appendRun, hmiss]⟩
  | case3 rest count hshort =>
      exact ⟨[], _, [], rfl, .nil, rfl, appendRun.eq_2 0 rest hshort⟩

/-! ## Stores -/

/-- Stores of constants into a duplicated array, with their indices in order. -/
inductive StoreRun : List Numbered → List (Nat × Instruction) → Prop where
  | nil : StoreRun [] []
  | cons {dup index value store : Numbered} {run : List Numbered}
      {stores : List (Nat × Instruction)}
      {i : Nat} (hdup : dup.2.op = .dup) (hindex : index.2.pushedInteger? = some (i : Int))
      (hvalue : value.2.isConstant = true) (hstore : store.2.op = .setItem)
      (hrun : StoreRun run stores) :
      StoreRun (dup :: index :: value :: store :: run) ((i, value.2) :: stores)

theorem StoreRun.length_eq {run : List Numbered} {stores : List (Nat × Instruction)}
    (h : StoreRun run stores) : run.length = 4 * stores.length := by
  induction h with
  | nil => rfl
  | cons _ _ _ _ _ ih =>
      simp only [List.length_cons]
      omega

/-- Enters values at their indices; none if an index is out of range or taken. -/
def assign (slots : Array (Option Instruction)) :
    List (Nat × Instruction) → Option (Array (Option Instruction))
  | [] => some slots
  | (i, value) :: stores =>
      if slots[i]? = some none then assign (slots.setIfInBounds i (some value)) stores else none

/-- What is read as stores is a run of stores that can be assigned. -/
theorem storedValues_eq_some_iff {slots slots' : Array (Option Instruction)} {n : Nat}
    {block : List Numbered} :
    storedValues slots n block = some slots' ↔
      ∃ run after stores, block = run ++ after ∧ StoreRun run stores ∧ stores.length = n ∧
        assign slots stores = some slots' := by
  constructor
  · intro h
    -- Only the second case, a store into a free slot, reads on.
    fun_induction storedValues slots n block with
    | case1 slots block =>
        exact ⟨[], block, [], rfl, .nil, rfl, h⟩
    | case2 slots n dup index value store rest hit i hi hfree ih =>
        obtain ⟨run, after, stores, rfl, hrun, hlength, hassign⟩ := ih h
        refine ⟨dup :: index :: value :: store :: run, after, (i.toNat, value.2) :: stores, rfl,
          .cons hit.1 ?_ hit.2.2 hit.2.1 hrun, by simp [hlength], ?_⟩
        · rw [hi, Int.toNat_of_nonneg hfree.1]
        · rw [assign, if_pos hfree.2, hassign]
    | case3 slots n dup index value store rest hit i hi hfree => cases h
    | case4 slots n dup index value store rest hit hnone => cases h
    | case5 slots n dup index value store rest hmiss => cases h
    | case6 slots n block hshort => cases h
  · rintro ⟨run, after, stores, rfl, hrun, rfl, hassign⟩
    induction hrun generalizing slots with
    | nil => simpa [storedValues, assign] using hassign
    | @cons dup index value store run stores i hdup hindex hvalue hstore hrun ih =>
        rw [assign] at hassign
        split at hassign
        · rename_i hfree
          simp only [List.cons_append, List.length_cons, storedValues]
          rw [if_pos ⟨hdup, hstore, hvalue⟩]
          simp only [hindex]
          rw [if_pos ⟨Int.natCast_nonneg i, by simpa using hfree⟩]
          simpa using ih hassign
        · cases hassign

def enumerated (i : Nat) (values : List Instruction) : List (Nat × Instruction) :=
  (values.zipIdx i).map Prod.swap

/-- Stores in ascending order fill all slots. -/
theorem assign_enumerated (front values : List Instruction) :
    assign (front.map some ++ List.replicate values.length none).toArray
      (enumerated front.length values) = some ((front ++ values).map some).toArray := by
  induction values generalizing front with
  | nil => simp [enumerated, assign]
  | cons value values ih =>
      have hfree : (front.map some ++ List.replicate (value ::
          values).length none).toArray[front.length]? =
          some none := by
        simp [List.replicate_succ]
      have hset : (front.map some ++ List.replicate (value ::
          values).length none).toArray.setIfInBounds
          front.length (some value) =
          ((front ++ [value]).map some ++ List.replicate values.length none).toArray := by
        simp [List.replicate_succ, List.set_append_right]
      have hrest := ih (front ++ [value])
      have hcons : enumerated front.length (value :: values) =
          (front.length, value) :: enumerated (front ++ [value]).length values := by
        simp [enumerated]
      rw [hcons, assign, if_pos hfree, hset, hrest]
      simp

theorem size_of_assign {slots slots' : Array (Option Instruction)}
    {stores : List (Nat × Instruction)}
    (h : assign slots stores = some slots') : slots'.size = slots.size := by
  induction stores generalizing slots with
  | nil => cases h; rfl
  | cons store stores ih =>
      rw [assign] at h
      split at h
      · simpa using ih h
      · cases h

theorem perm_set {slots : List (Option Instruction)} {i : Nat} (hfree : slots[i]? = some none)
    (value : Instruction) :
    ((slots.set i (some value)).filterMap id).Perm (value :: slots.filterMap id) := by
  induction slots generalizing i with
  | nil => cases hfree
  | cons slot slots ih =>
      cases i with
      | zero =>
          simp only [List.getElem?_cons_zero, Option.some.injEq] at hfree
          subst hfree
          simp
      | succ i =>
          rw [List.getElem?_cons_succ] at hfree
          cases slot with
          | none => simpa using ih hfree
          | some other =>
              simp only [List.set_cons_succ, List.filterMap_cons, id_eq]
              exact ((ih hfree).cons other).trans (.swap value other _)

/-- Every store fills a slot. -/
theorem perm_of_assign {slots slots' : Array (Option Instruction)}
    {stores : List (Nat × Instruction)} (h : assign slots stores = some slots') :
    (slots'.toList.filterMap id).Perm (stores.map (·.2) ++ slots.toList.filterMap id) := by
  induction stores generalizing slots with
  | nil =>
      cases h
      exact .refl _
  | cons store stores ih =>
      rw [assign] at h
      split at h
      · rename_i hfree
        have hset := perm_set (Array.getElem?_toList.trans hfree) store.2
        have hrest := ih h
        rw [Array.toList_setIfInBounds] at hrest
        refine hrest.trans ((hset.append_left _).trans ?_)
        simp
      · cases h

/-! ## Arrays -/

structure AppendedArray (threshold : Nat) (head : Numbered) (run : List Numbered)
    (values : List Instruction) : Prop where
  head : head.2.op = .newArray0
  run : AppendRun run values
  fuses : fuses threshold values.length = true

/-- A sized array and stores of all its elements, each once. -/
structure StoredArray (threshold : Nat) (head allocation : Numbered) (run : List Numbered)
    (values : List Instruction) : Prop where
  head : head.2.pushedInteger? = some (values.length : Int)
  allocation : isSizedAllocation allocation.2.op = true
  run : ∃ stores, StoreRun run stores ∧ stores.length = values.length ∧
    assign (Array.replicate values.length none) stores = some (values.map some).toArray
  fuses : fuses threshold values.length = true

/-- The elements are the stored values, in another order. -/
theorem StoredArray.exists_perm {threshold : Nat} {head allocation : Numbered} {run : List Numbered}
    {values : List Instruction} (h : StoredArray threshold head allocation run values) :
    ∃ stores, StoreRun run stores ∧ values.Perm (stores.map (·.2)) := by
  obtain ⟨stores, hrun, _, hassign⟩ := h.run
  refine ⟨stores, hrun, ?_⟩
  have hperm := perm_of_assign hassign
  simpa [List.filterMap_map, Function.comp_def, List.filterMap_replicate] using hperm

/-- Instructions that build an array of constants, in one of the two ways. -/
inductive BuildsArray (threshold : Nat) : Numbered → List Numbered → List Instruction → Prop where
  | appends {head : Numbered} {run : List Numbered} {values : List Instruction}
      (h : AppendedArray threshold head run values) : BuildsArray threshold head run values
  | stores {head allocation : Numbered} {run : List Numbered} {values : List Instruction}
      (h : StoredArray threshold head allocation run values) :
      BuildsArray threshold head (allocation :: run) values

/-- The instructions that replace them: the elements in descending order, their number and a
pack. -/
structure Packing (values : List Instruction) (last : Instruction) (others : List Instruction) :
    Prop where
  exists_push : ∃ push, Instruction.smallestPush? values.length = some push ∧
    last :: others = values.reverse ++ [push, .simple .pack]

/-- The first stage takes an empty array and all appends behind it. -/
theorem loweredAppends?_eq_some {threshold taken : Nat} {head : Numbered} {rest : List Numbered}
    {pieces : List Piece} (h : loweredAppends? threshold head rest = some (taken, pieces)) :
    ∃ run after values count, rest = run ++ after ∧ AppendedArray threshold head run values ∧
      appendRun 0 after = 0 ∧ taken = run.length ∧
        Instruction.smallestPush? values.length = some count ∧
      pieces = .standIn count head.1 :: .fresh (.simple .newArray) ::
        storePieces 0 values.length rest := by
  obtain ⟨run, after, values, heq, hrun, hcount, hends⟩ := exists_appendRun rest 0
  rw [Nat.zero_add] at hcount
  simp only [loweredAppends?, hcount] at h
  split at h
  · rename_i hcond
    obtain ⟨count, hpush, heq'⟩ := Option.map_eq_some_iff.1 h
    cases heq'
    exact ⟨run, after, values, count, heq, ⟨hcond.1, hrun, hcond.2⟩, hends,
      hrun.length_eq.symm, hpush, rfl⟩
  · cases h

/-- A number of elements is pushed by an integer push, if it is fused. -/
theorem elementCount?_eq_some_iff {threshold n : Nat} {ins : Instruction} :
    elementCount? threshold ins = some n ↔
      ins.pushedInteger? = some (n : Int) ∧ fuses threshold n = true := by
  unfold elementCount?
  split
  · rename_i count hcount
    rw [hcount]
    constructor
    · intro h
      split at h
      · rename_i hcond
        cases h
        rw [Int.toNat_of_nonneg hcond.1]
        exact ⟨rfl, hcond.2⟩
      · cases h
    · rintro ⟨hn, hfuses⟩
      cases hn
      rw [if_pos ⟨Int.natCast_nonneg n, by simpa using hfuses⟩]
      simp
  · rename_i hnone
    simp [hnone]

/-- The second stage takes a sized array all of whose elements are stored. -/
theorem packedStores?_eq_some {threshold taken : Nat} {head : Numbered} {rest : List Numbered}
    {pieces : List Piece} (h : packedStores? threshold head rest = some (taken, pieces)) :
    ∃ allocation run after values last others, rest = allocation :: (run ++ after) ∧
      StoredArray threshold head allocation run values ∧ taken = 1 + run.length ∧
      Packing values last others ∧ pieces = .standIn last head.1 :: others.map .fresh := by
  cases rest with
  | nil => cases h
  | cons allocation block =>
      simp only [packedStores?, Option.bind_eq_bind] at h
      split at h
      · rename_i hallocation
        simp only [Option.bind_eq_some_iff] at h
        obtain ⟨n, hn, slots, hslots, values, hvalues, push, hpush, h⟩ := h
        obtain ⟨hhead, hfuses⟩ := elementCount?_eq_some_iff.1 hn
        obtain ⟨run, after, stores, rfl, hrun, hlength, hassign⟩ :=
          storedValues_eq_some_iff.1 hslots
        have hslots' : slots = (values.map some).toArray := by
          rw [← Sequencing.mapM_id_eq_some_iff.1 hvalues]
        subst hslots'
        have hsize : values.length = n := by
          simpa using size_of_assign hassign
        subst hsize
        split at h
        · rename_i last others hreverse
          simp only [Option.some.injEq, Prod.mk.injEq] at h
          refine ⟨allocation, run, after, values, last, others ++ [push, .simple .pack], rfl,
            ⟨hhead, hallocation, ⟨stores, hrun, hlength, hassign⟩, hfuses⟩, ?_,
            ⟨push, hpush, by simp [hreverse]⟩, ?_⟩
          · rw [← h.1, hrun.length_eq, hlength]
          · rw [← h.2]
            simp
        · cases h
      · cases h

/-- A sized array all of whose elements are stored is recognised. -/
theorem packedStores?_of_storedArray {threshold : Nat} {head allocation : Numbered}
    {run : List Numbered} {values : List Instruction}
    (h : StoredArray threshold head allocation run values) (hpos : 0 < threshold)
    (after : List Numbered) :
    ∃ last others, Packing values last others ∧
      packedStores? threshold head (allocation :: (run ++ after)) =
        some (1 + run.length, .standIn last head.1 :: others.map .fresh) := by
  obtain ⟨stores, hrun, hlength, hassign⟩ := h.run
  have hbounds : threshold ≤ values.length ∧ values.length ≤ maxElements := by
    simpa [fuses] using h.fuses
  obtain ⟨push, hpush⟩ := Instruction.exists_smallestPush?_natCast hbounds.2
  have hslots : storedValues (Array.replicate values.length none) values.length (run ++ after) =
      some (values.map some).toArray :=
    storedValues_eq_some_iff.2 ⟨run, after, stores, rfl, hrun, hlength, hassign⟩
  have hcount : elementCount? threshold head.2 = some values.length :=
    elementCount?_eq_some_iff.2 ⟨h.head, h.fuses⟩
  have hvalues : (values.map some).mapM id = some values := Sequencing.mapM_id_eq_some_iff.2 rfl
  cases hreverse : values.reverse with
  | nil =>
      have hnil : values.length = 0 := by
        rw [← List.length_reverse, hreverse, List.length_nil]
      omega
  | cons last others =>
      refine ⟨last, others ++ [push, .simple .pack], ⟨push, hpush, by simp [hreverse]⟩, ?_⟩
      simp [packedStores?, h.allocation, hcount, hslots, hvalues, hpush, hreverse, hrun.length_eq,
        hlength]

end Fusion
end NeoScript
