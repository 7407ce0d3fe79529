import Mathlib.Data.List.Perm.Subperm
import NeoScript.Proofs.Revision.Strategy

/-!
# Arrays — fusion packs the arrays of constants of a block, and nothing else

An array of constants is described by what stands in a block, without the two stages.  No array
begins inside of another one, so it does not matter in which order arrays are packed.

* `assign_iff_perm` — stores fill an array exactly if their indices are a permutation;
* `ConstantArray` — the instructions that build an array, in front of what follows them;
* `ConstantArray.unique`, `BuildsArray.not_opens` — arrays that begin at one place are equal, and
  none begins inside of another;
* `PacksArrays` — segments whose replaced ones are the arrays of a block;
* `fuseBlock_packs_arrays` — fusion divides every block in this way.
-/

namespace NeoScript
namespace Fusion

/-! ## Stores in any order -/

/-- Stores succeed if their indices are free and different, and then they change nothing else. -/
theorem assign_eq_some_iff {slots slots' : Array (Option Instruction)}
    {stores : List (Nat × Instruction)} :
    assign slots stores = some slots' ↔
      (stores.map (·.1)).Nodup ∧ (∀ s ∈ stores, slots[s.1]? = some none) ∧
        (∀ s ∈ stores, slots'[s.1]? = some (some s.2)) ∧
        ∀ i, i ∉ stores.map (·.1) → slots'[i]? = slots[i]? := by
  induction stores generalizing slots with
  | nil =>
      simp only [assign, Option.some.injEq, List.map_nil, List.nodup_nil, List.not_mem_nil,
        false_imp_iff, implies_true, not_false_eq_true, true_imp_iff, true_and]
      constructor
      · rintro rfl i
        rfl
      · exact fun h => Array.ext_getElem? fun i => (h i).symm
  | cons store stores ih =>
      obtain ⟨i, value⟩ := store
      rw [assign, List.map_cons, List.nodup_cons]
      simp only [List.forall_mem_cons]
      constructor
      · intro h
        split at h
        · rename_i hfree
          obtain ⟨hnodup, hfrees, hset, hrest⟩ := ih.1 h
          have hi : i < slots.size := (Array.getElem?_eq_some_iff.1 hfree).1
          -- A later store into the same slot would not find it free.
          have hother : ∀ s ∈ stores, i ≠ s.1 := by
            rintro s hs rfl
            simpa [hi] using hfrees s hs
          have hout : i ∉ stores.map (·.1) := by
            intro hmem
            obtain ⟨s, hs, rfl⟩ := List.mem_map.1 hmem
            exact hother s hs rfl
          refine ⟨⟨hout, hnodup⟩, ⟨hfree, fun s hs => ?_⟩, ⟨?_, hset⟩, fun j hj => ?_⟩
          · rw [← hfrees s hs, Array.getElem?_setIfInBounds_ne (hother s hs)]
          · rw [hrest i hout, Array.getElem?_setIfInBounds_self_of_lt hi]
          · rw [List.mem_cons, not_or] at hj
            rw [hrest j hj.2, Array.getElem?_setIfInBounds_ne (Ne.symm hj.1)]
        · cases h
      · rintro ⟨⟨hout, hnodup⟩, ⟨hfree, hfrees⟩, ⟨hi, hset⟩, hrest⟩
        have hlt : i < slots.size := (Array.getElem?_eq_some_iff.1 hfree).1
        rw [if_pos hfree]
        refine ih.2 ⟨hnodup, fun s hs => ?_, hset, fun j hj => ?_⟩
        · have hne : i ≠ s.1 := fun heq => hout (heq ▸ List.mem_map_of_mem hs)
          rw [Array.getElem?_setIfInBounds_ne hne, hfrees s hs]
        · by_cases hij : i = j
          · subst hij
            rw [hi, Array.getElem?_setIfInBounds_self_of_lt hlt]
          · rw [Array.getElem?_setIfInBounds_ne hij]
            refine hrest j ?_
            rw [List.mem_cons, not_or]
            exact ⟨Ne.symm hij, hj⟩

/-- Stores fill an array with values exactly if every index comes once. -/
theorem assign_iff_perm {values : List Instruction} {stores : List (Nat × Instruction)} :
    stores.length = values.length ∧
        assign (Array.replicate values.length none) stores = some (values.map some).toArray ↔
      (stores.map (·.1)).Perm (List.range values.length) ∧
        ∀ s ∈ stores, values[s.1]? = some s.2 := by
  rw [assign_eq_some_iff]
  constructor
  · rintro ⟨hlength, hnodup, hfree, hset, -⟩
    constructor
    · -- As many indices as there are slots, all different: no slot is left out.
      refine (List.subperm_of_subset hnodup fun i hi => ?_).perm_of_length_le (by simp [hlength])
      obtain ⟨s, hs, rfl⟩ := List.mem_map.1 hi
      have hlt := (Array.getElem?_eq_some_iff.1 (hfree s hs)).1
      rw [Array.size_replicate] at hlt
      exact List.mem_range.2 hlt
    · intro s hs
      simpa using hset s hs
  · rintro ⟨hperm, hvalues⟩
    have hmem : ∀ i, i ∈ stores.map (·.1) ↔ i < values.length := fun i =>
      hperm.mem_iff.trans List.mem_range
    refine ⟨by simpa using hperm.length_eq, hperm.nodup_iff.2 List.nodup_range, fun s hs => ?_,
      fun s hs => ?_, fun i hi => ?_⟩
    · have hlt := (hmem s.1).1 (List.mem_map_of_mem hs)
      simp [hlt]
    · simp [hvalues s hs]
    · rw [hmem, Nat.not_lt] at hi
      rw [Array.getElem?_eq_none (by simpa using hi), Array.getElem?_eq_none (by simpa using hi)]

/-! ## Arrays in a block -/

/-- Instructions that build an array of constants, with its elements: an empty array and all appends
behind it, or a sized array and a store for every index. -/
inductive ConstantArray (threshold : Nat) (after : List Numbered) :
    List Numbered → List Instruction → Prop where
  | appends {head : Numbered} {run : List Numbered} {values : List Instruction}
      (hhead : head.2.op = .newArray0) (hrun : AppendRun run values)
      (hends : ∀ more rest others, after = more ++ rest → AppendRun more others → more = [])
      (hcount : threshold ≤ values.length ∧ values.length ≤ maxElements) :
      ConstantArray threshold after (head :: run) values
  | stores {head allocation : Numbered} {run : List Numbered} {stores : List (Nat × Instruction)}
      {values : List Instruction} (hhead : head.2.pushedInteger? = some (values.length : Int))
      (hallocation : allocation.2.op = .newArray ∨ allocation.2.op = .newArrayOf)
      (hrun : StoreRun run stores) (hindices : (stores.map (·.1)).Perm (List.range values.length))
      (hvalues : ∀ s ∈ stores, values[s.1]? = some s.2)
      (hcount : threshold ≤ values.length ∧ values.length ≤ maxElements) :
      ConstantArray threshold after (head :: allocation :: run) values

/-- Three elements that are stored out of order. -/
example : ConstantArray 3 []
    (unnumbered ([.pushSmall 3, .newArray, .dup, .pushSmall 2, .pushSmall 7, .setItem, .dup,
      .pushSmall 0,
      .pushSmall 5, .setItem, .dup, .pushSmall 1, .pushSmall 6, .setItem].map .simple))
    [.simple (.pushSmall 5), .simple (.pushSmall 6), .simple (.pushSmall 7)] := by
  refine .stores rfl (.inl rfl)
    (?_ : StoreRun _ [(2, .simple (.pushSmall 7)), (0, .simple (.pushSmall 5)),
      (1, .simple (.pushSmall 6))])
    (by decide) (by decide) (by decide)
  exact .cons rfl rfl rfl rfl (.cons rfl rfl rfl rfl (.cons rfl rfl rfl rfl .nil))

/-- A run of appends is counted to its end. -/
theorem appendRun_append {run after : List Numbered} {values : List Instruction}
    (h : AppendRun run values)
    (count : Nat) : appendRun count (run ++ after) = appendRun (count + values.length) after := by
  induction h generalizing count with
  | nil => rfl
  | @cons dup value append run values hdup hvalue happend _ ih =>
      have hit : isAppend dup value append = true := by simp [isAppend, hdup, hvalue, happend]
      simp only [List.cons_append, appendRun]
      rw [if_pos hit, ih, List.length_cons, Nat.add_assoc, Nat.add_comm 1]

/-- Nothing is counted where no run of appends begins. -/
theorem appendRun_eq_zero_iff {after : List Numbered} :
    appendRun 0 after = 0 ↔ ∀ more rest others, after = more ++ rest → AppendRun more others →
      more = [] := by
  constructor
  · rintro hzero more rest others rfl hmore
    obtain ⟨_, _, _, _, _, hcount, _⟩ := exists_appendRun rest (0 + others.length)
    rw [appendRun_append hmore, hcount] at hzero
    refine List.length_eq_zero_iff.1 ?_
    rw [hmore.length_eq]
    omega
  · intro h
    obtain ⟨run, rest, values, heq, hrun, hcount, -⟩ := exists_appendRun after 0
    cases h run rest values heq hrun
    cases hrun
    exact hcount

theorem isSizedAllocation_iff {op : Opcode} :
    isSizedAllocation op = true ↔ op = .newArray ∨ op = .newArrayOf := by
  cases op <;> simp [isSizedAllocation]

/-- Arrays of a block are what the stages recognise. -/
theorem constantArray_iff {threshold : Nat} {head : Numbered} {run after : List Numbered}
    {values : List Instruction} :
    ConstantArray threshold after (head :: run) values ↔
      BuildsArray threshold head run values ∧ (head.2.op = .newArray0 → appendRun 0 after = 0) := by
  constructor
  · intro h
    cases h with
    | appends hhead hrun hends hcount =>
        exact ⟨.appends ⟨hhead, hrun, fuses_iff.2 hcount⟩, fun _ => appendRun_eq_zero_iff.2 hends⟩
    | @stores _ allocation run stores _ hhead hallocation hrun hindices hvalues hcount =>
        have hassign := assign_iff_perm.2 ⟨hindices, hvalues⟩
        have hpush := (op_of_isConstant (isConstant_of_pushedInteger? hhead)).2
        refine ⟨.stores ⟨hhead, isSizedAllocation_iff.2 hallocation, ⟨stores, hrun, hassign⟩, ?_⟩,
          fun hop => absurd hop hpush⟩
        exact fuses_iff.2 hcount
  · rintro ⟨harray, hends⟩
    cases harray with
    | appends h =>
        exact .appends h.head h.run (appendRun_eq_zero_iff.1 (hends h.head)) (fuses_iff.1 h.fuses)
    | stores h =>
        obtain ⟨stores, hrun, hassign⟩ := h.run
        obtain ⟨hindices, hvalues⟩ := assign_iff_perm.1 hassign
        exact .stores h.head (isSizedAllocation_iff.1 h.allocation) hrun hindices hvalues
          (fuses_iff.1 h.fuses)

theorem ConstantArray.exists_cons {threshold : Nat} {part after : List Numbered}
    {values : List Instruction}
    (h : ConstantArray threshold after part values) : ∃ head run, part = head :: run := by
  cases h with
  | appends => exact ⟨_, _, rfl⟩
  | stores => exact ⟨_, _, rfl⟩

/-- One of the stages recognises an array. -/
theorem ConstantArray.recognised {threshold : Nat} (hpos : 0 < threshold) {head : Numbered}
    {run after : List Numbered} {values : List Instruction}
    (h : ConstantArray threshold after (head :: run) values) :
    loweredAppends? threshold head (run ++ after) ≠ none ∨
      packedStores? threshold head (run ++ after) ≠ none := by
  obtain ⟨harray, hends⟩ := constantArray_iff.1 h
  cases harray with
  | appends h =>
      left
      obtain ⟨push, hpush⟩ :=
        Instruction.exists_smallestPush?_natCast (length_le_of_fuses h.fuses).2
      -- The appends that can be read go no further than the array.
      have hcount : appendRun 0 (run ++ after) = values.length := by
        obtain ⟨more, rest, others, heq, hmore, hlength, -⟩ :=
          exists_appendRun after (0 + values.length)
        cases appendRun_eq_zero_iff.1 (hends h.head) more rest others heq hmore
        cases hmore
        rw [appendRun_append h.run, hlength]
        simp
      simp [loweredAppends?, hcount, h.head, h.fuses, hpush]
  | stores h =>
      right
      obtain ⟨last, others, -, hpacked⟩ := packedStores?_of_storedArray h hpos after
      rw [List.cons_append, hpacked]
      simp

/-! ## Arrays that begin at one place -/

/-- A run of appends that cannot be continued is determined by the block. -/
theorem AppendRun.unique {run run' after after' : List Numbered} {values values' : List Instruction}
    (h : AppendRun run values) (h' : AppendRun run' values') (heq : run ++ after = run' ++ after')
    (hends : appendRun 0 after = 0) (hends' : appendRun 0 after' = 0) :
    run = run' ∧ values = values' := by
  induction h generalizing run' values' with
  | nil =>
      -- One run has ended, and what follows does not begin with an append.
      have hnil := appendRun_eq_zero_iff.1 hends run' after' values' heq h'
      subst hnil
      cases h'
      exact ⟨rfl, rfl⟩
  | @cons dup value append run values hdup hvalue happend hrun ih =>
      cases h' with
      | nil =>
          have hnil := appendRun_eq_zero_iff.1 hends' _ after _ heq.symm
              (.cons hdup hvalue happend hrun)
          cases hnil
      | cons _ _ _ hrun' =>
          simp only [List.cons_append, List.cons.injEq] at heq
          obtain ⟨rfl, rfl, rfl, heq⟩ := heq
          obtain ⟨rfl, rfl⟩ := ih hrun' heq
          exact ⟨rfl, rfl⟩

/-- A run of a given number of stores is determined by the block. -/
theorem StoreRun.unique {run run' after after' : List Numbered}
    {stores stores' : List (Nat × Instruction)}
    (h : StoreRun run stores) (h' : StoreRun run' stores') (heq : run ++ after = run' ++ after')
    (hlength : stores.length = stores'.length) : run = run' ∧ stores = stores' := by
  induction h generalizing run' stores' with
  | nil =>
      cases h' with
      | nil => exact ⟨rfl, rfl⟩
      | cons => cases hlength
  | cons _ hindex _ _ hrun ih =>
      cases h' with
      | nil => cases hlength
      | cons _ hindex' _ _ hrun' =>
          simp only [List.cons_append, List.cons.injEq] at heq
          obtain ⟨rfl, rfl, rfl, rfl, heq⟩ := heq
          obtain ⟨rfl, rfl⟩ := ih hrun' heq (Nat.succ.inj hlength)
          have hi := Int.ofNat.inj (Option.some.inj (hindex.symm.trans hindex'))
          exact ⟨rfl, by rw [hi]⟩

/-- Stores at all indices determine the elements. -/
theorem eq_of_stores {values values' : List Instruction} {stores : List (Nat × Instruction)}
    (hlength : values.length = values'.length)
    (hindices : (stores.map (·.1)).Perm (List.range values.length))
    (hvalues : ∀ s ∈ stores, values[s.1]? = some s.2)
    (hvalues' : ∀ s ∈ stores, values'[s.1]? = some s.2) : values = values' := by
  refine List.ext_getElem? fun i => ?_
  by_cases hi : i < values.length
  · obtain ⟨s, hs, rfl⟩ := List.mem_map.1 (hindices.mem_iff.2 (List.mem_range.2 hi))
    rw [hvalues s hs, hvalues' s hs]
  · rw [List.getElem?_eq_none (by omega), List.getElem?_eq_none (by omega)]

/-- Arrays that begin at one place are equal. -/
theorem ConstantArray.unique {threshold : Nat} {part part' after after' : List Numbered}
    {values values' : List Instruction} (h : ConstantArray threshold after part values)
    (h' : ConstantArray threshold after' part' values') (heq : part ++ after = part' ++ after') :
    part = part' ∧ values = values' := by
  -- The first instruction tells the two forms apart: an empty array, or the push of a count.
  cases h with
  | appends hhead hrun hends _ =>
      cases h' with
      | appends hhead' hrun' hends' _ =>
          simp only [List.cons_append, List.cons.injEq] at heq
          obtain ⟨rfl, heq⟩ := heq
          obtain ⟨rfl, rfl⟩ := hrun.unique hrun' heq (appendRun_eq_zero_iff.2 hends)
            (appendRun_eq_zero_iff.2 hends')
          exact ⟨rfl, rfl⟩
      | stores hhead' =>
          simp only [List.cons_append, List.cons.injEq] at heq
          obtain ⟨rfl, -⟩ := heq
          exact absurd hhead (op_of_isConstant (isConstant_of_pushedInteger? hhead')).2
  | stores hhead _ hrun hindices hvalues _ =>
      cases h' with
      | appends hhead' =>
          simp only [List.cons_append, List.cons.injEq] at heq
          obtain ⟨rfl, -⟩ := heq
          exact absurd hhead' (op_of_isConstant (isConstant_of_pushedInteger? hhead)).2
      | stores hhead' _ hrun' hindices' hvalues' _ =>
          simp only [List.cons_append, List.cons.injEq] at heq
          obtain ⟨rfl, rfl, heq⟩ := heq
          have hcount := Int.ofNat.inj (Option.some.inj (hhead.symm.trans hhead'))
          have hlength := hindices.length_eq
          have hlength' := hindices'.length_eq
          rw [List.length_map, List.length_range] at hlength hlength'
          obtain ⟨rfl, rfl⟩ := hrun.unique hrun' heq (by rw [hlength, hlength', hcount])
          exact ⟨rfl, eq_of_stores hcount hindices hvalues hvalues'⟩

/-! ## Arrays do not overlap -/

def Opens (head : Numbered) (rest : List Numbered) : Prop :=
  head.2.op = .newArray0 ∨ head.2.isConstant = true ∧
    ∃ allocation block, rest = allocation :: block ∧ isSizedAllocation allocation.2.op = true

/-- An array begins with an instruction that may begin one. -/
theorem ConstantArray.opens {threshold : Nat} {head : Numbered} {run after : List Numbered}
    {values : List Instruction} (h : ConstantArray threshold after (head :: run) values) :
    Opens head (run ++ after) := by
  cases h with
  | appends hhead => exact .inl hhead
  | stores hhead hallocation =>
      exact .inr ⟨isConstant_of_pushedInteger? hhead, _, _, rfl,
        isSizedAllocation_iff.2 hallocation⟩

/-- Only an empty array or a constant may begin an array. -/
theorem not_opens {head : Numbered} {rest : List Numbered} (hhead : head.2.op ≠ .newArray0)
    (hconstant : ¬ head.2.isConstant = true) : ¬ Opens head rest := by
  rintro (hop | ⟨hyes, -⟩)
  · exact hhead hop
  · exact hconstant hyes

/-- A constant begins an array only in front of an allocation. -/
theorem not_opens_of_isConstant {head next : Numbered} {rest : List Numbered}
    (hconstant : head.2.isConstant = true) (hnext : isSizedAllocation next.2.op = false) :
    ¬ Opens head (next :: rest) := by
  rintro (hop | ⟨-, allocation, block, heq, hyes⟩)
  · exact (op_of_isConstant hconstant).2 hop
  · cases heq
    rw [hnext] at hyes
    cases hyes

/-- No other array begins inside a run of appends. -/
theorem AppendRun.not_opens {run : List Numbered} {values : List Instruction}
    (h : AppendRun run values)
    (after : List Numbered) {x : Numbered} {rest : List Numbered} (hx : x :: rest <:+ run) :
    ¬ Opens x (rest ++ after) := by
  induction h with
  | nil => cases List.suffix_nil.1 hx
  | cons hdup hvalue happend _ ih =>
      simp only [List.suffix_cons_iff, List.cons.injEq] at hx
      rcases hx with ⟨rfl, rfl⟩ | ⟨rfl, rfl⟩ | ⟨rfl, rfl⟩ | hx
      · exact Fusion.not_opens (by simp [hdup]) fun hyes => (op_of_isConstant hyes).1.1 hdup
      · exact not_opens_of_isConstant hvalue (by simp [happend, isSizedAllocation])
      · exact Fusion.not_opens (by simp [happend]) fun hyes => (op_of_isConstant hyes).1.2.1 happend
      · exact ih hx

/-- No other array begins inside a run of stores. -/
theorem StoreRun.not_opens {run : List Numbered} {stores : List (Nat × Instruction)}
    (h : StoreRun run stores)
    (after : List Numbered) {x : Numbered} {rest : List Numbered} (hx : x :: rest <:+ run) :
    ¬ Opens x (rest ++ after) := by
  induction h with
  | nil => cases List.suffix_nil.1 hx
  | cons hdup hindex hvalue hstore _ ih =>
      simp only [List.suffix_cons_iff, List.cons.injEq] at hx
      rcases hx with ⟨rfl, rfl⟩ | ⟨rfl, rfl⟩ | ⟨rfl, rfl⟩ | ⟨rfl, rfl⟩ | hx
      · exact Fusion.not_opens (by simp [hdup]) fun hyes => (op_of_isConstant hyes).1.1 hdup
      · exact not_opens_of_isConstant (isConstant_of_pushedInteger? hindex)
          (op_of_isConstant hvalue).1.2.2.2
      · exact not_opens_of_isConstant hvalue (by simp [hstore, isSizedAllocation])
      · exact Fusion.not_opens (by simp [hstore]) fun hyes => (op_of_isConstant hyes).1.2.2.1 hstore
      · exact ih hx

/-- No array begins inside of another one. -/
theorem BuildsArray.not_opens {threshold : Nat} {head : Numbered} {run : List Numbered}
    {values : List Instruction} (h : BuildsArray threshold head run values) (after : List Numbered)
    {x : Numbered} {rest : List Numbered} (hx : x :: rest <:+ run) : ¬ Opens x (rest ++ after) := by
  cases h with
  | appends h => exact h.run.not_opens after hx
  | stores h =>
      obtain ⟨stores, hrun, -⟩ := h.run
      rcases List.suffix_cons_iff.1 hx with heq | hx
      · cases heq
        refine Fusion.not_opens ?_ fun hyes => ?_
        · rcases isSizedAllocation_iff.1 h.allocation with hop | hop <;> simp [hop]
        · cases (op_of_isConstant hyes).1.2.2.2.symm.trans h.allocation
      · exact hrun.not_opens after hx

/-! ## Packed arrays -/

/-- The elements in descending order, their number and a pack stand in place of a segment. -/
def PackedAs (s : Segment) (values : List Instruction) : Prop :=
  s.isKept = false ∧ ∃ push, Instruction.smallestPush? values.length = some push ∧
    s.news = values.reverse ++ [push, .simple .pack]

theorem Packing.packedAs {values others : List Instruction} {first : Instruction}
    (h : Packing values first others) (head : Numbered) (rest : List Numbered) :
    PackedAs (.replaced head rest first others) values :=
  ⟨rfl, h.exists_push⟩

/-- The elements of a packed array can be told from its instructions. -/
theorem PackedAs.unique {s : Segment} {values values' : List Instruction} (h : PackedAs s values)
    (h' : PackedAs s values') : values = values' := by
  obtain ⟨-, push, -, heq⟩ := h
  obtain ⟨-, push', -, heq'⟩ := h'
  have hreverse := (List.append_inj' (heq.symm.trans heq') rfl).1
  exact List.reverse_injective hreverse

/-- Segments of a block in which the arrays are packed, and nothing else. -/
structure PacksArrays (threshold : Nat) (block : List Numbered) (segments : List Segment) :
    Prop where
  olds : segments.flatMap Segment.olds = block
  packed : ∀ s ∈ segments, s.isKept = false → ∃ values, PackedAs s values
  arrays : ∀ before part after values, block = before ++ (part ++ after) →
    (ConstantArray threshold after part values ↔ ∃ front s back, segments = front ++ s :: back ∧
      front.flatMap Segment.olds = before ∧ s.olds = part ∧ PackedAs s values)

namespace FusedInto

variable {threshold : Nat} {block : List Numbered} {segments : List Segment}

/-- Every segment that fusion replaces is a packed array. -/
theorem packed (h : FusedInto threshold block segments) :
    ∀ s ∈ segments, s.isKept = false → ∃ values, PackedAs s values := by
  induction h with
  | nil => simp
  | keep _ _ _ ih => exact List.forall_mem_cons.2 ⟨fun hkept => (by cases hkept), ih⟩
  | array _ _ hpacking _ ih =>
      exact List.forall_mem_cons.2 ⟨fun _ => ⟨_, hpacking.packedAs _ _⟩, ih⟩

/-- A packed segment was an array. -/
theorem constantArray (h : FusedInto threshold block segments) {front back : List Segment}
    {s : Segment} (hsegments : segments = front ++ s :: back) {values : List Instruction}
    (hpacked : PackedAs s values) :
    ConstantArray threshold (back.flatMap Segment.olds) s.olds values := by
  -- The segments in front are taken off one by one, until the packed one is the first.
  induction h generalizing front with
  | nil => cases front <;> cases hsegments
  | keep _ _ _ ih =>
      cases front with
      | nil =>
          cases hsegments
          cases hpacked.1
      | cons x front =>
          cases hsegments
          exact ih rfl
  | array harray hends hpacking h ih =>
      cases front with
      | nil =>
          cases hsegments
          cases (hpacking.packedAs _ _).unique hpacked
          rw [h.olds]
          exact constantArray_iff.2 ⟨harray, hends⟩
      | cons x front =>
          cases hsegments
          exact ih rfl

/-- An array is a segment and packed. -/
theorem exists_packed (hpos : 0 < threshold) (h : FusedInto threshold block segments)
    {before part after : List Numbered} {values : List Instruction}
    (hblock : block = before ++ (part ++ after))
    (harray : ConstantArray threshold after part values) :
    ∃ front s back, segments = front ++ s :: back ∧ front.flatMap Segment.olds = before ∧
      s.olds = part ∧
      PackedAs s values := by
  obtain ⟨first, run, rfl⟩ := harray.exists_cons
  induction h generalizing before with
  | nil => cases before <;> cases hblock
  | @keep head rest segments hlowered hpacked h ih =>
      cases before with
      | nil =>
          cases hblock
          rcases harray.recognised hpos with hfound | hfound
          · exact absurd hlowered hfound
          · exact absurd hpacked hfound
      | cons x before =>
          cases hblock
          obtain ⟨front, s, back, rfl, rfl, holds, hs⟩ := ih rfl
          exact ⟨.kept head :: front, s, back, rfl, rfl, holds, hs⟩
  | @array head run' after' values' others first' segments harray' hends hpacking h ih =>
      have hfound := constantArray_iff.2 ⟨harray', hends⟩
      cases before with
      | nil =>
          obtain ⟨hpart, rfl⟩ := hfound.unique harray hblock
          exact ⟨[], _, segments, rfl, rfl, hpart, hpacking.packedAs _ _⟩
      | cons x before =>
          rw [List.cons_append, List.cons.injEq] at hblock
          obtain ⟨rfl, hblock⟩ := hblock
          have hlater : ∀ gap, before = run' ++ gap → after' = gap ++ (first :: run ++ after) →
              ∃ front s back, .replaced head run' first' others :: segments = front ++ s :: back ∧
                front.flatMap Segment.olds = head :: before ∧ s.olds = first :: run ∧
                  PackedAs s values := by
            rintro gap rfl hgap
            obtain ⟨front, s, back, rfl, rfl, holds, hs⟩ := ih hgap
            exact ⟨.replaced head run' first' others :: front, s, back, rfl, rfl, holds, hs⟩
          -- The array begins behind the one that was found, or inside of it.
          rcases List.append_eq_append_iff.1 hblock with ⟨gap, hbefore, hgap⟩ |
            ⟨inner, hbefore, hinner⟩
          · exact hlater gap hbefore hgap
          · cases inner with
            | nil => exact hlater [] (by simp [hbefore]) hinner.symm
            | cons y inner =>
                rw [List.cons_append, List.cons_append, List.cons.injEq] at hinner
                obtain ⟨rfl, hinner⟩ := hinner
                -- No array begins inside of another.
                have hopens := harray.opens
                rw [hinner] at hopens
                exact absurd hopens (harray'.not_opens after' (hbefore ▸ List.suffix_append ..))

/-- Fusion replaces exactly the arrays that can be found from left to right. -/
theorem packsArrays (hpos : 0 < threshold) (h : FusedInto threshold block segments) :
    PacksArrays threshold block segments := by
  refine ⟨h.olds, h.packed, ?_⟩
  intro before part after values hblock
  constructor
  · exact h.exists_packed hpos hblock
  · rintro ⟨front, s, back, hsegments, rfl, rfl, hpacked⟩
    have hafter : back.flatMap Segment.olds = after := by
      have holds := h.olds
      rw [hsegments, List.flatMap_append, List.flatMap_cons, hblock] at holds
      exact List.append_cancel_left (List.append_cancel_left holds)
    rw [← hafter]
    exact h.constantArray hsegments hpacked

variable {a : Arena} {placed : List (Piece × InstrId)}

theorem map_snd_of_shows {head : Numbered} {first : Instruction} {others : List Instruction}
    {output : List Numbered}
    (h : List.Forall₂ (Shows a placed) (.standIn first head.1 :: others.map .fresh) output) :
    output.map (·.2) = first :: others := by
  obtain ⟨entry, output, hentry, hothers, rfl⟩ := List.forall₂_cons_left_iff.1 h
  have hrest : List.Forall₂ Eq others (output.map (·.2)) := List.forall₂_map_right_iff.2
    ((List.forall₂_map_left_iff.1 hothers).imp fun ins e he => (he.fresh ins rfl).symm)
  rw [List.forall₂_eq_eq_eq] at hrest
  rw [List.map_cons, hentry.standIn _ _ rfl, ← hrest]

/-- What stands in a fused block, and where it comes from. -/
theorem shown_cases (h : FusedInto threshold block segments)
    (hknown : ∀ entry ∈ block, a.get? entry.1 = some entry.2) {output : List Numbered}
    (hshows : List.Forall₂ (Shows a placed) (segments.flatMap Segment.pieces) output) :
    output.map (·.2) = segments.flatMap Segment.news ∧
      ∀ entry ∈ output, entry ∈ block ∨ Quiet entry.2 ∨ entry.2.op = .pack := by
  induction h generalizing output with
  | nil =>
      cases hshows
      simp
  | @keep head rest segments _ _ _ ih =>
      rw [List.forall_mem_cons] at hknown
      obtain ⟨⟨id, ins⟩, output, hhead, hrest, rfl⟩ := List.forall₂_cons_left_iff.1 hshows
      obtain ⟨hid, hget⟩ := hhead.kept _ rfl
      have hentry : (id, ins) = head := Prod.ext hid (Option.some.inj (hget.symm.trans hknown.1))
      obtain ⟨htext, hcases⟩ := ih hknown.2 hrest
      rw [hentry]
      refine ⟨by rw [List.map_cons, htext]; rfl,
        List.forall_mem_cons.2 ⟨.inl (List.mem_cons_self ..), ?_⟩⟩
      exact fun entry hmem => (hcases entry hmem).imp_left (List.mem_cons_of_mem _)
  | @array head run after values others first segments harray _ hpacking _ ih =>
      obtain ⟨front, output, rfl, hfront, hrest⟩ := Sequencing.exists_append_of_forall₂ hshows
      obtain ⟨htext, hcases⟩ := ih (fun entry hmem => hknown entry (by simp [hmem])) hrest
      have hnews := map_snd_of_shows hfront
      refine ⟨by rw [List.map_append, hnews, htext]; rfl, ?_⟩
      intro entry hmem
      rcases List.mem_append.1 hmem with hmem | hmem
      · right
        obtain ⟨quiet, heq, -, hquiet⟩ := quiet_packing harray hpacking
        have hentry : entry.2 ∈ quiet ++ [.simple .pack] := by
          rw [← heq, ← hnews]
          exact List.mem_map_of_mem hmem
        rcases List.mem_append.1 hentry with hin | hlast
        · exact .inl (hquiet _ hin)
        · rw [List.mem_singleton.1 hlast]
          exact .inr rfl
      · exact (hcases entry hmem).imp_left fun hold => by simp [hold]

end FusedInto

/-- Arrays in a block are the same or lie apart. -/
theorem PacksArrays.apart {threshold : Nat} {block : List Numbered} {segments : List Segment}
    (h : PacksArrays threshold block segments)
    {before part after before' part' after' : List Numbered}
    {values values' : List Instruction} (hblock : block = before ++ (part ++ after))
    (hblock' : block = before' ++ (part' ++ after'))
    (harray : ConstantArray threshold after part values)
    (harray' : ConstantArray threshold after' part' values') :
    (before = before' ∧ part = part' ∧ values = values') ∨ before ++ part <+: before' ∨
      before' ++ part' <+: before := by
  obtain ⟨front, s, back, heq, rfl, rfl, hs⟩ := (h.arrays _ _ _ _ hblock).1 harray
  obtain ⟨front', s', back', heq', rfl, rfl, hs'⟩ := (h.arrays _ _ _ _ hblock').1 harray'
  rw [heq] at heq'
  -- Both are segments of one list, so one stands in front of the other unless they are the same.
  rcases List.append_eq_append_iff.1 heq' with ⟨gap, rfl, hgap⟩ | ⟨gap, rfl, hgap⟩
  · cases gap with
    | nil =>
        cases hgap
        exact .inl ⟨by simp, rfl, hs.unique hs'⟩
    | cons x gap =>
        cases hgap
        exact .inr (.inl (by simp))
  · cases gap with
    | nil =>
        cases hgap
        exact .inl ⟨by simp, rfl, hs.unique hs'⟩
    | cons x gap =>
        cases hgap
        exact .inr (.inr (by simp))

/-- The segments of a fused block, with the instructions that stand there. -/
theorem exists_segments {threshold : Nat} (hpos : 0 < threshold) (r : Revision)
    (ids : List InstrId) :
    ∃ ids' count r' segments placed, fuseBlock threshold r ids = (ids', count, r') ∧
      FusedInto threshold (r.numbered ids) segments ∧
      List.Forall₂ (Shows r.arena placed) (segments.flatMap Segment.pieces) (r'.numbered ids') ∧
      ∀ id ∈ ids', id < r'.arena.size := by
  obtain ⟨pieces, pieces', lowered, packed, segments, h⟩ := exists_stages hpos r ids
  have hknown := h.first.lt_size (sources_lowered threshold)
  obtain ⟨hgrows, hplaced⟩ := Revision.placeAll_placedAs hknown
  obtain ⟨hgrows', hplaced'⟩ :=
    Revision.placeAll_placedAs (h.second.lt_size (sources_packed threshold))
  -- Both stages together place the pieces of the segments.
  have hboth : List.Forall₂
      (Piece.PlacedAs r.arena ((r.placeAll pieces).2.placeAll pieces').2.arena)
      (segments.flatMap Segment.pieces) ((r.placeAll pieces).2.placeAll pieces').1 := by
    refine Sequencing.forall₂_trans ?_ h.composed hplaced'
    intro piece piece' id hcomposed hat
    exact hcomposed.placedAs (List.forall₂_zip hplaced)
      (fun hmem hold => hknown _ (List.of_mem_zip hmem).1 _ hold) hgrows hgrows' hat
  have hsources : ∀ piece ∈ segments.flatMap Segment.pieces, ∀ old, piece.id? = some old →
      old < r.arena.size := by
    intro piece hpiece old hold
    have hmem := (Segment.id?_flatMap_pieces segments).subset
        (List.mem_filterMap.2 ⟨piece, hpiece, hold⟩)
    rw [h.fused.olds] at hmem
    obtain ⟨entry, hentry, rfl⟩ := List.mem_map.1 hmem
    exact Revision.lt_size_of_mem_numbered hentry
  have hall := hgrows.trans hgrows'
  exact ⟨_, _, _, segments, _, h.fuse, h.fused, forall₂_shows hall hboth hsources,
    Piece.PlacedAs.forall_lt_size hboth hall hsources⟩

end Fusion

open Fusion

/-- Fusion packs the arrays of constants of a block, which lie apart, and keeps everything else. -/
theorem fuseBlock_packs_arrays (threshold : Nat) (r : Revision) (ids : List InstrId) :
    ∃ ids' count r' segments, fuseBlock (max threshold leastThreshold) r ids = (ids', count, r') ∧
      PacksArrays (max threshold leastThreshold) (r.numbered ids) segments ∧
      (r'.numbered ids').map (·.1) = ids' ∧
      (r'.numbered ids').map (·.2) = segments.flatMap Segment.news ∧
      (∀ before part after values before' part' after' values',
        r.numbered ids = before ++ (part ++ after) → r.numbered ids = before' ++ (part' ++ after') →
        ConstantArray (max threshold leastThreshold) after part values →
        ConstantArray (max threshold leastThreshold) after' part' values' →
        (before = before' ∧ part = part' ∧ values = values') ∨ before ++ part <+: before' ∨
          before' ++ part' <+: before) ∧
      ∀ entry ∈ r'.numbered ids', entry.2.op = .newArray ∨ entry.2.op = .setItem →
        entry ∈ r.numbered ids := by
  have hpos := Strategy.threshold_pos threshold
  obtain ⟨ids', count, r', segments, placed, hfuse, hfused, hshows, hids⟩ :=
    exists_segments hpos r ids
  have hpacks := hfused.packsArrays hpos
  obtain ⟨htext, hcases⟩ :=
    hfused.shown_cases (fun entry hentry => (Revision.mem_numbered.1 hentry).2) hshows
  refine ⟨ids', count, r', segments, hfuse, hpacks, Revision.map_fst_numbered hids, htext, ?_, ?_⟩
  · intro before part after values before' part' after' values' hblock hblock' harray harray'
    exact hpacks.apart hblock hblock' harray harray'
  · intro entry hentry hop
    rcases hcases entry hentry with hold | hquiet | hpack
    · exact hold
    · rcases hop with hop | hop
      · have hsized := hquiet.1.2.2.2
        rw [hop] at hsized
        cases hsized
      · exact absurd hop hquiet.1.2.2.1
    · rw [hpack] at hop
      simp at hop

end NeoScript
