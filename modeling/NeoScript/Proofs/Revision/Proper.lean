import NeoScript.Proofs.Revision.Fusion
import NeoScript.Proofs.Script.Layout
import NeoScript.Revision.Strategy

/-!
# Proper — replaced segments are local and do not grow much

* `Segment.Proper` — where something is replaced, no address is named and control passes on, before
  and after; there are not more instructions, and their size is bounded;
* `FoldedAs.proper`, `Fusion.FusedInto.proper` — folding and fusion replace proper segments.
-/

namespace NeoScript

/-- A segment that stays, or local instructions in place of local ones. -/
inductive Segment.Proper : Segment → Prop where
  | kept (entry : Numbered) : Proper (.kept entry)
  | replaced {head : Numbered} {rest : List Numbered} {first : Instruction}
      {others : List Instruction} (holds : ∀ e ∈ head :: rest, e.2.op.isLocal = true)
      (hnews : ∀ ins ∈ first :: others, ins.op.isLocal = true ∧ ins.Fits)
      (hlength : (first :: others).length ≤ (head :: rest).length)
      (hsize : totalSize (first :: others) ≤
        totalSize ((head :: rest).map (·.2)) + 33 * (head :: rest).length) :
      Proper (.replaced head rest first others)

/-! ## Constants -/

namespace Instruction

variable {ins : Instruction}

theorem isLocal_of_isConstant (h : ins.isConstant = true) : ins.op.isLocal = true := by
  unfold isConstant at h
  revert h
  cases ins.op <;> simp [Opcode.isLocal, Opcode.isIntPush, Opcode.isDataPush, Opcode.isBlockEnding,
    Opcode.isTerminal, Opcode.hasSingleTarget]

theorem size_smallestPush? {value : Int} (h : smallestPush? value = some ins) : ins.size ≤ 33 := by
  have hpush := (smallestPush?_spec h).2.1
  unfold size sizeOf
  revert hpush
  cases ins.op <;> simp [Opcode.isIntPush, Opcode.layout]
  case pushInt width => cases width <;> simp [IntWidth.bytes]

end Instruction

/-! ## Folding -/

theorem isLocal_of_evaluate {policy : ArithmeticPolicy} {op : Opcode} {x y value : Int}
    (h : policy.evaluate op x y = some value) : op.isLocal = true := by
  revert h
  cases op <;> simp [ArithmeticPolicy.evaluate, Opcode.isLocal, Opcode.isBlockEnding,
    Opcode.isTerminal, Opcode.hasSingleTarget]

/-- All instructions of a nest of folds are local. -/
theorem Folds.isLocal {policy : ArithmeticPolicy} {xs : List Instruction} {push : Instruction}
    (h : Folds policy xs push) {value : Int} (hvalue : push.pushedInteger? = some value) :
    ∀ ins ∈ xs, ins.op.isLocal = true := by
  induction h generalizing value with
  | single ins =>
      intro other hother
      rw [List.mem_singleton.1 hother]
      exact Instruction.isLocal_of_isConstant (Fusion.isConstant_of_pushedInteger? hvalue)
  | triple _ _ hpush iha ihb =>
      obtain ⟨x, y, result, hx, hy, hresult, _⟩ := foldTriple?_eq_some_iff.1 hpush
      intro ins hins
      rcases List.mem_append.1 hins with hins | hop
      · rcases List.mem_append.1 hins with hxs | hys
        · exact iha hx ins hxs
        · exact ihb hy ins hys
      · rw [List.mem_singleton.1 hop]
        exact isLocal_of_evaluate hresult

theorem Folds.exists_triple {policy : ArithmeticPolicy} {x y : Instruction} {xs : List Instruction}
    {push : Instruction} (h : Folds policy (x :: y :: xs) push) :
    ∃ value, Instruction.smallestPush? value = some push := by
  generalize hlist : x :: y :: xs = list at h
  cases h with
  | single ins => cases hlist
  | triple _ _ hpush =>
      obtain ⟨_, _, value, _, _, _, hvalue⟩ := foldTriple?_eq_some_iff.1 hpush
      exact ⟨value, hvalue⟩

/-- A folded segment may be relocated. -/
theorem FoldedAs.proper {policy : ArithmeticPolicy} {s : Segment} (h : FoldedAs policy s) :
    s.Proper := by
  cases h with
  | kept entry => exact .kept entry
  | @replaced head rest push hrest hfolds =>
      obtain ⟨next, rest, rfl⟩ := List.exists_cons_of_ne_nil hrest
      obtain ⟨value, hvalue⟩ := hfolds.exists_triple
      have hpush := Instruction.smallestPush?_spec hvalue
      have hsize := Instruction.size_smallestPush? hvalue
      refine .replaced ?_ ?_ ?_ ?_
      · intro e he
        exact hfolds.isLocal hpush.1 e.2 (List.mem_map.2 ⟨e, he, rfl⟩)
      · intro ins hins
        rw [List.mem_singleton.1 hins]
        exact ⟨Instruction.isLocal_of_isConstant (Fusion.isConstant_of_pushedInteger? hpush.1),
          hpush.2.2⟩
      · simp
      · simp only [totalSize_cons, totalSize_nil, List.length_cons]
        omega

/-! ## Fusion -/

namespace Fusion

theorem isLocal_of_op {ins : Instruction} {op : Opcode} (h : ins.op = op)
    (hlocal : op.isLocal = true) : ins.op.isLocal = true := by
  rw [h, hlocal]

/-- A run of appends consists of local instructions. -/
theorem AppendRun.isLocal {run : List Numbered} {values : List Instruction}
    (h : AppendRun run values) : ∀ e ∈ run, e.2.op.isLocal = true := by
  induction h with
  | nil => simp
  | cons hdup hvalue happend _ ih =>
      simp only [List.forall_mem_cons]
      exact ⟨isLocal_of_op hdup rfl, Instruction.isLocal_of_isConstant hvalue,
        isLocal_of_op happend rfl, ih⟩

/-- The elements stand in the run, in their order. -/
theorem AppendRun.sublist {run : List Numbered} {values : List Instruction}
    (h : AppendRun run values) : List.Sublist values (run.map (·.2)) := by
  induction h with
  | nil => exact .slnil
  | cons _ _ _ _ ih => exact .cons _ (.cons_cons _ (.cons _ ih))

/-- A run of stores consists of local instructions. -/
theorem StoreRun.isLocal {run : List Numbered} {stores : List (Nat × Instruction)}
    (h : StoreRun run stores) : ∀ e ∈ run, e.2.op.isLocal = true := by
  induction h with
  | nil => simp
  | cons hdup hindex hvalue hstore _ ih =>
      simp only [List.forall_mem_cons]
      exact ⟨isLocal_of_op hdup rfl,
        Instruction.isLocal_of_isConstant (isConstant_of_pushedInteger? hindex),
        Instruction.isLocal_of_isConstant hvalue, isLocal_of_op hstore rfl, ih⟩

theorem StoreRun.sublist {run : List Numbered} {stores : List (Nat × Instruction)}
    (h : StoreRun run stores) : List.Sublist (stores.map (·.2)) (run.map (·.2)) := by
  induction h with
  | nil => exact .slnil
  | cons _ _ _ _ _ ih => exact .cons _ (.cons _ (.cons_cons _ (.cons _ ih)))

namespace BuildsArray

variable {threshold : Nat} {head : Numbered} {run : List Numbered} {values : List Instruction}

theorem isLocal (h : BuildsArray threshold head run values) :
    ∀ e ∈ head :: run, e.2.op.isLocal = true := by
  cases h with
  | appends h => exact List.forall_mem_cons.2 ⟨isLocal_of_op h.head rfl, h.run.isLocal⟩
  | @stores allocation run _ h =>
      obtain ⟨stores, hrun, _⟩ := h.run
      refine List.forall_mem_cons.2 ⟨?_, List.forall_mem_cons.2 ⟨?_, hrun.isLocal⟩⟩
      · exact Instruction.isLocal_of_isConstant (isConstant_of_pushedInteger? h.head)
      · have hsized := h.allocation
        revert hsized
        cases allocation.2.op <;> simp [isSizedAllocation, Opcode.isLocal, Opcode.isBlockEnding,
          Opcode.isTerminal, Opcode.hasSingleTarget]

/-- The elements are among the instructions that build the array. -/
theorem exists_perm (h : BuildsArray threshold head run values) :
    ∃ ws, values.Perm ws ∧ List.Sublist ws (run.map (·.2)) := by
  cases h with
  | appends h => exact ⟨values, .refl _, h.run.sublist⟩
  | stores h =>
      obtain ⟨stores, hrun, hperm⟩ := h.exists_perm
      exact ⟨_, hperm, hrun.sublist.cons _⟩

/-- Building an array takes more instructions than packing it. -/
theorem length_lt (hpos : 0 < threshold) (h : BuildsArray threshold head run values) :
    values.length + 2 < (head :: run).length := by
  have hlength := (h.breaks hpos).2
  cases h with
  | appends h =>
      rw [List.length_cons, h.run.length_eq]
      omega
  | stores h =>
      obtain ⟨stores, hrun, hstores, _⟩ := h.run
      simp only [List.length_cons, hrun.length_eq, hstores]
      omega

theorem proper (hpos : 0 < threshold) (h : BuildsArray threshold head run values)
    (hfits : ∀ e ∈ head :: run, e.2.Fits) {first : Instruction} {others : List Instruction}
    (hpacking : Packing values first others) : (Segment.replaced head run first others).Proper := by
  obtain ⟨push, hpush, heq⟩ := hpacking.exists_push
  obtain ⟨ws, hperm, hsublist⟩ := h.exists_perm
  have hlength := Nat.le_of_lt (h.length_lt hpos)
  refine .replaced h.isLocal ?_ ?_ ?_
  · rw [heq]
    intro ins hins
    simp only [List.mem_append, List.mem_reverse, List.mem_cons, List.not_mem_nil, or_false] at hins
    rcases hins with hvalue | rfl | rfl
    · refine ⟨Instruction.isLocal_of_isConstant (h.isConstant ins hvalue), ?_⟩
      obtain ⟨e, he, rfl⟩ := List.mem_map.1 (hsublist.subset (hperm.subset hvalue))
      exact hfits e (List.mem_cons_of_mem _ he)
    · have hspec := Instruction.smallestPush?_spec hpush
      exact ⟨Instruction.isLocal_of_isConstant (isConstant_of_pushedInteger? hspec.1), hspec.2.2⟩
    · exact ⟨rfl, rfl⟩
  · rw [heq]
    simpa using hlength
  · -- The elements were pushed before as well, in some order and between other instructions.
    have hvalues : totalSize values ≤ totalSize (run.map (·.2)) := by
      rw [totalSize_perm hperm]
      exact totalSize_sublist hsublist
    have hsize := Instruction.size_smallestPush? hpush
    have hpack : (Instruction.simple .pack).size = 1 := rfl
    have hnews : totalSize (first :: others) = totalSize values + (push.size + 1) := by
      rw [heq, totalSize_append, totalSize_perm (List.reverse_perm values)]
      simp [hpack]
    rw [hnews, List.map_cons, totalSize_cons]
    omega

end BuildsArray

/-- Every segment of fusion may be relocated. -/
theorem FusedInto.proper {threshold : Nat} (hpos : 0 < threshold) {block : List Numbered}
    {segments : List Segment} (h : FusedInto threshold block segments)
    (hfits : ∀ e ∈ block, e.2.Fits) : ∀ s ∈ segments, s.Proper := by
  induction h with
  | nil => simp
  | keep _ _ _ ih =>
      rw [List.forall_mem_cons] at hfits
      exact List.forall_mem_cons.2 ⟨.kept _, ih hfits.2⟩
  | @array head run after values others first segments harray _ hpacking _ ih =>
      rw [List.forall_mem_cons, List.forall_mem_append] at hfits
      refine List.forall_mem_cons.2 ⟨?_, ih hfits.2.2⟩
      exact harray.proper hpos (List.forall_mem_cons.2 ⟨hfits.1, hfits.2.1⟩) hpacking

end Fusion

end NeoScript
