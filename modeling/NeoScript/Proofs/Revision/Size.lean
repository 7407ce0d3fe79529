import NeoScript.Proofs.Revision.Strategy

/-!
# Size — packed arrays are shorter

An append takes two bytes besides its value, and a store three at least.  Packing takes one byte,
and at most three for the number of elements; three elements are enough to gain.

* `Segment.Shrinks` — a segment that is not longer than what it replaces;
* `Instruction.size_smallestPush?_natCast` — the number of elements takes three bytes at most;
* `Fusion.BuildsArray.totalSize_lt`, `Fusion.FusedInto.shortens` — fusion replaces segments by
  shorter ones;
* `Strategy.totalSize_lt_of_fusion` — where fusion changes something, the whole is shorter.
-/

namespace NeoScript

namespace Segment

def Shrinks (s : Segment) : Prop :=
  totalSize s.news ≤ totalSize (s.olds.map (·.2))

theorem shrinks_kept (entry : Numbered) : (kept entry).Shrinks :=
  Nat.le_refl _

/-- A segment that stays, or is replaced by something shorter. -/
inductive Shortens : Segment → Prop where
  | kept (entry : Numbered) : Shortens (.kept entry)
  | replaced {head : Numbered} {rest : List Numbered} {first : Instruction}
      {others : List Instruction}
      (h : totalSize (first :: others) < totalSize ((head :: rest).map (·.2))) :
      Shortens (.replaced head rest first others)

theorem Shortens.shrinks {s : Segment} (h : s.Shortens) : s.Shrinks := by
  cases h with
  | kept entry => exact shrinks_kept entry
  | replaced h => exact Nat.le_of_lt h

/-- If no segment gets longer, the whole does not. -/
theorem totalSize_flatMap_news_le {segments : List Segment} (h : ∀ s ∈ segments, s.Shrinks) :
    totalSize (segments.flatMap news) ≤ totalSize ((segments.flatMap olds).map (·.2)) := by
  induction segments with
  | nil => exact Nat.le_refl _
  | cons s segments ih =>
      rw [List.forall_mem_cons] at h
      simp only [List.flatMap_cons, totalSize_append, List.map_append]
      exact Nat.add_le_add h.1 (ih h.2)

/-- One replaced segment makes the whole shorter. -/
theorem totalSize_flatMap_news_lt {segments : List Segment} (h : ∀ s ∈ segments, s.Shortens)
    (hreplaced : ∃ s ∈ segments, s.isKept = false) :
    totalSize (segments.flatMap news) < totalSize ((segments.flatMap olds).map (·.2)) := by
  obtain ⟨s, hs, hkept⟩ := hreplaced
  obtain ⟨before, after, rfl⟩ := List.append_of_mem hs
  have hbefore : ∀ x ∈ before, x.Shrinks := fun x hx => (h x (by simp [hx])).shrinks
  have hafter : ∀ x ∈ after, x.Shrinks := fun x hx => (h x (by simp [hx])).shrinks
  have hfront := totalSize_flatMap_news_le hbefore
  have hback := totalSize_flatMap_news_le hafter
  have hlt : totalSize s.news < totalSize (s.olds.map (·.2)) := by
    cases h s hs with
    | kept => cases hkept
    | replaced hlt => exact hlt
  simp only [List.flatMap_append, List.flatMap_cons, List.map_append, totalSize_append]
  omega

end Segment

/-! ## Counts -/

namespace Instruction

theorem size_of_op {ins : Instruction} {op : Opcode} (h : ins.op = op)
    (hlayout : op.layout = .empty) : ins.size = 1 := by
  rw [size, sizeOf, h, hlayout]

/-- The number of elements of a fused array takes three bytes at most. -/
theorem size_smallestPush?_natCast {n : Nat} (hn : n ≤ 1024) {push : Instruction}
    (h : smallestPush? (n : Int) = some push) : push.size ≤ 3 := by
  have hfits : Bytes.fitsSigned 2 (n : Int) = true := by
    rw [Bytes.fitsSigned_iff, show (Nat.pow 2 (8 * 2 - 1) : Int) = 32768 by decide]
    omega
  have hpushed : (unplaced (.pushInt .w2) (Bytes.ofInt 2 (n : Int))).pushedInteger? =
      some (n : Int) :=
    congrArg some (Bytes.toInt_ofInt (by decide) hfits)
  have hplain : (unplaced (.pushInt .w2) (Bytes.ofInt 2 (n : Int))).Fits := Bytes.length_ofNat _ _
  exact size_smallestPush?_le h hplain hpushed

end Instruction

/-! ## Fusion -/

namespace Fusion

/-- An append takes two bytes besides its element. -/
theorem AppendRun.totalSize_eq {run : List Numbered} {values : List Instruction}
    (h : AppendRun run values) :
    totalSize (run.map (·.2)) = totalSize values + 2 * values.length := by
  induction h with
  | nil => rfl
  | cons hdup _ happend _ ih =>
      have hdup := Instruction.size_of_op hdup rfl
      have happend := Instruction.size_of_op happend rfl
      simp only [List.map_cons, totalSize_cons, List.length_cons]
      omega

/-- A store takes at least three bytes besides its element. -/
theorem StoreRun.le_totalSize {run : List Numbered} {stores : List (Nat × Instruction)}
    (h : StoreRun run stores) :
    totalSize (stores.map (·.2)) + 3 * stores.length ≤ totalSize (run.map (·.2)) := by
  induction h with
  | nil => exact Nat.le_refl _
  | @cons dup index value store run stores i hdup _ _ hstore _ ih =>
      have hdup := Instruction.size_of_op hdup rfl
      have hstore := Instruction.size_of_op hstore rfl
      have hindex := index.2.size_pos
      simp only [List.map_cons, totalSize_cons, List.length_cons]
      omega

namespace BuildsArray

variable {threshold : Nat} {head : Numbered} {run : List Numbered} {values : List Instruction}

theorem fuses (h : BuildsArray threshold head run values) :
    threshold ≤ values.length ∧ values.length ≤ maxElements := by
  cases h with
  | appends h => simpa [Fusion.fuses] using h.fuses
  | stores h => simpa [Fusion.fuses] using h.fuses

/-- Each element takes two bytes besides its value. -/
theorem le_totalSize (h : BuildsArray threshold head run values) :
    totalSize values + 2 * values.length + 1 ≤ totalSize ((head :: run).map (·.2)) := by
  have hhead := head.2.size_pos
  rw [List.map_cons, totalSize_cons]
  cases h with
  | appends h =>
      have hrun := h.run.totalSize_eq
      omega
  | stores h =>
      obtain ⟨stores, hrun, hperm⟩ := h.exists_perm
      have hsize := hrun.le_totalSize
      have hlength := hperm.length_eq
      rw [List.length_map] at hlength
      rw [← totalSize_perm hperm] at hsize
      rw [List.map_cons, totalSize_cons]
      omega

/-- Three elements are enough to pay for the pack. -/
theorem totalSize_lt (hthree : leastThreshold ≤ threshold)
    (h : BuildsArray threshold head run values)
    {first : Instruction} {others : List Instruction} (hpacking : Packing values first others) :
    totalSize (first :: others) < totalSize ((head :: run).map (·.2)) := by
  obtain ⟨push, hpush, heq⟩ := hpacking.exists_push
  have hbounds := h.fuses
  have hsize := h.le_totalSize
  have hcount := Instruction.size_smallestPush?_natCast hbounds.2 hpush
  have hpack : (Instruction.simple .pack).size = 1 := rfl
  rw [heq, totalSize_append, totalSize_perm (List.reverse_perm values)]
  simp only [totalSize_cons, totalSize_nil, hpack]
  unfold leastThreshold at hthree
  omega

end BuildsArray

/-- From the least threshold on, packing is shorter. -/
theorem FusedInto.shortens {threshold : Nat} (hthree : leastThreshold ≤ threshold)
    {block : List Numbered} {segments : List Segment} (h : FusedInto threshold block segments) :
    ∀ s ∈ segments, s.Shortens := by
  induction h with
  | nil => simp
  | keep _ _ _ ih => exact List.forall_mem_cons.2 ⟨.kept _, ih⟩
  | array harray _ hpacking _ ih =>
      exact List.forall_mem_cons.2 ⟨.replaced (harray.totalSize_lt hthree hpacking), ih⟩

end Fusion

/-! ## Whole programs -/

namespace Strategy

variable {threshold : Nat} {parts : List (List Segment)} {counts : List Nat}

theorem shortens_of_fusion (h : List.Forall₂ (fusion threshold).Allows parts counts) :
    ∀ s ∈ parts.flatten, s.Shortens := by
  intro s hs
  obtain ⟨segments, count, hallows, hmem⟩ := exists_allows h hs
  exact hallows.fused.shortens (Nat.le_max_right ..) s hmem

/-- Where fusion changes something, the whole is shorter. -/
theorem totalSize_lt_of_fusion (h : List.Forall₂ (fusion threshold).Allows parts counts)
    (hcounts : 0 < counts.sum) :
    totalSize (parts.flatten.flatMap Segment.news) <
      totalSize ((parts.flatten.flatMap Segment.olds).map (·.2)) :=
  Segment.totalSize_flatMap_news_lt (shortens_of_fusion h) (exists_replaced_of_allows h hcounts)

end Strategy

end NeoScript
