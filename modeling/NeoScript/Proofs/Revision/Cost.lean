import NeoScript.Proofs.Revision.Strategy

/-!
# Cost — replacements are shorter and cheaper

* `totalPrice` — the price of executing every instruction once;
* `Cheaper` — fewer instructions for a lower price;
* `Segment.Saves` — a segment that stays, or is replaced by something cheaper;
* `FoldedAs.saves`, `Fusion.FusedInto.saves` — folding and fusion replace segments in this way;
* `Segment.cheaper_flatMap` — one replaced segment makes the whole cheaper.
-/

namespace NeoScript

/-! ## Prices -/

def totalPrice : List Instruction → Nat
  | [] => 0
  | ins :: rest => ins.op.price + totalPrice rest

@[simp] theorem totalPrice_nil : totalPrice [] = 0 := rfl

@[simp] theorem totalPrice_cons (ins : Instruction) (rest : List Instruction) :
    totalPrice (ins :: rest) = ins.op.price + totalPrice rest := rfl

@[simp] theorem totalPrice_append (xs ys : List Instruction) :
    totalPrice (xs ++ ys) = totalPrice xs + totalPrice ys := by
  induction xs with
  | nil => simp
  | cons ins rest ih => simp [ih, Nat.add_assoc]

theorem totalPrice_eq_sum (xs : List Instruction) : totalPrice xs = (xs.map (·.op.price)).sum := by
  induction xs with
  | nil => rfl
  | cons ins rest ih => simp [ih]

theorem totalPrice_perm {xs ys : List Instruction} (h : xs.Perm ys) :
    totalPrice xs = totalPrice ys := by
  rw [totalPrice_eq_sum, totalPrice_eq_sum]
  exact (h.map _).sum_nat

namespace Opcode

/-- Reach is free. -/
@[simp] theorem price_toLong (op : Opcode) : op.toLong.price = op.price := by
  cases op <;> rfl

/-- Pushing an integer costs at most four. -/
theorem price_of_isIntPush {op : Opcode} (h : op.isIntPush = true) : op.price ≤ 4 := by
  revert h
  cases op <;> simp only [isIntPush, Bool.false_eq_true, false_implies, true_implies]
  case pushInt width => cases width <;> decide
  case pushMinusOne => decide
  case pushSmall value => exact Nat.le_of_ble_eq_true rfl

end Opcode

structure Cheaper (news olds : List Instruction) : Prop where
  length : news.length < olds.length
  price : totalPrice news < totalPrice olds

theorem Cheaper.trans {xs ys zs : List Instruction} (h : Cheaper xs ys) (h' : Cheaper ys zs) :
    Cheaper xs zs :=
  ⟨Nat.lt_trans h.length h'.length, Nat.lt_trans h.price h'.price⟩

/-- A segment that stays, or is replaced by something cheaper. -/
inductive Segment.Saves : Segment → Prop where
  | kept (entry : Numbered) : Saves (.kept entry)
  | replaced {head : Numbered} {rest : List Numbered} {first : Instruction}
      {others : List Instruction} (h : Cheaper (first :: others) ((head :: rest).map (·.2))) :
      Saves (.replaced head rest first others)

/-! ## Folding -/

/-- Every operation that is evaluated costs eight. -/
theorem price_of_evaluate {policy : ArithmeticPolicy} {op : Opcode} {x y value : Int}
    (h : policy.evaluate op x y = some value) : op.price = 8 := by
  revert h
  cases op <;> simp only [ArithmeticPolicy.evaluate, reduceCtorEq, false_implies]
  case arith operation => exact fun _ => rfl

/-- An operation costs more than any push of an integer. -/
theorem Folds.cheaper {policy : ArithmeticPolicy} {x y : Instruction} {xs : List Instruction}
    {push : Instruction} (h : Folds policy (x :: y :: xs) push) :
    Cheaper [push] (x :: y :: xs) := by
  refine ⟨by simp, ?_⟩
  generalize hlist : x :: y :: xs = list at h
  cases h with
  | single ins => cases hlist
  | triple _ _ hpush =>
      -- The operation alone costs 8, and a push at most 4.
      obtain ⟨_, _, value, _, _, hvalue, hsmallest⟩ := foldTriple?_eq_some_iff.1 hpush
      have hop := price_of_evaluate hvalue
      have hprice := Opcode.price_of_isIntPush (Instruction.smallestPush?_spec hsmallest).2.1
      simp only [totalPrice_append, totalPrice_cons, totalPrice_nil]
      omega

/-- A fold saves the operation and a push. -/
theorem FoldedAs.saves {policy : ArithmeticPolicy} {s : Segment} (h : FoldedAs policy s) :
    s.Saves := by
  cases h with
  | kept entry => exact .kept entry
  | replaced hrest hfolds =>
      obtain ⟨next, rest, rfl⟩ := List.exists_cons_of_ne_nil hrest
      exact .replaced hfolds.cheaper

/-! ## Fusion -/

namespace Fusion

/-- Each append costs 8192 besides its element. -/
theorem AppendRun.totalPrice_le {run : List Numbered} {values : List Instruction}
    (h : AppendRun run values) :
    totalPrice values + 8192 * values.length ≤ totalPrice (run.map (·.2)) := by
  induction h with
  | nil => simp
  | cons _ _ happend _ ih =>
      have hprice : Opcode.append.price = 8192 := rfl
      simp only [List.map_cons, totalPrice_cons, happend, hprice, List.length_cons]
      omega

/-- Each store costs 8192 besides its element. -/
theorem StoreRun.totalPrice_le {run : List Numbered} {stores : List (Nat × Instruction)}
    (h : StoreRun run stores) :
    totalPrice (stores.map (·.2)) + 8192 * stores.length ≤ totalPrice (run.map (·.2)) := by
  induction h with
  | nil => simp
  | cons _ _ _ hstore _ ih =>
      have hprice : Opcode.setItem.price = 8192 := rfl
      simp only [List.map_cons, totalPrice_cons, hstore, hprice, List.length_cons]
      omega

namespace BuildsArray

variable {threshold : Nat} {head : Numbered} {run : List Numbered} {values : List Instruction}

/-- Each element costs as much as an append or a store. -/
theorem totalPrice_le (h : BuildsArray threshold head run values) :
    totalPrice values + 8192 * values.length ≤ totalPrice ((head :: run).map (·.2)) := by
  rw [List.map_cons, totalPrice_cons]
  cases h with
  | appends h =>
      have hrun := h.run.totalPrice_le
      omega
  | stores h =>
      obtain ⟨stores, hrun, hperm⟩ := h.exists_perm
      have hprice := hrun.totalPrice_le
      have hlength := hperm.length_eq
      rw [← totalPrice_perm hperm] at hprice
      rw [List.length_map] at hlength
      rw [List.map_cons, totalPrice_cons, hlength]
      omega

/-- One pack costs less than one append or store. -/
theorem cheaper (hpos : 0 < threshold) (h : BuildsArray threshold head run values)
    {first : Instruction} {others : List Instruction} (hpacking : Packing values first others) :
    Cheaper (first :: others) ((head :: run).map (·.2)) := by
  obtain ⟨push, hpush, heq⟩ := hpacking.exists_push
  have hlength := h.length_lt hpos
  have hprice := h.totalPrice_le
  have hsmall := Opcode.price_of_isIntPush (Instruction.smallestPush?_spec hpush).2.1
  have hvalues := (h.breaks hpos).2
  have hpack : (Instruction.simple .pack).op.price = 2048 := rfl
  -- The new count and the pack cost at most 4 + 2048, and there is at least one element to pay for
  -- it.
  rw [heq]
  refine ⟨by simpa using hlength, ?_⟩
  rw [totalPrice_append, totalPrice_perm (List.reverse_perm values)]
  simp only [totalPrice_cons, totalPrice_nil, hpack]
  omega

end BuildsArray

/-- A fused array saves all appends or stores for one packing. -/
theorem FusedInto.saves {threshold : Nat} (hpos : 0 < threshold) {block : List Numbered}
    {segments : List Segment} (h : FusedInto threshold block segments) :
    ∀ s ∈ segments, s.Saves := by
  induction h with
  | nil => simp
  | keep _ _ _ ih => exact List.forall_mem_cons.2 ⟨.kept _, ih⟩
  | array harray _ hpacking _ ih =>
      exact List.forall_mem_cons.2 ⟨.replaced (harray.cheaper hpos hpacking), ih⟩

end Fusion

/-- No strategy makes a block dearer. -/
theorem Strategy.Allows.saves {s : Strategy} {segments : List Segment} {count : Nat}
    (h : s.Allows segments count) : ∀ x ∈ segments, x.Saves := by
  cases s with
  | folding policy => exact fun x hx => (h.folded x hx).saves
  | fusion threshold => exact h.fused.saves (threshold_pos threshold)

/-! ## Whole programs -/

namespace Segment

variable {segments : List Segment}

/-- Segments that save do not cost more together. -/
theorem flatMap_le (h : ∀ s ∈ segments, s.Saves) :
    (segments.flatMap news).length ≤ (segments.flatMap olds).length ∧
      totalPrice (segments.flatMap news) ≤ totalPrice ((segments.flatMap olds).map (·.2)) := by
  induction segments with
  | nil => simp
  | cons s segments ih =>
      rw [List.forall_mem_cons] at h
      obtain ⟨hlength, hprice⟩ := ih h.2
      simp only [List.flatMap_cons, List.length_append, List.map_append, totalPrice_append]
      cases h.1 with
      | kept entry =>
          simp only [news, olds, List.length_singleton, List.map_cons, List.map_nil,
            totalPrice_cons, totalPrice_nil]
          omega
      | replaced hcheaper =>
          have hshorter := hcheaper.length
          have hless := hcheaper.price
          rw [List.length_map] at hshorter
          simp only [news, olds]
          omega

/-- One replaced segment makes the whole cheaper. -/
theorem cheaper_flatMap (h : ∀ s ∈ segments, s.Saves)
    (hreplaced : ∃ s ∈ segments, s.isKept = false) :
    Cheaper (segments.flatMap news) ((segments.flatMap olds).map (·.2)) := by
  obtain ⟨s, hs, hkept⟩ := hreplaced
  -- What stands around the replaced segment does not cost more.
  obtain ⟨before, after, rfl⟩ := List.append_of_mem hs
  rw [List.forall_mem_append, List.forall_mem_cons] at h
  have hbefore := flatMap_le h.1
  have hafter := flatMap_le h.2.2
  cases h.2.1 with
  | kept entry => cases hkept
  | replaced hcheaper =>
      have hshorter := hcheaper.length
      have hless := hcheaper.price
      rw [List.length_map] at hshorter
      constructor
      · simp only [List.flatMap_append, List.flatMap_cons, List.length_append, List.length_map,
          news, olds]
        omega
      · simp only [List.flatMap_append, List.flatMap_cons, List.map_append, totalPrice_append,
          news, olds]
        omega

end Segment

/-- A strategy that did something made the program cheaper. -/
theorem Strategy.cheaper_of_allows {s : Strategy} {parts : List (List Segment)} {counts : List Nat}
    (h : List.Forall₂ s.Allows parts counts) (hcounts : 0 < counts.sum) :
    Cheaper (parts.flatten.flatMap Segment.news)
      ((parts.flatten.flatMap Segment.olds).map (·.2)) := by
  refine Segment.cheaper_flatMap (fun x hx => ?_) (exists_replaced_of_allows h hcounts)
  obtain ⟨segments, count, hallows, hmem⟩ := exists_allows h hx
  exact hallows.saves x hmem

end NeoScript
