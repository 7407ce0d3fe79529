import NeoScript.Proofs.Arithmetic
import NeoScript.Proofs.Revision.Segment
import NeoScript.Revision.Folding

/-!
# Folding — what evaluating constants does to a block

* `Folding.step_cases` — an instruction is kept, or evaluated with the two in front of it: the loop
  makes one replacement at most;
* `Folds` — a push stands for the instructions that compute its value;
* `Unfoldable` — no two pushes and an operation stand next to each other that could be evaluated;
* `FoldedAs`, `FoldedInto` — segments of a folded block: a push stands for the instructions that it
  replaces, and nothing is left to evaluate;
* `foldBlock_editsBlocks` — folding edits blocks in this way.
-/

namespace NeoScript

/-- A triple of two pushes and an operation is replaced by the push of its value. -/
theorem foldTriple?_eq_some_iff {policy : ArithmeticPolicy} {a b op push : Instruction} :
    foldTriple? policy a b op = some push ↔
      ∃ x y value, a.pushedInteger? = some x ∧ b.pushedInteger? = some y ∧
        policy.evaluate op.op x y = some value ∧ Instruction.smallestPush? value = some push := by
  simp only [foldTriple?, Option.bind_eq_bind, Option.bind_eq_some_iff]
  constructor
  · rintro ⟨x, hx, y, hy, value, hvalue, hpush⟩
    exact ⟨x, y, value, hx, hy, hvalue, hpush⟩
  · rintro ⟨x, y, value, hx, hy, hvalue, hpush⟩
    exact ⟨x, hx, y, hy, value, hvalue, hpush⟩

/-- A push is no operation, so nothing is evaluated by it. -/
theorem foldTriple?_of_pushedInteger? {policy : ArithmeticPolicy} {push : Instruction} {value : Int}
    (h : push.pushedInteger? = some value) (a b : Instruction) :
    foldTriple? policy a b push = none := by
  have hnone : ∀ x y : Int, policy.evaluate push.op x y = none := by
    intro x y
    cases hop : push.op with
    | arith operation => simp [Instruction.pushedInteger?, hop] at h
    | _ => rfl
  simp [foldTriple?, hnone]

/-- What replaces two pushes and an operation is a push. -/
theorem pushedInteger?_of_foldTriple? {policy : ArithmeticPolicy} {a b op push : Instruction}
    (h : foldTriple? policy a b op = some push) : ∃ value, push.pushedInteger? = some value := by
  obtain ⟨_, _, value, _, _, _, hpush⟩ := foldTriple?_eq_some_iff.1 h
  exact ⟨value, (Instruction.smallestPush?_spec hpush).1⟩

namespace Folding

variable {policy : ArithmeticPolicy}

/-- Without two pushes to evaluate, the instruction is put behind the output. -/
theorem reduce_of_none {last : Numbered} {output : List Numbered}
    (h : ∀ a b rest, output = b :: a :: rest → foldTriple? policy a.2 b.2 last.2 = none)
    (folds : Nat) (program : Revision) :
    reduce policy last output folds program = ⟨last :: output, folds, program⟩ := by
  cases output with
  | nil => rfl
  | cons b output =>
      cases output with
      | nil => rfl
      | cons a rest => rw [reduce, h a b rest rfl]

/-- The loop goes on behind a replacement, and finds a push there. -/
theorem reduce_of_foldTriple? {op a b : Numbered} {push : Instruction}
    (h : foldTriple? policy a.2 b.2 op.2 = some push) (rest : List Numbered) (folds : Nat)
    (program : Revision) :
    reduce policy op (b :: a :: rest) folds program =
      ⟨((program.standIn push a.1).1, push) :: rest, folds + 1, (program.standIn push a.1).2⟩ := by
  obtain ⟨value, hvalue⟩ := pushedInteger?_of_foldTriple? h
  rw [reduce, h]
  exact reduce_of_none (fun a b _ _ => foldTriple?_of_pushedInteger? hvalue a.2 b.2) _ _

/-- A step makes one fold at the end of the output, or none. -/
theorem step_cases (policy : ArithmeticPolicy) (s : Folding) (entry : Numbered) :
    (∃ a b rest push, s.output = b :: a :: rest ∧ foldTriple? policy a.2 b.2 entry.2 = some push ∧
      step policy s entry =
        ⟨((s.program.standIn push a.1).1, push) :: rest, s.folds + 1,
          (s.program.standIn push a.1).2⟩) ∨
    (∀ a b rest, s.output = b :: a :: rest → foldTriple? policy a.2 b.2 entry.2 = none) ∧
      step policy s entry = ⟨entry :: s.output, s.folds, s.program⟩ := by
  by_cases h : ∃ a b rest push, s.output = b :: a :: rest ∧
    foldTriple? policy a.2 b.2 entry.2 = some push
  · obtain ⟨a, b, rest, push, houtput, hpush⟩ := h
    refine .inl ⟨a, b, rest, push, houtput, hpush, ?_⟩
    rw [step, houtput, reduce_of_foldTriple? hpush]
  · have hnone : ∀ a b rest, s.output = b :: a :: rest →
      foldTriple? policy a.2 b.2 entry.2 = none := by
      intro a b rest houtput
      exact Option.eq_none_iff_forall_ne_some.2 fun push hpush =>
        h ⟨a, b, rest, push, houtput, hpush⟩
    exact .inr ⟨hnone, reduce_of_none hnone _ _⟩

/-- The loop folds at most once for each instruction. -/
theorem folds_step_le (policy : ArithmeticPolicy) (s : Folding) (entry : Numbered) :
    (step policy s entry).folds ≤ s.folds + 1 := by
  obtain ⟨_, _, _, _, _, _, hstep⟩ | ⟨_, hstep⟩ := step_cases policy s entry
  · exact Nat.le_of_eq (congrArg Folding.folds hstep)
  · rw [hstep]
    exact Nat.le_succ _

end Folding

/-- An instruction stands for others: for itself, or for two groups of instructions and an operation
on their values. -/
inductive Folds (policy : ArithmeticPolicy) : List Instruction → Instruction → Prop where
  | single (ins : Instruction) : Folds policy [ins] ins
  | triple {xs ys : List Instruction} {a b op push : Instruction} (ha : Folds policy xs a)
      (hb : Folds policy ys b) (hpush : foldTriple? policy a b op = some push) :
      Folds policy (xs ++ ys ++ [op]) push

def Unfoldable (policy : ArithmeticPolicy) (xs : List Instruction) : Prop :=
  ∀ a b op, [a, b, op] <:+: xs → foldTriple? policy a b op = none

namespace Unfoldable

variable {policy : ArithmeticPolicy} {xs ys : List Instruction} {ins : Instruction}

/-- A part of a block that cannot be folded cannot be folded. -/
theorem of_infix (h : Unfoldable policy xs) (hpart : ys <:+: xs) : Unfoldable policy ys :=
  fun a b op hmem => h a b op (hmem.trans hpart)

theorem nil : Unfoldable policy [] := by
  intro a b op h
  have hlength := h.length_le
  simp at hlength

/-- Three instructions in a row either stand in front of the last one or end with it. -/
theorem append_singleton (h : Unfoldable policy xs)
    (hlast : ∀ zs a b, xs = zs ++ [a, b] → foldTriple? policy a b ins = none) :
    Unfoldable policy (xs ++ [ins]) := by
  rintro a b op ⟨before, after, heq⟩
  rcases List.eq_nil_or_concat after with rfl | ⟨after, last, rfl⟩
  · have hsplit : (before ++ [a, b]) ++ [op] = xs ++ [ins] := by simpa using heq
    rcases List.append_inj' hsplit rfl with ⟨hxs, hop⟩
    cases hop
    exact hlast before a b hxs.symm
  · have hsplit : (before ++ [a, b, op] ++ after) ++ [last] = xs ++ [ins] := by simpa using heq
    rcases List.append_inj' hsplit rfl with ⟨hxs, _⟩
    exact h a b op ⟨before, after, hxs⟩

/-- The push that takes the place of the last two instructions and an operation is no operation. -/
theorem append_push {a b op push : Instruction} (h : Unfoldable policy (xs ++ [a, b]))
    (hpush : foldTriple? policy a b op = some push) : Unfoldable policy (xs ++ [push]) := by
  obtain ⟨value, hvalue⟩ := pushedInteger?_of_foldTriple? hpush
  apply append_singleton (h.of_infix (List.prefix_append _ _).isInfix)
  intro _ x y _
  exact foldTriple?_of_pushedInteger? hvalue x y

end Unfoldable

/-- A segment stays, or one push replaces several instructions. -/
inductive FoldedAs (policy : ArithmeticPolicy) : Segment → Prop where
  | kept (entry : Numbered) : FoldedAs policy (.kept entry)
  | replaced {head : Numbered} {rest : List Numbered} {push : Instruction} (hrest : rest ≠ [])
      (hfolds : Folds policy ((head :: rest).map (·.2)) push) :
      FoldedAs policy (.replaced head rest push [])

structure FoldedInto (policy : ArithmeticPolicy) (segments : List Segment) (count : Nat) :
    Prop where
  folded : ∀ s ∈ segments, FoldedAs policy s
  unfoldable : Unfoldable policy (segments.flatMap Segment.news)
  kept : count = 0 → ∀ s ∈ segments, s.isKept = true
  stays : Unfoldable policy ((segments.flatMap Segment.olds).map (·.2)) → count = 0

namespace Folding

/-- An instruction of the output and the segment that it stands for. -/
inductive Row (policy : ArithmeticPolicy) : Segment → Numbered → Prop where
  | kept (entry : Numbered) : Row policy (.kept entry) entry
  | replaced {head : Numbered} {rest : List Numbered} {id : InstrId} {push : Instruction}
      (hrest : rest ≠ []) (hfolds : Folds policy ((head :: rest).map (·.2)) push) :
      Row policy (.replaced head rest push []) (id, push)

namespace Row

variable {policy : ArithmeticPolicy} {s : Segment} {entry : Numbered}

/-- A row stands for a nest of folds. -/
theorem folds (h : Row policy s entry) :
    s.news = [entry.2] ∧ Folds policy (s.olds.map (·.2)) entry.2 := by
  cases h with
  | kept => exact ⟨rfl, .single _⟩
  | replaced _ hfolds => exact ⟨rfl, hfolds⟩

theorem foldedAs (h : Row policy s entry) : FoldedAs policy s := by
  cases h with
  | kept => exact .kept _
  | replaced hrest hfolds => exact .replaced hrest hfolds

/-- The one piece of a row stands in for the first instruction. -/
theorem exists_piece (h : Row policy s entry) :
    ∃ piece head rest, s.pieces = [piece] ∧ s.olds = head :: rest ∧ piece.id? = some head.1 := by
  cases h with
  | kept => exact ⟨_, _, _, rfl, rfl, rfl⟩
  | replaced => exact ⟨_, _, _, rfl, rfl, rfl⟩

/-- Rows show the output, the last one first. -/
theorem flatMap_news {rows : List Segment} {output : List Numbered}
    (h : List.Forall₂ (Row policy) rows output) :
    rows.flatMap Segment.news = output.map (·.2) := by
  induction h with
  | nil => rfl
  | cons hrow _ ih => rw [List.flatMap_cons, List.map_cons, hrow.folds.1, ih, List.singleton_append]

end Row

/-- What holds after some instructions of a block; rows stand in the order of the output, so the
last one comes first. -/
structure Invariant (policy : ArithmeticPolicy) (r : Revision) (seen : List Numbered) (s : Folding)
    (rows : List Segment) : Prop where
  row : List.Forall₂ (Row policy) rows s.output
  olds : rows.reverse.flatMap Segment.olds = seen
  edited : Edited r (seen.map (·.1)) (rows.reverse.flatMap Segment.pieces)
    (s.output.reverse.map (·.1)) s.program
  unfoldable : Unfoldable policy (s.output.reverse.map (·.2))
  kept : s.folds = 0 → ∀ row ∈ rows, row.isKept = true
  stays : Unfoldable policy (seen.map (·.2)) → s.folds = 0 ∧ s.output.reverse = seen

variable {policy : ArithmeticPolicy} {r : Revision} {seen : List Numbered} {s : Folding}
  {rows : List Segment} {entry : Numbered}

/-- An instruction that cannot be evaluated with the two in front of it is kept. -/
theorem Invariant.keep (h : Invariant policy r seen s rows) (hseen : ∀ e ∈ seen, e.1 < r.arena.size)
    (hentry : entry.1 < r.arena.size) (hnew : entry.1 ∉ seen.map (·.1))
    (hlast : ∀ a b rest, s.output = b :: a :: rest → foldTriple? policy a.2 b.2 entry.2 = none) :
    Invariant policy r (seen ++ [entry]) ⟨entry :: s.output, s.folds, s.program⟩
      (.kept entry :: rows) := by
  have hids : ∀ id ∈ seen.map (·.1), id < r.arena.size := by
    intro id hid
    obtain ⟨e, he, rfl⟩ := List.mem_map.1 hid
    exact hseen e he
  refine ⟨.cons (.kept entry) h.row, ?_, ?_, ?_, ?_, ?_⟩
  · simp [h.olds, Segment.olds]
  · -- The instruction that is added is in no row so far.
    have hone : Edited s.program [entry.1] [.keep entry.1] [entry.1] s.program :=
      Edited.keepAll h.edited.exact (List.nodup_singleton _)
    have hboth := h.edited.append hone hids (by simpa using hentry) (by simpa using hnew)
    simpa [Segment.pieces] using hboth
  · simp only [List.reverse_cons, List.map_append, List.map_cons, List.map_nil]
    refine h.unfoldable.append_singleton ?_
    intro zs a b hout
    have houtput : s.output.map (·.2) = b :: a :: zs.reverse := by
      have hreverse := congrArg List.reverse hout
      simpa [← List.map_reverse] using hreverse
    obtain ⟨last, others, hs, rfl, hothers⟩ := List.map_eq_cons_iff.1 houtput
    obtain ⟨second, rest, hrest, rfl, _⟩ := List.map_eq_cons_iff.1 hothers
    exact hlast second last rest (by rw [hs, hrest])
  · intro hzero row hrow
    rcases List.mem_cons.1 hrow with rfl | hrow
    · rfl
    · exact h.kept hzero row hrow
  · intro hunfoldable
    have hprefix : seen.map (·.2) <:+: (seen ++ [entry]).map (·.2) := by
      simpa using (List.prefix_append (seen.map (·.2)) [entry.2]).isInfix
    obtain ⟨hzero, houtput⟩ := h.stays (hunfoldable.of_infix hprefix)
    exact ⟨hzero, by simp [houtput]⟩

/-- Two rows and an operation become one row. -/
theorem Invariant.replace {a b : Numbered} {rest : List Numbered} {push : Instruction}
    (h : Invariant policy r seen s rows) (hseen : ∀ e ∈ seen, e.1 < r.arena.size)
    (houtput : s.output = b :: a :: rest) (hpush : foldTriple? policy a.2 b.2 entry.2 = some push) :
    ∃ rows', Invariant policy r (seen ++ [entry])
      ⟨((s.program.standIn push a.1).1, push) :: rest, s.folds + 1, (s.program.standIn push a.1).2⟩
      rows' := by
  have hids : ∀ id ∈ seen.map (·.1), id < r.arena.size := by
    intro id hid
    obtain ⟨e, he, rfl⟩ := List.mem_map.1 hid
    exact hseen e he
  have hrow := h.row
  rw [houtput] at hrow
  -- The last two rows are the operands.
  obtain ⟨second, rows₁, hb, hrows₁, rfl⟩ := List.forall₂_cons_right_iff.1 hrow
  obtain ⟨first, rows₀, ha, hrows₀, rfl⟩ := List.forall₂_cons_right_iff.1 hrows₁
  obtain ⟨piece, head, others, hpieces, holds, hid⟩ := ha.exists_piece
  obtain ⟨piece', _, _, hpieces', _, _⟩ := hb.exists_piece
  have hfolds := Folds.triple ha.folds.2 hb.folds.2 hpush
  refine ⟨.replaced head (others ++ second.olds ++ [entry]) push [] :: rows₀,
    .cons (.replaced (by simp) ?_) hrows₀, ?_, ?_, ?_, ?_, ?_⟩
  · simpa [holds] using hfolds
  · have hseen' := h.olds
    simp only [List.reverse_cons, List.append_assoc, List.flatMap_append, List.cons_append,
      List.nil_append, List.flatMap_cons, List.flatMap_nil, List.append_nil] at hseen' ⊢
    rw [← hseen', holds]
    simp [Segment.olds]
  · have hedited := h.edited
    simp only [houtput, List.reverse_cons, List.append_assoc, List.flatMap_append, List.cons_append,
      List.nil_append, List.flatMap_cons, List.flatMap_nil, List.append_nil, hpieces, hpieces',
      List.map_append, List.map_cons, List.map_nil] at hedited
    have hmerged := (hedited.merge hids hid push).of_sublist
      (List.sublist_append_left _ [entry.1])
    simpa [Segment.pieces] using hmerged
  · have hunfoldable := h.unfoldable
    simp only [houtput, List.reverse_cons, List.append_assoc, List.map_append, List.map_cons,
      List.map_nil] at hunfoldable ⊢
    exact hunfoldable.append_push hpush
  · intro hzero
    exact absurd hzero (Nat.succ_ne_zero _)
  · -- The triple was there before, so the block could be folded.
    intro hunfoldable
    have hprefix : seen.map (·.2) <:+: (seen ++ [entry]).map (·.2) := by
      simpa using (List.prefix_append (seen.map (·.2)) [entry.2]).isInfix
    obtain ⟨_, hsame⟩ := h.stays (hunfoldable.of_infix hprefix)
    have htriple : [a.2, b.2, entry.2] <:+: (seen ++ [entry]).map (·.2) := by
      refine ⟨rest.reverse.map (·.2), [], ?_⟩
      simp [← hsame, houtput]
    rw [hunfoldable _ _ _ htriple] at hpush
    cases hpush

/-- One instruction more is a new row, or closes the two last ones into one. -/
theorem Invariant.step (h : Invariant policy r seen s rows) (hseen : ∀ e ∈ seen, e.1 < r.arena.size)
    (hentry : entry.1 < r.arena.size) (hnew : entry.1 ∉ seen.map (·.1)) :
    ∃ rows', Invariant policy r (seen ++ [entry]) (Folding.step policy s entry) rows' := by
  obtain ⟨a, b, rest, push, houtput, hpush, hstep⟩ | ⟨hnone, hstep⟩ := step_cases policy s entry
  · rw [hstep]
    exact h.replace hseen houtput hpush
  · rw [hstep]
    exact ⟨_, h.keep hseen hentry hnew hnone⟩

/-- The invariant holds at the end of every block. -/
theorem Invariant.foldl (block : List Numbered) (h : Invariant policy r seen s rows)
    (hknown : ∀ e ∈ seen ++ block, e.1 < r.arena.size)
    (hnodup : ((seen ++ block).map (·.1)).Nodup) :
    ∃ rows', Invariant policy r (seen ++ block) (block.foldl (Folding.step policy) s) rows' := by
  induction block generalizing seen s rows with
  | nil => exact ⟨rows, by simpa using h⟩
  | cons entry block ih =>
      have hnew : entry.1 ∉ seen.map (·.1) := by
        rw [List.map_append, List.nodup_append'] at hnodup
        exact fun hmem => hnodup.2.2 hmem (by simp)
      obtain ⟨rows₁, hstep⟩ := h.step (fun e he => hknown e (List.mem_append_left _ he))
        (hknown entry (by simp)) hnew
      obtain ⟨rows', hrest⟩ := ih hstep (by simpa using hknown) (by simpa using hnodup)
      exact ⟨rows', by simpa using hrest⟩

end Folding

/-- Folding replaces segments by the pushes that stand for them. -/
theorem foldBlock_editsBlocks (policy : ArithmeticPolicy) :
    EditsBlocks (foldBlock policy) (FoldedInto policy) := by
  intro r ids hexact hnodup hknown
  have hids := Revision.map_fst_numbered hknown
  have hstart : Folding.Invariant policy r [] ⟨[], 0, r⟩ [] :=
    ⟨.nil, rfl, .nil hexact, .nil, fun _ _ hrow => (List.not_mem_nil hrow).elim, fun _ =>
      ⟨rfl, rfl⟩⟩
  obtain ⟨rows, hend⟩ := hstart.foldl (r.numbered ids)
    (fun e he => hknown e.1 (Revision.mem_numbered.1 he).1) (by simpa [hids] using hnodup)
  rw [List.nil_append] at hend
  refine ⟨rows.reverse, hend.olds, ⟨?_, ?_, ?_, ?_⟩, ?_⟩
  · intro s hs
    obtain ⟨entry, _, hrow⟩ := Sequencing.exists_right_of_forall₂ hend.row (List.mem_reverse.1 hs)
    exact hrow.foldedAs
  · rw [Folding.Row.flatMap_news (List.rel_reverse hend.row)]
    exact hend.unfoldable
  · intro hzero s hs
    exact hend.kept hzero s (List.mem_reverse.1 hs)
  · intro hunfoldable
    rw [hend.olds] at hunfoldable
    exact (hend.stays hunfoldable).1
  · have hedited := hend.edited
    rw [hids] at hedited
    simpa [foldBlock] using hedited

end NeoScript
