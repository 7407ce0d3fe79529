import NeoScript.Proofs.Arithmetic.Evaluation
import NeoScript.Proofs.Revision.Folding

/-!
# Confluence — every way to fold a block ends in the same block

Constants are folded one triple at a time: two pushes and an operation become the push of their
value, which keeps the origin of the first push.  Whatever triple is taken first, the outcome is the
same, and `foldBlock` finds it in one pass.

* `FoldStep`, `FoldSteps` — one fold anywhere in a block, and a number of them;
* `FoldNormal` — no three instructions are left that could be folded;
* `absorb`, `reduced` — the outcome, computed from left to right;
* `FoldStep.reduced_eq` — no fold changes the outcome;
* `exists_foldSteps_reduced` — the outcome can be reached, and `foldNormal_reduced` — it is the end;
* `Folding.Mirrors` — what folding a block of numbered instructions keeps;
* `foldBlock_confluent` — all of this about `foldBlock`.
-/

namespace NeoScript

/-! ## Fold steps -/

/-- Two pushes and an operation become the push of their value, in the place of the first push. -/
inductive FoldStep (policy : ArithmeticPolicy) : List ArenaEntry → List ArenaEntry → Prop where
  | fold (before after : List ArenaEntry) {a b op : ArenaEntry} {x y value : Int}
      {push : Instruction}
      (ha : a.instruction.pushedInteger? = some x) (hb : b.instruction.pushedInteger? = some y)
      (hvalue : policy.evaluate op.instruction.op x y = some value)
      (hpush : Instruction.smallestPush? value = some push) :
      FoldStep policy (before ++ a :: b :: op :: after) (before ++ ⟨push, a.origin⟩ :: after)

/-- A number of folds, one after the other. -/
inductive FoldSteps (policy : ArithmeticPolicy) :
    Nat → List ArenaEntry → List ArenaEntry → Prop where
  | refl (xs : List ArenaEntry) : FoldSteps policy 0 xs xs
  | tail {n : Nat} {xs ys zs : List ArenaEntry} (h : FoldSteps policy n xs ys)
      (hstep : FoldStep policy ys zs) : FoldSteps policy (n + 1) xs zs

/-- No two pushes and an operation stand next to each other that have a value. -/
def FoldNormal (policy : ArithmeticPolicy) (xs : List ArenaEntry) : Prop :=
  ∀ (before after : List ArenaEntry) (a b op : ArenaEntry) (x y : Int),
    xs = before ++ a :: b :: op :: after → a.instruction.pushedInteger? = some x →
    b.instruction.pushedInteger? = some y → policy.evaluate op.instruction.op x y = none

variable {policy : ArithmeticPolicy} {xs ys zs : List ArenaEntry} {n : Nat}

/-- A value can always be pushed, since the machine can hold it. -/
theorem exists_push_of_evaluate {op : Opcode} {x y value : Int}
    (h : policy.evaluate op x y = some value) :
    ∃ push, Instruction.smallestPush? value = some push := by
  apply Instruction.exists_smallestPush?
  cases op with
  | arith operation =>
      obtain ⟨exact, -, ⟨hrange, rfl⟩ | ⟨-, -, rfl⟩⟩ := ArithmeticPolicy.evaluate_eq_some_iff.1 h
      · exact hrange
      · exact Integer.inRange_wrap exact
  | _ => cases h

/-- A block is normal if and only if no fold applies to it. -/
theorem foldNormal_iff : FoldNormal policy xs ↔ ∀ zs, ¬ FoldStep policy xs zs := by
  constructor
  · rintro h zs ⟨before, after, ha, hb, hvalue, -⟩
    rw [h before after _ _ _ _ _ rfl ha hb] at hvalue
    cases hvalue
  · rintro h before after a b op x y rfl ha hb
    rw [Option.eq_none_iff_forall_ne_some]
    intro value hvalue
    obtain ⟨push, hpush⟩ := exists_push_of_evaluate hvalue
    exact h _ (.fold before after ha hb hvalue hpush)

/-- Every fold takes two instructions away. -/
theorem FoldStep.length_eq (h : FoldStep policy xs ys) : ys.length + 2 = xs.length := by
  cases h with
  | fold before after =>
      simp only [List.length_append, List.length_cons]
      omega

/-- Each fold makes a block shorter by two instructions. -/
theorem FoldSteps.length_eq (h : FoldSteps policy n xs ys) : ys.length + 2 * n = xs.length := by
  induction h with
  | refl xs => rfl
  | tail _ hstep ih =>
      have hlength := hstep.length_eq
      omega

/-- Nothing happens to a normal block. -/
theorem FoldSteps.eq_of_foldNormal (h : FoldSteps policy n xs ys) (hnormal : FoldNormal policy xs) :
    ys = xs := by
  induction h with
  | refl xs => rfl
  | tail _ hstep ih => exact absurd (ih hnormal ▸ hstep) (foldNormal_iff.1 hnormal _)

/-! ## The outcome -/

/-- Takes in one instruction; those so far stand with the last one first. -/
def absorb (policy : ArithmeticPolicy) (stack : List ArenaEntry) (entry : ArenaEntry) :
    List ArenaEntry :=
  match stack with
  | b :: a :: rest =>
      match foldTriple? policy a.instruction b.instruction entry.instruction with
      | some push => ⟨push, a.origin⟩ :: rest
      | none => entry :: b :: a :: rest
  | stack => entry :: stack

def reduced (policy : ArithmeticPolicy) (xs : List ArenaEntry) : List ArenaEntry :=
  (xs.foldl (absorb policy) []).reverse

/-- A push is never the end of a triple. -/
theorem absorb_of_push {entry : ArenaEntry} {value : Int}
    (h : entry.instruction.pushedInteger? = some value) (stack : List ArenaEntry) :
    absorb policy stack entry = entry :: stack := by
  unfold absorb
  split
  · rw [foldTriple?_of_pushedInteger? h]
  · rfl

theorem absorb_of_foldTriple? {a b op : ArenaEntry} {push : Instruction} {rest : List ArenaEntry}
    (h : foldTriple? policy a.instruction b.instruction op.instruction = some push) :
    absorb policy (b :: a :: rest) op = ⟨push, a.origin⟩ :: rest := by
  simp only [absorb, h]

/-- No fold changes the outcome: a triple is taken in as its push is, whatever stands in front of
it. -/
theorem FoldStep.reduced_eq (h : FoldStep policy xs ys) :
    reduced policy xs = reduced policy ys := by
  cases h with
  | @fold before after a b op x y value push ha hb hvalue hpush =>
      have htriple := foldTriple?_eq_some_iff.2 ⟨x, y, value, ha, hb, hvalue, hpush⟩
      have hpushed := (Instruction.smallestPush?_spec hpush).1
      unfold reduced
      rw [List.foldl_append, List.foldl_append]
      -- Pushes are never an operation, so both operands and the new push are taken in as they are.
      generalize before.foldl (absorb policy) [] = stack
      congr 1
      calc
        (a :: b :: op :: after).foldl (absorb policy) stack
            = after.foldl (absorb policy) (absorb policy (b :: a :: stack) op) := by
              rw [List.foldl_cons, List.foldl_cons, List.foldl_cons, absorb_of_push ha,
                absorb_of_push hb]
        _ = after.foldl (absorb policy) (⟨push, a.origin⟩ :: stack) := by
              rw [absorb_of_foldTriple? htriple]
        _ = (⟨push, a.origin⟩ :: after).foldl (absorb policy) stack := by
              rw [List.foldl_cons, absorb_of_push hpushed]

/-- A fold anywhere in a block does not change what it is reduced to. -/
theorem FoldSteps.reduced_eq (h : FoldSteps policy n xs ys) :
    reduced policy xs = reduced policy ys := by
  induction h with
  | refl xs => rfl
  | tail _ hstep ih => exact ih.trans hstep.reduced_eq

/-- Taking in an instruction is a fold or nothing, seen with the rest of the block. -/
theorem FoldSteps.absorb {stack after : List ArenaEntry} {entry : ArenaEntry}
    (h : FoldSteps policy n xs (stack.reverse ++ entry :: after)) :
    ∃ m, FoldSteps policy m xs ((absorb policy stack entry).reverse ++ after) := by
  unfold NeoScript.absorb
  split
  · rename_i b a rest
    split
    · rename_i push hpush
      obtain ⟨x, y, value, ha, hb, hvalue, hsmallest⟩ := foldTriple?_eq_some_iff.1 hpush
      have hstep : FoldStep policy (rest.reverse ++ a :: b :: entry :: after)
          (rest.reverse ++ ⟨push, a.origin⟩ :: after) :=
        .fold rest.reverse after ha hb hvalue hsmallest
      refine ⟨n + 1, h.tail ?_⟩
      simpa using hstep
    · exact ⟨n, by simpa using h⟩
  · exact ⟨n, by simpa using h⟩

/-- What is reduced from left to right is reached by folds. -/
theorem FoldSteps.foldl_absorb {stack after : List ArenaEntry}
    (h : FoldSteps policy n xs (stack.reverse ++ after)) :
    ∃ m, FoldSteps policy m xs (after.foldl (NeoScript.absorb policy) stack).reverse := by
  induction after generalizing stack n with
  | nil => exact ⟨n, by simpa using h⟩
  | cons entry after ih =>
      obtain ⟨m, hm⟩ := h.absorb
      exact ih hm

/-- The outcome can be reached. -/
theorem exists_foldSteps_reduced (policy : ArithmeticPolicy) (xs : List ArenaEntry) :
    ∃ m, FoldSteps policy m xs (reduced policy xs) := by
  have hstart : FoldSteps policy 0 xs (([] : List ArenaEntry).reverse ++ xs) := .refl xs
  exact hstart.foldl_absorb

/-- Nothing can be folded on the stack, so a new fold needs the instruction that is taken in. -/
theorem unfoldable_absorb {stack : List ArenaEntry} (entry : ArenaEntry)
    (h : Unfoldable policy (stack.reverse.map (·.instruction))) :
    Unfoldable policy ((absorb policy stack entry).reverse.map (·.instruction)) := by
  unfold absorb
  split
  · rename_i b a rest
    simp only [List.reverse_cons, List.append_assoc, List.map_append, List.map_cons, List.map_nil,
      List.cons_append, List.nil_append] at h
    split
    · rename_i push hpush
      simpa using h.append_push hpush
    · rename_i hnone
      have hkept : Unfoldable policy
          (rest.reverse.map (·.instruction) ++ [a.instruction, b.instruction] ++
            [entry.instruction]) := by
        apply h.append_singleton
        intro zs a' b' heq
        have hlast := (List.append_inj' heq rfl).2
        rw [List.cons.injEq, List.cons.injEq] at hlast
        rw [← hlast.1, ← hlast.2.1, hnone]
      simpa using hkept
  · rename_i hshort
    -- Fewer than two instructions are on the stack.
    have hkept : Unfoldable policy (stack.reverse.map (·.instruction) ++ [entry.instruction]) := by
      apply h.append_singleton
      intro zs a b heq
      have hreverse : stack.map (·.instruction) = b :: a :: zs.reverse := by
        simpa [← List.map_reverse] using congrArg List.reverse heq
      obtain ⟨last, others, hstack, -, hothers⟩ := List.map_eq_cons_iff.1 hreverse
      obtain ⟨second, rest, hrest, -, -⟩ := List.map_eq_cons_iff.1 hothers
      exact absurd (hstack.trans (congrArg _ hrest)) (hshort last second rest)
    simpa using hkept

/-- What is reduced from left to right cannot be folded. -/
theorem unfoldable_foldl_absorb {stack : List ArenaEntry}
    (h : Unfoldable policy (stack.reverse.map (·.instruction))) (xs : List ArenaEntry) :
    Unfoldable policy ((xs.foldl (absorb policy) stack).reverse.map (·.instruction)) := by
  induction xs generalizing stack with
  | nil => exact h
  | cons entry xs ih => exact ih (unfoldable_absorb entry h)

/-- Where no triple can be evaluated, no fold applies. -/
theorem foldNormal_of_unfoldable (h : Unfoldable policy (xs.map (·.instruction))) :
    FoldNormal policy xs := by
  rw [foldNormal_iff]
  rintro zs ⟨before, after, ha, hb, hvalue, hpush⟩
  have htriple := foldTriple?_eq_some_iff.2 ⟨_, _, _, ha, hb, hvalue, hpush⟩
  rw [h _ _ _ ⟨before.map (·.instruction), after.map (·.instruction), by simp⟩] at htriple
  cases htriple

/-- The outcome is the end of all folds. -/
theorem foldNormal_reduced (policy : ArithmeticPolicy) (xs : List ArenaEntry) :
    FoldNormal policy (reduced policy xs) :=
  foldNormal_of_unfoldable (unfoldable_foldl_absorb Unfoldable.nil xs)

/-- Whatever was folded first, the outcome can still be reached. -/
theorem FoldSteps.exists_join (h : FoldSteps policy n xs ys) :
    ∃ m, FoldSteps policy m ys (reduced policy xs) := by
  rw [h.reduced_eq]
  exact exists_foldSteps_reduced policy ys

/-! ## Numbered blocks -/

namespace Revision

/-- The instructions behind numbers, with their origins. -/
def entriesOf (r : Revision) (ids : List InstrId) : List ArenaEntry :=
  ids.filterMap fun id => r.arena.entries[id]?

end Revision

namespace Folding

/-- A numbered instruction is the one behind its number. -/
def Shows (arena : Arena) (e : Numbered) (entry : ArenaEntry) : Prop :=
  arena.entries[e.1]? = some entry ∧ entry.instruction = e.2

theorem Shows.grow {arena arena' : Arena} (hgrows : arena.Grows arena') {e : Numbered}
    {entry : ArenaEntry} (h : Shows arena e entry) : Shows arena' e entry :=
  ⟨(hgrows.entries _ (Arena.lt_size_of_getElem? h.1)).trans h.1, h.2⟩

/-- The state of a folding shows what was taken in; every fold made two instructions fewer. -/
structure Mirrors (r : Revision) (taken : Nat) (s : Folding) (stack : List ArenaEntry) : Prop where
  grows : r.arena.Grows s.program.arena
  shown : List.Forall₂ (Shows s.program.arena) s.output stack
  count : s.output.length + 2 * s.folds = taken

variable {r : Revision} {taken : Nat} {s : Folding} {stack : List ArenaEntry} {e : Numbered}
  {entry : ArenaEntry}

/-- An instruction that is kept goes on top of both stacks. -/
theorem Mirrors.keep (h : Mirrors r taken s stack) (he : Shows r.arena e entry) :
    Mirrors r (taken + 1) ⟨e :: s.output, s.folds, s.program⟩ (entry :: stack) := by
  refine ⟨h.grows, .cons (he.grow h.grows) h.shown, ?_⟩
  have hcount := h.count
  simp only [List.length_cons]
  omega

/-- A new push stands behind a new number, with the origin of the first operand. -/
theorem Mirrors.replace {a b : Numbered} {rest : List Numbered} {a' b' : ArenaEntry}
    {rest' : List ArenaEntry} (h : Mirrors r taken s (b' :: a' :: rest'))
    (houtput : s.output = b :: a :: rest) (push : Instruction) :
    Mirrors r (taken + 1)
      ⟨((s.program.standIn push a.1).1, push) :: rest, s.folds + 1, (s.program.standIn push a.1).2⟩
      (⟨push, a'.origin⟩ :: rest') := by
  have hshown := h.shown
  have hcount := h.count
  rw [houtput] at hshown hcount
  rcases hshown with _ | ⟨-, _ | ⟨ha, hrest⟩⟩
  have hgrows : s.program.arena.Grows (s.program.standIn push a.1).2.arena :=
    Arena.Grows.alloc _ _ _
  have horigin : s.program.arena.origin? a.1 = a'.origin := by
    rw [Arena.origin?, ha.1]
    rfl
  refine ⟨h.grows.trans hgrows, .cons ⟨?_, rfl⟩
    (hrest.imp fun _ _ hshows => hshows.grow hgrows), ?_⟩
  · rw [← horigin]
    exact Arena.getElem?_alloc s.program.arena push (s.program.arena.origin? a.1)
  · simp only [List.length_cons] at hcount ⊢
    omega

/-- Folding takes in an instruction as it is taken in without numbers. -/
theorem Mirrors.step (h : Mirrors r taken s stack) (he : Shows r.arena e entry) :
    Mirrors r (taken + 1) (Folding.step policy s e) (absorb policy stack entry) := by
  obtain ⟨output, folds, program⟩ := s
  have hkeep := h.keep he
  -- Both look at the last two instructions, so the cases are those of the output.
  have hshown : List.Forall₂ (Shows program.arena) output stack := h.shown
  cases hshown with
  | nil => exact hkeep
  | @cons b b' _ _ hb hshown =>
      cases hshown with
      | nil => exact hkeep
      | @cons a a' rest rest' ha hrest =>
          simp only [absorb, ha.2, hb.2, he.2]
          cases hfold : foldTriple? policy a.2 b.2 e.2 with
          | some push =>
              rw [Folding.step, reduce_of_foldTriple? hfold]
              exact h.replace rfl push
          | none =>
              rw [Folding.step, reduce, hfold]
              exact hkeep

/-- Folding a whole block mirrors the reduction of its entries. -/
theorem Mirrors.foldl {block : List Numbered} {entries : List ArenaEntry}
    (hblock : List.Forall₂ (Shows r.arena) block entries) (h : Mirrors r taken s stack) :
    Mirrors r (taken + entries.length) (block.foldl (Folding.step policy) s)
      (entries.foldl (absorb policy) stack) := by
  induction hblock generalizing taken s stack with
  | nil => exact h
  | @cons e entry block entries he _ ih =>
      rw [List.length_cons, Nat.add_comm entries.length 1, ← Nat.add_assoc]
      exact ih (h.step he)

end Folding

theorem Revision.forall₂_shows_numbered (r : Revision) (ids : List InstrId) :
    List.Forall₂ (Folding.Shows r.arena) (r.numbered ids) (r.entriesOf ids) := by
  induction ids with
  | nil => exact .nil
  | cons id ids ih =>
      cases hentry : r.arena.entries[id]? with
      | none => simpa [numbered, entriesOf, Arena.get?, hentry] using ih
      | some entry =>
          have hcons : List.Forall₂ (Folding.Shows r.arena)
              ((id, entry.instruction) :: r.numbered ids) (entry :: r.entriesOf ids) :=
            .cons ⟨hentry, rfl⟩ ih
          simpa [numbered, entriesOf, Arena.get?, hentry] using hcons

/-- The entries of a block are those that its numbers show. -/
theorem Revision.entriesOf_of_forall₂ {r : Revision} {block : List Numbered}
    {entries : List ArenaEntry} (h : List.Forall₂ (Folding.Shows r.arena) block entries) :
    r.entriesOf (block.map (·.1)) = entries := by
  induction h with
  | nil => rfl
  | cons he _ ih => rw [List.map_cons, Revision.entriesOf, List.filterMap_cons_some he.1, ← ih]; rfl

/-- Folding a block gives the outcome of its instructions, and counts the folds. -/
theorem entriesOf_foldBlock (policy : ArithmeticPolicy) (r : Revision) (ids : List InstrId) :
    (foldBlock policy r ids).2.2.entriesOf (foldBlock policy r ids).1 =
        reduced policy (r.entriesOf ids) ∧
      (reduced policy (r.entriesOf ids)).length + 2 * (foldBlock policy r ids).2.1 =
        (r.entriesOf ids).length := by
  have hstart : Folding.Mirrors r 0 ⟨[], 0, r⟩ [] := ⟨.refl _, .nil, rfl⟩
  have hend : Folding.Mirrors r _ ((r.numbered ids).foldl (Folding.step policy) _) _ :=
    hstart.foldl (r.forall₂_shows_numbered ids)
  rw [Nat.zero_add] at hend
  constructor
  · have hentries := Revision.entriesOf_of_forall₂ (List.rel_reverse hend.shown)
    rw [List.map_reverse] at hentries
    exact hentries
  · have hcount := hend.count
    rw [hend.shown.length_eq] at hcount
    rwa [reduced, List.length_reverse]

/-- A run of folds cannot go on for ever. -/
theorem exists_not_foldStep (policy : ArithmeticPolicy) (run : Nat → List ArenaEntry) :
    ∃ i, ¬ FoldStep policy (run i) (run (i + 1)) := by
  by_contra hforever
  simp only [not_exists, not_not] at hforever
  have hsteps : ∀ i, FoldSteps policy i (run 0) (run i) := by
    intro i
    induction i with
    | zero => exact .refl _
    | succ i ih => exact ih.tail (hforever i)
  -- Each step takes two instructions away, and more cannot be taken than there are.
  have hlength := (hsteps ((run 0).length + 1)).length_eq
  omega

/-- Every way to fold a block is finite and can be completed to the one that `foldBlock` finds.  So
all that cannot be continued end in the same instructions with the same origins, after as many folds
as `foldBlock` counts. -/
theorem foldBlock_confluent (policy : ArithmeticPolicy) (r : Revision) (ids : List InstrId) :
    ∃ (folds : Nat) (final : List ArenaEntry),
      (foldBlock policy r ids).2.1 = folds ∧
      (foldBlock policy r ids).2.2.entriesOf (foldBlock policy r ids).1 = final ∧
      FoldSteps policy folds (r.entriesOf ids) final ∧
      FoldNormal policy final ∧
      (∀ n ys, FoldSteps policy n (r.entriesOf ids) ys →
        ∃ m, n + m = folds ∧ FoldSteps policy m ys final) ∧
      (∀ n ys, FoldSteps policy n (r.entriesOf ids) ys → (∀ zs, ¬ FoldStep policy ys zs) →
        ys = final ∧ n = folds) ∧
      ∀ run : Nat → List ArenaEntry, run 0 = r.entriesOf ids →
        ∃ i, ¬ FoldStep policy (run i) (run (i + 1)) := by
  obtain ⟨hfinal, hcount⟩ := entriesOf_foldBlock policy r ids
  -- What is left to fold after some folds is counted by the lengths.
  have hjoin : ∀ n ys, FoldSteps policy n (r.entriesOf ids) ys →
      ∃ m, n + m = (foldBlock policy r ids).2.1 ∧
        FoldSteps policy m ys (reduced policy (r.entriesOf ids)) := by
    intro n ys hsteps
    obtain ⟨m, hrest⟩ := hsteps.exists_join
    have hlength := hsteps.length_eq
    have hlength' := hrest.length_eq
    exact ⟨m, by omega, hrest⟩
  refine ⟨_, reduced policy (r.entriesOf ids), rfl, hfinal, ?_, foldNormal_reduced _ _, hjoin, ?_,
    fun run _ => exists_not_foldStep policy run⟩
  · obtain ⟨m, hm, hall⟩ := hjoin 0 _ (.refl _)
    rwa [← hm, Nat.zero_add]
  · intro n ys hsteps hmaximal
    obtain ⟨m, hm, hrest⟩ := hjoin n ys hsteps
    -- The rest of the way to the outcome is empty, since nothing can be folded any more.
    have hsame := hrest.eq_of_foldNormal (foldNormal_iff.2 hmaximal)
    have hlength := hrest.length_eq
    rw [hsame] at hlength
    exact ⟨hsame.symm, by omega⟩

end NeoScript
