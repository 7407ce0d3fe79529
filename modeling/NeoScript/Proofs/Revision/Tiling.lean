import NeoScript.Proofs.Revision.Patterns

/-!
# Tiling — patterns do not see what stands in place of an array

Two blocks agree but for parts that build an array.  Such a part begins with instructions that no
run of appends and no run of stores contains, in front of the change and behind it.  So the runs
that begin outside of the parts are the same in both blocks.

* `Breaks` — instructions at which every run ends;
* `Tiled` — blocks that agree but for parts that break runs;
* `appendRun_tiled`, `packedStores?_tiled` — the patterns give the same answers.
-/

namespace NeoScript
namespace Fusion

/-- No append and no store of a constant reaches into these instructions. -/
def Breaks : List Numbered → Prop
  | x :: y :: z :: _ =>
      (x.2.op ≠ .dup ∧ x.2.op ≠ .append ∧ x.2.op ≠ .setItem ∧ isSizedAllocation x.2.op = false) ∧
        (y.2.op ≠ .append ∧ y.2.op ≠ .setItem) ∧ z.2.op ≠ .setItem
  | _ => False

namespace Breaks

variable {xs : List Numbered}

/-- A part that ends runs has three instructions at least, none of which continues one. -/
theorem exists_cons (h : Breaks xs) : ∃ x y z rest, xs = x :: y :: z :: rest ∧
    (x.2.op ≠ .dup ∧ x.2.op ≠ .append ∧ x.2.op ≠ .setItem ∧ isSizedAllocation x.2.op = false) ∧
      (y.2.op ≠ .append ∧ y.2.op ≠ .setItem) ∧ z.2.op ≠ .setItem := by
  match xs, h with
  | x :: y :: z :: rest, h => exact ⟨x, y, z, rest, rfl, h⟩

/-- A run of appends ends at such a part, also if it is up to two instructions away. -/
theorem appendRun_eq (h : Breaks xs) (after : List Numbered) (count : Nat) :
    appendRun count (xs ++ after) = count ∧ (∀ a, appendRun count (a :: (xs ++ after)) = count) ∧
      ∀ a b, appendRun count (a :: b :: (xs ++ after)) = count := by
  obtain ⟨x, y, z, rest, rfl, hx, hy, _⟩ := h.exists_cons
  simp [appendRun, isAppend, hx, hy]

/-- Stores end at such a part, also if it is up to three instructions away. -/
theorem storedValues_eq (h : Breaks xs) (after : List Numbered) (slots : Array (Option Instruction))
    (n : Nat) :
    storedValues slots (n + 1) (xs ++ after) = none ∧
      (∀ a, storedValues slots (n + 1) (a :: (xs ++ after)) = none) ∧
      (∀ a b, storedValues slots (n + 1) (a :: b :: (xs ++ after)) = none) ∧
      ∀ a b c, storedValues slots (n + 1) (a :: b :: c :: (xs ++ after)) = none := by
  obtain ⟨x, y, z, rest, rfl, hx, hy, hz⟩ := h.exists_cons
  refine ⟨?_, ?_, ?_, ?_⟩
  · cases hrest : rest ++ after <;> simp [storedValues, hx, hrest]
  · simp [storedValues, hz]
  · simp [storedValues, hy]
  · simp [storedValues, hx]

end Breaks

/-- Two blocks agree but for replaced parts.  `Kept` says what holds where they agree, of an
instruction and of what follows it in the first block, and `Replaced` what holds of the old
instructions of a part, of what follows them in the first block and of the new instructions. -/
inductive Tiled (Kept : Numbered → List Numbered → Prop)
    (Replaced : List Numbered → List Numbered → List Numbered → Prop) :
    List Numbered → List Numbered → Prop where
  | nil : Tiled Kept Replaced [] []
  | keep {a : Numbered} {xs ys : List Numbered} (hkept : Kept a xs)
      (h : Tiled Kept Replaced xs ys) : Tiled Kept Replaced (a :: xs) (a :: ys)
  | replace {olds news xs ys : List Numbered} (hreplaced : Replaced olds xs news)
      (h : Tiled Kept Replaced xs ys) : Tiled Kept Replaced (olds ++ xs) (news ++ ys)

section Tiled

variable {Kept : Numbered → List Numbered → Prop}
  {Replaced : List Numbered → List Numbered → List Numbered → Prop} {xs ys : List Numbered}

def BreaksRuns (Replaced : List Numbered → List Numbered → List Numbered → Prop) : Prop :=
  ∀ olds after news, Replaced olds after news → Breaks olds ∧ Breaks news

/-- Replacing such parts does not change how many appends are counted. -/
theorem appendRun_tiled (hbreaks : BreaksRuns Replaced) (h : Tiled Kept Replaced xs ys)
    (count : Nat) : appendRun count ys = appendRun count xs := by
  induction hlength : xs.length using Nat.strongRecOn generalizing xs ys count with
  | _ length ih =>
      -- Three instructions decide; a replaced part at any of the places ends both runs.
      cases h with
      | nil => rfl
      | replace hreplaced h =>
          obtain ⟨holds, hnews⟩ := hbreaks _ _ _ hreplaced
          rw [(holds.appendRun_eq _ count).1, (hnews.appendRun_eq _ count).1]
      | @keep a xs ys _ h =>
          cases h with
          | nil => rfl
          | replace hreplaced h =>
              obtain ⟨holds, hnews⟩ := hbreaks _ _ _ hreplaced
              rw [(holds.appendRun_eq _ count).2.1, (hnews.appendRun_eq _ count).2.1]
          | @keep b xs ys _ h =>
              cases h with
              | nil => rfl
              | replace hreplaced h =>
                  obtain ⟨holds, hnews⟩ := hbreaks _ _ _ hreplaced
                  rw [(holds.appendRun_eq _ count).2.2, (hnews.appendRun_eq _ count).2.2]
              | @keep c xs ys _ h =>
                  simp only [appendRun]
                  split
                  · refine ih xs.length ?_ h (count + 1) rfl
                    simp only [List.length_cons] at hlength
                    omega
                  · rfl

/-- Nor which values are stored. -/
theorem storedValues_tiled (hbreaks : BreaksRuns Replaced) (h : Tiled Kept Replaced xs ys)
    (slots : Array (Option Instruction)) (n : Nat) :
    storedValues slots n ys = storedValues slots n xs := by
  induction n generalizing xs ys slots with
  | zero => rfl
  | succ n ih =>
      -- Four instructions decide.
      cases h with
      | nil => rfl
      | replace hreplaced h =>
          obtain ⟨holds, hnews⟩ := hbreaks _ _ _ hreplaced
          rw [(holds.storedValues_eq _ slots n).1, (hnews.storedValues_eq _ slots n).1]
      | keep _ h =>
          cases h with
          | nil => rfl
          | replace hreplaced h =>
              obtain ⟨holds, hnews⟩ := hbreaks _ _ _ hreplaced
              rw [(holds.storedValues_eq _ slots n).2.1, (hnews.storedValues_eq _ slots n).2.1]
          | keep _ h =>
              cases h with
              | nil => rfl
              | replace hreplaced h =>
                  obtain ⟨holds, hnews⟩ := hbreaks _ _ _ hreplaced
                  rw [(holds.storedValues_eq _ slots n).2.2.1,
                    (hnews.storedValues_eq _ slots n).2.2.1]
              | keep _ h =>
                  cases h with
                  | nil => rfl
                  | replace hreplaced h =>
                      obtain ⟨holds, hnews⟩ := hbreaks _ _ _ hreplaced
                      rw [(holds.storedValues_eq _ slots n).2.2.2,
                        (hnews.storedValues_eq _ slots n).2.2.2]
                  | keep _ h => simp only [storedValues, ih h]

/-- So stores are packed or not as before. -/
theorem packedStores?_tiled (hbreaks : BreaksRuns Replaced) (h : Tiled Kept Replaced xs ys)
    (threshold : Nat) (head : Numbered) :
    packedStores? threshold head ys = packedStores? threshold head xs := by
  cases h with
  | nil => rfl
  | keep _ h => simp only [packedStores?, storedValues_tiled hbreaks h]
  | replace hreplaced h =>
      obtain ⟨holds, hnews⟩ := hbreaks _ _ _ hreplaced
      obtain ⟨x, y, z, rest, rfl, hx, _⟩ := holds.exists_cons
      obtain ⟨x', y', z', rest', rfl, hx', _⟩ := hnews.exists_cons
      simp [packedStores?, hx, hx']

/-- So appends are found or not as before. -/
theorem loweredAppends?_eq_none_tiled (hbreaks : BreaksRuns Replaced)
    (h : Tiled Kept Replaced xs ys) {threshold : Nat} {head : Numbered} :
    loweredAppends? threshold head ys = none ↔ loweredAppends? threshold head xs = none := by
  simp only [loweredAppends?, appendRun_tiled hbreaks h]
  split <;> simp

/-- Where no part that breaks runs begins, the blocks agree. -/
theorem Tiled.exists_cons {a : Numbered} (hbreaks : BreaksRuns Replaced)
    (h : Tiled Kept Replaced (a :: xs) ys) (hout : ∀ front, front <+: a :: xs → ¬ Breaks front) :
    ∃ ys', ys = a :: ys' ∧ Tiled Kept Replaced xs ys' := by
  generalize hblock : a :: xs = block at h
  cases h with
  | nil => cases hblock
  | keep _ h =>
      cases hblock
      exact ⟨_, rfl, h⟩
  | replace hreplaced h =>
      exact absurd (hbreaks _ _ _ hreplaced).1 (hout _ (hblock ▸ List.prefix_append ..))

/-- An empty block has no parts. -/
theorem Tiled.eq_nil (hbreaks : BreaksRuns Replaced) (h : Tiled Kept Replaced xs []) : xs = [] := by
  generalize hblock : [] = block at h
  cases h with
  | nil => rfl
  | keep _ _ => cases hblock
  | replace hreplaced _ =>
      obtain ⟨x, y, z, rest, rfl, _⟩ := (hbreaks _ _ _ hreplaced).2.exists_cons
      cases hblock

/-- The front of the second block is kept or belongs to a replaced part. -/
theorem Tiled.cases_front {b : Numbered} (h : Tiled Kept Replaced xs (b :: ys)) :
    (∃ xs', xs = b :: xs' ∧ Kept b xs' ∧ Tiled Kept Replaced xs' ys) ∨
      ∃ olds news xs' ys', xs = olds ++ xs' ∧ b :: ys = news ++ ys' ∧ Replaced olds xs' news ∧
        Tiled Kept Replaced xs' ys' := by
  generalize hblock : b :: ys = block at h
  cases h with
  | nil => cases hblock
  | keep hkept h =>
      cases hblock
      exact .inl ⟨_, rfl, hkept, h⟩
  | replace hreplaced h => exact .inr ⟨_, _, _, _, rfl, rfl, hreplaced, h⟩

/-- Stores lie outside of the replaced parts, so what follows them agrees as well. -/
theorem Tiled.exists_after {run after : List Numbered} {stores : List (Nat × Instruction)}
    (hbreaks : BreaksRuns Replaced) (hrun : StoreRun run stores)
    (h : Tiled Kept Replaced (run ++ after) ys) :
    ∃ after', ys = run ++ after' ∧ Tiled Kept Replaced after after' := by
  induction hrun generalizing ys with
  | nil => exact ⟨ys, rfl, h⟩
  | @cons dup index value store run stores i hdup hindex hvalue hstore hrun ih =>
      -- None of the four instructions of a store opens a replaced part: such a part has no store at
      -- its first three places and does not begin with a copy.
      simp only [List.cons_append] at h ⊢
      obtain ⟨ys₁, rfl, h₁⟩ := h.exists_cons hbreaks fun front hfront hbreak => by
        obtain ⟨x, y, z, rest, rfl, hx, _⟩ := hbreak.exists_cons
        simp only [List.cons_prefix_cons] at hfront
        exact hx.1 (hfront.1 ▸ hdup)
      obtain ⟨ys₂, rfl, h₂⟩ := h₁.exists_cons hbreaks fun front hfront hbreak => by
        obtain ⟨x, y, z, rest, rfl, _, _, hz⟩ := hbreak.exists_cons
        simp only [List.cons_prefix_cons] at hfront
        exact hz (hfront.2.2.1 ▸ hstore)
      obtain ⟨ys₃, rfl, h₃⟩ := h₂.exists_cons hbreaks fun front hfront hbreak => by
        obtain ⟨x, y, z, rest, rfl, _, hy, _⟩ := hbreak.exists_cons
        simp only [List.cons_prefix_cons] at hfront
        exact hy.2 (hfront.2.1 ▸ hstore)
      obtain ⟨ys₄, rfl, h₄⟩ := h₃.exists_cons hbreaks fun front hfront hbreak => by
        obtain ⟨x, y, z, rest, rfl, hx, _⟩ := hbreak.exists_cons
        simp only [List.cons_prefix_cons] at hfront
        exact hx.2.2.1 (hfront.1 ▸ hstore)
      obtain ⟨after', rfl, hafter⟩ := ih h₄
      exact ⟨after', rfl, hafter⟩

end Tiled

end Fusion
end NeoScript
