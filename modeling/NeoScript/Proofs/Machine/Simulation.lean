import NeoScript.Proofs.Machine.Effects

/-!
# Simulation — runs of one code follow runs of another

* `Machine.runFrom_mono` — a run that ends does not depend on how much higher its limit is;
* `Machine.Matches` — related machines go on alike: both fail, or both reach related machines, the
  second in fewer or equally many steps, but in one at least;
* `Machine.Simulates` — this holds of all related machines that have not finished;
* `Outcome.Related` — the same outcome, up to the addresses of pointers;
* `Machine.Simulates.runFrom_related` — a run that ends is followed within the same limit;
* `Machine.Simulates.runFrom_stepLimit` — a run that never ends is followed by one that never does.
-/

namespace NeoScript
namespace Machine

variable {code code' : Code} {m m' n : Machine}

/-! ## Limits -/

/-- A run whose limit falls inside steps that succeed is cut there. -/
theorem runFrom_of_lt_advance {k limit : Nat} (h : advance code k m = .ok n) (hlt : limit < k) :
    runFrom code limit m = .fault .stepLimit := by
  induction k generalizing m limit with
  | zero => exact absurd hlt (Nat.not_lt_zero limit)
  | succ k ih =>
      obtain ⟨next, hstep, hrest⟩ := Sequencing.bind_eq_ok.1 h
      cases limit with
      | zero =>
          refine runFrom_zero fun hframes => ?_
          have hempty := frames_isEmpty_of_step hstep
          simp [hframes] at hempty
      | succ limit =>
          rw [runFrom_succ_of_ok hstep]
          exact ih hrest (Nat.lt_of_succ_lt_succ hlt)

/-- A run that ends within a limit ends in the same way within a higher one. -/
theorem runFrom_mono {limit limit' : Nat} (h : runFrom code limit m ≠ .fault .stepLimit)
    (hle : limit ≤ limit') : runFrom code limit' m = runFrom code limit m := by
  induction limit generalizing m limit' with
  | zero =>
      by_cases hframes : m.frames = []
      · rw [runFrom_of_finished hframes, runFrom_of_finished hframes]
      · exact absurd (runFrom_zero hframes) h
  | succ limit ih =>
      -- A limit that is not lower has a step left as well.
      obtain ⟨limit', rfl⟩ : ∃ extra, limit' = extra + 1 := ⟨limit' - 1, by omega⟩
      by_cases hframes : m.frames = []
      · rw [runFrom_of_finished hframes, runFrom_of_finished hframes]
      · cases hstep : step code m with
        | error f => rw [runFrom_succ_of_error hframes hstep, runFrom_succ_of_error hframes hstep]
        | ok next =>
            rw [runFrom_succ_of_ok hstep] at h
            rw [runFrom_succ_of_ok hstep, runFrom_succ_of_ok hstep]
            exact ih h (Nat.le_of_succ_le_succ hle)

end Machine

/-! ## Outcomes -/

/-- The same outcome, up to the addresses of pointers. -/
inductive Outcome.Related (φ : Nat → Nat → Prop) : Outcome → Outcome → Prop where
  | halt {stack stack' : List Value} {heap heap' : Heap}
      (hstack : List.Forall₂ (Value.Related φ) stack stack') (hheap : Heap.Related φ heap heap') :
      Related φ (.halt stack heap) (.halt stack' heap')
  | fault {f f' : Fault} (hfault : Fault.Related φ f f') : Related φ (.fault f) (.fault f')

/-- Running out of steps is related to nothing else. -/
theorem Outcome.Related.eq_stepLimit {φ : Nat → Nat → Prop} {o : Outcome}
    (h : Outcome.Related φ o (.fault .stepLimit)) : o = .fault .stepLimit := by
  cases h with
  | fault hfault =>
      cases hfault with
      | plain _ => rfl

/-! ## Simulation -/

namespace Machine

/-- Both machines fail alike, or both reach related machines, the second not later than the
first. -/
inductive Matches (φ : Nat → Nat → Prop) (R : Machine → Machine → Prop) (code code' : Code)
    (m m' : Machine) : Prop where
  | steps {k j : Nat} {n n' : Machine} (hpos : 0 < j) (hle : j ≤ k) (h : advance code k m = .ok n)
      (h' : advance code' j m' = .ok n') (hrel : R n n') : Matches φ R code code' m m'
  | fail {f f' : Fault} (h : step code m = .error f) (h' : step code' m' = .error f')
      (hfault : Fault.Related φ f f') : Matches φ R code code' m m'

/-- One step of each is enough if their results are related. -/
theorem Matches.of_step {φ : Nat → Nat → Prop} {R : Machine → Machine → Prop} {code code' : Code}
    {m m' : Machine} (h : Result.Related φ R (step code m) (step code' m')) :
    Matches φ R code code' m m' := by
  generalize hx : step code m = x, hy : step code' m' = y at h
  cases h with
  | ok hrel =>
      exact .steps Nat.one_pos (Nat.le_refl 1) (advance_one.trans hx) (advance_one.trans hy) hrel
  | error hfault => exact .fail hx hy hfault

/-- Machines that run over instructions with related effects go on alike behind them. -/
theorem Matches.of_effects {φ ψ : Nat → Nat → Prop} {code code' : Code}
    {olds news : List Instruction}
    {m m' : Machine} {e e' : Data} {f f' : Frame} {outer outer' : List Frame}
    (hm : Machine.Related φ ψ ψ m m') (hframes : m.frames = f :: outer)
    (hframes' : m'.frames = f' :: outer') (holds : Effects olds m.data e)
    (hnews : Effects news m'.data e')
    (hdata : Data.Related φ e e') (hpos : 0 < news.length) (hle : news.length ≤ olds.length)
    (hspelled : Spelled code f.ip olds) (hspelled' : Spelled code' f'.ip news)
    (hnext : ψ (f.ip + totalSize olds) (f'.ip + totalSize news)) :
    Matches φ (Machine.Related φ ψ ψ) code code' m m' := by
  have hrun := advance_of_effects holds hspelled hframes
  have hrun' := advance_of_effects hnews hspelled' hframes'
  have hrelated := hm.frames
  rw [hframes, hframes'] at hrelated
  cases hrelated with
  | cons hf houter =>
      refine .steps hpos hle hrun hrun' ⟨hdata.stack, .cons ?_ houter, hm.statics, hm.pending,
        hdata.heap⟩
      exact ⟨hnext, hf.locals, hf.arguments, hf.handlers⟩

/-- Related machines that have not finished go on alike. -/
def Simulates (φ ψ : Nat → Nat → Prop) (code code' : Code) : Prop :=
  ∀ ⦃m m' : Machine⦄, Machine.Related φ ψ ψ m m' → m.frames ≠ [] →
    Matches φ (Machine.Related φ ψ ψ) code code' m m'

/-- Related machines come to their end together. -/
theorem Related.frames_eq_nil_iff {φ inner ψ : Nat → Nat → Prop} {m m' : Machine}
    (h : Machine.Related φ inner ψ m m') : m.frames = [] ↔ m'.frames = [] := by
  have hframes := h.frames
  generalize m.frames = frames, m'.frames = frames' at hframes
  cases hframes <;> simp

namespace Simulates

variable {φ ψ : Nat → Nat → Prop} {code code' : Code} {m m' : Machine}

/-- A run that ends is followed by one that ends alike within the same limit. -/
theorem runFrom_related (hsim : Simulates φ ψ code code') (limit : Nat)
    (hm : Machine.Related φ ψ ψ m m') (hends : runFrom code limit m ≠ .fault .stepLimit) :
    Outcome.Related φ (runFrom code limit m) (runFrom code' limit m') := by
  -- The limit is what the steps of the first machine use up, so the induction is on all smaller
  -- ones.
  induction limit using Nat.strongRecOn generalizing m m' with
  | ind limit ih =>
      by_cases hframes : m.frames = []
      · rw [runFrom_of_finished hframes, runFrom_of_finished (hm.frames_eq_nil_iff.1 hframes)]
        exact .halt hm.stack.toList hm.heap
      · cases hsim hm hframes with
        | fail hstep hstep' hfault =>
            cases limit with
            | zero => exact absurd (runFrom_zero hframes) hends
            | succ limit =>
                have hframes' := mt hm.frames_eq_nil_iff.2 hframes
                rw [runFrom_succ_of_error hframes hstep, runFrom_succ_of_error hframes' hstep']
                exact .fault hfault
        | @steps k j n n' hpos hle hsteps hsteps' hn =>
            have hk : k ≤ limit := by
              apply Nat.le_of_not_lt
              intro hlt
              exact hends (runFrom_of_lt_advance hsteps hlt)
            obtain ⟨rest, rfl⟩ := Nat.exists_eq_add_of_le hk
            rw [runFrom_of_advance hsteps] at hends ⊢
            have hrest := ih rest (by omega) hn hends
            have hends' : runFrom code' (j + rest) m' ≠ .fault .stepLimit := by
              rw [runFrom_of_advance hsteps']
              intro hlimit
              rw [hlimit] at hrest
              exact hends hrest.eq_stepLimit
            rw [runFrom_mono hends' (Nat.add_le_add_right hle rest), runFrom_of_advance hsteps']
            exact hrest

/-- A run that never ends is followed by one that never does. -/
theorem runFrom_stepLimit (hsim : Simulates φ ψ code code') (hm : Machine.Related φ ψ ψ m m')
    (hnever : ∀ limit, runFrom code limit m = .fault .stepLimit) (limit : Nat) :
    runFrom code' limit m' = .fault .stepLimit := by
  induction limit using Nat.strongRecOn generalizing m m' with
  | ind limit ih =>
      by_cases hframes : m.frames = []
      · have hhalts := hnever 0
        rw [runFrom_of_finished hframes] at hhalts
        cases hhalts
      · have hframes' := mt hm.frames_eq_nil_iff.2 hframes
        cases hsim hm hframes with
        | fail hstep hstep' hfault =>
            -- A step that fails would end the run, unless its fault is the limit itself.
            have hfails := hnever 1
            rw [runFrom_succ_of_error hframes hstep] at hfails
            cases hfails
            cases hfault with
            | plain _ =>
                cases limit with
                | zero => exact runFrom_zero hframes'
                | succ limit => exact runFrom_succ_of_error hframes' hstep' limit
        | @steps k j n n' hpos hle hsteps hsteps' hn =>
            -- The follower takes `j` steps to where the run is after `k`. Within fewer it has not
            -- got there, and with more the rest of its limit is left for a run that still never
            -- ends.
            by_cases hlt : limit < j
            · exact runFrom_of_lt_advance hsteps' hlt
            · obtain ⟨rest, rfl⟩ := Nat.exists_eq_add_of_le (Nat.le_of_not_lt hlt)
              rw [runFrom_of_advance hsteps']
              refine ih rest (by omega) hn fun limit => ?_
              rw [← runFrom_of_advance hsteps]
              exact hnever (k + limit)

end Simulates
end Machine

end NeoScript
