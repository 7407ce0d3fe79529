import NeoScript.Proofs.Machine.Execution
import NeoScript.Proofs.Sequencing

/-!
# Stepping — several steps of a machine, and steps of related machines

* `Machine.advance` — a number of steps, and `Machine.Reaches` — any number of them;
* `Machine.runFrom_of_advance` — a run goes on from where some of its steps lead;
* `StepsAlike` — addresses from which one step of related machines leads to related machines;
* `Machine.Related.step` — that step;
* `Machine.Related.of_reaches` — a machine that is related to itself stays so along a run.
-/

namespace NeoScript
namespace Machine

def advance (code : Code) : Nat → Machine → Except Fault Machine
  | 0, m => .ok m
  | n + 1, m => step code m >>= advance code n

/-- Some number of steps leads from one machine to the other. -/
def Reaches (code : Code) (m m' : Machine) : Prop :=
  ∃ n, advance code n m = .ok m'

variable {code : Code} {m m' : Machine}

theorem advance_one : advance code 1 m = step code m := by
  simp only [advance]
  cases step code m <;> rfl

/-- A machine that makes a step has an invocation. -/
theorem frames_isEmpty_of_step (h : step code m = .ok m') : m.frames.isEmpty = false := by
  unfold step at h
  split at h
  · cases h
  · rename_i hframes
    rw [hframes]
    rfl

theorem advance_succ (h : step code m = .ok m') (n : Nat) :
    advance code (n + 1) m = advance code n m' := by
  rw [advance, h]
  rfl

/-! ## Runs -/

/-- Without an invocation a run has halted, whatever its limit. -/
theorem runFrom_of_finished (h : m.frames = []) (limit : Nat) :
    runFrom code limit m = .halt m.stack.toList m.heap := by
  cases limit <;> simp [runFrom, h]

theorem runFrom_zero (h : m.frames ≠ []) : runFrom code 0 m = .fault .stepLimit := by
  simp [runFrom, h]

theorem runFrom_succ_of_ok (h : step code m = .ok m') (limit : Nat) :
    runFrom code (limit + 1) m = runFrom code limit m' := by
  rw [runFrom, frames_isEmpty_of_step h, h]
  rfl

theorem runFrom_succ_of_error {f : Fault} (hframes : m.frames ≠ []) (h : step code m = .error f)
    (limit : Nat) : runFrom code (limit + 1) m = .fault f := by
  rw [runFrom, h]
  simp [hframes]

/-- A run goes on from where some of its steps lead. -/
theorem runFrom_of_advance {n : Nat} (h : advance code n m = .ok m') (limit : Nat) :
    runFrom code (n + limit) m = runFrom code limit m' := by
  induction n generalizing m with
  | zero =>
      cases h
      rw [Nat.zero_add]
  | succ n ih =>
      obtain ⟨next, hstep, hrest⟩ := Sequencing.bind_eq_ok.1 h
      rw [Nat.add_right_comm, runFrom_succ_of_ok hstep]
      exact ih hrest

/-- How a run ends: no invocation is left, a step fails, or the limit is reached. -/
theorem runFrom_cases (limit : Nat) (m : Machine) :
    (∃ m', Reaches code m m' ∧ m'.frames = [] ∧
        runFrom code limit m = .halt m'.stack.toList m'.heap) ∨
      (∃ m' f, Reaches code m m' ∧ step code m' = .error f ∧ runFrom code limit m = .fault f) ∨
      runFrom code limit m = .fault .stepLimit := by
  induction limit generalizing m with
  | zero =>
      by_cases hempty : m.frames = []
      · exact .inl ⟨m, ⟨0, rfl⟩, hempty, runFrom_of_finished hempty 0⟩
      · exact .inr (.inr (runFrom_zero hempty))
  | succ limit ih =>
      by_cases hempty : m.frames = []
      · exact .inl ⟨m, ⟨0, rfl⟩, hempty, runFrom_of_finished hempty _⟩
      · cases hstep : step code m with
        | error f => exact .inr (.inl ⟨m, f, ⟨0, rfl⟩, hstep, runFrom_succ_of_error hempty hstep _⟩)
        | ok next =>
            rw [runFrom_succ_of_ok hstep]
            -- The rest of the run ends in one of the three ways, one step further from here.
            rcases ih next with ⟨m', ⟨n, hn⟩, hframes, hout⟩ | ⟨m', f, ⟨n, hn⟩, hfault, hout⟩ | hout
            · exact .inl ⟨m', ⟨n + 1, (advance_succ hstep n).trans hn⟩, hframes, hout⟩
            · exact .inr (.inl ⟨m', f, ⟨n + 1, (advance_succ hstep n).trans hn⟩, hfault, hout⟩)
            · exact .inr (.inr hout)

end Machine

/-! ## Related steps -/

/-- Addresses from which one step of related machines leads to related machines: both codes end
there, or the one holds the moved instruction of the other. -/
inductive StepsAlike (φ ψ : Nat → Nat → Prop) (code code' : Code) (p q : Nat) : Prop where
  | finish : code.size ≤ p → code'.size ≤ q → StepsAlike φ ψ code code' p q
  | moved {i j : Instruction} : p < code.size → q < code'.size → decodeAt code p = .ok i →
      decodeAt code' q = .ok j → i.Moved φ code code' j →
        (i.op.passesOn = true → ψ i.next j.next) → StepsAlike φ ψ code code' p q

/-- Machines at places that step alike take related steps. -/
theorem Machine.Related.step {φ ψ : Nat → Nat → Prop} {code code' : Code} {m m' : Machine}
    (hm : Machine.Related φ ψ ψ m m') (hφ : OneToOne φ) (hle : ∀ p q, φ p q → ψ p q)
    (halike : ∀ f f', m.frames.head? = some f → m'.frames.head? = some f' →
      StepsAlike φ ψ code code' f.ip f'.ip) :
    Result.Related φ (Machine.Related φ ψ ψ) (Machine.step code m) (Machine.step code' m') := by
  obtain ⟨stack, frames, statics, pending, heap⟩ := m
  obtain ⟨stack', frames', statics', pending', heap'⟩ := m'
  have hframes := hm.frames
  dsimp only at hframes
  cases hframes with
  | nil => exact .fail _ rfl
  | @cons f f' outer outer' hf houter =>
      unfold Machine.step
      dsimp only
      cases halike f f' rfl rfl with
      | finish hp hq =>
          rw [if_neg (Nat.not_lt.2 hp), if_neg (Nat.not_lt.2 hq)]
          exact .ok hm.leave
      | @moved i j hp hq hi hj hmoved hnext =>
          rw [if_pos hp, if_pos hq, hi, hj]
          -- The innermost invocation goes on behind the instruction, wherever that is.
          have hbehind : Machine.Related φ (fun p q => p = i.next ∧ q = j.next) ψ
              ⟨stack, { f with ip := i.next } :: outer, statics, pending, heap⟩
              ⟨stack', { f' with ip := j.next } :: outer', statics', pending', heap'⟩ :=
            ⟨hm.stack, .cons ⟨⟨rfl, rfl⟩, hf.locals, hf.arguments, hf.handlers⟩ houter,
              hm.statics, hm.pending, hm.heap⟩
          refine hbehind.execute hφ hle hmoved ?_
          rintro hpasses p q ⟨rfl, rfl⟩
          exact hnext hpasses

section SelfRelated

variable {φ ψ : Nat → Nat → Prop} {code : Code} {m m' : Machine}

/-- A machine that is related to itself stays so if its code steps like itself. -/
theorem Machine.Related.step_self (hm : Machine.Related φ ψ ψ m m) (hφ : OneToOne φ)
    (hle : ∀ p q, φ p q → ψ p q) (halike : ∀ p, ψ p p → StepsAlike φ ψ code code p p) :
    Result.Related φ (Machine.Related φ ψ ψ) (Machine.step code m) (Machine.step code m) := by
  refine hm.step hφ hle ?_
  intro f f' hf hf'
  rw [hf] at hf'
  cases hf'
  have hframes := List.forall₂_same.1 (Related.forall₂_of_framesRelated hm.frames)
  exact halike f.ip (hframes f (List.mem_of_head? hf)).ip

/-- A machine that is related to itself stays so along a run. -/
theorem Machine.Related.of_reaches (hm : Machine.Related φ ψ ψ m m) (hφ : OneToOne φ)
    (hle : ∀ p q, φ p q → ψ p q) (halike : ∀ p, ψ p p → StepsAlike φ ψ code code p p)
    (hreaches : Machine.Reaches code m m') : Machine.Related φ ψ ψ m' m' := by
  obtain ⟨n, hn⟩ := hreaches
  induction n generalizing m with
  | zero =>
      cases hn
      exact hm
  | succ n ih =>
      obtain ⟨next, hstep, hrest⟩ := Sequencing.bind_eq_ok.1 hn
      have hresult := hm.step_self hφ hle halike
      rw [hstep] at hresult
      cases hresult with
      | ok hnext => exact ih hnext hrest

end SelfRelated

end NeoScript
