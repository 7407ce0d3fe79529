import NeoScript.Proofs.Optimizer.Totality
import NeoScript.Proofs.Pass.Settled

/-!
# FixedPoint — one round reaches a contract that stays

* `Pass.run_settled` — after one pass every strategy of the settings finds nothing to do;
* `Pass.run_of_settled`, `Optimizer.rounds_of_settled` — from there nothing changes any more;
* `optimize_idempotent` — at most one round changes the program, and a second run changes nothing.
-/

namespace NeoScript

namespace Pass

variable {c : Contract} {script : Script}

/-- Where no strategy finds anything to do, a pass changes nothing. -/
theorem foldlM_of_settled {strategies : List Strategy} {p : Pass}
    (h : ∀ s ∈ strategies, p.contract.Settled s) :
    ∃ events, strategies.foldlM step p = .ok { p with trace := p.trace ++ events } := by
  induction strategies generalizing p with
  | nil => exact ⟨[], by simp [pure, Except.pure]⟩
  | cons s strategies ih =>
      rw [List.forall_mem_cons] at h
      obtain ⟨events, hstep⟩ := step_of_settled h.1
      obtain ⟨later, hrest⟩ := ih (p := { p with trace := p.trace ++ events }) h.2
      refine ⟨events ++ later, ?_⟩
      rw [List.foldlM_cons, hstep, Sequencing.ok_bind, hrest]
      simp

/-- After one pass no strategy finds anything to do. -/
theorem run_settled (config : Config) (h : c.Checked script) {q : Pass}
    (hrun : run c config.strategies = .ok q) : ∀ s ∈ config.strategies, q.contract.Settled s := by
  have hboth : ∀ policy threshold, run c [.folding policy, .fusion threshold] = .ok q →
      ∀ s ∈ [Strategy.folding policy, .fusion threshold], q.contract.Settled s := by
    intro policy threshold hrun
    obtain ⟨p, hfold, hrun⟩ := Sequencing.bind_eq_ok.1 hrun
    obtain ⟨p', hfuse, hdone⟩ := Sequencing.bind_eq_ok.1 hrun
    cases hdone
    have hfolded : p.contract.Settled (.folding policy) := step_settled (p := start c) h hfold
    obtain ⟨script', -, hchecked, -, -⟩ := id hfolded
    -- Fusion leaves nothing behind that could be folded.
    have hkept := step_folding_of_fusion hchecked hfuse hfolded
    have hfused := step_settled hchecked hfuse
    simpa using ⟨hkept, hfused⟩
  unfold Config.strategies at hrun ⊢
  cases hlevel : config.level with
  | off => simp
  | basic =>
      rw [hlevel] at hrun
      obtain ⟨p, hfold, hdone⟩ := Sequencing.bind_eq_ok.1 hrun
      cases hdone
      simpa using step_settled (p := start c) h hfold
  | experimental =>
      rw [hlevel] at hrun
      exact hboth _ _ hrun
  | all =>
      rw [hlevel] at hrun
      exact hboth _ _ hrun

end Pass

namespace Optimizer

/-- From a settled contract the rounds change nothing. -/
theorem rounds_of_settled {strategies : List Strategy} (limit : Nat) {p : Progress}
    (h : ∀ s ∈ strategies, p.contract.Settled s) :
    ∃ events, rounds strategies limit p = .ok { p with trace := p.trace ++ events } := by
  cases limit with
  | zero => exact ⟨[], by simp [rounds]⟩
  | succ limit =>
      obtain ⟨events, hrun⟩ := Pass.foldlM_of_settled (p := .start p.contract) h
      have hrun' : Pass.run p.contract strategies =
          .ok { Pass.start p.contract with trace := [] ++ events } := hrun
      refine ⟨events, ?_⟩
      simp only [rounds, hrun', Sequencing.ok_bind]
      rfl

variable {c : Contract} {script : Script}

/-- Without strategies no round is made. -/
theorem passes_eq (config : Config) (c : Contract) :
    passes config c = rounds config.strategies
      (if config.strategies = [] then 0 else config.maxRounds) ⟨c, [], [], 0⟩ := by
  unfold passes
  cases config.strategies <;> rfl

/-- The first round settles the contract, and no other round changes it. -/
theorem rounds_le_one (config : Config) (h : c.Checked script) {limit : Nat} {done : Progress}
    (hdone : rounds config.strategies limit ⟨c, [], [], 0⟩ = .ok done) :
    done.rounds ≤ 1 ∧ (limit ≠ 0 → ∀ s ∈ config.strategies, done.contract.Settled s) := by
  cases limit with
  | zero =>
      cases hdone
      exact ⟨Nat.zero_le _, fun hlimit => absurd rfl hlimit⟩
  | succ limit =>
      obtain ⟨q, hrun, hdone⟩ := Sequencing.bind_eq_ok.1 hdone
      have hsettled := Pass.run_settled config h hrun
      split at hdone
      · obtain ⟨events, hrounds⟩ := rounds_of_settled limit
          (p := ⟨q.contract, [] ++ q.runs, [] ++ q.trace, 0 + 1⟩) hsettled
        rw [hrounds] at hdone
        cases hdone
        exact ⟨Nat.le_refl _, fun _ => hsettled⟩
      · cases hdone
        exact ⟨Nat.zero_le _, fun _ => hsettled⟩

/-- Passes over what passes left behind change nothing. -/
theorem passes_again (config : Config) (h : c.Checked script) {done : Progress}
    (hdone : passes config c = .ok done) :
    done.rounds ≤ 1 ∧ ∃ again, passes config done.contract = .ok again ∧
      again.contract = done.contract ∧ again.runs = [] := by
  rw [passes_eq] at hdone
  obtain ⟨hrounds, hsettled⟩ := rounds_le_one config h hdone
  refine ⟨hrounds, ?_⟩
  rw [passes_eq]
  generalize (if config.strategies = [] then 0 else config.maxRounds) = limit at hsettled
  by_cases hlimit : limit = 0
  · subst hlimit
    exact ⟨_, rfl, rfl, rfl⟩
  · obtain ⟨events, hagain⟩ :=
      rounds_of_settled limit (p := ⟨done.contract, [], [], 0⟩) (hsettled hlimit)
    exact ⟨_, hagain, rfl, rfl⟩

end Optimizer

open Optimizer

/-- One round reaches the fixed point: at most one round changes the program, and optimizing the
result again with the same settings changes nothing. -/
theorem optimize_idempotent (config : Config) (c : Contract) (result : Optimization)
    (h : optimize config c = .ok result) :
    result.report.rounds ≤ 1 ∧ ∃ again, optimize config result.contract = .ok again ∧
      again.contract = result.contract ∧ again.report.runs = [] := by
  obtain ⟨c₀, done, haccept, haddresses, hpasses, hverify, hreturns⟩ := optimize_eq_ok h
  obtain ⟨script, hchecked⟩ := checked_of_accept haccept haddresses
  obtain ⟨script', hdone⟩ := Contract.verify_eq_ok_iff.1 hverify
  obtain ⟨hrounds, again, hagain, hcontract, hruns⟩ := passes_again config hchecked hpasses
  rw [hreturns.rounds, hreturns.contract]
  refine ⟨hrounds, ?_⟩
  have haccept' := accept_of_checksum config hdone.checksum
  have haddresses' := Contract.checkAddresses_eq_ok_iff.2 ⟨script', hdone.toAddressed⟩
  have hdone' : again.contract.Checked script' := by
    rw [hcontract]
    exact hdone
  obtain ⟨result', hresult', hreturns'⟩ := exists_optimize haccept' haddresses' hagain hdone'
  exact ⟨result', hresult', hreturns'.contract.trans hcontract, hreturns'.runs.trans hruns⟩

/-- The counter is optimized in one round; its script loses two bytes. -/
theorem optimize_counter_idempotent : ∃ c result, Samples.counter = .ok c ∧
    optimize .default c = .ok result ∧ result.contract.nef.script.size = 17 ∧
    result.report.rounds ≤ 1 ∧ ∃ again, optimize .default result.contract = .ok again ∧
      again.contract = result.contract ∧ again.report.runs = [] := by
  have hrun : (do
      let c ← Samples.counter
      let result ← optimize .default c
      return result.contract.nef.script.size) = .ok 17 := by
    decide +kernel
  obtain ⟨c, hc, hrun⟩ := Sequencing.bind_eq_ok.1 hrun
  obtain ⟨result, hresult, hsize⟩ := Sequencing.bind_eq_ok.1 hrun
  exact ⟨c, result, hc, hresult, Except.ok.inj hsize, optimize_idempotent .default c result hresult⟩

end NeoScript
