import NeoScript.Optimizer.Basic
import NeoScript.Proofs.Pass.Step

/-!
# Run — strategies one after the other

* `Pass.Reaches` — the passes that strategies can make from a contract;
* `Pass.step_append` — what a step does depends on the contract only;
* `Pass.Reaches.checked` — every contract that is reached passes the checks;
* `Pass.step_eq_ok` — all that a step leaves behind;
* `Pass.Records`, `Pass.Reaches.exists_records` — where the runs of a pass come from;
* `Optimizer.passes_cases` — all rounds together reach such a pass, unless a script becomes too
  long.
-/

namespace NeoScript

namespace Pass

/-- A pass that strategies make from a contract. -/
inductive Reaches (strategies : List Strategy) (c : Contract) : Pass → Prop where
  | start : Reaches strategies c (start c)
  | step {p p' : Pass} {s : Strategy} (h : Reaches strategies c p) (hs : s ∈ strategies)
      (hstep : p.step s = .ok p') : Reaches strategies c p'

def after (earlier p : Pass) : Pass :=
  ⟨p.contract, earlier.runs ++ p.runs, earlier.trace ++ p.trace⟩

theorem after_start (p : Pass) : p.after (start p.contract) = p := by
  simp [after, start]

/-- What a step does depends on the contract only. -/
theorem step_after (earlier p : Pass) (s : Strategy) :
    (earlier.after p).step s = (p.step s).map (earlier.after ·) := by
  -- Wherever the step fails it does so for its contract; the runs and the trace only grow behind
  -- those of `earlier`.
  simp only [step, after]
  cases p.contract.graph with
  | error e => rfl
  | ok g =>
      simp only [Sequencing.ok_bind]
      cases g.metrics with
      | error e => rfl
      | ok before =>
          simp only [Sequencing.ok_bind]
          split
          · cases relocate (s.apply g) with
            | error e => rfl
            | ok relocation =>
                simp only [Sequencing.ok_bind]
                cases p.contract.rebuild relocation with
                | error e => rfl
                | ok contract =>
                    simp only [Sequencing.ok_bind]
                    cases contract.metrics with
                    | error e => rfl
                    | ok after => simp [Sequencing.ok_bind, pure, Except.pure, Except.map]
          · simp [pure, Except.pure, Except.map]

/-- Earlier passes do not matter for what strategies do; they only stay in front of the trace. -/
theorem foldlM_after (earlier p : Pass) (strategies : List Strategy) :
    strategies.foldlM step (earlier.after p) =
      (strategies.foldlM step p).map (earlier.after ·) := by
  induction strategies generalizing p with
  | nil => rfl
  | cons s strategies ih =>
      rw [List.foldlM_cons, List.foldlM_cons, step_after]
      cases p.step s with
      | error e => rfl
      | ok p' => exact ih p'

theorem run_after (p : Pass) (strategies : List Strategy) :
    strategies.foldlM step p = (run p.contract strategies).map (p.after ·) := by
  have h := foldlM_after p (start p.contract) strategies
  rwa [after_start] at h

variable {strategies : List Strategy} {c : Contract} {script : Script}

/-- Every contract that is reached passes the checks. -/
theorem Reaches.checked (hc : c.Checked script) {p : Pass} (h : Reaches strategies c p) :
    ∃ script, p.contract.Checked script := by
  induction h with
  | start => exact ⟨script, hc⟩
  | @step p p' s _ _ hstep ih =>
      obtain ⟨script, hp⟩ := ih
      obtain ⟨_, _, _, _, _, _, hstepped⟩ := step_stepped hp s
      rw [hstep] at hstepped
      cases hstepped with
      | unchanged => exact ⟨script, hp⟩
      | rebuilt _ hrebuilt => exact ⟨_, hrebuilt.checked⟩

/-- Strategies reach a pass, or a script becomes too long. -/
theorem Reaches.foldlM (hc : c.Checked script) {todo : List Strategy}
    (htodo : ∀ s ∈ todo, s ∈ strategies) {p : Pass} (h : Reaches strategies c p) :
    (∃ p', todo.foldlM Pass.step p = .ok p' ∧ Reaches strategies c p') ∨
      ∃ p' s n, Reaches strategies c p' ∧ s ∈ strategies ∧ p'.contract.Outgrows s n ∧
        todo.foldlM Pass.step p = .error (.invalidNef (.scriptLength n)) := by
  induction todo generalizing p with
  | nil => exact .inl ⟨p, rfl, h⟩
  | cons s todo ih =>
      rw [List.forall_mem_cons] at htodo
      obtain ⟨script, hp⟩ := h.checked hc
      obtain ⟨_, _, _, _, _, _, hstepped⟩ := step_stepped hp s
      rw [List.foldlM_cons]
      generalize hstep : p.step s = result at hstepped
      cases hstepped with
      | unchanged => exact ih htodo.2 (h.step htodo.1 hstep)
      | rebuilt => exact ih htodo.2 (h.step htodo.1 hstep)
      | tooLong _ hn => exact .inr ⟨p, s, _, h, htodo.1, hn, rfl⟩

/-- A run from a contract that was reached goes on from there. -/
theorem Reaches.run (hc : c.Checked script) {p : Pass} (h : Reaches strategies c p) :
    (∃ q, run p.contract strategies = .ok q ∧ Reaches strategies c (p.after q)) ∨
      ∃ p' s n, Reaches strategies c p' ∧ s ∈ strategies ∧ p'.contract.Outgrows s n ∧
        Pass.run p.contract strategies = .error (.invalidNef (.scriptLength n)) := by
  rcases h.foldlM hc (fun _ hs => hs) with ⟨p', hfold, hreaches⟩ | ⟨p', s, n, hp', hs, hn, hfold⟩
  · rw [run_after, Sequencing.map_eq_ok] at hfold
    obtain ⟨q, hq, rfl⟩ := hfold
    exact .inl ⟨q, hq, hreaches⟩
  · refine .inr ⟨p', s, n, hp', hs, hn, ?_⟩
    rw [run_after] at hfold
    cases hrun : Pass.run p.contract strategies with
    | error e =>
        rw [hrun] at hfold
        cases hfold
        rfl
    | ok q =>
        rw [hrun] at hfold
        cases hfold

/-- What a strategy that changes a contract writes down. -/
inductive Records (c : Contract) (s : Strategy) (c' : Contract) : StrategyRun → Prop where
  | mk {g : FlowGraph} {before after : Metrics} {relocation : Relocation} (hgraph : c.graph = .ok g)
      (hbefore : g.metrics = .ok before) (hchanged : (s.apply g).changed = true)
      (hrelocate : relocate (s.apply g) = .ok relocation) (hrebuild : c.rebuild relocation = .ok c')
      (hafter : c'.metrics = .ok after) :
      Records c s c' ⟨s.name, before.sizeChange after, before.feeChange after, relocation.upgraded⟩

/-- A step does nothing but tell of it, or it relocates the revised program and rebuilds the
contract. -/
theorem step_eq_ok {p p' : Pass} {s : Strategy} (h : p.step s = .ok p') :
    ∃ g before, p.contract.graph = .ok g ∧ g.metrics = .ok before ∧
      (((s.apply g).changed = false ∧
          p' = { p with trace := p.trace ++ [g.built, ⟨.revise s.name false, none⟩] }) ∨
        ∃ relocation c' after, (s.apply g).changed = true ∧ relocate (s.apply g) = .ok relocation ∧
          p.contract.rebuild relocation = .ok c' ∧ c'.metrics = .ok after ∧
          p' = ⟨c', p.runs ++
            [⟨s.name, before.sizeChange after, before.feeChange after, relocation.upgraded⟩],
            p.trace ++ [g.built, ⟨.revise s.name true, none⟩,
              ⟨.relocate relocation.upgraded, some relocation.addressMap.moved⟩]⟩) := by
  obtain ⟨g, hgraph, h⟩ := Sequencing.bind_eq_ok.1 h
  obtain ⟨before, hbefore, h⟩ := Sequencing.bind_eq_ok.1 h
  refine ⟨g, before, hgraph, hbefore, ?_⟩
  dsimp only at h
  split at h
  · rename_i hchanged
    obtain ⟨relocation, hrelocate, h⟩ := Sequencing.bind_eq_ok.1 h
    obtain ⟨c', hrebuild, h⟩ := Sequencing.bind_eq_ok.1 h
    obtain ⟨after, hafter, h⟩ := Sequencing.bind_eq_ok.1 h
    cases h
    refine .inr ⟨relocation, c', after, hchanged, hrelocate, hrebuild, hafter, ?_⟩
    rw [hchanged, List.append_assoc]
    rfl
  · rename_i hchanged
    rw [Bool.not_eq_true] at hchanged
    cases h
    exact .inl ⟨hchanged, by rw [hchanged]⟩

/-- A step writes nothing down, or the run that it made. -/
theorem step_runs {p p' : Pass} {s : Strategy} (h : p.step s = .ok p') :
    p'.runs = p.runs ∨ ∃ run, p'.runs = p.runs ++ [run] ∧ Records p.contract s p'.contract run := by
  obtain ⟨g, before, hgraph, hbefore, ⟨-, rfl⟩ |
    ⟨relocation, c', after, hchanged, hrelocate, hrebuild, hafter, rfl⟩⟩ := step_eq_ok h
  · exact .inl rfl
  · exact .inr ⟨_, rfl, .mk hgraph hbefore hchanged hrelocate hrebuild hafter⟩

/-- Every run was written down by a strategy, on a contract that was reached. -/
theorem Reaches.exists_records {p : Pass} (h : Reaches strategies c p) {run : StrategyRun}
    (hrun : run ∈ p.runs) :
    ∃ q s c', Reaches strategies c q ∧ s ∈ strategies ∧ Records q.contract s c' run := by
  induction h with
  | start => cases hrun
  | @step p p' s hreaches hs hstep ih =>
      rcases step_runs hstep with hsame | ⟨last, hlast, hrecords⟩
      · exact ih (hsame ▸ hrun)
      · rw [hlast] at hrun
        rcases List.mem_append.1 hrun with hearlier | hnew
        · exact ih hearlier
        · rw [List.mem_singleton.1 hnew]
          exact ⟨p, s, p'.contract, hreaches, hs, hrecords⟩

end Pass

/-! ## Rounds -/

namespace Optimizer

variable {strategies : List Strategy} {c : Contract} {script : Script}

def Progress.pass (p : Progress) : Pass :=
  ⟨p.contract, p.runs, p.trace⟩

/-- Rounds end in a contract that strategies reach, or stop because a script outgrows its limit. -/
theorem rounds_cases (hc : c.Checked script) (limit : Nat) {p : Progress}
    (h : Pass.Reaches strategies c p.pass) :
    (∃ p', rounds strategies limit p = .ok p' ∧ Pass.Reaches strategies c p'.pass) ∨
      ∃ q s n, Pass.Reaches strategies c q ∧ s ∈ strategies ∧ q.contract.Outgrows s n ∧
        rounds strategies limit p = .error (.invalidNef (.scriptLength n)) := by
  induction limit generalizing p with
  | zero => exact .inl ⟨p, rfl, h⟩
  | succ limit ih =>
      unfold rounds
      rcases h.run hc with ⟨q, hrun, hreaches⟩ | ⟨q, s, n, hq, hs, hn, hrun⟩
      · have hrun' : Pass.run p.contract strategies = .ok q := hrun
        simp only [hrun', Sequencing.ok_bind]
        split
        · exact ih hreaches
        · -- A pass that changes nothing ends the rounds, and it adds no run.
          rename_i hsame
          have hruns : q.runs = [] := by simpa [Pass.changed] using hsame
          refine .inl ⟨_, rfl, ?_⟩
          simpa [Progress.pass, Pass.after, hruns] using hreaches
      · have hrun' : Pass.run p.contract strategies = .error (.invalidNef (.scriptLength n)) := hrun
        simp only [hrun', Sequencing.error_bind]
        exact .inr ⟨q, s, n, hq, hs, hn, rfl⟩

/-- All rounds together. -/
theorem passes_cases (config : Config) (hc : c.Checked script) :
    (∃ p, passes config c = .ok p ∧ Pass.Reaches config.strategies c p.pass) ∨
      ∃ q s n, Pass.Reaches config.strategies c q ∧ s ∈ config.strategies ∧
        q.contract.Outgrows s n ∧
        passes config c = .error (.invalidNef (.scriptLength n)) := by
  have hstart : Pass.Reaches config.strategies c (Progress.pass ⟨c, [], [], 0⟩) := .start
  unfold passes
  generalize config.strategies = strategies at hstart
  cases strategies with
  | nil => exact .inl ⟨_, rfl, hstart⟩
  | cons s strategies => exact rounds_cases hc config.maxRounds hstart

/-- What all rounds give is reached. -/
theorem reaches_of_passes {config : Config} (hc : c.Checked script) {p : Progress}
    (h : passes config c = .ok p) : Pass.Reaches config.strategies c p.pass := by
  rcases passes_cases config hc with ⟨p', hp', hreaches⟩ | ⟨_, _, _, _, _, _, hfails⟩
  · cases Except.ok.inj (h.symm.trans hp')
    exact hreaches
  · cases h.symm.trans hfails

end Optimizer

end NeoScript
