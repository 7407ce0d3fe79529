import NeoScript.Proofs.Pass.Run
import NeoScript.Samples

/-!
# Totality — a contract that was accepted is never broken

* `Optimizer.accept_eq_ok` — what is accepted carries its own checksum;
* `Optimizer.optimize_eq_ok`, `Optimizer.exists_optimize` — results come from passes over what was
  accepted;
* `optimize_ok_or_outgrows` — after them only the length of a new script can be an obstacle, and the
  result passes all checks.
-/

namespace NeoScript

/-- The numbers of a report are those of two measurements. -/
structure Report.Compares (report : Report) (before after : Metrics) : Prop where
  sizeBefore : report.sizeBefore = before.byteLength
  sizeAfter : report.sizeAfter = after.byteLength
  instructionsBefore : report.instructionsBefore = before.instructionCount
  instructionsAfter : report.instructionsAfter = after.instructionCount
  feeBefore : report.feeBefore = before.staticFee
  feeAfter : report.feeAfter = after.staticFee

namespace Optimizer

/-- An accepted contract is the given one, up to a checksum that fits. -/
theorem accept_eq_ok {config : Config} {c c₀ : Contract} (h : accept config c = .ok c₀) :
    c₀.nef.computeChecksum = .ok c₀.nef.checksum ∧ c₀.nef.script = c.nef.script ∧
      c₀.manifest = c.manifest ∧ c₀.debug = c.debug := by
  obtain ⟨computed, hcomputed, h⟩ := Sequencing.bind_eq_ok.1 h
  have hsealed : ∀ checksum, Nef.computeChecksum { c.nef with checksum } = .ok computed :=
    fun _ => hcomputed
  split_ifs at h with hsame hverify
  · cases h
    rw [hcomputed, hsame]
    exact ⟨rfl, rfl, rfl, rfl⟩
  · cases h
    exact ⟨hsealed computed, rfl, rfl, rfl⟩

/-- An accepted contract whose addresses are right passes all checks. -/
theorem checked_of_accept {config : Config} {c c₀ : Contract} (h : accept config c = .ok c₀)
    (haddresses : c₀.checkAddresses = .ok ()) : ∃ script, c₀.Checked script := by
  obtain ⟨script, hscript⟩ := Contract.checkAddresses_eq_ok_iff.1 haddresses
  exact ⟨script, hscript, (accept_eq_ok h).1⟩

/-- What a result takes from the passes over a contract. -/
structure Returns (c₀ : Contract) (done : Progress) (result : Optimization) : Prop where
  contract : result.contract = done.contract
  trace : result.trace = done.trace
  rounds : result.report.rounds = done.rounds
  runs : result.report.runs = done.runs
  compares : ∃ before after, c₀.metrics = .ok before ∧ done.contract.metrics = .ok after ∧
    result.report.Compares before after

section Optimize

variable {config : Config} {c c₀ : Contract} {done : Progress} {result : Optimization}

/-- A result comes from passes over an accepted contract. -/
theorem optimize_eq_ok (h : optimize config c = .ok result) :
    ∃ c₀ done, accept config c = .ok c₀ ∧ c₀.checkAddresses = .ok () ∧ passes config c₀ = .ok done ∧
      done.contract.verify = .ok () ∧ Returns c₀ done result := by
  obtain ⟨c₀, haccept, h⟩ := Sequencing.bind_eq_ok.1 h
  obtain ⟨_, haddresses, h⟩ := Sequencing.bind_eq_ok.1 h
  obtain ⟨before, hbefore, h⟩ := Sequencing.bind_eq_ok.1 h
  obtain ⟨done, hdone, h⟩ := Sequencing.bind_eq_ok.1 h
  obtain ⟨_, hverify, h⟩ := Sequencing.bind_eq_ok.1 h
  obtain ⟨after, hafter, h⟩ := Sequencing.bind_eq_ok.1 h
  cases h
  exact ⟨c₀, done, haccept, haddresses, hdone, hverify, rfl, rfl, rfl, rfl,
    before, after, hbefore, hafter, rfl, rfl, rfl, rfl, rfl, rfl⟩

/-- Passes that end with a checked contract give a result. -/
theorem exists_optimize (haccept : accept config c = .ok c₀)
    (haddresses : c₀.checkAddresses = .ok ())
    (hpasses : passes config c₀ = .ok done) {script : Script}
    (hdone : done.contract.Checked script) :
    ∃ result, optimize config c = .ok result ∧ Returns c₀ done result := by
  obtain ⟨_, hchecked⟩ := checked_of_accept haccept haddresses
  obtain ⟨before, hbefore⟩ := hchecked.exists_metrics
  obtain ⟨after, hafter⟩ := hdone.exists_metrics
  have hverify := Contract.verify_eq_ok_iff.2 ⟨script, hdone⟩
  simp only [optimize, haccept, haddresses, hbefore, hpasses, hverify, hafter, Sequencing.ok_bind]
  exact ⟨_, rfl, rfl, rfl, rfl, rfl, before, after, hbefore, hafter, rfl, rfl, rfl, rfl, rfl, rfl⟩

/-- An error of a pass is the error of the optimization. -/
theorem optimize_of_passes_eq_error (haccept : accept config c = .ok c₀)
    (haddresses : c₀.checkAddresses = .ok ()) {e : Error} (hpasses : passes config c₀ = .error e) :
    optimize config c = .error e := by
  obtain ⟨_, hchecked⟩ := checked_of_accept haccept haddresses
  obtain ⟨before, hbefore⟩ := hchecked.exists_metrics
  simp only [optimize, haccept, haddresses, hbefore, hpasses, Sequencing.ok_bind,
    Sequencing.error_bind]

end Optimize

end Optimizer

/-! ## A sample -/

namespace Samples

/-- The counter carries its own checksum. -/
theorem exists_counter : ∃ nef, counter = .ok ⟨nef, counterManifest, some counterDebugInfo⟩ ∧
    nef.script = counterScript ∧ nef.computeChecksum = .ok nef.checksum := by
  have hsealable : Nef.Sealable ⟨compiler, "", [], #[], 0⟩ :=
    ⟨by decide, by decide, by decide, nofun⟩
  obtain ⟨nef, hnef, hscript, hchecksum⟩ :=
    hsealable.exists_withScript counterScript (by decide) (by decide)
  have hmake : Nef.make compiler "" [] counterScript = .ok nef := hnef
  refine ⟨nef, ?_, hscript, hchecksum⟩
  simp only [counter, hmake, Sequencing.ok_bind]
  rfl

theorem checkAddresses_counter {nef : Nef} (h : nef.script = counterScript) :
    Contract.checkAddresses ⟨nef, counterManifest, some counterDebugInfo⟩ = .ok () := by
  unfold Contract.checkAddresses
  rw [h]
  rfl

end Samples

/-- A contract with the right checksum is accepted as it is. -/
theorem Optimizer.accept_of_checksum (config : Config) {c : Contract}
    (h : c.nef.computeChecksum = .ok c.nef.checksum) : accept config c = .ok c := by
  simp only [accept, h, Sequencing.ok_bind, if_true]
  rfl

open Optimizer

/-- After the checks at the beginning only the length of a new script can be an obstacle: no other
stage of any round fails, and every result passes the checks again. -/
theorem optimize_ok_or_outgrows (config : Config) (c c₀ : Contract)
    (haccept : accept config c = .ok c₀) (haddresses : c₀.checkAddresses = .ok ()) :
    (∃ result script, optimize config c = .ok result ∧ result.contract.verify = .ok () ∧
        result.contract.Checked script) ∨
      ∃ p s size, Pass.Reaches config.strategies c₀ p ∧ s ∈ config.strategies ∧
        p.contract.Outgrows s size ∧ optimize config c =
          .error (.invalidNef (.scriptLength size)) := by
  obtain ⟨script, hchecked⟩ := checked_of_accept haccept haddresses
  rcases passes_cases config hchecked with ⟨done, hpasses, hreaches⟩ | ⟨p, s, n, hp, hs, hn, hfails⟩
  · obtain ⟨script', hdone⟩ := hreaches.checked hchecked
    obtain ⟨result, hresult, hreturns⟩ := exists_optimize haccept haddresses hpasses hdone
    have hcontract : result.contract.Checked script' := by
      rw [hreturns.contract]
      exact hdone
    exact .inl ⟨result, script', hresult, Contract.verify_eq_ok_iff.2 ⟨script', hcontract⟩,
      hcontract⟩
  · exact .inr ⟨p, s, n, hp, hs, hn, optimize_of_passes_eq_error haccept haddresses hfails⟩

/-- The counter, whose sum is folded and whose jump is moved. -/
theorem optimize_counter_ok_or_outgrows : ∃ c, Samples.counter = .ok c ∧
    accept .default c = .ok c ∧ c.checkAddresses = .ok () ∧
    ((∃ result script, optimize .default c = .ok result ∧ result.contract.verify = .ok () ∧
        result.contract.Checked script) ∨
      ∃ p s size, Pass.Reaches Config.default.strategies c p ∧ s ∈ Config.default.strategies ∧
        p.contract.Outgrows s size ∧ optimize .default c =
          .error (.invalidNef (.scriptLength size))) := by
  obtain ⟨nef, hcounter, hscript, hchecksum⟩ := Samples.exists_counter
  have haccept :=
    accept_of_checksum .default (c := ⟨nef, Samples.counterManifest, some Samples.counterDebugInfo⟩)
    hchecksum
  have haddresses := Samples.checkAddresses_counter hscript
  exact ⟨_, hcounter, haccept, haddresses, optimize_ok_or_outgrows .default _ _ haccept haddresses⟩

end NeoScript
