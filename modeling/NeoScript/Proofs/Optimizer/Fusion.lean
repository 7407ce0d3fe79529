import NeoScript.Proofs.Optimizer.Totality
import NeoScript.Proofs.Relocation.Contraction
import NeoScript.Proofs.Script.RoundTrip

/-!
# Fusion — packed arrays never make a jump long

Only arrays shrink, and all that is around them moves closer.

* `Contract.Checked.exists_fused` — fusion that changes something is laid out without longer
  references, in fewer bytes;
* `Pass.Records.of_fusion` — what it writes down;
* `fusion_never_lengthens` — both, for every report.
-/

namespace NeoScript

namespace Contract

variable {c c' : Contract} {script : Script}

/-- Metrics count the bytes of the script. -/
theorem Checked.byteLength (h : c.Checked script) {m : Metrics} (hm : c.metrics = .ok m) :
    m.byteLength = c.nef.script.size := by
  obtain ⟨g, groups, hg, hdescribes⟩ := h.exists_graph
  have hmetrics := Sequencing.bind_eq_ok.2 ⟨g, hg, hdescribes.metrics_eq h.instructions_ne_nil⟩
  cases Except.ok.inj (hm.symm.trans hmetrics)
  exact h.valid.toIsReading.length_eq

/-- Fusion that changes something needs no longer reference and fewer bytes. -/
theorem Checked.exists_fused (h : c.Checked script) {threshold : Nat} {g : FlowGraph}
    (hg : c.graph = .ok g) (hchanged : ((Strategy.fusion threshold).apply g).changed = true) :
    ∃ result code, relocate ((Strategy.fusion threshold).apply g) = .ok result ∧
      result.upgraded = 0 ∧
      encode result.instructions = .ok code ∧ code.size = result.scriptLength ∧
      code.size < c.nef.script.size := by
  obtain ⟨g', groups, hg', hdescribes⟩ := h.exists_graph
  cases Except.ok.inj (hg.symm.trans hg')
  obtain ⟨parts, counts, hrewrites, hallows, hdone⟩ :=
    (Strategy.fusion threshold).rewrites hdescribes h.valid.toIsReading
  have hcounts : 0 < counts.sum := by simpa [hdone] using hchanged
  have hsize : c.nef.script.size < 0x80000000 := Nat.lt_of_le_of_lt h.size.2 (by decide)
  obtain ⟨links, xs, hrelocate, htransfer, hparts, hlength, -, -⟩ :=
    hrewrites.exists_contracted h.valid
    (fun s hs => (Strategy.shortens_of_fusion hallows s hs).shrinks) hsize
  obtain ⟨code, hencode, -⟩ := Transferred.exists_encode htransfer h.instructions_ne_nil
  have hcode : totalSize xs = code.size :=
    (Script.isReading_of_encode htransfer.placed hencode).size
  have hlt := Strategy.totalSize_lt_of_fusion hallows hcounts
  rw [hrewrites.map_olds, h.valid.size, ← hlength, hcode] at hlt
  exact ⟨_, code, hrelocate, rfl, hencode, hcode.symm, hlt⟩

end Contract

/-- A run of fusion is shorter, and nothing became long. -/
theorem Pass.Records.of_fusion {c c' : Contract} {script : Script} (hc : c.Checked script)
    {threshold : Nat} {run : StrategyRun} (h : Records c (.fusion threshold) c' run) :
    run.sizeChange < 0 ∧ run.upgraded = 0 := by
  cases h with
  | @mk g before after relocation hgraph hbefore hchanged hrelocate hrebuild hafter =>
      obtain ⟨result, code, hresult, hupgraded, hencode, -, hlt⟩ := hc.exists_fused hgraph hchanged
      cases Except.ok.inj (hrelocate.symm.trans hresult)
      refine ⟨?_, hupgraded⟩
      obtain ⟨links, hrebuilt, -⟩ := hc.exists_rebuilt hgraph hrelocate hrebuild
      have hchecked := hrebuilt.checked
      have hold := hc.byteLength (Sequencing.bind_eq_ok.2 ⟨g, hgraph, hbefore⟩)
      have hnew := hchecked.byteLength hafter
      have hscript : c'.nef.script = code := by
        have hagain := hchecked.valid.toIsReading.encode_eq
        exact Except.ok.inj (hagain.symm.trans hencode)
      simp only [Metrics.sizeChange, hold, hnew, hscript]
      omega

open Optimizer

/-- Fusion that changes a contract lengthens no reference and shortens the script, and so says every
report. -/
theorem fusion_never_lengthens :
    (∀ (c : Contract) (threshold : Nat), c.verify = .ok () → ∃ g, c.graph = .ok g ∧
      (((Strategy.fusion threshold).apply g).changed = true →
        ∃ result code, relocate ((Strategy.fusion threshold).apply g) = .ok result ∧
          result.upgraded = 0 ∧
          encode result.instructions = .ok code ∧ code.size = result.scriptLength ∧
          code.size < c.nef.script.size)) ∧
    ∀ (config : Config) (c : Contract) (result : Optimization), optimize config c = .ok result →
      ∀ run ∈ result.report.runs, run.strategy = "CollectionFusion" →
        run.sizeChange < 0 ∧ run.upgraded = 0 := by
  constructor
  · intro c threshold hverify
    obtain ⟨script, hchecked⟩ := Contract.verify_eq_ok_iff.1 hverify
    obtain ⟨g, groups, hg, -⟩ := hchecked.exists_graph
    exact ⟨g, hg, fun hchanged => hchecked.exists_fused hg hchanged⟩
  · intro config c result hresult run hrun hname
    obtain ⟨c₀, done, haccept, haddresses, hpasses, -, hreturns⟩ := optimize_eq_ok hresult
    obtain ⟨script, hchecked⟩ := checked_of_accept haccept haddresses
    have hreaches := reaches_of_passes hchecked hpasses
    rw [hreturns.runs] at hrun
    obtain ⟨q, s, c', hq, -, hrecords⟩ := hreaches.exists_records hrun
    obtain ⟨script', hq⟩ := hq.checked hchecked
    cases s with
    | folding policy =>
        cases hrecords
        have hsame : "ConstantFold" = "CollectionFusion" := hname
        exact absurd hsame (by decide)
    | fusion threshold => exact hrecords.of_fusion hq

/-- A jump over an array to which three elements are appended. -/
def Samples.skippedScript : Code :=
  #[0x22, 0x0C, 0xC2, 0x4A, 0x15, 0xCF, 0x4A, 0x16, 0xCF, 0x4A, 0x17, 0xCF, 0x40]

/-- The jump stays short, and the array gets shorter. -/
theorem fusion_never_lengthens_skipped : ∃ c g result optimization run,
    Samples.contract Samples.skippedScript [("main", ⟨0, 12⟩)] = .ok c ∧ c.verify = .ok () ∧
    c.graph = .ok g ∧ ((Strategy.fusion 0).apply g).changed = true ∧
    relocate ((Strategy.fusion 0).apply g) = .ok result ∧ result.upgraded = 0 ∧
    result.scriptLength < c.nef.script.size ∧
    optimize .default c = .ok optimization ∧ run ∈ optimization.report.runs ∧
    run.strategy = "CollectionFusion" ∧ run.sizeChange < 0 ∧ run.upgraded = 0 := by
  have hcompute : (do
      let c ← Samples.contract Samples.skippedScript [("main", ⟨0, 12⟩)]
      c.verify
      let g ← c.graph
      let optimization ← optimize .default c
      return (((Strategy.fusion 0).apply g).changed,
        optimization.report.runs.map StrategyRun.strategy)) =
      .ok (true, ["CollectionFusion"]) := by
    decide +kernel
  obtain ⟨c, hc, hcompute⟩ := Sequencing.bind_eq_ok.1 hcompute
  obtain ⟨_, hverify, hcompute⟩ := Sequencing.bind_eq_ok.1 hcompute
  obtain ⟨g, hg, hcompute⟩ := Sequencing.bind_eq_ok.1 hcompute
  obtain ⟨optimization, hoptimize, hcompute⟩ := Sequencing.bind_eq_ok.1 hcompute
  obtain ⟨hchanged, hruns⟩ := Prod.mk.inj (Except.ok.inj hcompute)
  obtain ⟨run, rest, hlist, hname, -⟩ := List.map_eq_cons_iff.1 hruns
  have hrun : run ∈ optimization.report.runs := hlist ▸ List.mem_cons_self ..
  obtain ⟨g', hg', hfused⟩ := fusion_never_lengthens.1 c 0 hverify
  cases Except.ok.inj (hg.symm.trans hg')
  obtain ⟨result, code, hrelocate, hupgraded, -, hlength, hlt⟩ := hfused hchanged
  obtain ⟨hshorter, hnone⟩ :=
    fusion_never_lengthens.2 .default c optimization hoptimize run hrun hname
  exact ⟨c, g, result, optimization, run, hc, hverify, hg, hchanged, hrelocate, hupgraded,
    hlength ▸ hlt, hoptimize, hrun, hname, hshorter, hnone⟩

end NeoScript
