import Mathlib.Algebra.Ring.Int.Defs
import NeoScript.Proofs.Optimizer.Fusion
import NeoScript.Proofs.Optimizer.Preservation

/-!
# Ledger — report and trace account for a whole optimization

A strategy that changes something writes down one run and one relocation.  The size changes of the
runs add up to what happened to the script, and the address maps of the relocations lead from the
first script to the last.

* `Pass.Accounts` — runs, relocations and address maps add up to what happened to a contract;
* `Pass.step_accounts`, `Pass.Reaches.accounts` — they do after a step and after any number of them;
* `optimize_accounts` — and so they do in every result.
-/

namespace NeoScript

def TraceEvent.isRelocation (event : TraceEvent) : Bool :=
  match event.operation with
  | .relocate _ => true
  | _ => false

def StrategyRun.relocated (run : StrategyRun) (moved : List (Nat × Nat)) : TraceEvent :=
  ⟨.relocate run.upgraded, some moved⟩

namespace Pass

/-- Runs, relocations and address maps add up to what happened to a contract. -/
structure Accounts (c : Contract) (p : Pass) (maps : List (List (Nat × Nat))) : Prop where
  relocations : p.trace.filter (·.isRelocation) = List.zipWith StrategyRun.relocated p.runs maps
  length : maps.length = p.runs.length
  sizes : (p.runs.map (·.sizeChange)).sum = (p.contract.nef.script.size : Int) - c.nef.script.size
  offsets : p.contract.manifest.abi.methods.map (·.offset) =
    c.manifest.abi.methods.map fun m => newAddress maps m.offset
  ending : newAddress maps c.nef.script.size = p.contract.nef.script.size

/-- Nothing was done, and nothing is in the books. -/
theorem accounts_start (c : Contract) : Accounts c (start c) [] :=
  ⟨rfl, rfl, by simp [start], rfl, rfl⟩

end Pass

/-! ## Steps -/

namespace Contract.Rebuilt

variable {c c' : Contract} {script : Script} {links : List Link} {xs : List Instruction}
  {m : AddressMap}

/-- The list of moved addresses leads every method to its new offset. -/
theorem offsets_eq (h : c.Rebuilt c' script links xs) (hmap : m.Follows links) :
    c'.manifest.abi.methods.map (·.offset) =
      c.manifest.abi.methods.map fun method =>
        (m.moved.lookup method.offset).getD method.offset := by
  refine (Sequencing.map_eq_of_forall₂ (h.methods.imp fun method method' hlands => ?_)).symm
  exact hmap.lookup_moved (hmap.mem_iff.2 (.inl hlands))

/-- The list of moved addresses leads the end of the script to its new end. -/
theorem lookup_size (h : c.Rebuilt c' script links xs) (hchecked : c.Checked script)
    (hmap : m.Follows links) :
    (m.moved.lookup c.nef.script.size).getD c.nef.script.size = c'.nef.script.size := by
  have hold : totalSize (links.flatMap Link.olds) = c.nef.script.size := by
    rw [h.transferred.olds, hchecked.valid.size]
  have hnew : totalSize (links.flatMap Link.news) = c'.nef.script.size := by
    rw [h.transferred.news]
    exact h.checked.valid.size
  rw [← hold, ← hnew]
  exact hmap.lookup_moved (hmap.mem_iff.2 (.inr ⟨rfl, rfl⟩))

end Contract.Rebuilt

namespace Pass

variable {strategies : List Strategy} {c : Contract} {script : Script} {p p' : Pass} {s : Strategy}
  {maps : List (List (Nat × Nat))}

/-- A step that changes something adds one run, one relocation and one address map; any other adds
none. -/
theorem step_accounts (hp : p.contract.Checked script) (h : Accounts c p maps)
    (hstep : p.step s = .ok p') : ∃ maps, Accounts c p' maps := by
  obtain ⟨g, before, hgraph, hbefore, ⟨-, rfl⟩ |
    ⟨relocation, c', after, -, hrelocate, hrebuild, hafter, rfl⟩⟩ := step_eq_ok hstep
  · refine ⟨maps, ?_, h.length, h.sizes, h.offsets, h.ending⟩
    rw [List.filter_append, h.relocations]
    exact List.append_nil _
  · obtain ⟨links, hrebuilt, hmap⟩ := hp.exists_rebuilt hgraph hrelocate hrebuild
    have hold := hp.byteLength (Sequencing.bind_eq_ok.2 ⟨g, hgraph, hbefore⟩)
    have hnew := hrebuilt.checked.byteLength hafter
    refine ⟨maps ++ [relocation.addressMap.moved], ?_, ?_, ?_, ?_, ?_⟩
    · rw [List.filter_append, h.relocations, List.zipWith_append h.length.symm]
      rfl
    · simp [h.length]
    · have hsizes := h.sizes
      simp only [List.map_append, List.map_singleton, List.sum_append, List.sum_singleton,
        Metrics.sizeChange, hold, hnew]
      omega
    · -- The new offsets are the old ones, sent through one more map.
      have hoffsets := congrArg
        (List.map fun offset => (relocation.addressMap.moved.lookup offset).getD offset) h.offsets
      rw [List.map_map, List.map_map] at hoffsets
      rw [hrebuilt.offsets_eq hmap, newAddress_append]
      exact hoffsets
    · rw [newAddress_append, Function.comp_apply, h.ending]
      exact hrebuilt.lookup_size hp hmap

/-- The books are right after any number of strategies. -/
theorem Reaches.accounts (hc : c.Checked script) (h : Reaches strategies c p) :
    ∃ maps, Accounts c p maps := by
  induction h with
  | start => exact ⟨[], accounts_start c⟩
  | @step p p' s hreaches _ hstep ih =>
      obtain ⟨script', hp⟩ := hreaches.checked hc
      obtain ⟨maps, hmaps⟩ := ih
      exact step_accounts hp hmaps hstep

end Pass

/-! ## Results -/

open Optimizer

/-- The size changes of all runs add up to the change of the script size.  The trace tells of one
relocation for each run, in the same order, with the number of references that it made long; and the
address maps of these relocations, one after the other, lead every method from its old offset to its
new one and the end of the old script to the end of the new one. -/
theorem optimize_accounts (config : Config) (c : Contract) (result : Optimization)
    (h : optimize config c = .ok result) :
    result.report.sizeBefore = c.nef.script.size ∧
    result.report.sizeAfter = result.contract.nef.script.size ∧
    (result.report.runs.map (·.sizeChange)).sum =
      (result.report.sizeAfter : Int) - result.report.sizeBefore ∧
    ∃ maps : List (List (Nat × Nat)), maps.length = result.report.runs.length ∧
      result.trace.filter (·.isRelocation) =
        List.zipWith (fun run moved => ⟨.relocate run.upgraded,
          some moved⟩) result.report.runs maps ∧
      result.contract.manifest.abi.methods.map (·.offset) =
        c.manifest.abi.methods.map (fun m => Pass.newAddress maps m.offset) ∧
      Pass.newAddress maps c.nef.script.size = result.contract.nef.script.size := by
  obtain ⟨c₀, done, haccept, haddresses, hpasses, hverify, hreturns⟩ := optimize_eq_ok h
  obtain ⟨-, hscript, hmanifest, -⟩ := accept_eq_ok haccept
  obtain ⟨script, hchecked⟩ := checked_of_accept haccept haddresses
  obtain ⟨script', hdone⟩ := Contract.verify_eq_ok_iff.1 hverify
  obtain ⟨before, after, hbefore, hafter, hcompares⟩ := hreturns.compares
  obtain ⟨maps, haccounts⟩ := (reaches_of_passes hchecked hpasses).accounts hchecked
  have hsizeBefore := hchecked.byteLength hbefore
  have hsizeAfter := hdone.byteLength hafter
  rw [hcompares.sizeBefore, hcompares.sizeAfter, hreturns.contract, hreturns.runs, hreturns.trace,
    hsizeBefore, hsizeAfter, ← hscript, ← hmanifest]
  exact ⟨rfl, rfl, haccounts.sizes, maps, haccounts.length, haccounts.relocations,
    haccounts.offsets, haccounts.ending⟩

/-- The sum is folded and the array is fused, in two runs.  The second method moves by the first of
them, and the end by both. -/
theorem optimize_accounts_pointer : ∃ c result maps,
    Samples.contract Samples.pointerScript [("main", ⟨0, 8⟩), ("build", ⟨9, 19⟩)] = .ok c ∧
    optimize .default c = .ok result ∧ result.report.sizeBefore = 20 ∧
    result.report.runs.map (·.sizeChange) = [-2, -5] ∧ result.report.sizeAfter = 13 ∧
    result.trace.filter (·.isRelocation) =
      List.zipWith (fun run moved => ⟨.relocate run.upgraded, some moved⟩) result.report.runs maps ∧
    Pass.newAddress maps 9 = 7 ∧ Pass.newAddress maps 20 = 13 := by
  have hcompute : (do
      let c ← Samples.contract Samples.pointerScript [("main", ⟨0, 8⟩), ("build", ⟨9, 19⟩)]
      let result ← optimize .default c
      return (c.nef.script.size, c.manifest.abi.methods.map MethodEntry.offset,
        result.report.runs.map StrategyRun.sizeChange, result.contract.nef.script.size,
        result.contract.manifest.abi.methods.map MethodEntry.offset)) =
        .ok (20, [0, 9], [-2, -5], 13, [0, 7]) := by
    decide +kernel
  obtain ⟨c, hc, hcompute⟩ := Sequencing.bind_eq_ok.1 hcompute
  obtain ⟨result, hresult, hcompute⟩ := Sequencing.bind_eq_ok.1 hcompute
  simp only [pure, Except.pure, Except.ok.injEq, Prod.mk.injEq] at hcompute
  obtain ⟨hsize, holds, hruns, hsize', hnews⟩ := hcompute
  obtain ⟨hbefore, hafter, -, maps, -, htrace, hoffsets, hend⟩ :=
    optimize_accounts .default c result hresult
  have hmoved : [0, 7] = [0, 9].map (Pass.newAddress maps) := by
    rw [← hnews, hoffsets, ← holds, List.map_map]
    rfl
  rw [hsize, hsize'] at hend
  simp only [List.map_cons, List.cons.injEq] at hmoved
  exact ⟨c, result, maps, hc, hresult, hbefore.trans hsize, hruns, hafter.trans hsize', htrace,
    hmoved.2.1.symm, hend⟩

end NeoScript
