import NeoScript.Proofs.Machine.Pointers
import NeoScript.Proofs.Machine.Safety
import NeoScript.Proofs.Optimizer.Totality
import NeoScript.Proofs.Relocation.Simulation

/-!
# Preservation — optimized contracts behave like the original ones

* `Machine.RunsAlike` — runs of one code from an address, and of another from another, end alike or
  never;
* `Transferred.runsAlike` — so they do from where a link begins;
* `Pass.newAddress` — where the address maps of a trace lead;
* `Contract.Preserves` — all methods of two contracts run alike, and `Pass.Reaches.preserves` —
  those of a contract and of any that passes make from it do;
* `optimize_preserves_runs` — optimizing preserves every run of every method.
-/

namespace NeoScript

/-! ## Runs -/

/-- Runs without pointers in their arguments end alike, up to the addresses of pointers, or both
never end. -/
structure Machine.RunsAlike (f : Nat → Nat) (code : Code) (entry : Nat) (code' : Code)
    (entry' : Nat) : Prop where
  ends : ∀ {heap : Heap}, heap.Pointerless → ∀ {arguments : List Value},
    (∀ p, Value.pointer p ∉ arguments) → ∀ limit,
      Machine.run code entry heap arguments limit ≠ .fault .stepLimit →
        Machine.run code' entry' heap arguments limit =
          (Machine.run code entry heap arguments limit).mapPointers f
  never : ∀ {heap : Heap}, heap.Pointerless → ∀ {arguments : List Value},
    (∀ p, Value.pointer p ∉ arguments) →
      (∀ limit, Machine.run code entry heap arguments limit = .fault .stepLimit) →
        ∀ limit, Machine.run code' entry' heap arguments limit = .fault .stepLimit

namespace Machine.RunsAlike

theorem refl (code : Code) (entry : Nat) : RunsAlike id code entry code entry := by
  refine ⟨?_, ?_⟩
  · intro heap _ arguments _ limit _
    rw [Outcome.mapPointers_id]
  · intro heap _ arguments _ hnever
    exact hnever

theorem trans {f g : Nat → Nat} {code code' code'' : Code} {entry entry' entry'' : Nat}
    (h : RunsAlike f code entry code' entry') (h' : RunsAlike g code' entry' code'' entry'') :
    RunsAlike (g ∘ f) code entry code'' entry'' := by
  refine ⟨?_, ?_⟩
  · intro heap hheap arguments harguments limit hends
    have hfirst := h.ends hheap harguments limit hends
    have hends' : run code' entry' heap arguments limit ≠ .fault .stepLimit := by
      rw [hfirst]
      exact mt Outcome.eq_stepLimit_of_mapPointers hends
    rw [h'.ends hheap harguments limit hends', hfirst, Outcome.mapPointers_mapPointers]
  · intro heap hheap arguments harguments hnever
    exact h'.never hheap harguments (h.never hheap harguments hnever)

end Machine.RunsAlike

/-- Instructions of a script have the form that their operation asks for. -/
theorem Transferred.fits_olds {script : Script} {code : Code} {links : List Link}
    {xs : List Instruction}
    (h : Transferred script links xs) (hread : script.IsReading code) {s : Segment}
    (hs : s ∈ links.map Prod.fst) {e : Numbered} (he : e ∈ s.olds) : e.2.Fits := by
  obtain ⟨l, hl, rfl⟩ := List.mem_map.1 hs
  have hmem : e.2 ∈ links.flatMap Link.olds :=
    List.mem_flatMap.2 ⟨l, hl, List.mem_map.2 ⟨e, he, rfl⟩⟩
  rw [h.olds] at hmem
  exact hread.fits hmem

/-- From where a link begins, the old and the new code run alike. -/
theorem Transferred.runsAlike {script : Script} {code code' : Code} {links : List Link}
    {xs : List Instruction} (h : Transferred script links xs) (hread : script.IsReading code)
    (hread' : (Script.ofInstructions xs.toArray).IsReading code')
    (hagree : ∀ l ∈ links, l.1.isKept = false → Agree (l.1.olds.map (·.2)) l.1.news) {f : Nat → Nat}
    (hf : ∀ p q, Lands links p q → f p = q) {entry entry' : Nat}
    (hentry : Lands links entry entry') : Machine.RunsAlike f code entry code' entry' := by
  have hsim := h.simulates hread hread' hagree
  have hstart : ∀ {heap : Heap}, heap.Pointerless → ∀ {arguments : List Value},
      (∀ p, Value.pointer p ∉ arguments) → Machine.Related (Lands links) (Arrives links)
      (Arrives links)
        (Machine.start heap entry arguments) (Machine.start heap entry' arguments) :=
    fun hheap _ harguments => Machine.start_related (.inl hentry) hheap harguments
  refine ⟨?_, ?_⟩
  · intro heap hheap arguments harguments limit hends
    exact (hsim.runFrom_related limit (hstart hheap harguments) hends).eq_mapPointers hf
  · intro heap hheap arguments harguments hnever
    exact hsim.runFrom_stepLimit (hstart hheap harguments) hnever

/-! ## Contracts -/

/-- Every method of the one contract is a method of the other that runs alike. -/
def Contract.Preserves (f : Nat → Nat) (c c' : Contract) : Prop :=
  ∀ (i : Nat) (method : MethodEntry), c.manifest.abi.methods[i]? = some method →
    ∃ method', c'.manifest.abi.methods[i]? = some method' ∧ method'.offset = f method.offset ∧
      Machine.RunsAlike f c.nef.script method.offset c'.nef.script method'.offset

namespace Contract

theorem Preserves.refl (c : Contract) : c.Preserves id c := by
  intro i method hmethod
  exact ⟨method, hmethod, rfl, .refl _ _⟩

/-- What two changes preserve, both together preserve. -/
theorem Preserves.trans {f g : Nat → Nat} {c c' c'' : Contract} (h : c.Preserves f c')
    (h' : c'.Preserves g c'') : c.Preserves (g ∘ f) c'' := by
  intro i method hmethod
  obtain ⟨method', hmethod', hoffset, halike⟩ := h i method hmethod
  obtain ⟨method'', hmethod'', hoffset', halike'⟩ := h' i method' hmethod'
  refine ⟨method'', hmethod'', ?_, halike.trans halike'⟩
  rw [hoffset', hoffset, Function.comp_apply]

/-- A contract that was rebuilt around agreeing segments preserves all runs. -/
theorem Rebuilt.preserves {c c' : Contract} {script : Script} {links : List Link}
    {xs : List Instruction} (h : c.Rebuilt c' script links xs) (hc : c.Checked script)
    (hagree : ∀ l ∈ links, l.1.isKept = false → Agree (l.1.olds.map (·.2)) l.1.news) {f : Nat → Nat}
    (hf : ∀ p q, Lands links p q → f p = q) : c.Preserves f c' := by
  intro i method hmethod
  have hread := hc.valid.toIsReading
  have hread' := h.checked.valid.toIsReading
  obtain ⟨method', hmethod', hlands⟩ := Sequencing.exists_getElem?_of_forall₂ h.methods hmethod
  exact ⟨method', hmethod', (hf _ _ hlands).symm,
    h.transferred.runsAlike hread hread' hagree hf hlands⟩

end Contract

/-! ## Passes -/

namespace Pass

/-- Where address maps lead, one after the other; an address that is not listed stays. -/
def newAddress (maps : List (List (Nat × Nat))) (address : Nat) : Nat :=
  maps.foldl (fun address moved => (moved.lookup address).getD address) address

/-- Later address maps are applied to the results of earlier ones. -/
theorem newAddress_append (maps later : List (List (Nat × Nat))) :
    newAddress (maps ++ later) = newAddress later ∘ newAddress maps := by
  funext address
  exact List.foldl_append ..

/-- A step preserves all runs if its strategy evaluates only what the machine computes. -/
theorem step_preserves {p p' : Pass} {s : Strategy} {script : Script}
    (h : p.contract.Checked script) (htraps : s.Traps) (hstep : p.step s = .ok p') :
    ∃ events, p'.trace = p.trace ++ events ∧
      p.contract.Preserves (newAddress (maps events)) p'.contract := by
  obtain ⟨g, groups, parts, counts, -, hallows, hstepped⟩ := step_stepped h s
  rw [hstep] at hstepped
  cases hstepped with
  | @unchanged events _ hmaps =>
      refine ⟨events, rfl, ?_⟩
      rw [hmaps]
      exact .refl _
  | @rebuilt c' links xs m run events _ hrebuilt hparts hmap hmaps =>
      refine ⟨events, rfl, ?_⟩
      rw [hmaps]
      refine hrebuilt.preserves h ?_ ?_
      · intro l hl hkept
        have hmem : l.1 ∈ parts.flatten := by
          rw [← hparts]
          exact List.mem_map_of_mem hl
        obtain ⟨segments, hsegments, hin⟩ := List.mem_flatten.1 hmem
        obtain ⟨count, -, hallow⟩ := Sequencing.exists_right_of_forall₂ hallows hsegments
        -- The segment is one of those that the strategy allows, so both of its sides have the same
        -- effect.
        refine hallow.agree htraps ?_ l.1 hin hkept
        intro e he
        obtain ⟨segment, hsegment, holds⟩ := List.mem_flatMap.1 he
        refine hrebuilt.transferred.fits_olds h.valid.toIsReading ?_ holds
        rw [hparts]
        exact List.mem_flatten.2 ⟨segments, hsegments, hsegment⟩
      · intro p q hlands
        exact hmap.lookup_moved (hmap.mem_iff.2 (.inl hlands))

/-- All that passes make of a contract preserves its runs. -/
theorem Reaches.preserves {strategies : List Strategy} {c : Contract} {script : Script}
    (hc : c.Checked script) (htraps : ∀ s ∈ strategies, s.Traps) {p : Pass}
    (h : Reaches strategies c p) : c.Preserves (newAddress (maps p.trace)) p.contract := by
  induction h with
  | start => exact .refl c
  | @step p p' s h hs hstep ih =>
      obtain ⟨script', hp⟩ := h.checked hc
      obtain ⟨events, htrace, hpreserves⟩ := step_preserves hp (htraps s hs) hstep
      rw [htrace, maps_append, newAddress_append]
      exact ih.trans hpreserves

end Pass

/-! ## Results -/

/-- Where the instruction that stands in for the one at an address stands in the result. -/
def Optimization.newAddress (result : Optimization) : Nat → Nat :=
  Pass.newAddress (Pass.maps result.trace)

/-- If the settings let overflows trap, then so does every strategy. -/
theorem Config.strategies_traps {config : Config} (h : config.arithmetic.Traps) :
    ∀ s ∈ config.strategies, s.Traps := by
  unfold Config.strategies
  cases config.level <;> simp [Strategy.Traps, h]

open Optimizer

/-- Optimizing preserves every run.  Whatever method is called with arguments that hold no pointers:
a run of the original script that ends within a limit is a run of the result that ends alike within
the same limit, with every pointer at its new address; and where the original never ends, the result
never does. -/
theorem optimize_preserves_runs (config : Config) (c : Contract) (result : Optimization)
    (htraps : ∀ operation, config.arithmetic.policyOf (.arith operation) = .trap)
    (h : optimize config c = .ok result) (i : Nat) (method : MethodEntry)
    (hmethod : c.manifest.abi.methods[i]? = some method) :
    ∃ method', result.contract.manifest.abi.methods[i]? = some method' ∧
      method'.offset = result.newAddress method.offset ∧
      ∀ (heap : Heap) (arguments : List Value), heap.Pointerless →
        (∀ p, Value.pointer p ∉ arguments) →
          (∀ limit outcome, Machine.run c.nef.script method.offset heap arguments limit = outcome →
            outcome ≠ .fault .stepLimit →
              Machine.run result.contract.nef.script method'.offset heap arguments limit =
                outcome.mapPointers result.newAddress) ∧
          ((∀ limit, Machine.run c.nef.script method.offset heap arguments limit =
            .fault .stepLimit) →
            ∀ limit, Machine.run result.contract.nef.script method'.offset heap arguments limit =
              .fault .stepLimit) := by
  obtain ⟨c₀, done, haccept, haddresses, hpasses, -, hreturns⟩ := optimize_eq_ok h
  obtain ⟨-, hscript, hmanifest, -⟩ := accept_eq_ok haccept
  obtain ⟨script, hchecked⟩ := checked_of_accept haccept haddresses
  have hreaches : Pass.Reaches config.strategies c₀ done.pass := by
    rcases passes_cases config hchecked with ⟨p, hp, hreaches⟩ | ⟨_, _, _, _, _, _, hfails⟩
    · rw [hpasses] at hp
      cases hp
      exact hreaches
    · rw [hpasses] at hfails
      cases hfails
  have hpreserves := hreaches.preserves hchecked (Config.strategies_traps htraps)
  rw [← hmanifest] at hmethod
  obtain ⟨method', hmethod', hoffset, halike⟩ := hpreserves i method hmethod
  have haddress : Pass.newAddress (Pass.maps done.pass.trace) = result.newAddress := by
    rw [Optimization.newAddress, hreturns.trace]
    rfl
  rw [haddress] at hoffset halike
  rw [hreturns.contract, ← hscript]
  refine ⟨method', hmethod', hoffset, ?_⟩
  intro heap arguments hheap harguments
  refine ⟨?_, halike.never hheap harguments⟩
  rintro limit outcome rfl hends
  exact halike.ends hheap harguments limit hends

/-- The first method returns a sum and a pointer to the second, which builds an array of three
elements. -/
def Samples.pointerScript : Code :=
  #[0x11, 0x12, 0x9E, 0x0A, 0x06, 0x00, 0x00, 0x00, 0x40,
    0xC2, 0x4A, 0x11, 0xCF, 0x4A, 0x12, 0xCF, 0x4A, 0x13, 0xCF, 0x40]

/-- The sum is folded and the array is fused, so the pointer moves by two. -/
theorem optimize_preserves_runs_pointer : ∃ c result method method',
    Samples.contract Samples.pointerScript [("main", ⟨0, 8⟩), ("build", ⟨9, 19⟩)] = .ok c ∧
    (∀ operation, Config.default.arithmetic.policyOf (.arith operation) = .trap) ∧
    optimize .default c = .ok result ∧ c.manifest.abi.methods[0]? = some method ∧
    Machine.run c.nef.script method.offset .empty [] 5 = .halt [.int 3, .pointer 9] .empty ∧
    result.contract.manifest.abi.methods[0]? = some method' ∧
    Machine.run result.contract.nef.script method'.offset .empty [] 5 =
      .halt [.int 3, .pointer 7] .empty := by
  have hcompute : (do
      let c ← Samples.contract Samples.pointerScript [("main", ⟨0, 8⟩), ("build", ⟨9, 19⟩)]
      let result ← optimize .default c
      return (Machine.run c.nef.script 0 .empty [] 5, result.newAddress 9)) =
        .ok (.halt [.int 3, .pointer 9] .empty, 7) := by
    decide +kernel
  obtain ⟨c, hc, hcompute⟩ := Sequencing.bind_eq_ok.1 hcompute
  obtain ⟨result, hresult, hcompute⟩ := Sequencing.bind_eq_ok.1 hcompute
  obtain ⟨hrun, haddress⟩ := Prod.mk.inj (Except.ok.inj hcompute)
  have hmethod : c.manifest.abi.methods[0]? = some (Samples.method "main" "Any" 0 false) := by
    obtain ⟨nef, -, hmake⟩ := Sequencing.bind_eq_ok.1 hc
    cases hmake
    rfl
  have htraps : ∀ operation, Config.default.arithmetic.policyOf (.arith operation) = .trap := by
    intro operation
    cases operation <;> rfl
  obtain ⟨method', hmethod', -, hruns⟩ :=
    optimize_preserves_runs .default c result htraps hresult 0 _ hmethod
  have hheap : Heap.empty.Pointerless := by
    intro cell p
    simp [Heap.items, Heap.empty]
  have hhalts : Outcome.halt [.int 3, .pointer 9] .empty ≠ .fault .stepLimit := by
    intro heq
    cases heq
  have hrun' := (hruns .empty [] hheap (by simp)).1 5 _ hrun hhalts
  refine ⟨c, result, _, method', hc, htraps, hresult, hmethod, hrun, hmethod', ?_⟩
  rw [hrun']
  simp [Outcome.mapPointers, Value.mapPointers, Heap.mapPointers, Heap.empty, haddress]

end NeoScript
