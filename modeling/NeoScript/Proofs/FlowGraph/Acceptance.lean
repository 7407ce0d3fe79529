import NeoScript.Proofs.FlowGraph.Build

/-!
# Acceptance — only valid scripts have a block graph

* `Survey.leads_of_run` — a survey that succeeds has followed every address operand;
* `FlowGraph.describes_of_build` — a script with a graph is valid, its method starts are boundaries,
  and the graph describes it.
-/

namespace NeoScript

open Std (TreeMap TreeSet)

/-! ## The survey -/

namespace Survey

variable {script : Script} {ins : Instruction} {s s' : Survey} {id : InstrId}

/-- Whatever is resolved leads to an instruction. -/
theorem leads_of_resolveTarget {offset : Int} {pc : Nat}
    (h : resolveTarget script ins offset = .ok pc) : script.Leads ins offset := by
  by_contra hnot
  have herror : resolveTarget script ins offset =
      .error (.invalidJumpTarget ins.pc ins.op ((ins.pc : Int) + offset)) :=
        if_neg fun h => hnot (Script.leads_iff.2 h)
  cases h.symm.trans herror

/-- So does a handler that is there. -/
theorem leads_of_handler {offset : Int} {starts : TreeSet Nat}
    {result : Option InstrId × TreeSet Nat}
    (h : handler script ins offset starts = .ok result) (hne : offset ≠ 0) :
    script.Leads ins offset := by
  rw [handler, if_neg hne] at h
  obtain ⟨pc, hpc, -⟩ := Sequencing.bind_eq_ok.1 h
  exact leads_of_resolveTarget hpc

/-- A survey that takes in an instruction has resolved all its operands. -/
theorem leads_of_operands (h : s.operands script id ins = .ok s') :
    ∀ offset ∈ relativeTargets ins, script.Leads ins offset := by
  unfold operands at h
  cases hjump : ins.jumpOffset? with
  | some offset =>
      simp only [hjump] at h
      obtain ⟨pc, hpc, -⟩ := Sequencing.bind_eq_ok.1 h
      rw [Instruction.relativeTargets_of_jumpOffset? hjump, List.forall_mem_singleton]
      exact leads_of_resolveTarget hpc
  | none =>
      cases hhandlers : ins.handlerOffsets? with
      | none => simp [relativeTargets, hjump, hhandlers]
      | some offsets =>
          obtain ⟨a, b⟩ := offsets
          simp only [hjump, hhandlers] at h
          obtain ⟨middle, hcatch, hrest⟩ := Sequencing.bind_eq_ok.1 h
          obtain ⟨final, hfinally, -⟩ := Sequencing.bind_eq_ok.1 hrest
          simp only [relativeTargets, hjump, hhandlers]
          intro offset hoffset
          obtain ⟨hmem, hne⟩ := List.mem_filter.1 hoffset
          rw [decide_eq_true_eq] at hne
          rcases List.mem_pair.1 hmem with rfl | rfl
          · exact leads_of_handler hcatch hne
          · exact leads_of_handler hfinally hne

/-- A survey that comes to its end has resolved the operands of every instruction. -/
theorem leads_of_steps {xs : List Instruction} {k : Nat}
    (h : (xs.zipIdx k).foldlM (step script) s = .ok s') :
    ∀ ins ∈ xs, ∀ offset ∈ relativeTargets ins, script.Leads ins offset := by
  induction xs generalizing k s with
  | nil => simp
  | cons ins xs ih =>
      rw [List.zipIdx_cons, List.foldlM_cons] at h
      obtain ⟨middle, hstep, hrest⟩ := Sequencing.bind_eq_ok.1 h
      obtain ⟨_, hoperands, -⟩ := Sequencing.bind_eq_ok.1 hstep
      rw [List.forall_mem_cons]
      exact ⟨leads_of_operands hoperands, ih hrest⟩

/-- A survey that succeeds has followed every address operand. -/
theorem leads_of_run {starts : List Nat} (h : run script starts = .ok s) :
    ∀ ins ∈ script.instructions.toList, ∀ offset ∈ relativeTargets ins, script.Leads ins offset :=
  leads_of_steps h

end Survey

/-! ## Graphs -/

namespace FlowGraph

variable {script : Script} {code : Code} {starts : List Nat} {g : FlowGraph}

/-- A script with a graph is valid, its method starts are boundaries, and the graph describes it. -/
theorem describes_of_build (h : script.IsReading code) (hbuild : build script starts = .ok g) :
    script.IsValid code ∧ (∀ pc ∈ starts, script.isBoundary pc = true) ∧
      ∃ groups, g.Describes script starts groups := by
  have hsplit := hbuild
  unfold build at hsplit
  split at hsplit
  · cases hsplit
  · rename_i hfind
    obtain ⟨survey, hrun, -⟩ := Sequencing.bind_eq_ok.1 hsplit
    have hvalid : script.IsValid code := ⟨h, Survey.leads_of_run hrun⟩
    have hstarts : ∀ pc ∈ starts, script.isBoundary pc = true := by
      simpa using hfind
    obtain ⟨g', groups, hbuild', hdescribes⟩ := build_of_isValid hvalid hstarts
    cases hbuild.symm.trans hbuild'
    exact ⟨hvalid, hstarts, groups, hdescribes⟩

end FlowGraph

end NeoScript
