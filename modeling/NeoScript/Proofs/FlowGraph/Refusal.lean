import NeoScript.Proofs.FlowGraph.Acceptance

/-!
# Refusal — validation and the block graph refuse the same scripts

Two scans follow the address operands: validation lists all that lead nowhere, the survey stops at
the first.

* `outcome` — whether a computation succeeds, or its error;
* `refuse` — the outcome that a list of operands which lead nowhere calls for;
* `Survey.outcome_run` — the survey ends as validation does;
* `FlowGraph.outcome_build` — so does the graph, since nothing behind the survey fails;
* `FlowGraph.build_agrees_validateScript` — a graph is refused for a method start, or as validation
  refuses the script.
-/

namespace NeoScript

open Std (TreeSet)

/-! ## Outcomes -/

/-- Whether a computation succeeds, or its error. -/
def outcome {α : Type} (x : Except Error α) : Except Error Unit :=
  x.map fun _ => ()

section Outcome

variable {α β : Type} {x : Except Error α}

theorem outcome_eq_ok : outcome x = .ok () ↔ ∃ a, x = .ok a := by
  cases x <;> simp [outcome, Except.map]

theorem outcome_eq_error {e : Error} : outcome x = .error e ↔ x = .error e :=
  Sequencing.map_eq_error

/-- A computation and a next one whose outcome does not depend on the result before. -/
theorem outcome_bind {f : α → Except Error β} {r : Except Error Unit} (h : ∀ a, outcome (f a) = r) :
    outcome (x >>= f) = (outcome x >>= fun _ => r) := by
  cases x with
  | error e => rfl
  | ok a => exact h a

/-- A computation and a next one that succeeds. -/
theorem outcome_bind_of_ok {f : α → Except Error β} (h : ∀ a, outcome (f a) = .ok ()) :
    outcome (x >>= f) = outcome x := by
  cases x with
  | error e => rfl
  | ok a => exact h a

end Outcome

/-! ## Operands that lead nowhere -/

def refuse : List InvalidTarget → Except Error Unit
  | [] => .ok ()
  | first :: _ => .error (.invalidJumpTarget first.pc first.op first.target)

/-- The first fault counts, wherever it is. -/
theorem refuse_append (faults later : List InvalidTarget) :
    refuse (faults ++ later) = (refuse faults >>= fun _ => refuse later) := by
  cases faults <;> rfl

/-- An operand that leads nowhere is refused as an invalid target. -/
theorem eq_invalidJumpTarget_of_refuse {faults : List InvalidTarget} {e : Error}
    (h : refuse faults = .error e) : ∃ pc op target, e = .invalidJumpTarget pc op target := by
  cases faults with
  | nil => cases h
  | cons first rest =>
      cases h
      exact ⟨_, _, _, rfl⟩

/-- Validation refuses the first operand of the script that leads nowhere. -/
theorem outcome_validateScript {code : Code} {script : Script}
    (h : Script.decode code = .ok script) :
    outcome (validateScript code) = refuse (invalidTargets script) := by
  simp only [validateScript, h, Sequencing.ok_bind]
  cases invalidTargets script <;> rfl

/-- The fault of one operand, if it leads nowhere. -/
def Script.faultAt (script : Script) (ins : Instruction) (offset : Int) : Option InvalidTarget :=
  let target := (ins.pc : Int) + offset
  if 0 ≤ target ∧ target.toNat < script.length ∧ script.isBoundary target.toNat then none
  else some ⟨ins.pc, ins.op, target⟩

theorem invalidTargetsOf_eq (script : Script) (ins : Instruction) :
    invalidTargetsOf script ins = (relativeTargets ins).filterMap (script.faultAt ins) := rfl

/-! ## The survey -/

namespace Survey

variable {script : Script} {ins : Instruction}

/-- Resolving an operand refuses it exactly if it leads nowhere. -/
theorem outcome_resolveTarget (offset : Int) :
    outcome (resolveTarget script ins offset) =
      refuse ([offset].filterMap (script.faultAt ins)) := by
  simp only [resolveTarget, Script.faultAt, List.filterMap_cons, List.filterMap_nil]
  split <;> rfl

/-- The distance zero stands for no handler and is never refused. -/
theorem outcome_handler (offset : Int) (starts : TreeSet Nat) :
    outcome (handler script ins offset starts) =
      refuse (([offset].filter (· ≠ 0)).filterMap (script.faultAt ins)) := by
  unfold handler
  by_cases hzero : offset = 0
  · subst hzero
    rfl
  · rw [if_neg hzero, List.filter_cons_of_pos (by simpa using hzero)]
    exact (outcome_bind_of_ok fun _ => rfl).trans (outcome_resolveTarget offset)

/-- The operands of an instruction are resolved unless one leads nowhere; the first such one is the
error. -/
theorem outcome_operands (s : Survey) (id : InstrId) :
    outcome (s.operands script id ins) = refuse (invalidTargetsOf script ins) := by
  rw [invalidTargetsOf_eq]
  unfold operands
  cases hjump : ins.jumpOffset? with
  | some offset =>
      rw [Instruction.relativeTargets_of_jumpOffset? hjump]
      exact (outcome_bind_of_ok fun _ => rfl).trans (outcome_resolveTarget offset)
  | none =>
      cases hhandlers : ins.handlerOffsets? with
      | none =>
          simp only [relativeTargets, hjump, hhandlers]
          rfl
      | some offsets =>
          obtain ⟨a, b⟩ := offsets
          have htargets : relativeTargets ins = [a].filter (· ≠ 0) ++ [b].filter (· ≠ 0) := by
            simp only [relativeTargets, hjump, hhandlers, ← List.filter_append,
              List.singleton_append]
          rw [htargets, List.filterMap_append, refuse_append, ← outcome_handler a s.starts]
          exact outcome_bind fun first =>
            (outcome_bind_of_ok fun _ => rfl).trans (outcome_handler b first.2)

/-- One step of the survey refuses what validation finds in the same instruction. -/
theorem outcome_step (s : Survey) (id : InstrId) :
    outcome (s.step script (ins, id)) = refuse (invalidTargetsOf script ins) := by
  refine (outcome_bind_of_ok fun s => ?_).trans (outcome_operands s id)
  split <;> rfl

/-- So do all steps, in the same order. -/
theorem outcome_steps (xs : List Instruction) (k : Nat) (s : Survey) :
    outcome ((xs.zipIdx k).foldlM (step script) s) =
      refuse (xs.flatMap (invalidTargetsOf script)) := by
  induction xs generalizing k s with
  | nil => rfl
  | cons ins xs ih =>
      rw [List.zipIdx_cons, List.foldlM_cons, List.flatMap_cons, refuse_append,
        outcome_bind (ih (k + 1)), outcome_step]

/-- The survey ends as validation does. -/
theorem outcome_run (script : Script) (entryPoints : List Nat) :
    outcome (run script entryPoints) = refuse (invalidTargets script) :=
  outcome_steps ..

end Survey

/-! ## Graphs -/

namespace FlowGraph

variable {script : Script} {code : Code} {entryPoints : List Nat}

/-- Once all method starts are instructions, the graph ends as the survey does: behind it nothing
fails. -/
theorem outcome_build (h : script.IsReading code)
    (hentries : ∀ pc ∈ entryPoints, script.isBoundary pc = true) :
    outcome (build script entryPoints) = refuse (invalidTargets script) := by
  rw [← Survey.outcome_run script entryPoints]
  have hfind : entryPoints.find? (fun pc => !script.isBoundary pc) = none :=
    List.find?_eq_none.2 fun pc hpc => by simp [hentries pc hpc]
  cases hrun : Survey.run script entryPoints with
  | error e =>
      simp only [build, hfind, hrun, Sequencing.error_bind]
      rfl
  | ok survey =>
      have hvalid : script.IsValid code := ⟨h, Survey.leads_of_run hrun⟩
      obtain ⟨g, -, hbuild, -⟩ := build_of_isValid hvalid hentries
      rw [hbuild]
      rfl

/-- The first method that does not begin with an instruction is reported. -/
theorem build_of_not_boundary {before after : List Nat} {pc : Nat}
    (hbefore : ∀ q ∈ before, script.isBoundary q = true) (hpc : script.isBoundary pc = false) :
    build script (before ++ pc :: after) = .error (.invalidEntryPoint pc) := by
  have hfind : (before ++ pc :: after).find? (fun pc => !script.isBoundary pc) = some pc := by
    rw [List.find?_append, List.find?_eq_none.2 fun q hq => by simp [hbefore q hq]]
    simp [hpc]
  simp only [build, hfind]

/-- A graph is refused for a method start or for an operand. -/
theorem eq_of_build_eq_error (h : script.IsReading code) {e : Error}
    (hbuild : build script entryPoints = .error e) :
    (∃ pc, e = .invalidEntryPoint pc) ∨ ∃ pc op target, e = .invalidJumpTarget pc op target := by
  cases hfind : entryPoints.find? fun pc => !script.isBoundary pc with
  | some pc =>
      simp only [build, hfind] at hbuild
      exact .inl ⟨pc, (Except.error.inj hbuild).symm⟩
  | none =>
      have hentries : ∀ pc ∈ entryPoints, script.isBoundary pc = true := by simpa using hfind
      have houtcome := outcome_build h hentries
      rw [outcome_eq_error.2 hbuild] at houtcome
      exact .inr (eq_invalidJumpTarget_of_refuse houtcome.symm)

/-- A graph is refused for the first method start that is no instruction.  If there is none, it is
refused exactly when validation refuses the script, for the same operand.  Its own structure is
never the cause. -/
theorem build_agrees_validateScript (code : Code) (script : Script) (entryPoints : List Nat)
    (hdecode : Script.decode code = .ok script) :
    (∀ before pc after, entryPoints = before ++ pc :: after →
      (∀ q ∈ before, script.isBoundary q = true) → script.isBoundary pc = false →
        build script entryPoints = .error (.invalidEntryPoint pc)) ∧
    ((∀ pc ∈ entryPoints, script.isBoundary pc = true) →
      ((∃ g, build script entryPoints = .ok g) ↔ ∃ valid, validateScript code = .ok valid) ∧
      ∀ e, validateScript code = .error e →
        (∃ pc op target, e = .invalidJumpTarget pc op target) ∧
          build script entryPoints = .error e) ∧
    (∀ id, build script entryPoints ≠ .error (.danglingTarget id)) ∧
    ∀ fault, build script entryPoints ≠ .error (.invalidBlockStructure fault) := by
  have hreading := Script.decode_eq_ok_iff.1 hdecode
  have hvalidate := outcome_validateScript hdecode
  refine ⟨?_, ?_, ?_, ?_⟩
  · rintro before pc after rfl hbefore hpc
    exact build_of_not_boundary hbefore hpc
  · intro hentries
    have hbuild := (outcome_build hreading hentries).trans hvalidate.symm
    refine ⟨?_, fun e he => ⟨?_, ?_⟩⟩
    · rw [← outcome_eq_ok, ← outcome_eq_ok, hbuild]
    · rw [outcome_eq_error.2 he] at hvalidate
      exact eq_invalidJumpTarget_of_refuse hvalidate.symm
    · rw [outcome_eq_error.2 he] at hbuild
      exact outcome_eq_error.1 hbuild
  · intro id hid
    rcases eq_of_build_eq_error hreading hid with ⟨_, he⟩ | ⟨_, _, _, he⟩ <;> cases he
  · intro fault hfault
    rcases eq_of_build_eq_error hreading hfault with ⟨_, he⟩ | ⟨_, _, _, he⟩ <;> cases he

end FlowGraph

/-- A try whose catch block is there, whose finally block would be in front of the script, and a
jump into an operand behind it. -/
def Samples.astrayScript : Code :=
  #[0x3B, 0x06, 0xF0, 0x11, 0x22, 0x01, 0x40]

/-- The finally handler is refused, not the jump behind it; a method start inside the jump comes
first. -/
theorem FlowGraph.build_agrees_validateScript_astray : ∃ script,
    Script.decode Samples.astrayScript = .ok script ∧
    validateScript Samples.astrayScript = .error (.invalidJumpTarget 0 (.enterTry .short) (-16)) ∧
    build script [3] = .error (.invalidJumpTarget 0 (.enterTry .short) (-16)) ∧
    build script [3, 5, 1] = .error (.invalidEntryPoint 5) := by
  obtain ⟨script, hdecode⟩ : ∃ script, Script.decode Samples.astrayScript = .ok script := ⟨_, rfl⟩
  have hboundaries : (do
      let script ← Script.decode Samples.astrayScript
      return (script.isBoundary 3, script.isBoundary 5)) = .ok (true, false) := by
    decide +kernel
  rw [hdecode, Sequencing.ok_bind] at hboundaries
  obtain ⟨hthree, hfive⟩ := Prod.mk.inj (Except.ok.inj hboundaries)
  have hvalidate : outcome (validateScript Samples.astrayScript) =
      .error (.invalidJumpTarget 0 (.enterTry .short) (-16)) := by
    decide +kernel
  rw [outcome_eq_error] at hvalidate
  have hagrees := build_agrees_validateScript Samples.astrayScript script
  refine ⟨script, hdecode, hvalidate, ?_, ?_⟩
  · exact (((hagrees [3] hdecode).2.1 (by simpa using hthree)).2 _ hvalidate).2
  · exact (hagrees [3, 5, 1] hdecode).1 [3] 5 [1] rfl (by simpa using hthree) hfive

end NeoScript
