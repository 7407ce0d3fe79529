import NeoScript.FlowGraph.Build
import NeoScript.Proofs.FlowGraph.References
import NeoScript.Proofs.Script.Validity

/-!
# Survey — what one pass over a script collects

* `Script.jumpTarget?`, `Script.handlerTargets?` — the numbers that address operands name;
* `Script.Marks`, `Script.IsStart` — where blocks begin;
* `Survey.run_of_leads` — where all operands lead to instructions, the survey succeeds, and its
  references and starts are exactly these.
-/

namespace NeoScript

open Std (TreeMap TreeSet)

namespace Script

def targetId? (script : Script) (ins : Instruction) (offset : Int) : Option InstrId :=
  script.indexOf? ((ins.pc : Int) + offset).toNat

/-- The number that the single address operand of an instruction names. -/
def jumpTarget? (script : Script) (ins : Instruction) : Option InstrId :=
  ins.jumpOffset?.bind (script.targetId? ins)

/-- The number of a handler, unless its offset says that there is none. -/
def handlerId? (script : Script) (ins : Instruction) (offset : Int) : Option InstrId :=
  if offset = 0 then none else script.targetId? ins offset

def handlerTargets? (script : Script) (ins : Instruction) : Option HandlerIds :=
  ins.handlerOffsets?.map fun offsets =>
    ⟨script.handlerId? ins offsets.1, script.handlerId? ins offsets.2⟩

/-- An instruction makes a block start at an address: an operand names it, or control leaves in
front of it. -/
def Marks (script : Script) (ins : Instruction) (pc : Nat) : Prop :=
  (∃ offset ∈ relativeTargets ins, pc = ((ins.pc : Int) + offset).toNat) ∨
    (ins.op.isBlockEnding = true ∧ ins.next < script.length ∧ pc = ins.next)

def IsStart (script : Script) (entryPoints : List Nat) (pc : Nat) : Prop :=
  (pc = 0 ∧ script.instructions.toList ≠ []) ∨ pc ∈ entryPoints ∨
    ∃ ins ∈ script.instructions.toList, script.Marks ins pc

variable {script : Script} {code : Code} {ins : Instruction}

/-- An operand that leads to an instruction has a number as its target. -/
theorem Leads.isSome_targetId? {offset : Int} (h : script.Leads ins offset) :
    (script.targetId? ins offset).isSome = true := by
  unfold targetId? indexOf?
  rw [TreeMap.isSome_getElem?_eq_contains]
  exact h.boundary

/-- An address operand of a valid script has a number behind it. -/
theorem IsValid.exists_targetId? (h : script.IsValid code) (hmem : ins ∈ script.instructions.toList)
    {offset : Int} (hoffset : offset ∈ relativeTargets ins) :
    ∃ k target, script.targetId? ins offset = some k ∧ script.instructions[k]? = some target ∧
      (target.pc : Int) = ins.pc + offset := by
  obtain ⟨hnonneg, -, hboundary⟩ := h.leads ins hmem offset hoffset
  obtain ⟨target, htarget, hpc⟩ := h.isBoundary_iff.1 hboundary
  obtain ⟨k, hk⟩ := List.getElem?_of_mem htarget
  rw [Array.getElem?_toList] at hk
  exact ⟨k, target, h.indexOf?_eq_some_iff.2 ⟨target, hk, hpc⟩, hk, by omega⟩

/-- Every target of an operand starts a block. -/
theorem IsStart.of_target (hmem : ins ∈ script.instructions.toList) {offset : Int}
    (hoffset : offset ∈ relativeTargets ins) {target : Instruction}
    (hpc : (target.pc : Int) = ins.pc + offset) (entryPoints : List Nat) :
    script.IsStart entryPoints target.pc :=
  .inr (.inr ⟨ins, hmem, .inl ⟨offset, hoffset, by omega⟩⟩)

end Script

/-! ## References -/

namespace References

def record (script : Script) (r : References) (entry : Instruction × Nat) : References :=
  match script.jumpTarget? entry.1, script.handlerTargets? entry.1 with
  | some target, _ => r.addJump entry.2 target
  | none, some handlers => r.addTry entry.2 handlers
  | none, none => r

variable {script : Script} {r : References} {ins : Instruction} {id : InstrId}

/-- An instruction with a single target has no handlers. -/
theorem handlerTargets?_eq_none {target : InstrId} (h : script.jumpTarget? ins = some target) :
    script.handlerTargets? ins = none := by
  have hsingle : ins.op.hasSingleTarget = true := by
    by_contra hsingle
    simp [Script.jumpTarget?, Instruction.jumpOffset?, hsingle] at h
  have htry : ins.op.isTry = false := by
    revert hsingle
    cases ins.op <;> simp [Opcode.isTry, Opcode.hasSingleTarget]
  simp [Script.handlerTargets?, Instruction.handlerOffsets?_eq_none htry]

/-- Recording an instruction adds its single target and keeps the others. -/
theorem jumps_record (hnew : r.Unrecorded id) (k : InstrId) :
    (r.record script (ins, id)).jumps[k]? =
      if k = id then script.jumpTarget? ins else r.jumps[k]? := by
  unfold record
  cases hjump : script.jumpTarget? ins with
  | some target =>
      change (r.jumps.insert id target)[k]? = _
      rw [TreeMap.getElem?_insert]
      simp [eq_comm (a := k)]
  | none =>
      cases script.handlerTargets? ins with
      | some handlers =>
          change (r.addTry id handlers).jumps[k]? = _
          unfold addTry
          rw [jumps_addSources]
          by_cases hk : k = id
          · subst hk
            simpa using hnew.1
          · simp [hk]
      | none =>
          by_cases hk : k = id
          · subst hk
            simpa using hnew.1
          · simp [hk]

/-- Recording an instruction adds its handlers and keeps the others. -/
theorem tries_record (hnew : r.Unrecorded id) (k : InstrId) :
    (r.record script (ins, id)).tries[k]? =
      if k = id then script.handlerTargets? ins else r.tries[k]? := by
  unfold record
  cases hjump : script.jumpTarget? ins with
  | some target =>
      rw [handlerTargets?_eq_none hjump]
      change r.tries[k]? = _
      by_cases hk : k = id
      · subst hk
        simpa using hnew.2
      · simp [hk]
  | none =>
      cases script.handlerTargets? ins with
      | some handlers =>
          change (r.addTry id handlers).tries[k]? = _
          unfold addTry
          rw [tries_addSources, TreeMap.getElem?_insert]
          simp [eq_comm (a := k)]
      | none =>
          by_cases hk : k = id
          · subst hk
            simpa using hnew.2
          · simp [hk]

/-- The index stays exact when an instruction is recorded. -/
theorem Exact.record (h : r.Exact) (hnew : r.Unrecorded id) :
    (r.record script (ins, id)).Exact := by
  unfold References.record
  cases script.jumpTarget? ins with
  | some target => exact h.addJump hnew
  | none =>
      cases script.handlerTargets? ins with
      | some handlers => exact h.addTry hnew
      | none => exact h

/-- References hold exactly the operands of a script. -/
structure Describes (r : References) (script : Script) : Prop where
  exact : r.Exact
  jumps : ∀ k : Nat, r.jumps[k]? = (script.instructions[k]?).bind script.jumpTarget?
  tries : ∀ k : Nat, r.tries[k]? = (script.instructions[k]?).bind script.handlerTargets?

/-- Records of a numbered list stand behind their numbers; the index stays exact, because no number
comes twice. -/
theorem recordAll (script : Script) (xs : List Instruction) {k : Nat} (h : r.Exact)
    (hnew : ∀ j, k ≤ j → r.Unrecorded j) :
    ((xs.zipIdx k).foldl (record script) r).Exact ∧
      (∀ j : Nat, ((xs.zipIdx k).foldl (record script) r).jumps[j]? =
        if j < k then r.jumps[j]? else (xs[j - k]?).bind script.jumpTarget?) ∧
      ∀ j : Nat, ((xs.zipIdx k).foldl (record script) r).tries[j]? =
        if j < k then r.tries[j]? else (xs[j - k]?).bind script.handlerTargets? := by
  induction xs generalizing r k with
  | nil =>
      refine ⟨h, fun j => ?_, fun j => ?_⟩ <;> split <;> rename_i hj
      · rfl
      · simpa using (hnew j (by omega)).1
      · rfl
      · simpa using (hnew j (by omega)).2
  | cons ins xs ih =>
      have hk := hnew k (Nat.le_refl k)
      have hlater : ∀ j, k + 1 ≤ j → (r.record script (ins, k)).Unrecorded j := by
        intro j hj
        have hne : j ≠ k := by omega
        have hold := hnew j (by omega)
        unfold Unrecorded
        rw [jumps_record hk, tries_record hk, if_neg hne, if_neg hne]
        exact hold
      obtain ⟨hexact, hjumps, htries⟩ := ih (h.record hk) hlater
      -- One record and those behind it, as the records of the whole list.
      have hshift : ∀ {α : Type} (f : Instruction → Option α) (before : Option α) (j : Nat),
          (if j < k + 1 then if j = k then f ins else before else (xs[j - (k + 1)]?).bind f) =
            if j < k then before else ((ins :: xs)[j - k]?).bind f := by
        intro α f before j
        rcases Nat.lt_trichotomy j k with hj | rfl | hj
        · simp [hj, Nat.lt_succ_of_lt hj, Nat.ne_of_lt hj]
        · simp
        · have hsub : j - k = j - (k + 1) + 1 := by omega
          simp [show ¬ j < k + 1 by omega, show ¬ j < k by omega, hsub]
      rw [List.zipIdx_cons, List.foldl_cons]
      refine ⟨hexact, fun j => ?_, fun j => ?_⟩
      · rw [hjumps, jumps_record hk, hshift]
      · rw [htries, tries_record hk, hshift]

end References

/-! ## The survey -/

namespace Survey

variable {script : Script} {ins : Instruction}

theorem resolveTarget_of_leads {offset : Int} (h : script.Leads ins offset) :
    resolveTarget script ins offset = .ok ((ins.pc : Int) + offset).toNat := by
  unfold resolveTarget
  exact if_pos (Script.leads_iff.1 h)

/-- A handler is resolved and starts a block, unless it is absent. -/
theorem handler_of_leads {offset : Int} (h : offset ≠ 0 → script.Leads ins offset)
    (starts : TreeSet Nat) :
    ∃ starts', handler script ins offset starts = .ok (script.handlerId? ins offset, starts') ∧
      ∀ pc, pc ∈ starts' ↔
        (offset ≠ 0 ∧ pc = ((ins.pc : Int) + offset).toNat) ∨ pc ∈ starts := by
  unfold handler Script.handlerId?
  by_cases hzero : offset = 0
  · refine ⟨starts, by simp [hzero], by simp [hzero]⟩
  · rw [if_neg hzero, if_neg hzero, resolveTarget_of_leads (h hzero)]
    refine ⟨_, rfl, fun pc => ?_⟩
    rw [TreeSet.mem_insert, Nat.compare_eq_eq, eq_comm]
    simp [hzero]

/-- The operands of an instruction are recorded, and their targets start blocks. -/
theorem operands_of_leads (hleads : ∀ offset ∈ relativeTargets ins, script.Leads ins offset)
    (s : Survey) (id : InstrId) :
    ∃ s', s.operands script id ins = .ok s' ∧ s'.references = s.references.record script (ins, id) ∧
      ∀ pc, pc ∈ s'.starts ↔
        (∃ offset ∈ relativeTargets ins, pc = ((ins.pc : Int) + offset).toNat) ∨ pc ∈ s.starts := by
  unfold operands References.record Script.jumpTarget? Script.handlerTargets?
  cases hjump : ins.jumpOffset? with
  | some offset =>
      -- A single target leads to an instruction, and this becomes a start.
      have htargets : relativeTargets ins = [offset] :=
        Instruction.relativeTargets_of_jumpOffset? hjump
      have hlead := hleads offset (by simp [htargets])
      obtain ⟨k, hk⟩ := Option.isSome_iff_exists.1 hlead.isSome_targetId?
      rw [htargets]
      have hindex : script.indexOf? ((ins.pc : Int) + offset).toNat = some k := hk
      simp only [resolveTarget_of_leads hlead]
      refine ⟨_, rfl, ?_, fun pc => ?_⟩
      · simp [hindex, hk]
      · change pc ∈ s.starts.insert _ ↔ _
        rw [TreeSet.mem_insert, Nat.compare_eq_eq, eq_comm]
        simp
  | none =>
      cases hhandlers : ins.handlerOffsets? with
      | none =>
          have htargets : relativeTargets ins = [] := by simp [relativeTargets, hjump, hhandlers]
          refine ⟨s, rfl, by simp, by simp [htargets]⟩
      | some offsets =>
          obtain ⟨a, b⟩ := offsets
          have htargets : relativeTargets ins = [a, b].filter (· ≠ 0) := by
            simp only [relativeTargets, hjump, hhandlers]
          -- The handlers that are present are looked up one after the other.
          rw [htargets] at hleads ⊢
          obtain ⟨middle, hcatch, hmiddle⟩ :=
            handler_of_leads (fun ha => hleads a (by simp [ha])) s.starts
          obtain ⟨starts, hfinally, hstarts⟩ :=
            handler_of_leads (fun hb => hleads b (by simp [hb])) middle
          refine ⟨⟨s.references.addTry id ⟨script.handlerId? ins a, script.handlerId? ins b⟩,
            starts⟩, ?_, ?_, fun pc => ?_⟩
          · exact Sequencing.bind_eq_ok.2 ⟨_, hcatch, Sequencing.bind_eq_ok.2 ⟨_, hfinally, rfl⟩⟩
          · simp
          · change pc ∈ starts ↔ _
            rw [hstarts, hmiddle]
            simp only [List.mem_filter, List.mem_cons, List.not_mem_nil, or_false,
              decide_eq_true_eq]
            constructor
            · rintro (⟨hb, hpc⟩ | ⟨ha, hpc⟩ | hpc)
              · exact .inl ⟨b, ⟨.inr rfl, hb⟩, hpc⟩
              · exact .inl ⟨a, ⟨.inl rfl, ha⟩, hpc⟩
              · exact .inr hpc
            · rintro (⟨offset, ⟨rfl | rfl, hne⟩, hpc⟩ | hpc)
              · exact .inr (.inl ⟨hne, hpc⟩)
              · exact .inl ⟨hne, hpc⟩
              · exact .inr (.inr hpc)

/-- One step of the survey succeeds, and marks the starts that the instruction asks for. -/
theorem step_of_leads (hleads : ∀ offset ∈ relativeTargets ins, script.Leads ins offset)
    (s : Survey) (id : InstrId) :
    ∃ s', s.step script (ins, id) = .ok s' ∧ s'.references = s.references.record script (ins, id) ∧
      ∀ pc, pc ∈ s'.starts ↔ script.Marks ins pc ∨ pc ∈ s.starts := by
  obtain ⟨s₁, hoperands, hreferences, hstarts⟩ := operands_of_leads hleads s id
  unfold step Script.Marks
  -- Behind a block that ends, another one starts unless the script ends as well.
  by_cases hend : ins.op.isBlockEnding = true ∧ ins.next < script.length
  · refine ⟨{ s₁ with starts := s₁.starts.insert ins.next }, ?_, hreferences, fun pc => ?_⟩
    · refine Sequencing.bind_eq_ok.2 ⟨s₁, hoperands, ?_⟩
      rw [if_pos hend]
      rfl
    · change pc ∈ s₁.starts.insert ins.next ↔ _
      rw [TreeSet.mem_insert, hstarts, Nat.compare_eq_eq, eq_comm]
      simp only [hend, true_and]
      rw [or_assoc]
      exact or_left_comm
  · refine ⟨s₁, ?_, hreferences, fun pc => ?_⟩
    · refine Sequencing.bind_eq_ok.2 ⟨s₁, hoperands, ?_⟩
      rw [if_neg hend]
      rfl
    · have hnot : ¬ (ins.op.isBlockEnding = true ∧ ins.next < script.length ∧ pc = ins.next) :=
        fun hmark => hend ⟨hmark.1, hmark.2.1⟩
      rw [hstarts, or_iff_left hnot]

/-- So does the whole survey. -/
theorem steps_of_leads {xs : List Instruction}
    (hleads : ∀ ins ∈ xs, ∀ offset ∈ relativeTargets ins, script.Leads ins offset)
    (k : Nat) (s : Survey) :
    ∃ s', (xs.zipIdx k).foldlM (step script) s = .ok s' ∧
      s'.references = (xs.zipIdx k).foldl (References.record script) s.references ∧
      ∀ pc, pc ∈ s'.starts ↔ (∃ ins ∈ xs, script.Marks ins pc) ∨ pc ∈ s.starts := by
  induction xs generalizing k s with
  | nil => exact ⟨s, rfl, rfl, by simp⟩
  | cons ins xs ih =>
      rw [List.forall_mem_cons] at hleads
      obtain ⟨s₁, hstep, hreferences, hstarts⟩ := step_of_leads hleads.1 s k
      obtain ⟨s₂, hsteps, hreferences₂, hstarts₂⟩ := ih hleads.2 (k + 1) s₁
      refine ⟨s₂, ?_, ?_, fun pc => ?_⟩
      · rw [List.zipIdx_cons, List.foldlM_cons]
        exact Sequencing.bind_eq_ok.2 ⟨s₁, hstep, hsteps⟩
      · rw [List.zipIdx_cons, List.foldl_cons, hreferences₂, hreferences]
      · rw [hstarts₂, hstarts]
        simp only [List.mem_cons, exists_eq_or_imp]
        rw [or_assoc]
        exact or_left_comm

/-- A survey holds the operands of a script and the starts of its blocks. -/
structure Describes (s : Survey) (script : Script) (entryPoints : List Nat) : Prop where
  references : s.references.Describes script
  starts : ∀ pc, pc ∈ s.starts ↔ script.IsStart entryPoints pc

/-- The survey of a script whose operands lead to instructions succeeds. -/
theorem run_of_leads
    (hleads : ∀ ins ∈ script.instructions.toList, ∀ offset ∈ relativeTargets ins,
      script.Leads ins offset)
    (entryPoints : List Nat) :
    ∃ s, run script entryPoints = .ok s ∧ s.Describes script entryPoints := by
  let first : TreeSet Nat := if script.instructions.isEmpty then ∅ else TreeSet.ofList [0]
  have hfirst : ∀ pc, pc ∈ first ↔ pc = 0 ∧ script.instructions.toList ≠ [] := by
    intro pc
    have hnil : script.instructions.toList ≠ [] ↔ script.instructions.isEmpty = false := by
      rw [← Array.isEmpty_toList, ← Bool.not_eq_true, List.isEmpty_iff]
    rw [hnil]
    cases hempty : script.instructions.isEmpty <;> simp [first, hempty, eq_comm (b := pc)]
  obtain ⟨s, hrun, hreferences, hstarts⟩ :=
    steps_of_leads hleads 0 ⟨.empty, entryPoints.foldl (·.insert ·) first⟩
  obtain ⟨hexact, hjumps, htries⟩ := References.recordAll script (k := 0)
    script.instructions.toList References.exact_empty
    (fun j _ => ⟨by simp [References.empty], by simp [References.empty]⟩)
  refine ⟨s, hrun, ⟨?_, fun k => ?_, fun k => ?_⟩, fun pc => ?_⟩
  · rw [hreferences]
    exact hexact
  · simpa [hreferences] using hjumps k
  · simpa [hreferences] using htries k
  · rw [hstarts, Table.mem_insertAll, hfirst]
    exact or_rotate.trans or_left_comm

end Survey

end NeoScript
