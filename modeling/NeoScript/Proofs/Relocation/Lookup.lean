import NeoScript.Proofs.Opcode
import NeoScript.Proofs.Sequencing
import NeoScript.Proofs.Table
import NeoScript.Relocation

/-!
# Lookup — which references of a revision can be followed

* `Relocation.positionOf_eq_ok_iff` — a number has the position at which it stands in the order;
* `Revision.TargetsIn` — the positions to which an operation refers;
* `Relocation.locate_eq_ok_iff` — a revision is located instruction by instruction;
* `Revision.Dangles`, `Relocation.exists_locate_iff` — what keeps it from being located.
-/

namespace NeoScript

/-! ## Positions -/

namespace Relocation

variable {order : List InstrId} {id : InstrId}

/-- The table finds the position of each number, and no other. -/
theorem positionOf_eq_ok_iff (hnodup : order.Nodup) {j : Nat} :
    positionOf (positions order) id = .ok j ↔ order[j]? = some id := by
  have hplaces : (positions order)[id]? = some j ↔ ∃ i target, order[i]? = some target ∧
      target = id ∧ i = j :=
    Table.getElem?_fill_zipIdx (fun target => target) (by rwa [List.map_id']) fun i => i
  have hfound : positionOf (positions order) id = .ok j ↔ (positions order)[id]? = some j := by
    unfold positionOf
    cases (positions order)[id]? <;> simp
  rw [hfound, hplaces]
  simp

/-- A handler has a position if and only if it is there. -/
theorem handlerPosition_eq_ok_iff (hnodup : order.Nodup) {handler : Option InstrId}
    {c : Option Nat} :
    handlerPosition (positions order) handler = .ok c ↔
      Option.Rel (fun id j => order[j]? = some id) handler c := by
  cases handler with
  | none => cases c <;> simp [handlerPosition]
  | some id =>
      simp only [handlerPosition, Sequencing.map_eq_ok, positionOf_eq_ok_iff hnodup]
      cases c <;> simp

end Relocation

/-! ## References -/

/-- The positions to which an operation of a revision refers. -/
inductive Revision.TargetsIn (r : Revision) (id : InstrId) (op : Opcode) :
    List (Option Nat) → Prop where
  | plain (hsingle : op.hasSingleTarget = false) (htry : op.isTry = false) : TargetsIn r id op []
  | single {target : InstrId} {j : Nat} (hsingle : op.hasSingleTarget = true)
      (hjump : r.references.jumps[id]? = some target) (hj : r.order[j]? = some target) :
      TargetsIn r id op [some j]
  | handlers {c f : Option Nat} (htry : op.isTry = true)
      (hc : Option.Rel (fun target (j : Nat) => r.order[j]? = some target)
        ((r.references.tries[id]?).getD .none).catchId c)
      (hf : Option.Rel (fun target (j : Nat) => r.order[j]? = some target)
        ((r.references.tries[id]?).getD .none).finallyId f) : TargetsIn r id op [c, f]

/-- A number of an order without instruction, or with a reference that leads out of the order. -/
inductive Revision.Dangles (r : Revision) (id : InstrId) : Prop where
  | unknown (hget : r.arena.get? id = none)
  | unset {ins : Instruction} (hget : r.arena.get? id = some ins)
      (hsingle : ins.op.hasSingleTarget = true) (hjump : r.references.jumps[id]? = none)
  | target {ins : Instruction} {target : InstrId} (hget : r.arena.get? id = some ins)
      (hsingle : ins.op.hasSingleTarget = true) (hjump : r.references.jumps[id]? = some target)
      (hmissing : target ∉ r.order)
  | handler {ins : Instruction} {target : InstrId} (hget : r.arena.get? id = some ins)
      (htry : ins.op.isTry = true) (hhandler : target ∈
        ((r.references.tries[id]?).getD .none).toList)
      (hmissing : target ∉ r.order)

namespace Revision.TargetsIn

variable {r : Revision} {id : InstrId} {op : Opcode} {targets : List (Option Nat)}

/-- An operation with a single target has one position. -/
theorem exists_jump (h : r.TargetsIn id op targets) (hsingle : op.hasSingleTarget = true) :
    ∃ target j, r.references.jumps[id]? = some target ∧ r.order[j]? = some target ∧
      targets = [some j] := by
  cases h with
  | plain hplain => rw [hplain] at hsingle; cases hsingle
  | single _ hjump hj => exact ⟨_, _, hjump, hj, rfl⟩
  | handlers htry => rw [Opcode.hasSingleTarget_of_isTry htry] at hsingle; cases hsingle

/-- A try has a position for each of its handlers. -/
theorem exists_handlers (h : r.TargetsIn id op targets) (htry : op.isTry = true) :
    ∃ c f, Option.Rel (fun target (j : Nat) => r.order[j]? = some target)
        ((r.references.tries[id]?).getD .none).catchId c ∧
      Option.Rel (fun target (j : Nat) => r.order[j]? = some target)
        ((r.references.tries[id]?).getD .none).finallyId f ∧ targets = [c, f] := by
  cases h with
  | plain _ hplain => rw [hplain] at htry; cases htry
  | single hsingle => rw [Opcode.hasSingleTarget_of_isTry htry] at hsingle; cases hsingle
  | handlers _ hc hf => exact ⟨_, _, hc, hf, rfl⟩

end Revision.TargetsIn

namespace Relocation

variable {r : Revision} {id : InstrId}

/-- The targets of an instruction are the positions of what it refers to. -/
theorem targetsOf_eq_ok_iff (hnodup : r.order.Nodup) {op : Opcode} {targets : List (Option Nat)} :
    targetsOf r.references (positions r.order) id op = .ok targets ↔ r.TargetsIn id op targets := by
  constructor
  · intro h
    unfold targetsOf at h
    split at h
    · rename_i hsingle
      cases hjump : r.references.jumps[id]? with
      | none =>
          rw [hjump] at h
          cases h
      | some target =>
          rw [hjump] at h
          obtain ⟨j, hj, rfl⟩ := Sequencing.map_eq_ok.1 h
          exact .single hsingle hjump ((positionOf_eq_ok_iff hnodup).1 hj)
    · rename_i hsingle
      rw [Bool.not_eq_true] at hsingle
      split at h
      · rename_i htry
        obtain ⟨c, hc, h⟩ := Sequencing.bind_eq_ok.1 h
        obtain ⟨f, hf, h⟩ := Sequencing.bind_eq_ok.1 h
        cases h
        exact .handlers htry ((handlerPosition_eq_ok_iff hnodup).1 hc)
          ((handlerPosition_eq_ok_iff hnodup).1 hf)
      · rename_i htry
        cases h
        exact .plain hsingle (Bool.not_eq_true _ ▸ htry)
  · intro h
    cases h with
    | plain hsingle htry => simp [targetsOf, hsingle, htry]
    | single hsingle hjump hj =>
        simp [targetsOf, hsingle, hjump, (positionOf_eq_ok_iff hnodup).2 hj, Except.map]
    | handlers htry hc hf =>
        have hsingle := Opcode.hasSingleTarget_of_isTry htry
        simp only [targetsOf, hsingle, Bool.false_eq_true, if_false, htry, if_true]
        exact Sequencing.bind_eq_ok.2 ⟨_, (handlerPosition_eq_ok_iff hnodup).2 hc,
          Sequencing.bind_eq_ok.2 ⟨_, (handlerPosition_eq_ok_iff hnodup).2 hf, rfl⟩⟩

/-! ## Whole revisions -/

/-- An instruction of a revision with the positions of its targets. -/
structure LocatedBy (r : Revision) (id : InstrId) (l : Located) : Prop where
  instruction : r.arena.get? id = some l.instruction
  targets : targetsOf r.references (positions r.order) id l.instruction.op = .ok l.targets

/-- A revision is located instruction by instruction. -/
theorem locate_eq_ok_iff {program : List Located} :
    locate r = .ok program ↔ List.Forall₂ (LocatedBy r) r.order program := by
  constructor
  · intro h
    obtain ⟨entries, hentries, hprogram⟩ := Sequencing.bind_eq_ok.1 h
    refine Sequencing.forall₂_trans ?_ (Sequencing.mapM_eq_ok.1 hentries)
      (Sequencing.mapM_eq_ok.1 hprogram)
    intro id entry l hentry hl
    cases hget : r.arena.get? id with
    | none =>
        rw [hget] at hentry
        cases hentry
    | some ins =>
        rw [hget] at hentry
        cases hentry
        obtain ⟨targets, htargets, rfl⟩ := Sequencing.map_eq_ok.1 hl
        exact ⟨hget, htargets⟩
  · intro h
    -- Numbers are looked up for the whole order first, and targets after that.
    have hsteps : ∀ id l, LocatedBy r id l → ∃ entry : Numbered,
        (entry.1 = id ∧ r.arena.get? id = some entry.2) ∧
          (targetsOf r.references (positions r.order) entry.1 entry.2.op).map (Located.mk entry.2) =
            .ok l := by
      intro id l hl
      exact ⟨(id, l.instruction), ⟨rfl, hl.instruction⟩,
        Sequencing.map_eq_ok.2 ⟨_, hl.targets, rfl⟩⟩
    obtain ⟨entries, hentries, hprogram⟩ := Sequencing.exists_middle_of_forall₂ hsteps h
    refine Sequencing.bind_eq_ok.2 ⟨entries, Sequencing.mapM_eq_ok.2 (hentries.imp ?_),
      Sequencing.mapM_eq_ok.2 hprogram⟩
    rintro id ⟨_, ins⟩ ⟨rfl, hget⟩
    rw [hget]

theorem exists_positions {order : List InstrId} {handler : Option InstrId}
    (h : ∀ target, handler = some target → target ∈ order) :
    ∃ c, Option.Rel (fun id (j : Nat) => order[j]? = some id) handler c := by
  cases handler with
  | none => exact ⟨none, .none⟩
  | some target =>
      obtain ⟨j, hj⟩ := List.getElem?_of_mem (h target rfl)
      exact ⟨some j, .some hj⟩

/-- What refers to positions only does not dangle. -/
theorem not_dangles {ins : Instruction} {targets : List (Option Nat)}
    (hget : r.arena.get? id = some ins) (h : r.TargetsIn id ins.op targets) : ¬ r.Dangles id := by
  intro hdangles
  cases hdangles with
  | unknown hnone => simp [hget] at hnone
  | unset hget' hsingle hnone =>
      cases Option.some.inj (hget.symm.trans hget')
      obtain ⟨target, j, hjump, -⟩ := h.exists_jump hsingle
      simp [hnone] at hjump
  | target hget' hsingle hjump hmissing =>
      cases Option.some.inj (hget.symm.trans hget')
      obtain ⟨target, j, hjump', hj, -⟩ := h.exists_jump hsingle
      cases Option.some.inj (hjump.symm.trans hjump')
      exact hmissing (List.mem_of_getElem? hj)
  | handler hget' htry hhandler hmissing =>
      cases Option.some.inj (hget.symm.trans hget')
      obtain ⟨c, f, hc, hf, -⟩ := h.exists_handlers htry
      rw [HandlerIds.toList, List.mem_append, Option.mem_toList, Option.mem_toList] at hhandler
      rcases hhandler with hhandler | hhandler
      · rw [hhandler] at hc
        cases hc with
        | some hj => exact hmissing (List.mem_of_getElem? hj)
      · rw [hhandler] at hf
        cases hf with
        | some hj => exact hmissing (List.mem_of_getElem? hj)

/-- What does not dangle refers to positions. -/
theorem exists_targetsIn {ins : Instruction} (hget : r.arena.get? id = some ins)
    (h : ¬ r.Dangles id) : ∃ targets, r.TargetsIn id ins.op targets := by
  -- Whatever has no position is one of the ways to dangle.
  rcases ins.op.refers_cases with hsingle | htry | ⟨hsingle, htry⟩
  · cases hjump : r.references.jumps[id]? with
    | none => exact absurd (.unset hget hsingle hjump) h
    | some target =>
        by_cases hmem : target ∈ r.order
        · obtain ⟨j, hj⟩ := List.getElem?_of_mem hmem
          exact ⟨_, .single hsingle hjump hj⟩
        · exact absurd (.target hget hsingle hjump hmem) h
  · have hmem : ∀ target ∈ ((r.references.tries[id]?).getD .none).toList, target ∈ r.order := by
      intro target hhandler
      by_contra hmissing
      exact h (.handler hget htry hhandler hmissing)
    obtain ⟨c, hc⟩ := exists_positions fun target ht =>
      hmem target (List.mem_append.2 (.inl (Option.mem_toList.2 ht)))
    obtain ⟨f, hf⟩ := exists_positions fun target ht =>
      hmem target (List.mem_append.2 (.inr (Option.mem_toList.2 ht)))
    exact ⟨_, .handlers htry hc hf⟩
  · exact ⟨_, .plain hsingle htry⟩

/-- An instruction is located unless one of its references dangles. -/
theorem exists_locatedBy_iff (hnodup : r.order.Nodup) :
    (∃ l, LocatedBy r id l) ↔ ¬ r.Dangles id := by
  constructor
  · rintro ⟨l, hget, htargets⟩
    exact not_dangles hget ((targetsOf_eq_ok_iff hnodup).1 htargets)
  · intro h
    cases hget : r.arena.get? id with
    | none => exact absurd (.unknown hget) h
    | some ins =>
        obtain ⟨targets, htargets⟩ := exists_targetsIn hget h
        exact ⟨⟨ins, targets⟩, hget, (targetsOf_eq_ok_iff hnodup).2 htargets⟩

/-- A revision is located unless a reference dangles. -/
theorem exists_locate_iff (hnodup : r.order.Nodup) :
    (∃ program, locate r = .ok program) ↔ ∀ id ∈ r.order, ¬ r.Dangles id := by
  simp only [locate_eq_ok_iff, ← exists_locatedBy_iff hnodup]
  constructor
  · rintro ⟨program, h⟩ id hid
    obtain ⟨l, -, hl⟩ := Sequencing.exists_right_of_forall₂ h hid
    exact ⟨l, hl⟩
  · exact Sequencing.exists_forall₂

/-! ## Errors -/

theorem eq_danglingTarget_of_positionOf {table : Std.TreeMap InstrId Nat} {e : Error}
    (h : positionOf table id = .error e) : e = .danglingTarget id := by
  unfold positionOf at h
  split at h
  · cases h
  · exact (Except.error.inj h).symm

theorem eq_danglingTarget_of_handlerPosition {table : Std.TreeMap InstrId Nat}
    {handler : Option InstrId}
    {e : Error} (h : handlerPosition table handler = .error e) : ∃ id, e = .danglingTarget id := by
  cases handler with
  | none => cases h
  | some id => exact ⟨id, eq_danglingTarget_of_positionOf (Sequencing.map_eq_error.1 h)⟩

/-- If targets cannot be told, then one of them has been removed. -/
theorem eq_danglingTarget_of_targetsOf {references : References} {table : Std.TreeMap InstrId Nat}
    {op : Opcode} {e : Error} (h : targetsOf references table id op = .error e) :
    ∃ id, e = .danglingTarget id := by
  unfold targetsOf at h
  split at h
  · split at h
    · exact ⟨_, eq_danglingTarget_of_positionOf (Sequencing.map_eq_error.1 h)⟩
    · exact ⟨_, (Except.error.inj h).symm⟩
  · split at h
    · rcases Sequencing.bind_eq_error.1 h with hc | ⟨c, -, h⟩
      · exact eq_danglingTarget_of_handlerPosition hc
      · rcases Sequencing.bind_eq_error.1 h with hf | ⟨f, -, h⟩
        · exact eq_danglingTarget_of_handlerPosition hf
        · cases h
    · cases h

/-- The only error is a dangling reference. -/
theorem eq_danglingTarget_of_locate {e : Error} (h : locate r = .error e) :
    ∃ id, e = .danglingTarget id := by
  rcases Sequencing.bind_eq_error.1 h with hentries | ⟨entries, -, hprogram⟩
  · obtain ⟨id, -, hid⟩ := Sequencing.exists_of_mapM_eq_error hentries
    split at hid
    · cases hid
    · exact ⟨id, (Except.error.inj hid).symm⟩
  · obtain ⟨entry, -, hentry⟩ := Sequencing.exists_of_mapM_eq_error hprogram
    exact eq_danglingTarget_of_targetsOf (Sequencing.map_eq_error.1 hentry)

end Relocation

end NeoScript
