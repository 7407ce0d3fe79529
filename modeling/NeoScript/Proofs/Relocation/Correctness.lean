import NeoScript.Proofs.Relocation.Lookup
import NeoScript.Proofs.Relocation.Operands

/-!
# Correctness — relocated references lead to their targets

* `Revision.LeadsTo` — an offset leads to the instruction of a number;
* `Revision.RelocatedTo` — an instruction of a revision with the operand that relocation gives it;
* `relocate_correct` — relocation fails exactly if a reference dangles, and otherwise gives every
  instruction such an operand.
-/

namespace NeoScript

open Relocation

namespace Revision

/-- From an instruction, an offset leads to the one that stands at the place of a number. -/
def LeadsTo (r : Revision) (xs : List Instruction) (ins : Instruction) (offset : Int)
    (target : InstrId) : Prop :=
  ∃ (j : Nat) (placed : Instruction), r.order[j]? = some target ∧ xs[j]? = some placed ∧
    (ins.pc : Int) + offset = placed.pc

/-- The offset of a handler: zero if there is none, and of handlers only for the try itself. -/
inductive HandlerLeadsTo (r : Revision) (xs : List Instruction) (id : InstrId) (ins : Instruction) :
    Option InstrId → Int → Prop where
  | absent : HandlerLeadsTo r xs id ins none 0
  | present {target : InstrId} {offset : Int} (hleads : r.LeadsTo xs ins offset target)
      (hne : target ≠ id → offset ≠ 0) : HandlerLeadsTo r xs id ins (some target) offset

/-- An instruction of a revision with the operand that relocation gives it. -/
structure RelocatedTo (r : Revision) (xs : List Instruction) (id : InstrId)
    (raw ins : Instruction) : Prop where
  op : ins.op = raw.op ∨ ins.op = raw.op.toLong
  operand : raw.op.hasSingleTarget = false → raw.op.isTry = false → ins.operand = raw.operand
  target : raw.op.hasSingleTarget = true → ∃ target offset, r.references.jumps[id]? = some target ∧
    ins.jumpOffset? = some offset ∧ r.LeadsTo xs ins offset target
  handlers : raw.op.isTry = true → ∃ a b, ins.handlerOffsets? = some (a, b) ∧
    r.HandlerLeadsTo xs id ins ((r.references.tries[id]?).getD .none).catchId a ∧
    r.HandlerLeadsTo xs id ins ((r.references.tries[id]?).getD .none).finallyId b

/-- The length of a revision whose references are all long. -/
def widestSize (r : Revision) : Nat :=
  totalSize (r.instructions.map fun ins => { ins with op := ins.op.toLong })

variable {r : Revision} {xs : List Instruction} {ins : Instruction} {id target : InstrId}

/-! ## Distances -/

/-- The distance to a position leads to the instruction there. -/
theorem leadsTo_distanceTo (hlength : r.order.length = xs.length) {j : Nat}
    (hj : r.order[j]? = some target) :
    r.LeadsTo xs ins (distanceTo (xs.map (·.pc)).toArray ins.pc (some j)) target := by
  have hlt : j < xs.length := hlength ▸ (List.getElem?_eq_some_iff.1 hj).1
  have hplaced := List.getElem?_eq_getElem hlt
  refine ⟨j, _, hj, hplaced, ?_⟩
  rw [distanceTo_getElem? hplaced]
  omega

/-- The distance to a handler leads to it, and is zero exactly without one. -/
theorem handlerLeadsTo_distanceTo (hplaced : Placed 0 xs) (hlength : r.order.length = xs.length)
    {k : Nat} (hid : r.order[k]? = some id) (hins : xs[k]? = some ins) {handler : Option InstrId}
    {c : Option Nat}
    (hc : Option.Rel (fun target (j : Nat) => r.order[j]? = some target) handler c) :
    r.HandlerLeadsTo xs id ins handler (distanceTo (xs.map (·.pc)).toArray ins.pc c) := by
  cases hc with
  | none => exact .absent
  | @some target j hj =>
      have hleads : r.LeadsTo xs ins (distanceTo (xs.map (·.pc)).toArray ins.pc (some j)) target :=
        leadsTo_distanceTo hlength hj
      refine .present hleads fun hne hzero => hne ?_
      -- An offset of zero leads to the instruction itself.
      obtain ⟨j', placed, hj', hget, hpc⟩ := hleads
      have hsame : j' = k := eq_of_pc_eq hplaced hget hins (by omega)
      rw [hsame, hid] at hj'
      exact (Option.some.inj hj').symm

/-! ## Instructions -/

/-- Positions that were looked up lie inside the program. -/
theorem aimed_of_locatedBy (hnodup : r.order.Nodup) {l : Located} (h : LocatedBy r id l) :
    l.Aimed r.order.length := by
  have hlt : ∀ {handler : Option InstrId} {c : Option Nat},
      Option.Rel (fun target (j : Nat) => r.order[j]? = some target) handler c →
      ∀ t, c = some t → t < r.order.length := by
    rintro _ _ hc t rfl
    cases hc with
    | some hj => exact (List.getElem?_eq_some_iff.1 hj).1
  generalize htargets : l.targets = targets
  have hin := (targetsOf_eq_ok_iff hnodup).1 (htargets ▸ h.targets)
  cases hin with
  | plain hsingle htry => exact .plain hsingle htry htargets
  | single hsingle _ hj => exact .single hsingle htargets (List.getElem?_eq_some_iff.1 hj).1
  | handlers htry hc hf => exact .handlers htry htargets (hlt hc) (hlt hf)

/-- A placed instruction is the relocated one, long or short. -/
theorem relocatedTo_of_placedAt (hnodup : r.order.Nodup) (hplaced : Placed 0 xs)
    (hlength : r.order.length = xs.length) {k : Nat} (hid : r.order[k]? = some id)
    (hins : xs[k]? = some ins) {l l' : Located} (hl : LocatedBy r id l) (hwidened : Widened l l')
    (h : PlacedAt (xs.map (·.pc)).toArray ins.pc l' ins) :
    r.RelocatedTo xs id l.instruction ins := by
  have hin := (targetsOf_eq_ok_iff hnodup).1 hl.targets
  -- A longer form has the same kind of operand as the short one.
  have hsingle_iff : ins.op.hasSingleTarget = l.instruction.op.hasSingleTarget :=
    h.op ▸ hwidened.hasSingleTarget_eq
  have htry_iff : ins.op.isTry = l.instruction.op.isTry := h.op ▸ hwidened.isTry_eq
  refine ⟨h.op ▸ hwidened.op_cases, ?_, ?_, ?_⟩
  · intro hsingle htry
    rw [h.operand (hsingle_iff.trans hsingle) (htry_iff.trans htry), hwidened.operand_eq]
  · intro hsingle
    obtain ⟨target, j, hjump, hj, htargets⟩ := hin.exists_jump hsingle
    have hoffset := h.target (hsingle_iff.trans hsingle) _ (hwidened.targets_eq.trans htargets)
    exact ⟨target, _, hjump, hoffset, leadsTo_distanceTo hlength hj⟩
  · intro htry
    obtain ⟨c, f, hc, hf, htargets⟩ := hin.exists_handlers htry
    have hoffsets := h.handlers (htry_iff.trans htry) c f (hwidened.targets_eq.trans htargets)
    exact ⟨_, _, hoffsets, handlerLeadsTo_distanceTo hplaced hlength hid hins hc,
      handlerLeadsTo_distanceTo hplaced hlength hid hins hf⟩

/-! ## Whole revisions -/

theorem instructions_of_locatedBy {program : List Located}
    (h : List.Forall₂ (LocatedBy r) r.order program) :
    r.instructions = program.map (·.instruction) := by
  unfold instructions
  generalize r.order = order at h
  induction h with
  | nil => rfl
  | cons hl _ ih => rw [List.filterMap_cons_some hl.instruction, ih, List.map_cons]

/-- A revision that is located is relocated, instruction by instruction. -/
theorem exists_relocate (hnodup : r.order.Nodup) (hsize : r.widestSize < 0x80000000)
    {program : List Located} (hlocate : locate r = .ok program) :
    ∃ result, relocate r = .ok result ∧ Placed 0 result.instructions ∧
      List.Forall₂ (fun id ins => ∃ raw, r.arena.get? id = some raw ∧
        r.RelocatedTo result.instructions id raw ins) r.order result.instructions := by
  have hlocated := locate_eq_ok_iff.1 hlocate
  have haimed : ∀ l ∈ program, l.Aimed program.length := by
    intro l hl
    obtain ⟨id, -, hid⟩ := Sequencing.exists_left_of_forall₂ hlocated hl
    exact hlocated.length_eq ▸ aimed_of_locatedBy hnodup hid
  -- A program whose references are all long is short enough, so widening ends with operands that
  -- fit.
  rw [widestSize, instructions_of_locatedBy hlocated, List.map_map] at hsize
  obtain ⟨xs, hplace, hlayout, hplaced, hall⟩ := exists_placed haimed hsize
  have hlength := hlocated.length_eq.trans hall.length_eq
  refine ⟨_, relocate_eq_ok hlocate hplace hlayout, hplaced,
    Sequencing.forall₂_iff_getElem?.2 ⟨hlength, fun k id ins hid hins => ?_⟩⟩
  obtain ⟨l, hl, hlocatedBy⟩ := Sequencing.exists_getElem?_of_forall₂ hlocated hid
  obtain ⟨l', hwidened, hat⟩ := (Sequencing.forall₂_iff_getElem?.1 hall).2 k l ins hl hins
  exact ⟨l.instruction, hlocatedBy.instruction,
    relocatedTo_of_placedAt hnodup hplaced hlength hid hins hlocatedBy hwidened hat⟩

end Revision

/-- Relocation fails exactly if a reference dangles.  Otherwise the instructions follow each other
in the order of the revision, and every reference leads to its target. -/
theorem relocate_correct (r : Revision) (hnodup : r.order.Nodup) (hsize : r.widestSize < 2 ^ 31) :
    ((∃ e, relocate r = .error e) ↔ ∃ id ∈ r.order, r.Dangles id) ∧
    (∀ e, relocate r = .error e → ∃ id, e = .danglingTarget id) ∧
    ∀ result, relocate r = .ok result → Placed 0 result.instructions ∧
      List.Forall₂ (fun id ins => ∃ raw, r.arena.get? id = some raw ∧
        r.RelocatedTo result.instructions id raw ins) r.order result.instructions := by
  have hdangles : (∃ program, locate r = .ok program) ↔ ¬ ∃ id ∈ r.order, r.Dangles id := by
    rw [exists_locate_iff hnodup]
    simp only [not_exists, not_and]
  cases hlocate : locate r with
  | error e =>
      have hrelocate : relocate r = .error e := by
        rw [relocate, hlocate, Sequencing.error_bind]
      refine ⟨iff_of_true ⟨e, hrelocate⟩ ?_, ?_, ?_⟩
      · by_contra hnone
        obtain ⟨program, hprogram⟩ := hdangles.2 hnone
        rw [hlocate] at hprogram
        cases hprogram
      · intro e' he'
        cases hrelocate.symm.trans he'
        exact eq_danglingTarget_of_locate hlocate
      · intro result hresult
        cases hrelocate.symm.trans hresult
  | ok program =>
      obtain ⟨result, hrelocate, hresult⟩ := Revision.exists_relocate hnodup hsize hlocate
      refine ⟨iff_of_false ?_ (hdangles.1 ⟨program, hlocate⟩), ?_, ?_⟩
      · rintro ⟨e, he⟩
        cases hrelocate.symm.trans he
      · intro e he
        cases hrelocate.symm.trans he
      · intro result' hresult'
        cases hrelocate.symm.trans hresult'
        exact hresult

/-- A try and a jump around more data than a short operand can pass; the numbers do not follow the
order. -/
def Samples.crowded : Revision where
  arena := ⟨#[⟨.simple .ret, some 0⟩, ⟨.pushData (List.replicate 130 7), some 1⟩,
    ⟨.unplaced (.jump .always .short) [0], some 2⟩, ⟨.unplaced (.enterTry .short) [0, 0], none⟩,
    ⟨.simple .nop, some 4⟩]⟩
  order := [3, 2, 1, 4, 0]
  references := (References.empty.addJump 2 0).addTry 3 ⟨some 4, none⟩
  changed := true
  scriptLength := 5

/-- Both references become long. -/
theorem relocate_crowded : Samples.crowded.order.Nodup ∧ Samples.crowded.widestSize < 2 ^ 31 ∧
    ∃ result, relocate Samples.crowded = .ok result ∧
      result.instructions.map (fun ins => (ins.pc, ins.op)) =
        [(0, .enterTry .long), (9, .jump .always .long), (14, .pushData .w1), (146, .nop),
          (147, .ret)] ∧
      Placed 0 result.instructions ∧
      List.Forall₂ (fun id ins => ∃ raw, Samples.crowded.arena.get? id = some raw ∧
        Samples.crowded.RelocatedTo result.instructions id raw ins) Samples.crowded.order
        result.instructions := by
  have hnodup : Samples.crowded.order.Nodup := by decide
  have hsize : Samples.crowded.widestSize < 2 ^ 31 := by decide +kernel
  have hcompute : (relocate Samples.crowded).map (fun result =>
      result.instructions.map fun ins => (ins.pc, ins.op)) =
        .ok [(0, .enterTry .long), (9, .jump .always .long), (14, .pushData .w1), (146, .nop),
          (147, .ret)] := by
    decide +kernel
  obtain ⟨result, hresult, hlist⟩ := Sequencing.map_eq_ok.1 hcompute
  exact ⟨hnodup, hsize, result, hresult, hlist,
    (relocate_correct Samples.crowded hnodup hsize).2.2 result hresult⟩

end NeoScript
