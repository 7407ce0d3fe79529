import NeoScript.Proofs.Script.Reading
import NeoScript.Validation

/-!
# Validity — scripts whose addresses lead to instructions

* `Instruction.Fits.exists_jumpOffset?`, `Instruction.Fits.exists_handlerOffsets?` — an operand of
  the right form holds the addresses that the operation asks for;
* `Script.IsValid` — a reading all of whose address operands lead to instructions;
* `validateScript_eq_ok_iff` — validation accepts these scripts, and only these.
-/

namespace NeoScript

namespace Instruction

variable {ins : Instruction}

/-- An operand of the right form holds its offset. -/
theorem Fits.exists_jumpOffset? (h : ins.Fits) (hsingle : ins.op.hasSingleTarget = true) :
    ∃ offset, ins.jumpOffset? = some offset := by
  obtain ⟨pc, op, operand⟩ := ins
  have hread : ∀ width : Nat, operand.length = width →
      ∃ offset, signedAt? ⟨pc, op, operand⟩ 0 width = some offset := by
    intro width hlength
    simp [signedAt?, operandSlice?, hlength]
  cases op with
  | jump c r => cases r <;> exact hread _ h
  | call r => cases r <;> exact hread _ h
  | endTry r => cases r <;> exact hread _ h
  | pushPointer => exact hread _ h
  | _ => cases hsingle

/-- An operand of the right form holds both offsets. -/
theorem Fits.exists_handlerOffsets? (h : ins.Fits) (htry : ins.op.isTry = true) :
    ∃ a b, ins.handlerOffsets? = some (a, b) := by
  obtain ⟨pc, op, operand⟩ := ins
  -- Every part of an operand that is long enough spells a number.
  have hread : ∀ start width : Nat, start + width ≤ operand.length →
      ∃ offset, signedAt? ⟨pc, op, operand⟩ start width = some offset := by
    intro start width hlength
    simp [signedAt?, operandSlice?, hlength]
  cases op with
  | enterTry r =>
      cases r with
      | short =>
          have hlength : operand.length = 2 := h
          obtain ⟨a, ha⟩ := hread 0 1 (by omega)
          obtain ⟨b, hb⟩ := hread 1 1 (by omega)
          exact ⟨a, b, by simp [handlerOffsets?, ha, hb]⟩
      | long =>
          have hlength : operand.length = 8 := h
          obtain ⟨a, ha⟩ := hread 0 4 (by omega)
          obtain ⟨b, hb⟩ := hread 4 4 (by omega)
          exact ⟨a, b, by simp [handlerOffsets?, ha, hb]⟩
  | _ => cases htry

theorem jumpOffset?_eq_none (hsingle : ins.op.hasSingleTarget = false) :
    ins.jumpOffset? = none := by
  simp [jumpOffset?, hsingle]

theorem handlerOffsets?_eq_none (htry : ins.op.isTry = false) : ins.handlerOffsets? = none := by
  obtain ⟨pc, op, operand⟩ := ins
  cases op <;> first | rfl | cases htry

/-- Only jumps, calls, tries and pointers name addresses. -/
theorem relativeTargets_eq_nil (hsingle : ins.op.hasSingleTarget = false)
    (htry : ins.op.isTry = false) : relativeTargets ins = [] := by
  simp only [relativeTargets, jumpOffset?_eq_none hsingle, handlerOffsets?_eq_none htry]

/-- The relative addresses of a try are its handlers that are there. -/
theorem relativeTargets_of_isTry (htry : ins.op.isTry = true) {a b : Int}
    (h : ins.handlerOffsets? = some (a, b)) : relativeTargets ins = [a, b].filter (· ≠ 0) := by
  have hsingle : ins.op.hasSingleTarget = false := by
    revert htry
    cases ins.op <;> simp [Opcode.isTry, Opcode.hasSingleTarget]
  simp only [relativeTargets, jumpOffset?_eq_none hsingle, h]

theorem relativeTargets_of_jumpOffset? {offset : Int} (h : ins.jumpOffset? = some offset) :
    relativeTargets ins = [offset] := by
  simp only [relativeTargets, h]

end Instruction

/-- An address operand leads to an instruction. -/
structure Script.Leads (script : Script) (ins : Instruction) (offset : Int) : Prop where
  nonneg : 0 ≤ (ins.pc : Int) + offset
  inside : ((ins.pc : Int) + offset).toNat < script.length
  boundary : script.isBoundary ((ins.pc : Int) + offset).toNat = true

/-- An operand leads to an instruction if all tests of validation pass. -/
theorem Script.leads_iff {script : Script} {ins : Instruction} {offset : Int} :
    script.Leads ins offset ↔ 0 ≤ (ins.pc : Int) + offset ∧
      ((ins.pc : Int) + offset).toNat < script.length ∧
      script.isBoundary ((ins.pc : Int) + offset).toNat = true :=
  ⟨fun h => ⟨h.nonneg, h.inside, h.boundary⟩, fun h => ⟨h.1, h.2.1, h.2.2⟩⟩

/-- No instruction begins behind the end of a script that was decoded, so its boundaries are
enough. -/
theorem Script.IsReading.leads_of_isBoundary {script : Script} {code : Code}
    (h : script.IsReading code)
    {ins : Instruction} {offset : Int} (hnonneg : 0 ≤ (ins.pc : Int) + offset)
    (hboundary : script.isBoundary ((ins.pc : Int) + offset).toNat = true) :
    script.Leads ins offset :=
  ⟨hnonneg, h.length_eq ▸ h.lt_of_isBoundary hboundary, hboundary⟩

/-- A reading all of whose address operands lead to instructions. -/
structure Script.IsValid (script : Script) (code : Code) : Prop extends script.IsReading code where
  leads : ∀ ins ∈ script.instructions.toList, ∀ offset ∈ relativeTargets ins,
    script.Leads ins offset

/-- Validation finds nothing if and only if every operand leads to an instruction. -/
theorem invalidTargets_eq_nil_iff {script : Script} :
    invalidTargets script = [] ↔
      ∀ ins ∈ script.instructions.toList, ∀ offset ∈ relativeTargets ins,
        script.Leads ins offset := by
  unfold invalidTargets
  rw [List.flatMap_eq_nil_iff]
  refine forall₂_congr fun ins _ => ?_
  unfold invalidTargetsOf
  rw [List.filterMap_eq_nil_iff]
  refine forall₂_congr fun offset _ => ?_
  rw [Script.leads_iff]
  dsimp only
  split <;> simp_all

/-- Validation accepts the scripts whose addresses lead to instructions, and only these. -/
theorem validateScript_eq_ok_iff {code : Code} {script : Script} :
    validateScript code = .ok script ↔ script.IsValid code := by
  unfold validateScript
  rw [Sequencing.bind_eq_ok]
  constructor
  · rintro ⟨decoded, hdecoded, h⟩
    split at h
    · rename_i hnil
      cases h
      exact ⟨Script.decode_eq_ok_iff.1 hdecoded, invalidTargets_eq_nil_iff.1 hnil⟩
    · cases h
  · intro h
    refine ⟨script, Script.decode_eq_ok_iff.2 h.toIsReading, ?_⟩
    rw [invalidTargets_eq_nil_iff.2 h.leads]
    rfl

end NeoScript
