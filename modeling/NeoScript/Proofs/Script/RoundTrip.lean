import NeoScript.Proofs.Script.Reading

/-!
# RoundTrip — codes are what instructions spell

* `Instruction.text` — an instruction without its address, which is all that is written;
* `exists_placed_text` — instructions can be placed without changing what they spell;
* `Script.IsReading.encode_eq` — a code is what its reading spells;
* `decode_encode_inverse` — reading and writing are inverse to one another.
-/

namespace NeoScript

/-! ## Writing ignores addresses -/

def Instruction.text (ins : Instruction) : Opcode × List UInt8 :=
  (ins.op, ins.operand)

section Text

variable {xs ys : List Instruction}

/-- Instructions can be placed without changing what they spell. -/
theorem exists_placed_text (start : Nat) (xs : List Instruction) :
    ∃ ys, Placed start ys ∧ ys.map Instruction.text = xs.map Instruction.text := by
  induction xs generalizing start with
  | nil => exact ⟨[], trivial, rfl⟩
  | cons ins xs ih =>
      obtain ⟨ys, hplaced, htext⟩ := ih (start + ins.size)
      refine ⟨{ ins with pc := start } :: ys, ⟨rfl, hplaced⟩, ?_⟩
      rw [List.map_cons, List.map_cons, htext]
      rfl

theorem totalSize_of_text (h : ys.map Instruction.text = xs.map Instruction.text) :
    totalSize ys = totalSize xs := by
  have hsize : ∀ zs : List Instruction, totalSize zs =
      ((zs.map Instruction.text).map fun text => Instruction.sizeOf text.1 text.2).sum := by
    intro zs
    rw [totalSize_eq_sum, List.map_map]
    rfl
  rw [hsize, h, ← hsize]

/-- Addresses are not written. -/
theorem encode_of_text (h : ys.map Instruction.text = xs.map Instruction.text) {code : Code} :
    encode ys = .ok code ↔ encode xs = .ok code := by
  have hspelled : ∀ zs : List Instruction, encode zs = .ok code ↔
      (∀ text ∈ zs.map Instruction.text, text.1.layout.Fits text.2) ∧
        code.toList = (zs.map Instruction.text).flatMap fun text =>
          text.1.toByte :: text.1.layout.bytes text.2 := by
    intro zs
    rw [encode_eq_ok_iff, List.forall_mem_map, List.flatMap_map]
    rfl
  rw [hspelled, h, ← hspelled]

end Text

/-! ## Reading and writing -/

/-- What can be read from an address to the end is what stands there. -/
theorem flatMap_bytes_of_placed {code : Code} {pc : Nat} {xs : List Instruction}
    (hplaced : Placed pc xs)
    (hend : pc + totalSize xs = code.size) (hall : ∀ ins ∈ xs, decodeAt code ins.pc = .ok ins) :
    xs.flatMap (·.bytes) = code.toList.drop pc := by
  induction xs generalizing pc with
  | nil =>
      rw [totalSize_nil] at hend
      rw [List.flatMap_nil, List.drop_eq_nil_of_le (by rw [Array.length_toList]; omega)]
  | cons ins xs ih =>
      rw [List.forall_mem_cons] at hall
      obtain ⟨hpc, hrest⟩ := hplaced
      -- The first instruction spells the bytes at its address, as many as its size.
      obtain ⟨-, hfits, back, hback⟩ := decodeAt_eq_ok_iff.1 hall.1
      rw [totalSize_cons] at hend
      rw [List.flatMap_cons, ih hrest (by omega) hall.2, ← List.drop_drop, ← hpc, ← hback,
        ← hfits.length_bytes, List.drop_left]

/-- A code is what its reading spells. -/
theorem Script.IsReading.encode_eq {script : Script} {code : Code} (h : script.IsReading code) :
    encode script.instructions.toList = .ok code := by
  refine encode_eq_ok_iff.2 ⟨fun ins hins => h.fits hins, ?_⟩
  rw [flatMap_bytes_of_placed h.placed (by rw [Nat.zero_add, h.size]) h.decoded, List.drop_zero]

/-- Instructions can be written if each has the right form. -/
theorem exists_encode_iff {xs : List Instruction} :
    (∃ code, encode xs = .ok code) ↔ ∀ ins ∈ xs, ins.Fits := by
  constructor
  · rintro ⟨code, h⟩
    exact (encode_eq_ok_iff.1 h).1
  · intro hfits
    exact ⟨(xs.flatMap (·.bytes)).toArray, encode_eq_ok_iff.2 ⟨hfits, rfl⟩⟩

/-- What was written is read again, with addresses. -/
theorem exists_decode_of_encode {xs : List Instruction} {code : Code} (h : encode xs = .ok code) :
    ∃ script, Script.decode code = .ok script ∧ Placed 0 script.instructions.toList ∧
      script.instructions.toList.map Instruction.text = xs.map Instruction.text := by
  -- Any addresses will do for writing, but only consecutive ones can be read.
  obtain ⟨ys, hplaced, htext⟩ := exists_placed_text 0 xs
  have hread := Script.isReading_of_encode hplaced ((encode_of_text htext).2 h)
  exact ⟨_, Script.decode_eq_ok_iff.2 hread, hplaced, htext⟩

/-- Reading and writing are inverse to one another: what can be written is read as the same
instructions at their addresses, and what can be read is written as the same bytes. -/
theorem decode_encode_inverse (xs : List Instruction) (code : Code) :
    ((∃ written, encode xs = .ok written) ↔ ∀ ins ∈ xs, ins.Fits) ∧
    (encode xs = .ok code → ∃ script, Script.decode code = .ok script ∧
      script.instructions.toList.map Instruction.text = xs.map Instruction.text ∧
      (∀ k ins, script.instructions[k]? = some ins →
        ins.pc = ((xs.take k).map Instruction.size).sum) ∧
      script.length = code.size) ∧
    (∀ script, Script.decode code = .ok script → encode script.instructions.toList = .ok code) ∧
    ((∃ script, Script.decode code = .ok script) ↔ ∃ ys, encode ys = .ok code) := by
  refine ⟨exists_encode_iff, ?_, ?_, ?_⟩
  · intro h
    obtain ⟨script, hdecode, hplaced, htext⟩ := exists_decode_of_encode h
    refine ⟨script, hdecode, htext, ?_, (Script.decode_eq_ok_iff.1 hdecode).length_eq⟩
    intro k ins hins
    rw [← Array.getElem?_toList] at hins
    obtain ⟨hk, rfl⟩ := List.getElem?_eq_some_iff.1 hins
    have htake : (script.instructions.toList.take k).map Instruction.text =
        (xs.take k).map Instruction.text := by
      rw [List.map_take, List.map_take, htext]
    rw [hplaced.getElem_pc hk, Nat.zero_add, totalSize_of_text htake, totalSize_eq_sum]
  · intro script hdecode
    exact (Script.decode_eq_ok_iff.1 hdecode).encode_eq
  · constructor
    · rintro ⟨script, hdecode⟩
      exact ⟨_, (Script.decode_eq_ok_iff.1 hdecode).encode_eq⟩
    · rintro ⟨ys, hencode⟩
      obtain ⟨script, hdecode, -⟩ := exists_decode_of_encode hencode
      exact ⟨script, hdecode⟩

/-- An operand of fixed length, a counted one and a jump back to the first instruction. -/
theorem decode_encode_inverse_jump : ∃ script,
    encode [.unplaced (.pushInt .w2) [0x34, 0x12], .pushData [7, 8, 9],
      .unplaced (.jump .always .short) [0xF8]] =
        .ok #[0x01, 0x34, 0x12, 0x0C, 0x03, 0x07, 0x08, 0x09, 0x22, 0xF8] ∧
    Script.decode #[0x01, 0x34, 0x12, 0x0C, 0x03, 0x07, 0x08, 0x09, 0x22, 0xF8] = .ok script ∧
    script.instructions.toList.map Instruction.text =
      [(.pushInt .w2, [0x34, 0x12]), (.pushData .w1, [7, 8, 9]), (.jump .always .short, [0xF8])] ∧
    script.length = 10 := by
  have hencode : encode [.unplaced (.pushInt .w2) [0x34, 0x12], .pushData [7, 8, 9],
      .unplaced (.jump .always .short) [0xF8]] =
        .ok #[0x01, 0x34, 0x12, 0x0C, 0x03, 0x07, 0x08, 0x09, 0x22, 0xF8] := by
    decide
  obtain ⟨script, hdecode, htext, -, hlength⟩ := (decode_encode_inverse _ _).2.1 hencode
  exact ⟨script, hencode, hdecode, htext, hlength⟩

end NeoScript
