import NeoScript.Proofs.Script.Layout
import NeoScript.Proofs.Sequencing

/-!
# Codec — reading an instruction and writing it

Reading and writing are inverse to one another: the instruction that begins at an address is the one
whose bytes stand there.

* `Instruction.Fits` — the operand has the form that the operation asks for, which is when an
  instruction can be written;
* `decodeAt_eq_ok_iff` — an instruction is read exactly where its bytes stand.
-/

namespace NeoScript

/-! ## Bytes -/

namespace Bytes

/-- Bytes are what is written for the number that they spell. -/
theorem ofNat_toNat (bytes : List UInt8) : ofNat bytes.length (toNat bytes) = bytes := by
  induction bytes with
  | nil => rfl
  | cons byte rest ih =>
      have hbyte := byte.toNat_lt
      have hdiv : (byte.toNat + 256 * toNat rest) / 256 = toNat rest := by omega
      have hmod : UInt8.ofNat (byte.toNat + 256 * toNat rest) = byte := by
        apply UInt8.toNat_inj.1
        rw [UInt8.toNat_ofNat']
        omega
      rw [List.length_cons, toNat, ofNat, hdiv, hmod, ih]

end Bytes

namespace Opcode

/-- The byte of the operation that a byte stands for is that byte. -/
theorem toByte_of_ofByte? {byte : UInt8} {op : Opcode} (h : ofByte? byte = some op) :
    op.toByte = byte := by
  have hall : ∀ n < 256, ∀ op ∈ ofByte? (UInt8.ofNat n), op.toByte = UInt8.ofNat n := by
    decide +kernel
  have hself : UInt8.ofNat byte.toNat = byte := by simp
  rw [← hself] at h ⊢
  exact hall byte.toNat byte.toNat_lt op h

end Opcode

/-! ## Writing -/

/-- The operand has the form that a layout asks for. -/
def OperandLayout.Fits (layout : OperandLayout) (operand : List UInt8) : Prop :=
  match layout with
  | .empty => operand = []
  | .fixed n => operand.length = n
  | .counted width => operand.length < Nat.pow 256 width.bytes

/-- The operand has the form that the operation asks for. -/
def Instruction.Fits (ins : Instruction) : Prop :=
  ins.op.layout.Fits ins.operand

def OperandLayout.bytes (layout : OperandLayout) (operand : List UInt8) : List UInt8 :=
  match layout with
  | .counted width => Bytes.ofNat width.bytes operand.length ++ operand
  | _ => operand

def Instruction.bytes (ins : Instruction) : List UInt8 :=
  ins.op.toByte :: ins.op.layout.bytes ins.operand

/-- An operand is written if it has the form of its layout. -/
theorem encodeOperand_eq_ok_iff {layout : OperandLayout} {operand bytes : List UInt8} :
    encodeOperand layout operand = .ok bytes ↔
      layout.Fits operand ∧ layout.bytes operand = bytes := by
  cases layout <;> simp only [encodeOperand, OperandLayout.Fits, OperandLayout.bytes]
  case empty => cases operand <;> simp
  case fixed n => split <;> simp_all
  case counted width =>
    by_cases h : operand.length < Nat.pow 256 width.bytes
    · simp only [h, if_true, true_and, Except.ok.injEq]
    · simp only [h, if_false, false_and, reduceCtorEq]

/-- An instruction is written if its operand has the right form. -/
theorem encodeOne_eq_ok_iff {ins : Instruction} {bytes : List UInt8} :
    encodeOne ins = .ok bytes ↔ ins.Fits ∧ ins.bytes = bytes := by
  unfold encodeOne Instruction.bytes
  cases h : encodeOperand ins.op.layout ins.operand with
  | error fault =>
      simp only [reduceCtorEq, false_iff, not_and]
      intro hfits
      have hok := encodeOperand_eq_ok_iff.2 ⟨hfits, rfl⟩
      rw [h] at hok
      cases hok
  | ok tail =>
      obtain ⟨hfits, htail⟩ := encodeOperand_eq_ok_iff.1 h
      rw [htail]
      simp only [Except.ok.injEq]
      exact ⟨fun h => ⟨hfits, h⟩, fun h => h.2⟩

theorem Instruction.Fits.length_bytes {ins : Instruction} (h : ins.Fits) :
    ins.bytes.length = ins.size := by
  unfold Instruction.Fits at h
  unfold Instruction.bytes Instruction.size Instruction.sizeOf
  revert h
  cases ins.op.layout <;> simp only [OperandLayout.Fits, OperandLayout.bytes] <;> intro h
  case empty => simp [h]
  case fixed n => simp [h, Nat.add_comm]
  case counted width =>
    simp only [List.length_cons, List.length_append, Bytes.length_ofNat]
    omega

/-! ## Reading -/

/-- The operand at the front of the bytes behind an opcode. -/
def OperandLayout.read? (layout : OperandLayout) (tail : List UInt8) : Option (List UInt8) :=
  match layout with
  | .empty => some []
  | .fixed n => if n ≤ tail.length then some (tail.take n) else none
  | .counted width =>
      let length := Bytes.toNat (tail.take width.bytes)
      if width.bytes + length ≤ tail.length then some ((tail.drop width.bytes).take length)
      else none

namespace OperandLayout

variable {tail operand : List UInt8}

/-- An operand of fixed size is the front of what follows. -/
theorem read?_fixed_eq_some_iff {n : Nat} :
    (fixed n).read? tail = some operand ↔ operand.length = n ∧ operand <+: tail := by
  simp only [read?]
  constructor
  · intro h
    split at h
    · rename_i hle
      cases h
      exact ⟨List.length_take_of_le hle, List.take_prefix n tail⟩
    · cases h
  · rintro ⟨rfl, hprefix⟩
    rw [if_pos hprefix.length_le, List.prefix_iff_eq_take.1 hprefix |>.symm]

/-- What is read behind its length was written behind it, and as long as that says. -/
theorem prefix_of_read?_counted {width : LengthWidth}
    (h : (counted width).read? tail = some operand) :
    operand.length < Nat.pow 256 width.bytes ∧
      Bytes.ofNat width.bytes operand.length ++ operand <+: tail := by
  simp only [read?] at h
  split at h
  · rename_i hle
    cases h
    have hwidth : (tail.take width.bytes).length = width.bytes := by
      rw [List.length_take]
      omega
    have hlength : ((tail.drop width.bytes).take (Bytes.toNat (tail.take width.bytes))).length =
        Bytes.toNat (tail.take width.bytes) := by
      rw [List.length_take, List.length_drop]
      omega
    refine ⟨?_, ?_⟩
    · have hlt := Bytes.toNat_lt (tail.take width.bytes)
      rw [hwidth] at hlt
      rwa [hlength]
    · have hself := Bytes.ofNat_toNat (tail.take width.bytes)
      rw [hwidth] at hself
      rw [hlength, hself, ← List.take_add]
      exact List.take_prefix _ tail
  · cases h

/-- An operand behind its length is read if it is there. -/
theorem read?_counted_eq_some {width : LengthWidth} (hlt : operand.length < Nat.pow 256 width.bytes)
    (hfront : Bytes.ofNat width.bytes operand.length ++ operand <+: tail) :
    (counted width).read? tail = some operand := by
  obtain ⟨rest, rfl⟩ := hfront
  have hwidth : ((Bytes.ofNat width.bytes operand.length ++ operand) ++ rest).take width.bytes =
      Bytes.ofNat width.bytes operand.length := by
    rw [List.append_assoc, List.take_left' (Bytes.length_ofNat _ _)]
  have hdrop : ((Bytes.ofNat width.bytes operand.length ++ operand) ++ rest).drop width.bytes =
      operand ++ rest := by
    rw [List.append_assoc, List.drop_left' (Bytes.length_ofNat _ _)]
  simp only [read?]
  rw [hwidth, hdrop, Bytes.toNat_ofNat, Nat.mod_eq_of_lt hlt, List.take_left' rfl, if_pos]
  simp only [List.length_append, Bytes.length_ofNat]
  omega

/-- An operand is read exactly if it has the form of its layout and its bytes are in front. -/
theorem read?_eq_some_iff {layout : OperandLayout} :
    layout.read? tail = some operand ↔ layout.Fits operand ∧ layout.bytes operand <+: tail := by
  cases layout with
  | empty =>
      simp only [read?, Fits, bytes, Option.some.injEq]
      constructor
      · rintro rfl
        exact ⟨rfl, List.nil_prefix⟩
      · rintro ⟨rfl, _⟩
        rfl
  | fixed n => exact read?_fixed_eq_some_iff
  | counted width => exact ⟨prefix_of_read?_counted, fun h => read?_counted_eq_some h.1 h.2⟩

end OperandLayout

/-- Where an opcode stands, reading gives the operand behind it. -/
theorem decodeAt_of_getElem? {code : Code} {pc : Nat} {byte : UInt8} {op : Opcode}
    (hbyte : code[pc]? = some byte) (hop : Opcode.ofByte? byte = some op) (ins : Instruction) :
    decodeAt code pc = .ok ins ↔
      (op.layout.read? (code.toList.drop (pc + 1))).map (Instruction.mk pc op) = some ins := by
  have hslice : ∀ start count : Nat, (code.extract start (start + count)).toList =
      (code.toList.drop start).take count := by
    intro start count
    rw [Array.toList_extract, List.extract_eq_take_drop, Nat.add_sub_cancel_left]
  have hremaining : code.size - (pc + 1) = (code.toList.drop (pc + 1)).length := by
    rw [List.length_drop, Array.length_toList]
  simp only [decodeAt, hbyte, hop]
  cases op.layout with
  | empty => simp [OperandLayout.read?]
  | fixed n =>
      simp only [OperandLayout.read?, hslice, hremaining]
      split <;> simp
  | counted width =>
      simp only [OperandLayout.read?, hslice, hremaining, ← List.drop_drop]
      split
      · split <;> simp
      · rename_i hle
        rw [if_neg (by omega)]
        simp

/-- An instruction is read exactly where its bytes stand. -/
theorem decodeAt_eq_ok_iff {code : Code} {pc : Nat} {ins : Instruction} :
    decodeAt code pc = .ok ins ↔
      ins.pc = pc ∧ ins.Fits ∧ ins.bytes <+: code.toList.drop pc := by
  cases hbyte : code[pc]? with
  | none =>
      have hdrop : code.toList.drop pc = [] := by
        rw [List.drop_eq_nil_iff, Array.length_toList]
        simpa using hbyte
      simp [decodeAt, hbyte, hdrop, Instruction.bytes]
  | some byte =>
      have hdrop : code.toList.drop pc = byte :: code.toList.drop (pc + 1) := by
        obtain ⟨hlt, hget⟩ := Array.getElem?_eq_some_iff.1 hbyte
        rw [List.drop_eq_getElem_cons (by simpa using hlt), Array.getElem_toList, hget]
      rw [hdrop, Instruction.bytes, List.cons_prefix_cons]
      -- The first byte decides the operation, and the operation how its operand is read.
      cases hop : Opcode.ofByte? byte with
      | none =>
          have hne : ins.op.toByte ≠ byte := by
            rintro rfl
            rw [Opcode.ofByte?_toByte] at hop
            cases hop
          simp [decodeAt, hbyte, hop, hne]
      | some op =>
          rw [decodeAt_of_getElem? hbyte hop, Option.map_eq_some_iff]
          obtain ⟨pc', op', operand⟩ := ins
          constructor
          · rintro ⟨_, hread, hins⟩
            cases hins
            obtain ⟨hfits, hprefix⟩ := OperandLayout.read?_eq_some_iff.1 hread
            exact ⟨rfl, hfits, Opcode.toByte_of_ofByte? hop, hprefix⟩
          · rintro ⟨rfl, hfits, rfl, hprefix⟩
            rw [Opcode.ofByte?_toByte] at hop
            cases hop
            exact ⟨operand, OperandLayout.read?_eq_some_iff.2 ⟨hfits, hprefix⟩, rfl⟩

end NeoScript
