import NeoScript.Arithmetic
import NeoScript.Proofs.Script.Codec

/-!
# Arithmetic — pushes say what they push

* `Bytes.toInt_ofInt` — signed numbers read back from their bytes;
* `Bytes.fitsSigned_signedWidth` — the fewest bytes are enough;
* `Instruction.smallestPush?_spec` — a chosen push leaves its value on the stack;
* `Instruction.exists_smallestPush?` — every integer of the machine has one;
* `Instruction.size_smallestPush?_le` — and no other push of it is shorter.
-/

namespace NeoScript

/-! ## Signed numbers -/

namespace Bytes

theorem pow_256 (width : Nat) : Nat.pow 256 width = Nat.pow 2 (8 * width) := by
  change 256 ^ width = 2 ^ (8 * width)
  rw [Nat.pow_mul]

/-- Half of the numbers of a width are negative. -/
theorem pow_256_eq_two_mul {width : Nat} (hpos : 0 < width) :
    Nat.pow 256 width = 2 * Nat.pow 2 (8 * width - 1) := by
  rw [pow_256]
  change 2 ^ (8 * width) = 2 * 2 ^ (8 * width - 1)
  rw [← Nat.pow_succ', show (8 * width - 1).succ = 8 * width by omega]

/-- Signed numbers of `width` bytes lie between the powers of two, the upper one excluded. -/
theorem fitsSigned_iff {width : Nat} {value : Int} :
    fitsSigned width value = true ↔
      -(Nat.pow 2 (8 * width - 1) : Int) ≤ value ∧ value < (Nat.pow 2 (8 * width - 1) : Int) := by
  simp only [fitsSigned, Bool.and_eq_true, decide_eq_true_eq]

theorem fitsSigned_mono {width width' : Nat} {value : Int} (h : fitsSigned width value = true)
    (hle : width ≤ width') : fitsSigned width' value = true := by
  rw [fitsSigned_iff] at h ⊢
  have hpow : Nat.pow 2 (8 * width - 1) ≤ Nat.pow 2 (8 * width' - 1) :=
    Nat.pow_le_pow_right (by decide) (by omega)
  omega

/-- A signed number that fits reads back from its bytes. -/
theorem toInt_ofInt {width : Nat} {value : Int} (hpos : 0 < width)
    (h : fitsSigned width value = true) : toInt (ofInt width value) = value := by
  rw [fitsSigned_iff] at h
  unfold toInt ofInt
  rw [toNat_ofNat, length_ofNat, pow_256_eq_two_mul hpos]
  generalize Nat.pow 2 (8 * width - 1) = half at *
  -- The remainder is the number itself, or the number of the next period.
  by_cases hneg : value < 0
  · have hmod : value % ((2 * half : Nat) : Int) = value + (2 * half : Nat) := by
      rw [← Int.add_emod_right, Int.emod_eq_of_lt (by omega) (by omega)]
    rw [hmod, Nat.mod_eq_of_lt (by omega), if_neg (by omega)]
    omega
  · have hmod : value % ((2 * half : Nat) : Int) = value :=
      Int.emod_eq_of_lt (by omega) (by omega)
    rw [hmod, Nat.mod_eq_of_lt (by omega), if_pos (by omega)]
    omega

/-- Bytes spell a signed number that fits them. -/
theorem fitsSigned_toInt {bytes : List UInt8} (hpos : 0 < bytes.length) :
    fitsSigned bytes.length (toInt bytes) = true := by
  have hlt := toNat_lt bytes
  rw [fitsSigned_iff]
  unfold toInt
  rw [pow_256_eq_two_mul hpos] at hlt ⊢
  generalize Nat.pow 2 (8 * bytes.length - 1) = half at *
  dsimp only
  split
  · omega
  · omega

/-- The search ends at a width that is large enough, if there is one within its fuel. -/
theorem fitsSigned_signedWidthFrom {fuel width : Nat} {value : Int}
    (h : fitsSigned (width + fuel) value = true) :
    fitsSigned (signedWidthFrom fuel width value) value = true := by
  induction fuel generalizing width with
  | zero => exact h
  | succ fuel ih =>
      unfold signedWidthFrom
      split
      · assumption
      · exact ih (by rwa [Nat.add_assoc, Nat.add_comm 1 fuel])

/-- The search passes no width that is large enough. -/
theorem signedWidthFrom_le {fuel width bound : Nat} {value : Int} (hle : width ≤ bound)
    (h : fitsSigned bound value = true) : signedWidthFrom fuel width value ≤ bound := by
  induction fuel generalizing width with
  | zero => exact hle
  | succ fuel ih =>
      unfold signedWidthFrom
      split
      · exact hle
      · rename_i hnot
        have hne : width ≠ bound := by
          rintro rfl
          exact hnot h
        exact ih (by omega)

/-- The fewest bytes that hold a number hold it. -/
theorem fitsSigned_signedWidth (value : Int) : fitsSigned (signedWidth value) value = true := by
  refine fitsSigned_signedWidthFrom ?_
  rw [fitsSigned_iff]
  have hlog : value.natAbs < 2 ^ (value.natAbs.log2 + 1) := Nat.lt_log2_self
  have hpow : 2 ^ (value.natAbs.log2 + 1) ≤
      Nat.pow 2 (8 * (1 + (value.natAbs.log2 / 8 + 1)) - 1) :=
    Nat.pow_le_pow_right (by decide) (by omega)
  omega

theorem signedWidth_le {bound : Nat} {value : Int} (hpos : 0 < bound)
    (h : fitsSigned bound value = true) : signedWidth value ≤ bound :=
  signedWidthFrom_le hpos h

theorem le_signedWidthFrom (fuel width : Nat) (value : Int) :
    width ≤ signedWidthFrom fuel width value := by
  induction fuel generalizing width with
  | zero => exact Nat.le_refl _
  | succ fuel ih =>
      unfold signedWidthFrom
      split
      · exact Nat.le_refl _
      · exact Nat.le_of_succ_le (ih _)

/-! ### Repeated signs -/

/-- The bytes of a number are those of its low part followed by those of its high part. -/
theorem ofNat_append (low high n : Nat) :
    ofNat (low + high) n = ofNat low n ++ ofNat high (n / Nat.pow 256 low) := by
  induction low generalizing n with
  | zero => simp [ofNat]
  | succ low ih =>
      have hpow : Nat.pow 256 (low + 1) = 256 * Nat.pow 256 low := Nat.mul_comm ..
      rw [Nat.succ_add, ofNat, ofNat, ih, hpow, Nat.div_div_eq_div_mul, List.cons_append]

theorem ofNat_mod (width n : Nat) : ofNat width (n % Nat.pow 256 width) = ofNat width n := by
  induction width generalizing n with
  | zero => rfl
  | succ width ih =>
      have hpow : Nat.pow 256 (width + 1) = 256 * Nat.pow 256 width := Nat.mul_comm ..
      have hrest : n % (256 * Nat.pow 256 width) / 256 = n / 256 % Nat.pow 256 width :=
        Nat.mod_mul_right_div_self ..
      have hbyte : UInt8.ofNat (n % (256 * Nat.pow 256 width)) = UInt8.ofNat n := by
        apply UInt8.toNat_inj.1
        rw [UInt8.toNat_ofNat', UInt8.toNat_ofNat']
        exact Nat.mod_mul_right_mod ..
      rw [ofNat, ofNat, hpow, hrest, ih, hbyte]

theorem ofNat_zero (width : Nat) : ofNat width 0 = List.replicate width 0 := by
  induction width with
  | zero => rfl
  | succ width ih => rw [ofNat, Nat.zero_div, ih]; rfl

/-- The greatest number of a width is written in bytes of ones, as a sign is repeated. -/
theorem ofNat_pow_sub_one (width : Nat) :
    ofNat width (Nat.pow 256 width - 1) = List.replicate width 0xFF := by
  induction width with
  | zero => rfl
  | succ width ih =>
      have hpow : Nat.pow 256 (width + 1) = 256 * Nat.pow 256 width := Nat.mul_comm ..
      have hpos : 0 < Nat.pow 256 width := Nat.pow_pos (by decide)
      have hrest : (256 * Nat.pow 256 width - 1) / 256 = Nat.pow 256 width - 1 := by omega
      have hbyte : UInt8.ofNat (256 * Nat.pow 256 width - 1) = 0xFF := by
        apply UInt8.toNat_inj.1
        rw [UInt8.toNat_ofNat']
        change _ = 255
        omega
      rw [ofNat, hpow, hrest, ih, hbyte]
      rfl

/-- The bytes of a signed number are those of any unsigned one that differs by a multiple of their
range. -/
theorem ofInt_eq_ofNat {width : Nat} {value : Int} (n : Nat)
    (h : (Nat.pow 256 width : Int) ∣ (n : Int) - value) : ofInt width value = ofNat width n := by
  have hmod : value % (Nat.pow 256 width : Int) = ((n % Nat.pow 256 width : Nat) : Int) := by
    rw [Int.natCast_emod]
    exact (Int.emod_eq_emod_iff_emod_sub_eq_zero.2 (Int.emod_eq_zero_of_dvd h)).symm
  rw [ofInt, hmod, Int.toNat_natCast, ofNat_mod]

/-- A number that fits is spelled in more bytes by repeating its sign behind the last one. -/
theorem ofInt_add {width : Nat} {value : Int} (extra : Nat) (hpos : 0 < width)
    (h : fitsSigned width value = true) :
    ofInt (width + extra) value =
      ofInt width value ++ List.replicate extra (if value < 0 then 0xFF else 0x00) := by
  have hpow : Nat.pow 256 (width + extra) = Nat.pow 256 width * Nat.pow 256 extra := Nat.pow_add ..
  have hhalf := pow_256_eq_two_mul hpos
  rw [fitsSigned_iff] at h
  split
  · -- The unsigned number has every bit above the narrow range.
    obtain ⟨low, hlow⟩ : ∃ low : Nat, (low : Int) = value + (Nat.pow 256 width : Nat) :=
      ⟨_, Int.toNat_of_nonneg (by omega)⟩
    obtain ⟨high, hhigh⟩ : ∃ high, Nat.pow 256 extra = high + 1 :=
      ⟨_, (Nat.succ_pred_eq_of_pos (Nat.pow_pos (by decide))).symm⟩
    have hwide :
        (Nat.pow 256 (width + extra) : Int) ∣ (Nat.pow 256 width * high + low : Nat) - value := by
      refine ⟨1, ?_⟩
      rw [hpow, hhigh]
      push_cast
      rw [hlow, Int.mul_add]
      omega
    have hnarrow : (Nat.pow 256 width : Int) ∣ (Nat.pow 256 width * high + low : Nat) - value := by
      refine ⟨high + 1, ?_⟩
      push_cast
      rw [hlow, Int.mul_add]
      omega
    have hdiv : (Nat.pow 256 width * high + low) / Nat.pow 256 width = Nat.pow 256 extra - 1 := by
      rw [Nat.mul_add_div (by omega), Nat.div_eq_of_lt (by omega), hhigh]
      rfl
    rw [ofInt_eq_ofNat _ hwide, ofInt_eq_ofNat _ hnarrow, ofNat_append, hdiv, ofNat_pow_sub_one]
  · -- The unsigned number is the number itself.
    obtain ⟨n, rfl⟩ : ∃ n : Nat, value = n := ⟨_, (Int.toNat_of_nonneg (by omega)).symm⟩
    have hdiv : n / Nat.pow 256 width = 0 := Nat.div_eq_of_lt (by omega)
    rw [ofInt_eq_ofNat n (by simp), ofInt_eq_ofNat n (by simp), ofNat_append, hdiv, ofNat_zero]

@[simp] theorem length_ofSigned (value : Int) : (ofSigned value).length = signedWidth value :=
  length_ofNat ..

theorem signedWidth_pos (value : Int) : 0 < signedWidth value :=
  le_signedWidthFrom ..

/-- The fewest bytes, filled up with the sign, are the bytes of the wider operand. -/
theorem resize_ofSigned {width : Nat} {value : Int} (h : signedWidth value ≤ width) :
    resize width (if value < 0 then 0xFF else 0x00) (ofSigned value) = ofInt width value := by
  obtain ⟨extra, rfl⟩ := Nat.exists_eq_add_of_le h
  rw [ofInt_add extra (signedWidth_pos value) (fitsSigned_signedWidth value), resize,
    length_ofSigned, Nat.add_sub_cancel_left, List.take_of_length_le (by simp)]
  rfl

end Bytes

/-! ## Pushes -/

/-- The integers of the machine are those of 32 bytes. -/
theorem Integer.inRange_eq_fitsSigned (value : Int) :
    Integer.inRange value = Bytes.fitsSigned 32 value := by
  rw [Bool.eq_iff_iff, Bytes.fitsSigned_iff]
  simp only [Integer.inRange, Bool.and_eq_true, decide_eq_true_eq]
  exact and_congr_right fun _ => Int.le_sub_one_iff

namespace Instruction

theorem intWidthFor?_spec {count : Nat} {width : IntWidth} (h : intWidthFor? count = some width) :
    count ≤ width.bytes := by
  unfold intWidthFor? at h
  repeat' split at h
  all_goals cases h
  all_goals simpa [IntWidth.bytes]

/-- No narrower width is enough. -/
theorem intWidthFor?_least {count : Nat} {width other : IntWidth}
    (h : intWidthFor? count = some width)
    (hle : count ≤ other.bytes) : width.bytes ≤ other.bytes := by
  unfold intWidthFor? at h
  repeat' split at h
  all_goals cases h
  all_goals cases other <;> simp only [IntWidth.bytes] at hle ⊢ <;> omega

/-- Up to thirty-two bytes there is a width. -/
theorem exists_intWidthFor? {count : Nat} (h : count ≤ 32) :
    ∃ width, intWidthFor? count = some width := by
  unfold intWidthFor?
  repeat' split
  all_goals exact ⟨_, rfl⟩

theorem pushSmall?_spec {n : Nat} {op : Opcode} (h : Opcode.pushSmall? n = some op) :
    ∃ k : Fin 17, op = .pushSmall k ∧ k.val = n := by
  unfold Opcode.pushSmall? at h
  split at h
  · cases h
    exact ⟨_, rfl, rfl⟩
  · cases h

/-- The operand that is filled up with the sign is the integer in as many bytes. -/
theorem smallestPush?_eq (value : Int) :
    smallestPush? value =
      if value = -1 then some (simple .pushMinusOne)
      else
        match if 0 ≤ value ∧ value ≤ 255 then Opcode.pushSmall? value.toNat else none with
        | some op => some (simple op)
        | none =>
            (intWidthFor? (Bytes.signedWidth value)).map fun width =>
              unplaced (.pushInt width) (Bytes.ofInt width.bytes value) := by
  have hwide : (do
      let width ← intWidthFor? (Bytes.ofSigned value).length
      return unplaced (.pushInt width)
        (Bytes.resize width.bytes (if value < 0 then 0xFF else 0x00) (Bytes.ofSigned value))) =
      (intWidthFor? (Bytes.signedWidth value)).map fun width =>
        unplaced (.pushInt width) (Bytes.ofInt width.bytes value) := by
    rw [Bytes.length_ofSigned]
    cases hwidth : intWidthFor? (Bytes.signedWidth value) with
    | none => rfl
    | some width =>
        rw [Option.bind_eq_bind, Option.bind_some, Bytes.resize_ofSigned (intWidthFor?_spec hwidth)]
        rfl
  rw [← hwide]
  rfl

/-- A push that was chosen for a value pushes it and has the right form. -/
theorem smallestPush?_spec {value : Int} {push : Instruction}
    (h : smallestPush? value = some push) :
    push.pushedInteger? = some value ∧ push.op.isIntPush = true ∧ push.Fits := by
  rw [smallestPush?_eq] at h
  split at h
  · rename_i hvalue
    cases h
    exact ⟨by simp [pushedInteger?, simple, unplaced, hvalue], rfl, rfl⟩
  · split at h
    · rename_i op hop
      cases h
      split at hop
      · rename_i hnonneg
        obtain ⟨k, rfl, hk⟩ := pushSmall?_spec hop
        refine ⟨?_, rfl, rfl⟩
        simp only [pushedInteger?, simple, unplaced, Option.some.injEq]
        omega
      · cases hop
    · obtain ⟨width, hwidth, rfl⟩ := Option.map_eq_some_iff.1 h
      have hfits := Bytes.fitsSigned_mono (Bytes.fitsSigned_signedWidth value)
        (intWidthFor?_spec hwidth)
      have hpos : 0 < width.bytes := by cases width <;> decide
      refine ⟨?_, rfl, ?_⟩
      · simp only [pushedInteger?, unplaced, Option.some.injEq]
        exact Bytes.toInt_ofInt hpos hfits
      · simp [Fits, unplaced, Opcode.layout, OperandLayout.Fits, Bytes.ofInt]

/-- What an integer push of the right form pushes fits the bytes of its operand. -/
theorem fitsSigned_of_pushInt {ins : Instruction} {width : IntWidth} (hop : ins.op = .pushInt width)
    (hfits : ins.Fits) : Bytes.fitsSigned width.bytes (Bytes.toInt ins.operand) = true := by
  have hlength : ins.operand.length = width.bytes := by
    simpa [Fits, hop, Opcode.layout, OperandLayout.Fits] using hfits
  have hpos : 0 < width.bytes := by cases width <;> decide
  rw [← hlength] at hpos ⊢
  exact Bytes.fitsSigned_toInt hpos

/-- No instruction of the right form that pushes the same value is shorter. -/
theorem size_smallestPush?_le {value : Int} {push other : Instruction}
    (h : smallestPush? value = some push)
    (hfits : other.Fits) (hother : other.pushedInteger? = some value) : push.size ≤ other.size := by
  rw [smallestPush?_eq] at h
  split at h
  · cases h
    exact other.size_pos
  · rename_i hminus
    split at h
    · rename_i op hop
      cases h
      split at hop
      · obtain ⟨k, rfl, -⟩ := pushSmall?_spec hop
        exact other.size_pos
      · cases hop
    · rename_i hsmall
      obtain ⟨width, hwidth, rfl⟩ := Option.map_eq_some_iff.1 h
      -- The value has no push of one byte, so the other push has an operand that holds it.
      cases hop : other.op with
      | pushMinusOne =>
          simp only [pushedInteger?, hop, Option.some.injEq] at hother
          exact absurd hother.symm hminus
      | pushSmall k =>
          simp only [pushedInteger?, hop, Option.some.injEq] at hother
          subst hother
          rw [if_pos (by omega)] at hsmall
          simp [Opcode.pushSmall?] at hsmall
      | pushInt width' =>
          simp only [pushedInteger?, hop, Option.some.injEq] at hother
          have hholds := fitsSigned_of_pushInt hop hfits
          rw [hother] at hholds
          have hpos : 0 < width'.bytes := by cases width' <;> decide
          have hle := intWidthFor?_least hwidth (Bytes.signedWidth_le hpos hholds)
          simp only [size, sizeOf, unplaced, hop, Opcode.layout]
          omega
      | _ => simp [pushedInteger?, hop] at hother

/-- The machine can hold what an instruction of the right form pushes. -/
theorem inRange_of_pushedInteger? {ins : Instruction} {value : Int} (hfits : ins.Fits)
    (h : ins.pushedInteger? = some value) : Integer.inRange value = true := by
  cases hop : ins.op with
  | pushMinusOne =>
      simp only [pushedInteger?, hop, Option.some.injEq] at h
      subst h
      decide +kernel
  | pushSmall n =>
      simp only [pushedInteger?, hop, Option.some.injEq] at h
      have hall : ∀ n : Fin 17, Integer.inRange (n.val : Int) = true := by decide +kernel
      exact h ▸ hall n
  | pushInt width =>
      simp only [pushedInteger?, hop, Option.some.injEq] at h
      have hwidth : width.bytes ≤ 32 := by cases width <;> decide
      rw [← h, Integer.inRange_eq_fitsSigned]
      exact Bytes.fitsSigned_mono (fitsSigned_of_pushInt hop hfits) hwidth
  | _ => simp [pushedInteger?, hop] at h

/-- Every integer of the machine can be pushed. -/
theorem exists_smallestPush? {value : Int} (h : Integer.inRange value = true) :
    ∃ push, smallestPush? value = some push := by
  rw [Integer.inRange_eq_fitsSigned] at h
  obtain ⟨width, hwidth⟩ := exists_intWidthFor? (Bytes.signedWidth_le (by decide) h)
  rw [smallestPush?_eq]
  split
  · exact ⟨_, rfl⟩
  · split
    · exact ⟨_, rfl⟩
    · exact ⟨_, by rw [hwidth]; rfl⟩

/-- The numbers of elements of fused arrays can be pushed. -/
theorem exists_smallestPush?_natCast {n : Nat} (h : n ≤ 1024) :
    ∃ push, smallestPush? (n : Int) = some push := by
  have hpow : (1025 : Int) ≤ (Nat.pow 2 255 : Nat) := by decide +kernel
  refine exists_smallestPush? (Bool.and_eq_true_iff.2 ⟨decide_eq_true ?_, decide_eq_true ?_⟩)
  · unfold Integer.minimum
    omega
  · unfold Integer.maximum
    omega

end Instruction

end NeoScript
