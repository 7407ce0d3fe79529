import NeoScript.Proofs.Sequencing
import NeoScript.Text.Utf8

/-!
# Utf8 — every text has one spelling

* `Utf8.tailCount`, `Utf8.leadByte`, `Utf8.tailBytes` — the bytes of a character, digit by digit;
* `Utf8.readChar_eq_some_iff` — a character is read from its bytes, and from no others;
* `Utf8.decode?_eq_some_iff` — bytes are a text exactly if they are its encoding;
* `Utf8.zero_mem_encode_iff` — a zero byte spells a zero character.
-/

namespace NeoScript
namespace Utf8

/-! ## The bytes of a character -/

def tailCount (n : Nat) : Nat :=
  if n < 0x80 then 0 else if n < 0x800 then 1 else if n < 0x10000 then 2 else 3

def leadByte (n : Nat) : Nat :=
  if n < 0x80 then n
  else if n < 0x800 then 0xC0 + n / 64
  else if n < 0x10000 then 0xE0 + n / 4096
  else 0xF0 + n / 262144

/-- The bytes that follow: six bits each, the highest first. -/
def tailBytes : (count : Nat) → Nat → List UInt8
  | 0, _ => []
  | count + 1, n => UInt8.ofNat (0x80 + n / Nat.pow 64 count % 64) :: tailBytes count n

/-- A character is written as a leading byte and as many bytes as this tells. -/
theorem encodeChar_eq (c : Char) :
    encodeChar c = UInt8.ofNat (leadByte c.toNat) :: tailBytes (tailCount c.toNat) c.toNat := by
  by_cases h₁ : c.toNat < 0x80
  · simp [encodeChar, leadByte, tailCount, tailBytes, h₁]
  by_cases h₂ : c.toNat < 0x800
  · simp [encodeChar, leadByte, tailCount, tailBytes, h₁, h₂]
  by_cases h₃ : c.toNat < 0x10000
  · simp [encodeChar, leadByte, tailCount, tailBytes, h₁, h₂, h₃]
  · simp [encodeChar, leadByte, tailCount, tailBytes, h₁, h₂, h₃]

/-! ## Reading a character -/

theorem toNat_ofNat {n : Nat} (h : n.isValidChar) : (Char.ofNat n).toNat = n := by
  unfold Char.ofNat
  rw [dif_pos h]
  rfl

theorem ofNat_eq_iff {n : Nat} (h : n < 256) {b : UInt8} : UInt8.ofNat n = b ↔ b.toNat = n := by
  constructor
  · rintro rfl
    exact UInt8.toNat_ofNat_of_lt' h
  · rintro rfl
    exact UInt8.ofNat_toNat

/-- The digit that a byte brings in is the one that the tail of the number holds. -/
theorem readTail_eq_some_iff {low high count bits v : Nat} {bytes rest : List UInt8}
    (hlow : 0x80 ≤ low) (hhigh : high ≤ 0xBF) :
    readTail low high count bits bytes = (some v, rest) ↔
      tailBytes count v ++ rest = bytes ∧ v / Nat.pow 64 count = bits ∧
        (0 < count → low ≤ 0x80 + v / Nat.pow 64 (count - 1) % 64 ∧
          0x80 + v / Nat.pow 64 (count - 1) % 64 ≤ high) := by
  induction count generalizing low high bits bytes with
  | zero => simp [readTail, tailBytes, eq_comm, and_comm]
  | succ count ih =>
      have hpow : v / Nat.pow 64 (count + 1) = v / Nat.pow 64 count / 64 := by
        rw [Nat.div_div_eq_div_mul]
        rfl
      -- From here on only the quotient by the lower digits matters.
      rw [hpow, Nat.add_sub_cancel, tailBytes, List.cons_append]
      cases bytes with
      | nil => simp [readTail]
      | cons b bytes =>
          rw [readTail, List.cons.injEq, ofNat_eq_iff (by omega)]
          split
          · rename_i hbounds
            rw [ih (Nat.le_refl _) (Nat.le_refl _)]
            constructor
            · rintro ⟨htail, hdigit, -⟩
              refine ⟨⟨by omega, htail⟩, by omega, by omega⟩
            · rintro ⟨⟨hb, htail⟩, hbits, -⟩
              exact ⟨htail, by omega, by omega⟩
          · rename_i hbounds
            constructor
            · intro h
              cases h
            · rintro ⟨⟨hb, -⟩, -, hdigit⟩
              have hdigit := hdigit (Nat.succ_pos count)
              omega

/-- A number has the bits that a leading byte promises, and its next digit lies between the
bounds. -/
structure Lead.Admits (lead : Lead) (n : Nat) : Prop where
  bits : n / Nat.pow 64 lead.count = lead.bits
  digit : 0 < lead.count → lead.low ≤ 0x80 + n / Nat.pow 64 (lead.count - 1) % 64 ∧
    0x80 + n / Nat.pow 64 (lead.count - 1) % 64 ≤ lead.high

/-- The four kinds of leading bytes. -/
theorem lead?_cases {b : Nat} {lead : Lead} (h : lead? b = some lead) :
    (b < 0x80 ∧ lead = ⟨0, 0x80, 0xBF, b⟩) ∨
      (0xC2 ≤ b ∧ b < 0xE0 ∧ lead = ⟨1, 0x80, 0xBF, b - 0xC0⟩) ∨
      (0xE0 ≤ b ∧ b < 0xF0 ∧
        lead = ⟨2, if b = 0xE0 then 0xA0 else 0x80, if b = 0xED then 0x9F else 0xBF, b - 0xE0⟩) ∨
      (0xF0 ≤ b ∧ b < 0xF5 ∧
        lead =
          ⟨3, if b = 0xF0 then 0x90 else 0x80, if b = 0xF4 then 0x8F else 0xBF, b - 0xF0⟩) := by
  unfold lead? at h
  grind

/-- The second byte has bounds of its own, within those of all following bytes. -/
theorem bounds_of_lead? {b : Nat} {lead : Lead} (h : lead? b = some lead) :
    0x80 ≤ lead.low ∧ lead.high ≤ 0xBF := by
  rcases lead?_cases h with ⟨_, rfl⟩ | ⟨_, _, rfl⟩ | ⟨_, _, rfl⟩ | ⟨_, _, rfl⟩ <;> dsimp only
  · omega
  · omega
  · split <;> split <;> omega
  · split <;> split <;> omega

/-- The leading byte of a character promises the bytes that follow it. -/
theorem exists_lead? {n : Nat} (h : n.isValidChar) :
    ∃ lead, lead? (leadByte n) = some lead ∧ lead.count = tailCount n ∧ lead.Admits n := by
  have hvalid : n < 0xD800 ∨ 0xDFFF < n ∧ n < 0x110000 := h
  -- The longer forms bound their first digit, by the bits that stand in front of it.
  by_cases h₁ : n < 0x80
  · refine ⟨⟨0, 0x80, 0xBF, n⟩, ?_, by simp [tailCount, h₁], Nat.div_one n, by simp⟩
    simp [leadByte, lead?, h₁]
  by_cases h₂ : n < 0x800
  · refine ⟨⟨1, 0x80, 0xBF, n / 64⟩, ?_, by simp [tailCount, h₁, h₂], rfl,
      fun _ => by dsimp only; omega⟩
    simp only [leadByte, h₁, h₂, if_true, if_false, lead?]
    rw [if_neg (by omega), if_neg (by omega), if_pos (by omega), Nat.add_sub_cancel_left]
  by_cases h₃ : n < 0x10000
  · refine ⟨⟨2, if n / 4096 = 0 then 0xA0 else 0x80,
      if n / 4096 = 13 then 0x9F else 0xBF, n / 4096⟩,
      ?_, by simp [tailCount, h₁, h₂, h₃], rfl, fun _ => ?_⟩
    · simp only [leadByte, h₁, h₂, h₃, if_true, if_false, lead?]
      rw [if_neg (by omega), if_neg (by omega), if_neg (by omega), if_pos (by omega)]
      grind
    · have hdigit : n / Nat.pow 64 (2 - 1) = n / 64 := rfl
      dsimp only
      rw [hdigit]
      split <;> split <;> omega
  · refine ⟨⟨3, if n / 262144 = 0 then 0x90 else 0x80,
      if n / 262144 = 4 then 0x8F else 0xBF, n / 262144⟩,
      ?_, by simp [tailCount, h₁, h₂, h₃], rfl, fun _ => ?_⟩
    · simp only [leadByte, h₁, h₂, h₃, if_false, lead?]
      rw [if_neg (by omega), if_neg (by omega), if_neg (by omega), if_neg (by omega),
        if_pos (by omega)]
      grind
    · have hdigit : n / Nat.pow 64 (3 - 1) = n / 4096 := rfl
      dsimp only
      rw [hdigit]
      split <;> split <;> omega

/-- A number that has the promised bits and a digit between the bounds is a character, and the byte
is its leading one: the bounds leave out overlong forms, surrogates and numbers beyond the last
character. -/
theorem leadByte_of_admits {b n : Nat} {lead : Lead} (h : lead? b = some lead)
    (hadmits : lead.Admits n) : n.isValidChar ∧ lead.count = tailCount n ∧ leadByte n = b := by
  obtain ⟨hbits, hdigit⟩ := hadmits
  have hvalid : n < 0xD800 ∨ 0xDFFF < n ∧ n < 0x110000 → n.isValidChar := id
  -- The bits bound the number from above, and from below together with the next digit.
  rcases lead?_cases h with ⟨hb, rfl⟩ | ⟨hlow, hhigh, rfl⟩ | ⟨hlow, hhigh, rfl⟩ | ⟨hlow, hhigh, rfl⟩
  · have hbits : n / 1 = b := hbits
    refine ⟨hvalid (by omega), ?_, ?_⟩
    · rw [tailCount, if_pos (by omega)]
    · rw [leadByte, if_pos (by omega)]
      omega
  · have hbits : n / 64 = b - 0xC0 := hbits
    refine ⟨hvalid (by omega), ?_, ?_⟩
    · rw [tailCount, if_neg (by omega), if_pos (by omega)]
    · rw [leadByte, if_neg (by omega), if_pos (by omega)]
      omega
  · have hbits : n / 4096 = b - 0xE0 := hbits
    have hdigit : (if b = 0xE0 then 0xA0 else 0x80) ≤ 0x80 + n / 64 % 64 ∧
        0x80 + n / 64 % 64 ≤ if b = 0xED then 0x9F else 0xBF := hdigit (Nat.succ_pos _)
    have hrange : 0x800 ≤ n ∧ n < 0x10000 ∧ (n < 0xD800 ∨ 0xDFFF < n) := by
      split at hdigit <;> split at hdigit <;> omega
    refine ⟨hvalid (by omega), ?_, ?_⟩
    · show 2 = tailCount n
      rw [tailCount, if_neg (by omega), if_neg (by omega), if_pos (by omega)]
    · rw [leadByte, if_neg (by omega), if_neg (by omega), if_pos (by omega)]
      omega
  · have hbits : n / 262144 = b - 0xF0 := hbits
    have hdigit : (if b = 0xF0 then 0x90 else 0x80) ≤ 0x80 + n / 4096 % 64 ∧
        0x80 + n / 4096 % 64 ≤ if b = 0xF4 then 0x8F else 0xBF := hdigit (Nat.succ_pos _)
    have hrange : 0x10000 ≤ n ∧ n < 0x110000 := by
      split at hdigit <;> split at hdigit <;> omega
    refine ⟨hvalid (by omega), ?_, ?_⟩
    · show 3 = tailCount n
      rw [tailCount, if_neg (by omega), if_neg (by omega), if_neg (by omega)]
    · rw [leadByte, if_neg (by omega), if_neg (by omega), if_neg (by omega)]
      omega

theorem leadByte_lt {n : Nat} (h : n.isValidChar) : leadByte n < 256 := by
  have hvalid : n < 0xD800 ∨ 0xDFFF < n ∧ n < 0x110000 := h
  unfold leadByte
  split
  · omega
  split
  · omega
  split <;> omega

/-- A character is read from its bytes, and from no others. -/
theorem readChar_eq_some_iff {b : UInt8} {bytes rest : List UInt8} {c : Char} :
    readChar b bytes = (some c, rest) ↔ encodeChar c ++ rest = b :: bytes := by
  have hvalid : c.toNat.isValidChar := c.valid
  rw [encodeChar_eq, List.cons_append, List.cons.injEq, ofNat_eq_iff (leadByte_lt hvalid)]
  unfold readChar
  constructor
  · intro h
    split at h
    · cases h
    · rename_i lead hlead
      obtain ⟨hvalue, hrest⟩ := Prod.mk.inj h
      obtain ⟨v, hv, rfl⟩ := Option.map_eq_some_iff.1 hvalue
      obtain ⟨hlow, hhigh⟩ := bounds_of_lead? hlead
      obtain ⟨htail, hbits, hdigit⟩ := (readTail_eq_some_iff hlow hhigh).1 (Prod.ext hv hrest)
      -- A lead byte admits only what is written with it, so no number has two spellings.
      obtain ⟨hv', hcount, hbyte⟩ := leadByte_of_admits hlead ⟨hbits, hdigit⟩
      rw [toNat_ofNat hv', ← hcount]
      exact ⟨hbyte.symm, htail⟩
  · rintro ⟨hb, htail⟩
    obtain ⟨lead, hlead, hcount, hadmits⟩ := exists_lead? hvalid
    obtain ⟨hlow, hhigh⟩ := bounds_of_lead? hlead
    rw [← hcount] at htail
    have hread := (readTail_eq_some_iff hlow hhigh).2 ⟨htail, hadmits.bits, hadmits.digit⟩
    simp only [hb, hlead, hread, Option.map_some, Char.ofNat_toNat]

/-! ## Reading a text -/

theorem length_readTail_le (low high count bits : Nat) (bytes : List UInt8) :
    (readTail low high count bits bytes).2.length ≤ bytes.length := by
  induction count generalizing low high bits bytes with
  | zero => exact Nat.le_refl _
  | succ count ih =>
      cases bytes with
      | nil => exact Nat.le_refl _
      | cons b bytes =>
          rw [readTail]
          split
          · exact Nat.le_succ_of_le (ih ..)
          · exact Nat.le_refl _

theorem length_readChar_le (b : UInt8) (bytes : List UInt8) :
    (readChar b bytes).2.length ≤ bytes.length := by
  unfold readChar
  split
  · exact Nat.le_refl _
  · exact length_readTail_le ..

theorem readAll_succ (fuel : Nat) (b : UInt8) (bytes : List UInt8) (out : List (Option Char)) :
    readAll (fuel + 1) (b :: bytes) out =
      readAll fuel (readChar b bytes).2 ((readChar b bytes).1 :: out) :=
  rfl

/-- What was read before stays in front. -/
theorem readAll_eq_append (fuel : Nat) (bytes : List UInt8) (out : List (Option Char)) :
    readAll fuel bytes out = out.reverse ++ readAll fuel bytes [] := by
  induction fuel generalizing bytes out with
  | zero => simp [readAll]
  | succ fuel ih =>
      cases bytes with
      | nil => simp [readAll]
      | cons b bytes =>
          rw [readAll_succ, readAll_succ, ih, ih _ [_]]
          simp

theorem readAll_cons (fuel : Nat) (b : UInt8) (bytes : List UInt8) :
    readAll (fuel + 1) (b :: bytes) [] =
      (readChar b bytes).1 :: readAll fuel (readChar b bytes).2 [] := by
  rw [readAll_succ, readAll_eq_append]
  rfl

/-- Characters are read from their bytes, one behind the other. -/
theorem readAll_eq_map_some_iff {fuel : Nat} {bytes : List UInt8} (hfuel : bytes.length ≤ fuel)
    {cs : List Char} : readAll fuel bytes [] = cs.map some ↔ cs.flatMap encodeChar = bytes := by
  induction fuel generalizing bytes cs with
  | zero =>
      cases List.eq_nil_of_length_eq_zero (Nat.le_zero.1 hfuel)
      cases cs with
      | nil => simp [readAll]
      | cons c cs => simp [readAll, encodeChar_eq]
  | succ fuel ih =>
      cases bytes with
      | nil =>
          cases cs with
          | nil => simp [readAll]
          | cons c cs => simp [readAll, encodeChar_eq]
      | cons b bytes =>
          -- A character takes one byte at least, so the fuel lasts.
          have hlength := length_readChar_le b bytes
          rw [readAll_cons]
          cases cs with
          | nil => simp
          | cons c cs =>
              have hrest : (readChar b bytes).2.length ≤ fuel :=
                Nat.le_trans hlength (Nat.le_of_succ_le_succ hfuel)
              rw [List.map_cons, List.cons.injEq, ih hrest, List.flatMap_cons,
                ← readChar_eq_some_iff, Prod.ext_iff, eq_comm (b := (readChar b bytes).2)]

/-- Bytes are a text exactly if they are its encoding. -/
theorem decode?_eq_some_iff {bytes : List UInt8} {s : String} :
    decode? bytes = some s ↔ encode s = bytes := by
  unfold decode? chars
  rw [Option.map_eq_some_iff]
  constructor
  · rintro ⟨cs, hcs, rfl⟩
    rw [encode, String.toList_ofList]
    exact (readAll_eq_map_some_iff (Nat.le_refl _)).1 (Sequencing.mapM_id_eq_some_iff.1 hcs)
  · intro h
    have hread := (readAll_eq_map_some_iff (Nat.le_refl _)).2 h
    exact ⟨s.toList, Sequencing.mapM_id_eq_some_iff.2 hread, String.ofList_toList⟩

/-! ## Zero bytes -/

theorem zero_not_mem_tailBytes (count n : Nat) : 0 ∉ tailBytes count n := by
  induction count with
  | zero => simp [tailBytes]
  | succ count ih =>
      rw [tailBytes, List.mem_cons, eq_comm, ofNat_eq_iff (by omega)]
      rintro (hzero | hmem)
      · have hbyte : (0 : UInt8).toNat = 0 := rfl
        omega
      · exact ih hmem

/-- Only the zero character is written with a zero byte. -/
theorem zero_mem_encodeChar_iff {c : Char} : 0 ∈ encodeChar c ↔ c = '\x00' := by
  have hlead : leadByte c.toNat = 0 ↔ c.toNat = 0 := by
    unfold leadByte
    split
    · rfl
    split
    · omega
    split <;> omega
  have hbyte : (0 : UInt8).toNat = 0 := rfl
  have hvalid : c.toNat.isValidChar := c.valid
  rw [encodeChar_eq, List.mem_cons, or_iff_left (zero_not_mem_tailBytes _ _), eq_comm,
    ofNat_eq_iff (leadByte_lt hvalid), hbyte, eq_comm, hlead]
  constructor
  · intro hzero
    rw [← Char.ofNat_toNat c, hzero]
  · rintro rfl
    rfl

/-- A zero byte spells a zero character. -/
theorem zero_mem_encode_iff {s : String} : 0 ∈ encode s ↔ '\x00' ∈ s.toList := by
  simp [encode, List.mem_flatMap, zero_mem_encodeChar_iff]

end Utf8
end NeoScript
