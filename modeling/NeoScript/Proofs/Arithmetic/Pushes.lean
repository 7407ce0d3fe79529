import NeoScript.Assembly
import NeoScript.Proofs.Arithmetic
import NeoScript.Proofs.Script.RoundTrip

/-!
# Pushes — the shortest push of an integer

* `Instruction.isSome_smallestPush?_iff` — exactly the integers of the machine have a push;
* `Assembly.pushInteger?_eq_smallestPush?` — the assembler chooses the same one;
* `smallest_push_least` — it pushes its integer, and no push of this integer is shorter.
-/

namespace NeoScript

namespace Instruction

/-- Exactly the integers of the machine have a push. -/
theorem isSome_smallestPush?_iff {value : Int} :
    (smallestPush? value).isSome = true ↔ Integer.inRange value = true := by
  constructor
  · intro h
    obtain ⟨push, hpush⟩ := Option.isSome_iff_exists.1 h
    obtain ⟨hpushed, -, hfits⟩ := smallestPush?_spec hpush
    exact inRange_of_pushedInteger? hfits hpushed
  · intro h
    exact Option.isSome_iff_exists.2 (exists_smallestPush? h)

/-- The width is the first one in ascending order that is large enough. -/
theorem intWidthFor?_eq_find? (count : Nat) :
    intWidthFor? count = IntWidth.all.find? fun width => count ≤ width.bytes := by
  have hcons : ∀ (width : IntWidth) (rest : List IntWidth),
      (width :: rest).find? (fun width => count ≤ width.bytes) =
        if count ≤ width.bytes then some width
        else rest.find? fun width => count ≤ width.bytes := by
    intro width rest
    by_cases h : count ≤ width.bytes <;> simp [h]
  simp only [IntWidth.all, hcons, List.find?_nil]
  rfl

end Instruction

/-- Beyond the small numbers there is no push of one byte, however the numbers are bounded
before. -/
theorem Opcode.pushSmall?_eq_none {n : Nat} (h : 17 ≤ n) : pushSmall? n = none :=
  dif_neg (Nat.not_lt.2 h)

/-- The assembler chooses the same push. -/
theorem Assembly.pushInteger?_eq_smallestPush? (value : Int) :
    pushInteger? value = Instruction.smallestPush? value := by
  have hsmall : (if 0 ≤ value ∧ value ≤ 127 then Opcode.pushSmall? value.toNat else none) =
      if 0 ≤ value ∧ value ≤ 255 then Opcode.pushSmall? value.toNat else none := by
    by_cases hle : value ≤ 127
    · have hle' : value ≤ 255 := by omega
      simp only [hle, hle', and_true]
    · rw [if_neg fun h => hle h.2]
      split
      · exact (Opcode.pushSmall?_eq_none (by omega)).symm
      · rfl
  cases hop : (if 0 ≤ value ∧ value ≤ 255 then Opcode.pushSmall? value.toNat else none) with
  | some op => simp only [pushInteger?, Instruction.smallestPush?, hsmall, hop]
  | none =>
      simp only [pushInteger?, Instruction.smallestPush?, hsmall, hop,
        Instruction.intWidthFor?_eq_find?]

/-- An integer has a push exactly if it takes 256 bits at most.  The push that is chosen can be
encoded and pushes the integer, and no instruction that can be encoded and pushes it is shorter; and
the assembler chooses the same. -/
theorem smallest_push_least (value : Int) :
    ((Instruction.smallestPush? value).isSome = true ↔
      -(Nat.pow 2 255 : Int) ≤ value ∧ value < (Nat.pow 2 255 : Int)) ∧
    (∀ push, Instruction.smallestPush? value = some push →
      (∃ code, encode [push] = .ok code) ∧ push.pushedInteger? = some value ∧
      ∀ other : Instruction, (∃ code, encode [other] = .ok code) →
        other.pushedInteger? = some value →
        push.size ≤ other.size) ∧
    Assembly.pushInteger? value = Instruction.smallestPush? value := by
  refine ⟨?_, ?_, Assembly.pushInteger?_eq_smallestPush? value⟩
  · rw [Instruction.isSome_smallestPush?_iff, Integer.inRange_eq_fitsSigned, Bytes.fitsSigned_iff]
  · intro push hpush
    obtain ⟨hpushed, -, hfits⟩ := Instruction.smallestPush?_spec hpush
    refine ⟨exists_encode_iff.2 (by simpa using hfits), hpushed, ?_⟩
    intro other hencodes hother
    have hfits' := exists_encode_iff.1 hencodes other (List.mem_singleton.2 rfl)
    exact Instruction.size_smallestPush?_le hpush hfits' hother

/-- The least number of two bytes takes three bytes, and one less takes five. -/
theorem smallest_push_least_boundary :
    Instruction.smallestPush? (-32768) = some (.unplaced (.pushInt .w2) [0x00, 0x80]) ∧
    Instruction.smallestPush? (-32769) = some (.unplaced (.pushInt .w4) [0xFF, 0x7F, 0xFF, 0xFF]) ∧
    ∀ other : Instruction, (∃ code, encode [other] = .ok code) →
      other.pushedInteger? = some (-32769) →
      5 ≤ other.size := by
  have hpush : Instruction.smallestPush? (-32769) =
      some (.unplaced (.pushInt .w4) [0xFF, 0x7F, 0xFF, 0xFF]) := by
    decide +kernel
  exact ⟨by decide +kernel, hpush, ((smallest_push_least (-32769)).2.1 _ hpush).2.2⟩

end NeoScript
