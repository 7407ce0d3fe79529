import NeoScript.Archive.Deflate
import NeoScript.Archive.Inflate
import NeoScript.Proofs.Arithmetic

/-!
# Inflation — what is compressed is read back

* `Inflate.storedBlock_block` — a stored block is read as its contents;
* `inflate_deflate` — any bytes are read back from their compressed text.
-/

namespace NeoScript

namespace Inflate

variable {α β : Type}

theorem bind_of_some {x : Inflater α} {f : α → Inflater β} {s t : State} {a : α}
    (h : x s = some (a, t)) : (x >>= f) s = f a t := by
  change (x s).bind (fun p => f p.1 p.2) = f a t
  rw [h, Option.bind_some]

theorem bits_two (current left : Nat) (rest : List UInt8) (output : Array UInt8) :
    bits 2 ⟨current, left + 2, rest, output⟩ =
      some (current % 2 + 2 * (current / 2 % 2), ⟨current / 2 / 2, left, rest, output⟩) := rfl

def aligned (rest : List UInt8) (output : Array UInt8) : State :=
  ⟨0, 0, rest, output⟩

/-- Bytes that are stored behind a byte boundary are copied as they stand. -/
theorem copyStored_append (data rest : List UInt8) (output : Array UInt8) :
    copyStored data.length (aligned (data ++ rest) output) =
      some ((), aligned rest (output ++ data.toArray)) := by
  induction data generalizing output with
  | nil => simp [copyStored, aligned]; rfl
  | cons b data ih =>
      have hbyte : UInt8.ofNat b.toNat = b := UInt8.ofNat_toNat
      have hstep : copyStored (data.length + 1) (aligned (b :: data ++ rest) output) =
          copyStored data.length (aligned (data ++ rest) (output.push (UInt8.ofNat b.toNat))) := rfl
      rw [List.length_cons, hstep, ih, hbyte]
      simp

/-- The two lengths of a block belong together, and as many bytes follow. -/
theorem storedBlock_append {data : List UInt8} (h : data.length ≤ Deflate.maxBlock)
    (rest : List UInt8) (output : Array UInt8) (current left : Nat) :
    storedBlock ⟨current, left, Bytes.ofNat 2 data.length ++
        Bytes.ofNat 2 (Deflate.maxBlock - data.length) ++ data ++ rest, output⟩ =
      some ((), aligned rest (output ++ data.toArray)) := by
  have hlow : ∀ n, (UInt8.ofNat n).toNat = n % 256 := fun n => UInt8.toNat_ofNat'
  have hvalue : ∀ n ≤ Deflate.maxBlock,
      (UInt8.ofNat n).toNat + 256 * (UInt8.ofNat (n / 256)).toNat = n := by
    intro n hn
    rw [hlow, hlow]
    unfold Deflate.maxBlock at hn
    omega
  have hfields : storedBlock ⟨current, left, Bytes.ofNat 2 data.length ++
        Bytes.ofNat 2 (Deflate.maxBlock - data.length) ++ data ++ rest, output⟩ =
      (if (UInt8.ofNat data.length).toNat + 256 * (UInt8.ofNat (data.length / 256)).toNat +
          ((UInt8.ofNat (Deflate.maxBlock - data.length)).toNat +
            256 * (UInt8.ofNat ((Deflate.maxBlock - data.length) / 256)).toNat) = 0xFFFF then
        copyStored ((UInt8.ofNat data.length).toNat + 256 * (UInt8.ofNat (data.length / 256)).toNat)
      else failure) (aligned (data ++ rest) output) := rfl
  have hsum : data.length + (Deflate.maxBlock - data.length) = 0xFFFF := Nat.add_sub_cancel' h
  rw [hfields, hvalue _ h, hvalue _ (Nat.sub_le ..), if_pos hsum, copyStored_append]

/-- The first byte of a stored block marks the last one, and nothing else. -/
theorem blocks_mark {mark : UInt8} (h : mark.toNat < 2) (symbolFuel fuel : Nat) (rest : List UInt8)
    (output : Array UInt8) :
    blocks symbolFuel (fuel + 1) (aligned (mark :: rest) output) =
      (storedBlock >>= fun _ => if mark.toNat = 1 then pure () else blocks symbolFuel fuel)
        ⟨0, 5, rest, output⟩ := by
  have hfinal : bit (aligned (mark :: rest) output) =
      some (mark.toNat % 2, ⟨mark.toNat / 2, 7, rest, output⟩) := rfl
  have hkind := bits_two (mark.toNat / 2) 5 rest output
  rw [show mark.toNat / 2 = 0 by omega] at hfinal hkind
  rw [Nat.mod_eq_of_lt h] at hfinal
  rw [blocks, bind_of_some hfinal, bind_of_some hkind]
  rfl

/-- A block is read up to its end; what follows is read if it was not the last one. -/
theorem blocks_block {data : List UInt8} (h : data.length ≤ Deflate.maxBlock) (final : Bool)
    (symbolFuel fuel : Nat) (rest : List UInt8) (output : Array UInt8) :
    blocks symbolFuel (fuel + 1) (aligned (Deflate.block final data ++ rest) output) =
      if final then some ((), aligned rest (output ++ data.toArray))
      else blocks symbolFuel fuel (aligned rest (output ++ data.toArray)) := by
  have hstored := storedBlock_append h rest output 0 5
  rw [Deflate.block, List.cons_append, blocks_mark (by cases final <;> decide),
    bind_of_some hstored]
  cases final <;> rfl

/-- Every block but the last one is full. -/
theorem blocks_blocks {fuel : Nat} {data : List UInt8}
    (h : data.length ≤ Deflate.maxBlock * (fuel + 1)) (symbolFuel extra : Nat)
    (output : Array UInt8) :
    blocks symbolFuel (extra + fuel + 1) (aligned (Deflate.blocks fuel data) output) =
      some ((), aligned [] (output ++ data.toArray)) := by
  induction fuel generalizing data output with
  | zero =>
      have hlast := blocks_block (by simpa using h) true symbolFuel extra [] output
      rw [List.append_nil] at hlast
      exact hlast
  | succ fuel ih =>
      unfold Deflate.blocks
      split
      · have hlast := blocks_block ‹_› true symbolFuel (extra + (fuel + 1)) [] output
        rw [List.append_nil] at hlast
        exact hlast
      · rw [blocks_block (by rw [List.length_take]; omega) false]
        have hrest : (data.drop Deflate.maxBlock).length ≤ Deflate.maxBlock * (fuel + 1) := by
          rw [List.length_drop]
          rw [Nat.mul_add] at h
          omega
        have hdata : data.take Deflate.maxBlock ++ data.drop Deflate.maxBlock = data :=
          List.take_append_drop ..
        refine (ih hrest _).trans ?_
        conv => rhs; rw [← hdata]
        simp [Array.append_assoc]

end Inflate

namespace Deflate

theorem length_block (final : Bool) (data : List UInt8) :
    (block final data).length = data.length + 5 := by
  simp only [block, List.length_cons, List.length_append, Bytes.length_ofNat]
  omega

/-- A compressed text takes five bytes more than its contents for each block. -/
theorem length_blocks (fuel : Nat) (data : List UInt8) :
    data.length ≤ (blocks fuel data).length ∧
      (blocks fuel data).length ≤ data.length + 5 * (fuel + 1) := by
  induction fuel generalizing data with
  | zero =>
      rw [blocks, length_block]
      omega
  | succ fuel ih =>
      unfold blocks
      split
      · rw [length_block]
        omega
      · have hrest := ih (data.drop maxBlock)
        rw [List.length_drop] at hrest
        rw [List.length_append, length_block, List.length_take]
        omega

end Deflate

/-- A block adds five bytes to its contents. -/
theorem length_deflate_le (data : List UInt8) :
    (deflate data).length ≤ data.length + 5 * (data.length / Deflate.maxBlock + 1) :=
  (Deflate.length_blocks _ data).2

/-- Any bytes are read back from their compressed text. -/
theorem inflate_deflate (data : List UInt8) : inflate (deflate data) = some data.toArray := by
  have hlength : data.length ≤ Deflate.maxBlock * (data.length / Deflate.maxBlock + 1) :=
    Nat.le_of_lt (Nat.lt_mul_div_succ _ (by decide))
  have hfuel : data.length / Deflate.maxBlock ≤ 8 * (deflate data).length := by
    have hle : data.length ≤ (deflate data).length := (Deflate.length_blocks _ data).1
    have hdiv := Nat.div_le_self data.length Deflate.maxBlock
    omega
  obtain ⟨extra, hextra⟩ := Nat.exists_eq_add_of_le' hfuel
  have hread := Inflate.blocks_blocks hlength (8 * (deflate data).length + 1) extra #[]
  rw [← hextra] at hread
  unfold inflate
  refine (congrArg (Option.map _) hread).trans ?_
  simp [Inflate.aligned]

end NeoScript
