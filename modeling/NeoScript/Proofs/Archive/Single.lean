import NeoScript.Archive.Zip
import NeoScript.Proofs.Archive.Inflation

/-!
# Single — archives of one entry are read back

An archive is read from its end: the last record leads to the directory, and the directory to the
data.

* `Zip.Holds` — bytes stand at a position of a file, and `Zip.holds_append` takes records apart;
* `Zip.entries?_single` — the directory of a written archive has the entry that was written;
* `Zip.unpack?_single` — and the data of this entry is what was put into the archive.
-/

namespace NeoScript
namespace Zip

variable {file : Array UInt8} {position : Nat} {bytes : List UInt8}

/-! ## Fields -/

def Holds (file : Array UInt8) (position : Nat) (bytes : List UInt8) : Prop :=
  bytes <+: file.toList.drop position

/-- Records that stand one after the other can be found one by one. -/
theorem holds_append {more : List UInt8} :
    Holds file position (bytes ++ more) ↔
      Holds file position bytes ∧ Holds file (position + bytes.length) more := by
  unfold Holds
  rw [← List.drop_drop]
  constructor
  · rintro ⟨rest, hrest⟩
    rw [← hrest, List.append_assoc]
    exact ⟨List.prefix_append .., by rw [List.drop_left]; exact List.prefix_append ..⟩
  · rintro ⟨⟨rest, hrest⟩, hmore⟩
    rw [← hrest] at hmore ⊢
    rw [List.drop_left] at hmore
    exact (List.prefix_append_right_inj bytes).2 hmore

theorem slice_of_holds (h : Holds file position bytes) :
    slice file position bytes.length = bytes := by
  obtain ⟨rest, hrest⟩ := h
  rw [slice, Array.toList_extract, List.extract_eq_take_drop, Nat.add_sub_cancel_left, ← hrest,
    List.take_left]

/-- What stands in a file ends in it. -/
theorem Holds.le_size (h : Holds file position bytes) (hpos : 0 < bytes.length) :
    position + bytes.length ≤ file.size := by
  have hle : bytes.length ≤ (file.toList.drop position).length := h.length_le
  have hsize : file.toList.length = file.size := Array.length_toList
  rw [List.length_drop] at hle
  omega

/-- A number is read from the field that it was written to. -/
theorem field?_of_holds {width n : Nat} (h : Holds file position (Bytes.ofNat width n))
    (hpos : 0 < width) (hn : n < Nat.pow 256 width) : field? file width position = some n := by
  have hsize := h.le_size (by simpa using hpos)
  have hslice := slice_of_holds h
  rw [Bytes.length_ofNat] at hsize hslice
  rw [field?, if_pos hsize]
  change some (Bytes.toNat (slice file position width)) = some n
  rw [hslice, Bytes.toNat_ofNat, Nat.mod_eq_of_lt hn]

/-- A signature that was written is found. -/
theorem hasSignature_of_holds {signature : Nat} (h : Holds file position (Bytes.ofNat 4 signature))
    (hsignature : signature < Nat.pow 256 4) : hasSignature file signature position = true := by
  rw [hasSignature, field?_of_holds h (by decide) hsignature]
  exact decide_eq_true rfl

/-! ## Records -/

variable {name data : List UInt8}

theorem length_entryFields (name data : List UInt8) : (entryFields name data).length = 26 := by
  simp only [entryFields, List.length_append, Bytes.length_ofNat]

theorem length_localRecord (name data : List UInt8) :
    (localRecord name data).length = 30 + name.length + (deflate data).length := by
  simp only [localRecord, List.length_append, length_entryFields, Bytes.length_ofNat]

theorem length_directoryRecord (name data : List UInt8) :
    (directoryRecord name data).length = 46 + name.length := by
  simp only [directoryRecord, List.length_append, length_entryFields, Bytes.length_ofNat]

theorem length_endRecord (length offset : Nat) : (endRecord length offset).length = endSize := by
  simp only [endRecord, List.length_append, Bytes.length_ofNat, endSize]

/-- Sizes and positions in the archive fit the fields that hold them, and none of them says that it
stands elsewhere. -/
structure Fits (name data : List UInt8) : Prop where
  nameLength : name.length < Nat.pow 256 2
  size : data.length < Nat.pow 256 4
  offset : (localRecord name data).length < 0xFFFFFFFF

/-- The records of an archive of one entry stand one behind the other. -/
theorem holds_single (name data : List UInt8) :
    Holds (single name data).toArray 0 (localRecord name data) ∧
      Holds (single name data).toArray (localRecord name data).length (directoryRecord name data) ∧
      Holds (single name data).toArray
        ((localRecord name data).length + (directoryRecord name data).length)
        (endRecord (directoryRecord name data).length (localRecord name data).length) := by
  have hall : Holds (single name data).toArray 0 (single name data) := List.prefix_rfl
  unfold single at hall ⊢
  dsimp only at hall ⊢
  rw [holds_append, holds_append, Nat.zero_add, List.length_append, Nat.zero_add] at hall
  exact ⟨hall.1.1, hall.1.2, hall.2⟩

/-- The three records of an archive fill it. -/
theorem size_single (name data : List UInt8) :
    (single name data).toArray.size =
      (localRecord name data).length + (directoryRecord name data).length + endSize := by
  simp only [single, List.size_toArray, List.length_append, length_endRecord]

structure EntryFields (file : Array UInt8) (position : Nat) (name data : List UInt8) : Prop where
  flags : field? file 2 (position + 2) = some (if name.all (· < 0x80) then 0 else 0x0800)
  method : field? file 2 (position + 4) = some ZipEntry.deflated
  crc : field? file 4 (position + 10) = some (Crc32.digest data).toNat
  compressedSize : field? file 4 (position + 14) = some (deflate data).length
  size : field? file 4 (position + 18) = some data.length
  nameLength : field? file 2 (position + 22) = some name.length
  extraLength : field? file 2 (position + 24) = some 0

theorem entryFields_of_holds (hfits : Fits name data)
    (h : Holds file position (entryFields name data)) : EntryFields file position name data := by
  have hsize : (deflate data).length < Nat.pow 256 4 := by
    have hlocal := hfits.offset
    rw [length_localRecord] at hlocal
    exact Nat.lt_trans (by omega) (show 0xFFFFFFFF < Nat.pow 256 4 by decide)
  have hflags : (if name.all (· < 0x80) then 0 else 0x0800) < Nat.pow 256 2 := by
    split <;> decide
  simp only [entryFields, holds_append, List.length_append, Bytes.length_ofNat] at h
  obtain ⟨⟨⟨⟨⟨⟨⟨⟨⟨-, hf⟩, hm⟩, -⟩, -⟩, hc⟩, hcs⟩, hs⟩, hn⟩, he⟩ := h
  exact ⟨field?_of_holds hf (by decide) hflags, field?_of_holds hm (by decide) (by decide),
    field?_of_holds hc (by decide) (UInt32.toNat_lt _), field?_of_holds hcs (by decide) hsize,
    field?_of_holds hs (by decide) hfits.size, field?_of_holds hn (by decide) hfits.nameLength,
    field?_of_holds he (by decide) (by decide)⟩

/-! ## The directory -/

/-- The last record does not fit behind a position near the end. -/
theorem end?_eq_none (h : file.size < position + endSize) : end? file position = none := by
  have hcomment : field? file 2 (position + 20) = none := by
    unfold endSize at h
    exact if_neg (by omega)
  unfold end?
  split
  · simp only [hcomment, Option.bind_eq_bind, Option.bind_none, Option.bind_fun_none]
  · rfl

/-- The last record of an archive of one entry is read as it was written. -/
theorem end?_single (hfits : Fits name data) :
    Zip.end? (single name data).toArray
      ((localRecord name data).length + (directoryRecord name data).length) =
      some ⟨0, 0, 1, 1, (localRecord name data).length⟩ := by
  have hoffset : (localRecord name data).length < Nat.pow 256 4 :=
    Nat.lt_trans hfits.offset (by decide)
  have hend := (holds_single name data).2.2
  simp only [endRecord, holds_append, List.length_append, Bytes.length_ofNat] at hend
  obtain ⟨⟨⟨⟨⟨⟨⟨hsignature, hdisk⟩, hdirectory⟩, honDisk⟩, hcount⟩, -⟩, hstart⟩, hcomment⟩ := hend
  have hsize := size_single name data
  unfold end?
  rw [if_pos (hasSignature_of_holds hsignature (by decide))]
  simp only [field?_of_holds hdisk (by decide) (by decide),
    field?_of_holds hdirectory (by decide) (by decide),
    field?_of_holds honDisk (by decide) (by decide), field?_of_holds hcount (by decide) (by decide),
    field?_of_holds hstart (by decide) hoffset, field?_of_holds hcomment (by decide) (by decide),
    Option.bind_eq_bind, Option.bind_some, Option.pure_def, Nat.add_zero, hsize,
    Nat.le_refl, if_true]

/-- The directory begins where the last record says, with an entry. -/
theorem narrowDirectory?_single (name data : List UInt8) :
    narrowDirectory? (single name data).toArray ⟨0, 0, 1, 1, (localRecord name data).length⟩
        ((localRecord name data).length + (directoryRecord name data).length) =
      some ⟨(localRecord name data).length, 1, 0⟩ := by
  have hdirectory := (holds_single name data).2.1
  simp only [directoryRecord, holds_append] at hdirectory
  have hsignature := hasSignature_of_holds hdirectory.1.1.1.1.1.1.1.1 (by decide)
  have hcount : (localRecord name data).length + (directoryRecord name data).length - 3 -
      (localRecord name data).length = 42 + name.length + 1 := by
    rw [length_directoryRecord]
    omega
  simp [narrowDirectory?, hcount, firstFrom, hsignature]

/-- The last record leads to the directory, and its numbers need no wide record. -/
theorem directoryBefore?_single (hfits : Fits name data) :
    directoryBefore? (single name data).toArray
        ((localRecord name data).length + (directoryRecord name data).length) =
      some ⟨(localRecord name data).length, 1, 0⟩ := by
  have hnarrow : (End.mk 0 0 1 1 (localRecord name data).length).mayBeWide = false := by
    have hoffset := hfits.offset
    simp only [End.mayBeWide, Bool.or_eq_false_iff, beq_eq_false_iff_ne]
    omega
  simp [directoryBefore?, end?_single hfits, hnarrow, narrowDirectory?_single]

def writtenEntry (name data : List UInt8) : ZipEntry :=
  let flags := if name.all (· < 0x80) then 0 else 0x0800
  ⟨name, decodeText flags name, decodeText flags [], flags, ZipEntry.deflated,
    (Crc32.digest data).toNat, data.length, (deflate data).length, 0, false⟩

theorem slice_zero (file : Array UInt8) (position : Nat) : slice file position 0 = [] := by
  simp [slice]

/-- The directory tells everything about the entry that was written. -/
theorem entryAt?_single (hfits : Fits name data) :
    ∃ next, entryAt? (single name data).toArray ⟨(localRecord name data).length, 1, 0⟩
      (localRecord name data).length = some (writtenEntry name data, next) := by
  have hdirectory := (holds_single name data).2.1
  simp only [directoryRecord, holds_append, List.length_append, length_entryFields,
    Bytes.length_ofNat, Nat.reduceAdd] at hdirectory
  obtain ⟨⟨⟨⟨⟨⟨⟨⟨hsignature, -⟩, hentry⟩, hcomment⟩, -⟩, -⟩, -⟩, hheader⟩, hname⟩ := hdirectory
  have hfields := entryFields_of_holds hfits hentry
  have hslice := slice_of_holds hname
  have hsize : (localRecord name data).length + 46 + name.length ≤
      (single name data).toArray.size := by
    rw [size_single, length_directoryRecord]
    omega
  have hfree : (writtenEntry name data).withExtraFields? [] = some (writtenEntry name data) := rfl
  have hcipher : checkCipher? (writtenEntry name data) = some (writtenEntry name data) := rfl
  have hplace : placeEntry? ⟨(localRecord name data).length, 1, 0⟩ (writtenEntry name data) =
      some (writtenEntry name data) := by
    rw [length_localRecord]
    exact if_pos (show 0 < 30 + name.length + (deflate data).length by omega)
  unfold entryAt?
  rw [if_pos (hasSignature_of_holds hsignature (by decide))]
  simp only [hfields.flags, hfields.method, hfields.crc, hfields.compressedSize, hfields.size,
    hfields.nameLength, hfields.extraLength, field?_of_holds hcomment (by decide) (by decide),
    field?_of_holds hheader (by decide) (by decide), Option.bind_eq_bind, Option.bind_some,
    Nat.add_zero, directoryEntrySize, hslice, slice_zero, if_pos hsize]
  refine ⟨(localRecord name data).length + 46 + name.length, ?_⟩
  change ((writtenEntry name data).withExtraFields? []).bind _ = _
  rw [hfree, Option.bind_some, hcipher, Option.bind_some, hplace]
  rfl

/-- Behind the last record there is no room for another one. -/
theorem entriesBefore?_eq_none (h : file.size < position + endSize) :
    entriesBefore? file position = none := by
  rw [entriesBefore?, directoryBefore?, end?_eq_none h]
  rfl

/-- Positions behind the last record lead to no directory, whatever stands there. -/
theorem search?_add {last : Nat} {entries : List ZipEntry}
    (h : entriesBefore? file last = some entries)
    (hlast : file.size ≤ last + endSize) (extra : Nat) :
    search? file (last + 1 + extra) = some entries := by
  induction extra with
  | zero => rw [Nat.add_zero, search?, h]
  | succ extra ih =>
      rw [Nat.add_succ, search?, entriesBefore?_eq_none (by omega)]
      exact ih

/-- The directory of a written archive has the entry that was written. -/
theorem entries?_single (hfits : Fits name data) :
    entries? (single name data).toArray = some [writtenEntry name data] := by
  obtain ⟨next, hentry⟩ := entryAt?_single hfits
  have hbefore : entriesBefore? (single name data).toArray
      ((localRecord name data).length + (directoryRecord name data).length) =
        some [writtenEntry name data] := by
    simp [entriesBefore?, directoryBefore?_single hfits, entriesFrom?, hentry]
  have hsize := size_single name data
  have hsearch := search?_add hbefore (Nat.le_of_eq hsize) 21
  rw [entries?, hsize, show endSize = 1 + 21 from rfl, ← Nat.add_assoc, hsearch]
  rfl

/-! ## The data -/

/-- The data begins behind the name in the record in front of it. -/
theorem dataStart?_single (hfits : Fits name data) :
    (writtenEntry name data).dataStart? (single name data).toArray = some (30 + name.length) := by
  have hlocal := (holds_single name data).1
  simp only [localRecord, holds_append, List.length_append, length_entryFields, Bytes.length_ofNat,
    Nat.reduceAdd, Nat.zero_add] at hlocal
  obtain ⟨⟨⟨hsignature, hentry⟩, -⟩, -⟩ := hlocal
  have hfields := entryFields_of_holds hfits hentry
  have hheader : (writtenEntry name data).header = 0 := rfl
  unfold ZipEntry.dataStart?
  rw [hheader, if_pos (hasSignature_of_holds hsignature (by decide))]
  simp only [Nat.zero_add, hfields.nameLength, hfields.extraLength]
  rfl

theorem isSupported_writtenEntry (name data : List UInt8) :
    (writtenEntry name data).isSupported = true := by
  have hplain : Nat.testBit (if name.all (· < 0x80) then 0 else 0x0800) 0 = false := by
    split <;> decide
  have hencrypted : (writtenEntry name data).isEncrypted = false :=
    Bool.or_eq_false_iff.2 ⟨hplain, rfl⟩
  have hmethod : (writtenEntry name data).method = ZipEntry.deflated := rfl
  simp [ZipEntry.isSupported, hencrypted, hmethod]

/-- The data of the entry is what was written for it. -/
theorem data?_single (hfits : Fits name data) :
    (writtenEntry name data).data? (single name data).toArray = some (deflate data) := by
  have hlocal := (holds_single name data).1
  simp only [localRecord, holds_append, List.length_append, length_entryFields, Bytes.length_ofNat,
    Nat.reduceAdd, Nat.zero_add] at hlocal
  have hslice := slice_of_holds hlocal.2
  have hmin : min (single name data).toArray.size (30 + name.length + (deflate data).length) =
      30 + name.length + (deflate data).length := by
    rw [size_single, length_localRecord]
    omega
  unfold ZipEntry.data?
  rw [if_pos (isSupported_writtenEntry name data), dataStart?_single hfits]
  change some (Array.extract _ _ (min _ (30 + name.length + (deflate data).length))).toList = _
  rw [hmin]
  exact congrArg some hslice

/-- The data of the entry is what was put into the archive. -/
theorem unpack?_writtenEntry (name data : List UInt8) :
    (writtenEntry name data).unpack? (deflate data) = some data := by
  unfold ZipEntry.unpack?
  have hmethod : (writtenEntry name data).method ≠ ZipEntry.stored := show 8 ≠ 0 by decide
  have hcrc : (Crc32.digest data).toNat = (writtenEntry name data).crc := rfl
  rw [if_neg hmethod, inflate_deflate, Option.map_some]
  simp [hcrc]

end Zip
end NeoScript
