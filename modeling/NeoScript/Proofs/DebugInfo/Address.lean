import NeoScript.DebugInfo.Address
import NeoScript.Proofs.Sequencing
import NeoScript.Proofs.Text.Decimal

/-!
# Address — address texts are read back

Reading is more lenient than writing: it takes blanks around a number, a plus sign and zeros in
front.  It gives words only, though, and the text of words is read as these words, since digits hold
none of the marks at which a text is cut.

* `AddressRange.parse_render`, `SequencePoint.parse_render` — what is written is read back;
* `AddressRange.isWord_of_parse`, `SequencePoint.isWord_of_parse` — what is read can be written so.
-/

namespace NeoScript

/-- The digits of a word are read as this word. -/
theorem readAddressNumber_toDigits {n : Nat} (h : n < 2 ^ 64) (whole : String) :
    readAddressNumber (Nat.toDigits 10 n) whole = .ok n := by
  rw [readAddressNumber, Text.trim_toDigits, Text.readWord?_toDigits h]

theorem lt_of_readAddressNumber {part : List Char} {whole : String} {n : Nat}
    (h : readAddressNumber part whole = .ok n) : n < 2 ^ 64 := by
  unfold readAddressNumber at h
  split at h
  · rename_i hword
    cases h
    exact Text.lt_of_readWord? hword
  · cases h

/-! ## Ranges -/

namespace AddressRange

variable {r : AddressRange} {text : String}

structure IsWord (r : AddressRange) : Prop where
  first : r.first < 2 ^ 64
  last : r.last < 2 ^ 64

/-- A range of words is read back from its text. -/
theorem parse_render (h : r.IsWord) : parse r.render = .ok r := by
  have htext : r.render.toList = Nat.toDigits 10 r.first ++ '-' :: Nat.toDigits 10 r.last := by
    simp [render, toString]
  have hcut := Text.splitOnce_append (Text.not_mem_digits (c := '-') (by decide) r.first)
    (Nat.toDigits 10 r.last)
  simp only [parse, htext, hcut, readAddressNumber_toDigits h.first,
    readAddressNumber_toDigits h.last]
  rfl

/-- Whatever range is read has words at both ends. -/
theorem isWord_of_parse (h : parse text = .ok r) : r.IsWord := by
  unfold parse at h
  split at h
  · cases h
  · obtain ⟨first, hfirst, h⟩ := Sequencing.bind_eq_ok.1 h
    obtain ⟨last, hlast, h⟩ := Sequencing.bind_eq_ok.1 h
    cases h
    exact ⟨lt_of_readAddressNumber hfirst, lt_of_readAddressNumber hlast⟩

end AddressRange

/-! ## Sequence points -/

namespace SequencePoint

variable {p : SequencePoint} {text : String}

structure IsWord (p : SequencePoint) : Prop where
  address : p.address < 2 ^ 64
  document : p.document < 2 ^ 64
  startLine : p.startLine < 2 ^ 64
  startColumn : p.startColumn < 2 ^ 64
  endLine : p.endLine < 2 ^ 64
  endColumn : p.endColumn < 2 ^ 64

/-- Each cut is made at the mark that the text has for it. -/
theorem cut?_render (p : SequencePoint) :
    cut? p.render.toList = some (Nat.toDigits 10 p.address, Nat.toDigits 10 p.document,
      Nat.toDigits 10 p.startLine, Nat.toDigits 10 p.startColumn, Nat.toDigits 10 p.endLine,
      Nat.toDigits 10 p.endColumn) := by
  have htext : p.render.toList = Nat.toDigits 10 p.address ++ '[' :: (Nat.toDigits 10 p.document ++
      ']' :: ((Nat.toDigits 10 p.startLine ++ ':' :: Nat.toDigits 10 p.startColumn) ++
        '-' :: (Nat.toDigits 10 p.endLine ++ ':' :: Nat.toDigits 10 p.endColumn))) := by
    simp [render, toString]
  have hstart : '-' ∉ Nat.toDigits 10 p.startLine ++ ':' :: Nat.toDigits 10 p.startColumn := by
    simp [Text.not_mem_digits]
  have hmarks (n : Nat) : '[' ∉ Nat.toDigits 10 n ∧ ']' ∉ Nat.toDigits 10 n ∧
      ':' ∉ Nat.toDigits 10 n := by
    simp [Text.not_mem_digits]
  simp only [cut?, htext, Text.splitOnce_append (hmarks _).1, Text.splitOnce_append (hmarks _).2.1,
    Text.splitOnce_append (hmarks _).2.2, Text.splitOnce_append hstart, Option.bind_eq_bind,
    Option.bind_some, Option.pure_def]

/-- A sequence point of words is read back from its text. -/
theorem parse_render (h : p.IsWord) : parse p.render = .ok p := by
  simp only [parse, cut?_render, readAddressNumber_toDigits h.address,
    readAddressNumber_toDigits h.document,
    readAddressNumber_toDigits h.startLine, readAddressNumber_toDigits h.startColumn,
    readAddressNumber_toDigits h.endLine, readAddressNumber_toDigits h.endColumn]
  rfl

/-- Whatever sequence point is read consists of words. -/
theorem isWord_of_parse (h : parse text = .ok p) : p.IsWord := by
  unfold parse at h
  split at h
  · cases h
  · obtain ⟨address, haddress, h⟩ := Sequencing.bind_eq_ok.1 h
    obtain ⟨document, hdocument, h⟩ := Sequencing.bind_eq_ok.1 h
    obtain ⟨startLine, hstartLine, h⟩ := Sequencing.bind_eq_ok.1 h
    obtain ⟨startColumn, hstartColumn, h⟩ := Sequencing.bind_eq_ok.1 h
    obtain ⟨endLine, hendLine, h⟩ := Sequencing.bind_eq_ok.1 h
    obtain ⟨endColumn, hendColumn, h⟩ := Sequencing.bind_eq_ok.1 h
    cases h
    exact ⟨lt_of_readAddressNumber haddress, lt_of_readAddressNumber hdocument,
      lt_of_readAddressNumber hstartLine, lt_of_readAddressNumber hstartColumn,
      lt_of_readAddressNumber hendLine, lt_of_readAddressNumber hendColumn⟩

end SequencePoint

end NeoScript
