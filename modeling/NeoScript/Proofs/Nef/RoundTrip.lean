import NeoScript.Proofs.Nef.Reading

/-!
# RoundTrip — containers and their files

* `Nef.Readable.parseUnchecked_write` — a container that can be read comes back from every file that
  holds it;
* `Nef.parseUnchecked_toBytes` — which containers come back from what is written for them;
* `Nef.parse_styles` — the files that are accepted as one container differ in their style only;
* `Nef.parse_not_injective` — and the checksum does not tell their styles apart.
-/

namespace NeoScript
namespace Nef

variable {nef : Nef} {bytes : List UInt8}

/-! ## Written containers -/

/-- A container is read back from every spelling that suits it. -/
theorem Readable.parseUnchecked_write (h : nef.Readable) {style : Style}
    (hsuits : style.Suits nef) : parseUnchecked (nef.write style) = .ok nef :=
  parseUnchecked_eq_ok_iff.2 ⟨h, style, hsuits, rfl⟩

/-- What is written is the plain spelling. -/
theorem Readable.toBytes_eq (h : nef.Readable) : nef.toBytes = .ok (nef.write nef.plainStyle) :=
  toBytes_eq_ok_iff.2 ⟨h.toFits, rfl⟩

/-- What the reader asks for besides the limits of the writer. -/
theorem Fits.readable_iff (h : nef.Fits) :
    nef.Readable ↔ '\x00' ∉ nef.compiler.toList ∧ ∀ token ∈ nef.tokens,
      token.method.toList.head? ≠ some '_' ∧ token.callFlags.toNat ≤ 0x0F := by
  constructor
  · intro hreadable
    refine ⟨hreadable.noZero, fun token hmem => ?_⟩
    exact ⟨(hreadable.readable token hmem).shown, (hreadable.readable token hmem).flags⟩
  · rintro ⟨hzero, htokens⟩
    refine ⟨h, hzero, fun token hmem => ?_⟩
    obtain ⟨hshown, hflags⟩ := htokens token hmem
    exact ⟨exists_tokenBytes_iff.1 (h.methods token hmem), hshown, hflags⟩

/-- A container that can be written comes back exactly if its compiler has no zero character, none
of its tokens names a hidden method, and all call flags are known.  A container that was read can be
written, and comes back. -/
theorem parseUnchecked_toBytes :
    (∀ (nef : Nef) (bytes : List UInt8), nef.toBytes = .ok bytes →
      (parseUnchecked bytes = .ok nef ↔ '\x00' ∉ nef.compiler.toList ∧ ∀ token ∈ nef.tokens,
        token.method.toList.head? ≠ some '_' ∧ token.callFlags.toNat ≤ 0x0F)) ∧
    ∀ (bytes : List UInt8) (nef : Nef), parseUnchecked bytes = .ok nef →
      ∃ written, nef.toBytes = .ok written ∧ parseUnchecked written = .ok nef := by
  constructor
  · intro nef bytes hbytes
    obtain ⟨hfits, rfl⟩ := toBytes_eq_ok_iff.1 hbytes
    rw [← hfits.readable_iff]
    constructor
    · intro hparse
      exact (parseUnchecked_eq_ok_iff.1 hparse).1
    · intro hreadable
      exact hreadable.parseUnchecked_write hfits.suits_plainStyle
  · intro bytes nef hparse
    obtain ⟨hreadable, -⟩ := parseUnchecked_eq_ok_iff.1 hparse
    exact ⟨_, hreadable.toBytes_eq, hreadable.parseUnchecked_write hreadable.suits_plainStyle⟩

end Nef

def Samples.tokenNef (method : String) : Nef where
  compiler := "nefopt"
  source := "é"
  tokens := [⟨⟨List.replicate 20 0xAB, rfl⟩, method, 4, true, 0x0F⟩]
  script := #[0x11, 0x40]
  checksum := 7

def Samples.plainNef : Nef where
  compiler := "nefopt"
  source := ""
  tokens := []
  script := #[0x40]
  checksum := 0x6A03981C

/-- Files of this container: the last byte of the compiler field, and the form of the number of
tokens. -/
def Samples.plainFile (last : UInt8) (count : List UInt8) : List UInt8 :=
  [0x4E, 0x45, 0x46, 0x33, 0x6E, 0x65, 0x66, 0x6F, 0x70, 0x74] ++ List.replicate 57 0 ++
    [last, 0, 0] ++
    count ++ [0, 0, 1, 0x40, 0x1C, 0x98, 0x03, 0x6A]

/-- A container with a shown method comes back, one with a hidden method is written and does not;
and a file with a long form is read as a container that comes back. -/
theorem Nef.parseUnchecked_toBytes_token :
    (∃ bytes, (Samples.tokenNef "transfer").toBytes = .ok bytes ∧
      parseUnchecked bytes = .ok (Samples.tokenNef "transfer")) ∧
    (∃ bytes, (Samples.tokenNef "_deploy").toBytes = .ok bytes ∧
      parseUnchecked bytes ≠ .ok (Samples.tokenNef "_deploy")) ∧
    parseUnchecked (Samples.plainFile 1 [0xFD, 0, 0]) = .ok Samples.plainNef ∧
    ∃ written, Samples.plainNef.toBytes = .ok written ∧
      parseUnchecked written = .ok Samples.plainNef := by
  obtain ⟨bytes, hbytes⟩ : ∃ bytes, (Samples.tokenNef "transfer").toBytes = .ok bytes := ⟨_, rfl⟩
  obtain ⟨hidden, hhidden⟩ : ∃ bytes, (Samples.tokenNef "_deploy").toBytes = .ok bytes := ⟨_, rfl⟩
  have hlong : parseUnchecked (Samples.plainFile 1 [0xFD, 0, 0]) = .ok Samples.plainNef := by
    decide +kernel
  obtain ⟨hwritten, hread⟩ := parseUnchecked_toBytes
  refine ⟨⟨bytes, hbytes, (hwritten _ _ hbytes).2 (by decide +kernel)⟩,
    ⟨hidden, hhidden, ?_⟩, hlong, hread _ _ hlong⟩
  rw [ne_eq, hwritten _ _ hhidden]
  decide +kernel

/-! ## Accepted files -/

namespace Nef

variable {nef : Nef} {bytes : List UInt8}

/-- A container is accepted if it can be read and holds the checksum of its contents. -/
theorem parse_eq_ok_iff :
    parse bytes = .ok nef ↔ parseUnchecked bytes = .ok nef ∧
      nef.computeChecksum = .ok nef.checksum := by
  unfold parse
  rw [Sequencing.bind_eq_ok]
  constructor
  · rintro ⟨found, hfound, hrest⟩
    obtain ⟨computed, hcomputed, h⟩ := Sequencing.bind_eq_ok.1 hrest
    split at h
    · rename_i heq
      cases h
      exact ⟨hfound, heq ▸ hcomputed⟩
    · cases h
  · rintro ⟨hfound, hcomputed⟩
    exact ⟨nef, hfound, Sequencing.bind_eq_ok.2 ⟨_, hcomputed, if_pos rfl⟩⟩

/-- The checksum seals the plain file of a container, and every other file that holds the same
container is accepted with it: accepted files may differ from what is written for their container in
their style, that is behind the first zero of the compiler field and in the forms of numbers, and in
nothing else. -/
theorem parse_styles (h : parse bytes = .ok nef) :
    (∃ body, nef.body = .ok body ∧ nef.checksum = checksumOf body) ∧
    (∃ style : Style, style.Suits nef ∧ nef.write style = bytes ∧
      (nef.toBytes = .ok bytes ↔ style = nef.plainStyle)) ∧
    ∀ other, parse other = .ok nef ↔ ∃ style : Style, style.Suits nef ∧
      nef.write style = other := by
  obtain ⟨hparse, hchecksum⟩ := parse_eq_ok_iff.1 h
  obtain ⟨hreadable, style, hsuits, rfl⟩ := parseUnchecked_eq_ok_iff.1 hparse
  refine ⟨?_, ⟨style, hsuits, rfl, ?_⟩, ?_⟩
  · obtain ⟨body, hbody, heq⟩ := Sequencing.map_eq_ok.1 hchecksum
    exact ⟨body, hbody, heq.symm⟩
  · rw [hreadable.toBytes_eq, Except.ok.injEq]
    constructor
    · intro heq
      exact (Style.eq_of_write_eq hreadable.suits_plainStyle hsuits heq).symm
    · rintro rfl
      rfl
  · -- The checksum is compared with that of the container, which has no style.
    intro other
    rw [parse_eq_ok_iff, parseUnchecked_eq_ok_iff, and_iff_left hchecksum, and_iff_right hreadable]

/-- A byte in the compiler field and the form of a number are not sealed. -/
theorem parse_styles_plain :
    parse (Samples.plainFile 1 [0xFD, 0, 0]) = .ok Samples.plainNef ∧
    (∃ body, Samples.plainNef.body = .ok body ∧ Samples.plainNef.checksum = checksumOf body) ∧
    (∃ style : Style, style.Suits Samples.plainNef ∧
      Samples.plainNef.write style = Samples.plainFile 1 [0xFD, 0, 0] ∧
        style ≠ Samples.plainNef.plainStyle) ∧
    parse (Samples.plainNef.write Samples.plainNef.plainStyle) = .ok Samples.plainNef := by
  have hparse : parse (Samples.plainFile 1 [0xFD, 0, 0]) = .ok Samples.plainNef := by
    decide +kernel
  have hwritten : Samples.plainNef.toBytes = .ok (Samples.plainFile 0 [0]) := by
    decide +kernel
  have hfits := (toBytes_eq_ok_iff.1 hwritten).1
  obtain ⟨hbody, ⟨style, hsuits, hwrite, hplain⟩, hothers⟩ := parse_styles hparse
  refine ⟨hparse, hbody, ⟨style, hsuits, hwrite, ?_⟩,
    (hothers _).2 ⟨_, hfits.suits_plainStyle, rfl⟩⟩
  intro heq
  have hsame := hwritten.symm.trans (hplain.2 heq)
  exact absurd hsame (by decide +kernel)

/-- Two files are accepted as one container, and one of them is not what is written for it. -/
theorem parse_not_injective :
    parse (Samples.plainFile 1 [0]) = .ok Samples.plainNef ∧
    parse (Samples.plainFile 0 [0]) = .ok Samples.plainNef ∧
    Samples.plainNef.toBytes = .ok (Samples.plainFile 0 [0]) ∧
    Samples.plainFile 0 [0] ≠ Samples.plainFile 1 [0] := by
  decide +kernel

end Nef

end NeoScript
