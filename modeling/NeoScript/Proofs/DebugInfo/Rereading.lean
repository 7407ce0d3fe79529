import NeoScript.Proofs.DebugInfo.Writing
import NeoScript.Proofs.Optimizer.Frame

/-!
# Rereading — debug information stays readable

* `DebugMethod.IsWord.moved` — addresses that are moved inside a script stay words;
* `Optimizer.writable_of_optimize` — so the debug information in the result of an optimization can
  be written, if that in its input was read from a text;
* `address_texts_reread` — all that is written is read back: address texts, texts and archives.
-/

namespace NeoScript

/-! ## Moving -/

/-- Addresses of a script do not exceed its size. -/
theorem Script.IsReading.le_of_isBoundaryOrEnd {script : Script} {code : Code}
    (h : script.IsReading code)
    {pc : Nat} (hpc : isBoundaryOrEnd script pc = true) : pc ≤ code.size := by
  rcases Bool.or_eq_true_iff.1 hpc with hboundary | hend
  · exact Nat.le_of_lt (h.lt_of_isBoundary hboundary)
  · rw [decide_eq_true_eq, h.length_eq] at hend
    exact Nat.le_of_eq hend

/-- Where every moved address lies in a script that is not too long, words stay words. -/
theorem DebugMethod.IsWord.moved {m : DebugMethod} (h : m.IsWord) {move : Nat → Nat}
    {script : Script} {code : Code} (hread : script.IsReading code) (hsize : code.size < 2 ^ 64)
    (hleads : (m.moved move).Leads script) : (m.moved move).IsWord := by
  have hfirst := hread.lt_of_isBoundary hleads.first
  have hlast := hread.le_of_isBoundaryOrEnd hleads.last
  refine ⟨⟨by omega, by omega⟩, ?_⟩
  intro p' hp'
  have haddress := hread.le_of_isBoundaryOrEnd (hleads.points p' hp')
  obtain ⟨p, hp, rfl⟩ := List.mem_map.1 (List.mem_eraseDups.1 hp')
  exact { h.points p hp with address := Nat.lt_of_le_of_lt haddress hsize }

namespace Optimizer

/-- An optimization moves addresses inside the script, and leaves other numbers and all members that
are carried along as they are. -/
theorem writable_of_optimize {config : Config} {c : Contract} {result : Optimization}
    {info : DebugInfo} (hdebug : c.debug = some info) (hwritable : info.Writable)
    (h : optimize config c = .ok result) :
    ∃ info', result.contract.debug = some info' ∧ info'.Writable ∧
      info'.doubles = info.doubles := by
  obtain ⟨c₀, done, -, -, -, hverify, hreturns⟩ := optimize_eq_ok h
  rw [← hreturns.contract] at hverify
  obtain ⟨script', hchecked⟩ := Contract.verify_eq_ok_iff.1 hverify
  have hsize : result.contract.nef.script.size < 2 ^ 64 :=
    Nat.lt_of_le_of_lt hchecked.size.2 (by decide)
  obtain ⟨-, -, ⟨-, checksum, hsame⟩ | ⟨-, move, -, hmoved, -⟩⟩ := moved_of_optimize h
  · exact ⟨info, by rw [hsame, hdebug], hwritable, rfl⟩
  · have hinfo' : result.contract.debug = some (info.moved move) := by
      rw [hmoved.debug, hdebug]; rfl
    refine ⟨_, hinfo', ⟨?_, hwritable.extra⟩, ?_⟩
    · intro m' hm'
      have hleads := hchecked.debug _ hinfo' m' hm'
      obtain ⟨m, hm, rfl⟩ := List.mem_map.1 hm'
      have hmethod := hwritable.methods m hm
      exact ⟨hmethod.word.moved hchecked.valid.toIsReading hsize hleads, hmethod.extra⟩
    · simp only [DebugInfo.doubles, DebugInfo.moved, List.flatMap_map]
      rfl

end Optimizer

/-! ## Texts -/

/-- Ranges and points of words are read back from their texts, and so is whatever was read from a
text.

An optimization keeps this: the address texts of the debug information in its result are read back,
and so is this information as a whole, from its text and from an archive under any name.  A double
`x` that is carried along comes back as `reread x`, the double that its text is read as. -/
theorem address_texts_reread :
    (∀ r : AddressRange, r.IsWord → AddressRange.parse r.render = .ok r) ∧
      (∀ p : SequencePoint, p.IsWord → SequencePoint.parse p.render = .ok p) ∧
      (∀ text r, AddressRange.parse text = .ok r → AddressRange.parse r.render = .ok r) ∧
      (∀ text p, SequencePoint.parse text = .ok p → SequencePoint.parse p.render = .ok p) ∧
      ∀ config c result source info, DebugInfo.parse source = .ok info → c.debug = some info →
        optimize config c = .ok result →
          ∃ info', result.contract.debug = some info' ∧ (∀ m ∈ info'.methods, m.Rereads) ∧
            ∀ reread : Float → Float, (∀ x ∈ info.doubles, Json.ReadsDouble x (reread x)) →
              DebugInfo.parse info'.render = .ok (info'.mapDoubles reread) ∧
                (∀ name : String, (Utf8.encode name).length < 2 ^ 16 →
                  (Utf8.encode info'.render).length < 2 ^ 31 →
                    DebugInfo.load (info'.toArchive name) = .ok (info'.mapDoubles reread)) ∧
                ((∀ x ∈ info.doubles, reread x = x) → info'.mapDoubles reread = info') := by
  refine ⟨fun r => AddressRange.parse_render, fun p => SequencePoint.parse_render, ?_, ?_, ?_⟩
  · intro text r hr
    exact AddressRange.parse_render (AddressRange.isWord_of_parse hr)
  · intro text p hp
    exact SequencePoint.parse_render (SequencePoint.isWord_of_parse hp)
  · intro config c result source info hparse hdebug h
    obtain ⟨info', hinfo', hwritable, hdoubles⟩ :=
      Optimizer.writable_of_optimize hdebug (DebugInfo.writable_of_parse hparse) h
    refine ⟨info', hinfo', fun m hm => (hwritable.methods m hm).word.rereads, ?_⟩
    rw [← hdoubles]
    intro reread hreread
    have hread := DebugInfo.parse_render hwritable hreread
    exact ⟨hread, fun name hname htext => (DebugInfo.load_toArchive hname htext).trans hread,
      DebugInfo.mapDoubles_eq_self hwritable⟩

/-- Address texts with blanks, signs and zeros that are not written again. -/
def Samples.looseText : String :=
  "\x7b\"methods\":[\x7b\"id\":\"a\",\"name\":\"Counter,main\",\"range\":\" +0-014\",\"sequence-points\":" ++
    "[\"0[00] 5:5-5:+6\",\"7[ 0 ]7:9 - 18446744073709551615:38\"],\"note\":[1,null]\x7d]\x7d"

def Samples.strictText : String :=
  "\x7b\"documents\":[],\"methods\":[\x7b\"id\":\"a\",\"name\":\"Counter,main\",\"range\":\"0-12\"," ++
    "\"sequence-points\":[\"0[0]5:5-5:6\",\"5[0]7:9-18446744073709551615:38\"],\"note\":[1,null]\x7d]\x7d"

/-- Blanks and leading zeros are read, and what is written has none of them. -/
theorem address_texts_reread_loose : ∃ c result info info',
    DebugInfo.parse Samples.looseText = .ok info ∧ c.debug = some info ∧
      optimize .default c = .ok result ∧
      result.contract.debug = some info' ∧ info'.render = Samples.strictText ∧
      (∀ m ∈ info'.methods, m.Rereads) ∧ DebugInfo.parse Samples.strictText = .ok info' ∧
      DebugInfo.load (info'.toArchive "counter.debug.json") = .ok info' := by
  have hcompute : (do
      let info ← DebugInfo.parse Samples.looseText
      let c ← Samples.counter
      let result ← optimize .default { c with debug := some info }
      return (info.doubles.length, result.contract.debug.map DebugInfo.render)) =
        .ok (0, some Samples.strictText) := by
    decide +kernel
  obtain ⟨info, hinfo, hcompute⟩ := Sequencing.bind_eq_ok.1 hcompute
  obtain ⟨c, -, hcompute⟩ := Sequencing.bind_eq_ok.1 hcompute
  obtain ⟨result, hresult, hcompute⟩ := Sequencing.bind_eq_ok.1 hcompute
  obtain ⟨info', hinfo', hrereads, hreads⟩ :=
    address_texts_reread.2.2.2.2 .default _ result _ info hinfo rfl hresult
  obtain ⟨hlength, htext⟩ := Prod.mk.inj (Except.ok.inj hcompute)
  have hnone : info.doubles = [] := List.eq_nil_of_length_eq_zero hlength
  have htext : info'.render = Samples.strictText := by
    rw [hinfo'] at htext
    exact Option.some.inj htext
  obtain ⟨hparse, hload, hself⟩ := hreads id (by simp [hnone])
  rw [hself (by simp [hnone])] at hparse hload
  rw [htext] at hparse hload
  exact ⟨_, result, info, info', hinfo, rfl, hresult, hinfo', htext, hrereads, hparse,
    hload _ (by decide) (by decide +kernel)⟩

end NeoScript
