import NeoScript.Proofs.Relocation.Minimality
import NeoScript.Proofs.Relocation.Transfer
import NeoScript.Proofs.Revision.Size

/-!
# Contraction — revisions that do not push instructions apart

Where no segment gets longer, two segments keep their order and are never further apart than they
were.  A short reference reached its target in the old script, so it reaches it in the new one.

* `Segment.HeadAt.exists_gap` — the distance of two segments, before and after;
* `Rewrites.inReach` — every short reference reaches its targets;
* `Rewrites.exists_contracted` — relocation lengthens nothing, and addresses follow from the new
  sizes.
-/

namespace NeoScript

namespace Segment

/-- A segment in front shifts the positions of those behind it. -/
theorem HeadAt.cons {segments : List Segment} {k j : Nat} (h : HeadAt segments k j) (s : Segment) :
    HeadAt (s :: segments) (s.olds.length + k) (s.news.length + j) := by
  obtain ⟨before, s', after, rfl, rfl, rfl⟩ := h
  exact ⟨s :: before, s', after, rfl, by simp, by simp⟩

/-- A piece that keeps an instruction is the whole of its segment. -/
theorem exists_headAt_of_keep {segments : List Segment} {j : Nat} {k : InstrId}
    (h : (segments.flatMap pieces)[j]? = some (.keep k)) : ∃ t, HeadAt segments t j := by
  induction segments generalizing j with
  | nil => simp at h
  | cons s segments ih =>
      rw [List.flatMap_cons, List.getElem?_append] at h
      split at h
      · rename_i hlt
        cases s with
        | kept entry =>
            obtain rfl : j = 0 := Nat.lt_one_iff.1 hlt
            exact ⟨0, [], .kept entry, segments, rfl, rfl, rfl⟩
        | replaced head rest first others =>
            have hmem := List.mem_of_getElem? h
            simp [pieces] at hmem
      · rename_i hge
        obtain ⟨t, ht⟩ := ih h
        have hj : s.news.length + (j - s.pieces.length) = j := by
          rw [← s.length_pieces]
          omega
        exact ⟨_, hj ▸ ht.cons s⟩

/-- Two segments keep their order, and they do not move apart. -/
theorem HeadAt.exists_gap {segments : List Segment} (hshrinks : ∀ s ∈ segments, s.Shrinks)
    {k j t i : Nat} (hk : HeadAt segments k j) (ht : HeadAt segments t i) :
    ∃ gap gap', gap ≤ gap' ∧
      (totalSize ((segments.flatMap news).take i) =
        totalSize ((segments.flatMap news).take j) + gap ∧
          totalSize (((segments.flatMap olds).map (·.2)).take t) =
            totalSize (((segments.flatMap olds).map (·.2)).take k) + gap' ∨
        totalSize ((segments.flatMap news).take j) =
          totalSize ((segments.flatMap news).take i) + gap ∧
          totalSize (((segments.flatMap olds).map (·.2)).take k) =
            totalSize (((segments.flatMap olds).map (·.2)).take t) + gap') := by
  obtain ⟨before, s, after, heq, rfl, rfl⟩ := hk
  obtain ⟨before', s', after', heq', rfl, rfl⟩ := ht
  have htakeNew : ∀ {front back : List Segment}, segments = front ++ back →
      (segments.flatMap news).take (front.flatMap news).length = front.flatMap news := by
    rintro front back rfl
    rw [List.flatMap_append, List.take_left]
  have htakeOld : ∀ {front back : List Segment}, segments = front ++ back →
      ((segments.flatMap olds).map (·.2)).take (front.flatMap olds).length =
        (front.flatMap olds).map (·.2) := by
    rintro front back rfl
    rw [List.flatMap_append, List.map_append, List.take_left' (List.length_map _)]
  rw [htakeNew heq, htakeNew heq', htakeOld heq, htakeOld heq']
  -- One of the two is in front: the gap is what lies between, and that has not grown.
  rcases List.append_eq_append_iff.1 (heq.symm.trans heq') with ⟨between, rfl, _⟩ |
    ⟨between, rfl, _⟩
  · refine ⟨totalSize (between.flatMap news), totalSize ((between.flatMap olds).map (·.2)),
      ?_, .inl ?_⟩
    · refine totalSize_flatMap_news_le fun s hs => hshrinks s ?_
      rw [heq']
      simp [hs]
    · simp
  · refine ⟨totalSize (between.flatMap news), totalSize ((between.flatMap olds).map (·.2)),
      ?_, .inr ?_⟩
    · refine totalSize_flatMap_news_le fun s hs => hshrinks s ?_
      rw [heq]
      simp [hs]
    · simp

end Segment

/-! ## Short operands -/

open Relocation

namespace Instruction

variable {ins : Instruction}

/-- A number that was read from some bytes fits as many. -/
theorem fitsSigned_of_signedAt? {start width : Nat} {value : Int} (hpos : 0 < width)
    (h : ins.signedAt? start width = some value) : Bytes.fitsSigned width value = true := by
  obtain ⟨slice, hslice, rfl⟩ := Option.map_eq_some_iff.1 h
  unfold operandSlice? at hslice
  split at hslice
  · have hlength : slice.length = width := by
      rw [← Option.some.inj hslice, List.length_take, List.length_drop]
      omega
    rw [← hlength] at hpos ⊢
    exact Bytes.fitsSigned_toInt hpos
  · cases hslice

/-- The addresses that an instruction names fit its operand. -/
theorem Fits.fitsSigned_of_mem (h : ins.Fits) {offset : Int} (hmem : offset ∈ relativeTargets ins) :
    Bytes.fitsSigned ins.op.reachWidth offset = true := by
  have hpos := ins.op.reachWidth_pos
  rcases ins.op.refers_cases with hsingle | htry | ⟨hsingle, htry⟩
  · obtain ⟨a, ha⟩ := h.exists_jumpOffset? hsingle
    rw [relativeTargets_of_jumpOffset? ha, List.mem_singleton] at hmem
    rw [jumpOffset?_eq hsingle] at ha
    rw [hmem]
    exact fitsSigned_of_signedAt? hpos ha
  · obtain ⟨a, b, hoffsets⟩ := h.exists_handlerOffsets? htry
    rw [relativeTargets_of_isTry htry hoffsets] at hmem
    obtain ⟨ha, hb⟩ := signedAt?_of_handlerOffsets? htry hoffsets
    rcases List.mem_cons.1 (List.mem_of_mem_filter hmem) with rfl | hlast
    · exact fitsSigned_of_signedAt? hpos ha
    · rw [List.mem_singleton.1 hlast]
      exact fitsSigned_of_signedAt? hpos hb
  · simp [relativeTargets, jumpOffset?_eq_none hsingle, handlerOffsets?_eq_none htry] at hmem

end Instruction

theorem Relocation.reachWidth_of_isShort {op : Opcode} (h : isShort op = true) :
    op.reachWidth = 1 := by
  rw [Opcode.reachWidth, (isShort_iff.1 h).2]
  rfl

theorem Relocation.isShort_of_isLocal {op : Opcode} (h : op.isLocal = true) :
    isShort op = false := by
  obtain ⟨hstraight, hsingle⟩ := Opcode.isLocal_iff.1 h
  rw [Bool.eq_false_iff]
  intro hshort
  simpa [hsingle, Opcode.isTry_of_straight hstraight] using (isShort_iff.1 hshort).1

/-! ## Revisions that do not grow -/

namespace Rewrites

variable {g : FlowGraph} {script : Script} {code : Code} {starts : List Nat}
  {groups : List (List (Instruction × Nat))} {parts : List (List Segment)} {r : Revision}
  {program : List Located}
  (h : Rewrites g script starts groups parts r) (hvalid : script.IsValid code)
  (hshrinks : ∀ s ∈ parts.flatten, s.Shrinks)
  (hprogram : List.Forall₂ (LocatedAs script parts.flatten)
    (parts.flatten.flatMap Segment.pieces) program)
include h hvalid hshrinks hprogram

/-- A target that was in reach of one byte stays in reach. -/
theorem reaches_of_headAt {k j t i : Nat} (hk : Segment.HeadAt parts.flatten k j)
    (ht : Segment.HeadAt parts.flatten t i) {ins target : Instruction}
    (hins : script.instructions[k]? = some ins) (htarget : script.instructions[t]? = some target)
    {offset : Int} (hpc : (target.pc : Int) = ins.pc + offset)
    (hreach : -128 ≤ offset ∧ offset ≤ 127) :
    -128 ≤ (address program i : Int) - address program j ∧
      (address program i : Int) - address program j ≤ 127 := by
  have hold : ∀ {n : Nat} {x : Instruction}, script.instructions[n]? = some x →
      x.pc = totalSize (((parts.flatten.flatMap Segment.olds).map (·.2)).take n) := by
    intro n x hx
    rw [← Array.getElem?_toList] at hx
    obtain ⟨hlt, rfl⟩ := List.getElem?_eq_some_iff.1 hx
    rw [h.map_olds, hvalid.placed.getElem_pc hlt, Nat.zero_add]
  have hnew : ∀ {n m : Nat}, Segment.HeadAt parts.flatten n m →
      address program m = totalSize ((parts.flatten.flatMap Segment.news).take m) := by
    intro n m hhead
    have hlt : m < program.length := by
      rw [← hprogram.length_eq, Segment.length_flatMap_pieces]
      exact hhead.lt_length
    rw [address_eq hlt, h.map_instruction hprogram]
  -- In the new layout the two are no further apart than in the old one.
  obtain ⟨gap, gap', hle, hgap⟩ := hk.exists_gap hshrinks ht
  rw [← hnew hk, ← hnew ht, ← hold hins, ← hold htarget] at hgap
  omega

/-- What a short operand names was in reach of one byte. -/
theorem reaches_of_targetId? {k j t i : Nat} (hk : Segment.HeadAt parts.flatten k j)
    {ins : Instruction}
    (hins : script.instructions[k]? = some ins) (hshort : isShort ins.op = true) {offset : Int}
    (hmem : offset ∈ relativeTargets ins) (ht : script.targetId? ins offset = some t)
    (hi : Segment.HeadAt parts.flatten t i) :
    -128 ≤ distanceTo (layout program).2 (address program j) (some i) ∧
      distanceTo (layout program).2 (address program j) (some i) ≤ 127 := by
  have hold := Array.mem_toList_iff.2 (Array.mem_of_getElem? hins)
  obtain ⟨t', target, ht', hget, hpc⟩ := hvalid.exists_targetId? hold hmem
  obtain rfl := Option.some.inj (ht.symm.trans ht')
  have hfits := (hvalid.fits hold).fitsSigned_of_mem hmem
  rw [reachWidth_of_isShort hshort, fitsSigned_one_iff] at hfits
  exact h.reaches_of_headAt hvalid hshrinks hprogram hk hi hins hget hpc hfits

/-- A handler was in reach of one byte, or it is absent. -/
theorem reaches_of_handlerId? {k j : Nat} (hk : Segment.HeadAt parts.flatten k j)
    {ins : Instruction}
    (hins : script.instructions[k]? = some ins) (hshort : isShort ins.op = true) {offset : Int}
    (hmem : offset ≠ 0 → offset ∈ relativeTargets ins) {c : Option Nat}
    (hc : Option.Rel (Segment.HeadAt parts.flatten) (script.handlerId? ins offset) c) :
    -128 ≤ distanceTo (layout program).2 (address program j) c ∧
      distanceTo (layout program).2 (address program j) c ≤ 127 := by
  generalize hid : script.handlerId? ins offset = id at hc
  cases hc with
  | none => simp [distanceTo]
  | some hi =>
      unfold Script.handlerId? at hid
      split at hid
      · cases hid
      · exact h.reaches_of_targetId? hvalid hshrinks hprogram hk hins hshort (hmem ‹_›) hid hi

/-- Every short reference of a revision that does not grow reaches its targets. -/
theorem inReach : InReach program := by
  intro j l hl hshort d hd
  obtain ⟨piece, hpiece, hlocated⟩ :=
    Sequencing.exists_getElem?_of_forall₂ (List.Forall₂.flip hprogram) hl
  cases hlocated with
  | standIn hins _ => rw [isShort_of_isLocal hins] at hshort; cases hshort
  | fresh hins _ => rw [isShort_of_isLocal hins] at hshort; cases hshort
  | @keep k ins targets hins htargets =>
      -- Only a kept instruction refers, and it has its segment to itself.
      obtain ⟨k', hk⟩ := Segment.exists_headAt_of_keep hpiece
      obtain rfl := h.eq_of_headAt hk hpiece
      rw [distances_eq] at hd
      obtain ⟨target, htarget, rfl⟩ := List.mem_map.1 hd
      cases htargets with
      | plain => cases htarget
      | @single t i hsingle hjump hi =>
          obtain rfl := List.mem_singleton.1 htarget
          obtain ⟨offset, hoffset, ht⟩ := Option.bind_eq_some_iff.1 hjump
          have hmem : offset ∈ relativeTargets ins := by
            simp [Instruction.relativeTargets_of_jumpOffset? hoffset]
          exact h.reaches_of_targetId? hvalid hshrinks hprogram hk hins hshort hmem ht hi
      | @handlers handlers c f htry hhandlers hc hf =>
          obtain ⟨⟨a, b⟩, hoffsets, rfl⟩ := Option.map_eq_some_iff.1 hhandlers
          have hmem : ∀ offset ∈ [a, b], offset ≠ 0 → offset ∈ relativeTargets ins := by
            intro offset hoffset hne
            rw [Instruction.relativeTargets_of_isTry htry hoffsets]
            exact List.mem_filter.2 ⟨hoffset, decide_eq_true hne⟩
          rcases List.mem_cons.1 htarget with rfl | hlast
          · exact h.reaches_of_handlerId? hvalid hshrinks hprogram hk hins hshort
              (hmem a (by simp)) hc
          · obtain rfl := List.mem_singleton.1 hlast
            exact h.reaches_of_handlerId? hvalid hshrinks hprogram hk hins hshort
              (hmem b (by simp)) hf

end Rewrites

/-- If all targets are in reach, no reference has to be made long. -/
theorem Relocation.settled_of_inReach {program : List Located} (h : InReach program) :
    Settled program := by
  rw [Settled, strainedCount_eq_card, inReach_iff.1 h, Finset.card_empty]

/-- A settled program stays as it is. -/
theorem Relocation.Settled.widen_eq {program : List Located} (h : Settled program)
    (fuel upgraded : Nat) : widen fuel program upgraded = (program, upgraded) := by
  cases fuel with
  | zero => rfl
  | succ fuel =>
      simp only [widen]
      rw [h]

/-- Relocation of a revision that does not grow lengthens nothing: instructions keep their
operations and follow one another with the sizes that the segments have. -/
theorem Rewrites.exists_contracted {g : FlowGraph} {script : Script} {code : Code}
    {starts : List Nat}
    {groups : List (List (Instruction × Nat))} {parts : List (List Segment)} {r : Revision}
    (h : Rewrites g script starts groups parts r) (hvalid : script.IsValid code)
    (hshrinks : ∀ s ∈ parts.flatten, s.Shrinks) (hsize : code.size < 0x80000000) :
    ∃ links xs, relocate r = .ok ⟨xs, mapOf r (xs.map (·.pc)).toArray (totalSize xs), 0⟩ ∧
      Transferred script links xs ∧ links.map Prod.fst = parts.flatten ∧
      totalSize xs = totalSize (parts.flatten.flatMap Segment.news) ∧
      xs.map (·.pc) = addressesFrom 0 (parts.flatten.flatMap Segment.news) ∧
      xs.map (·.op) = (parts.flatten.flatMap Segment.news).map (·.op) := by
  obtain ⟨program, hlocate, hprogram⟩ := h.exists_located hvalid
  -- Every short reference is in reach from the start, so there is nothing to widen.
  have hwiden :=
    (settled_of_inReach (h.inReach hvalid hshrinks hprogram)).widen_eq (shortCount program) 0
  have hnews := h.map_instruction hprogram
  have hbound : totalSize ((widen (shortCount program) program 0).1.map (·.instruction)) <
      0x80000000 := by
    have hle := Segment.totalSize_flatMap_news_le hshrinks
    rw [h.map_olds, hvalid.size] at hle
    rw [hwiden, hnews]
    omega
  obtain ⟨links, xs, hrelocate, htransfer, hparts, hlayout⟩ :=
    h.transferred_of_located hvalid hlocate hprogram hbound
  have hops := (relocate_eq_ok_of_widen hlocate hrelocate).2
  rw [hwiden] at hrelocate hlayout hops
  rw [layout_eq, hnews] at hlayout
  refine ⟨links, xs, hrelocate, htransfer, hparts, ?_, ?_, ?_⟩
  · exact (congrArg Prod.fst hlayout).symm
  · exact (congrArg (fun result => result.2.toList) hlayout).symm
  · rw [← hnews, List.map_map]
    exact hops

end NeoScript
