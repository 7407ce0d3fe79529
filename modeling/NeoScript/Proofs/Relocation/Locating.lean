import NeoScript.Proofs.FlowGraph.Build
import NeoScript.Proofs.Relocation.Lookup
import NeoScript.Proofs.Relocation.Widening
import NeoScript.Proofs.Revision.Proper

/-!
# Locating — targets of a revised program by position

* `Segment.HeadAt` — where a segment begins, before and after the revision;
* `Rewrites` — a revision replaces segments of the runs of a graph;
* `Rewrites.exists_located` — every reference has a position: that of the segment whose first
  instruction was its target.
-/

namespace NeoScript

namespace Segment

theorem length_pieces (s : Segment) : s.pieces.length = s.news.length := by
  cases s <;> simp [pieces, news]

theorem length_flatMap_pieces (segments : List Segment) :
    (segments.flatMap pieces).length = (segments.flatMap news).length := by
  simp only [List.length_flatMap, length_pieces]

/-- The number that the first piece of a segment keeps or replaces. -/
theorem exists_cons (s : Segment) : ∃ head rest piece pieces first others, s.olds = head :: rest ∧
    s.pieces = piece :: pieces ∧ s.news = first :: others ∧ piece.id? = some head.1 := by
  cases s with
  | kept entry => exact ⟨entry, [], .keep entry.1, [], entry.2, [], rfl, rfl, rfl, rfl⟩
  | replaced head rest first others =>
      exact ⟨head, rest, .standIn first head.1, others.map .fresh, first, others, rfl,
        rfl, rfl, rfl⟩

/-- A segment begins at these positions of the old and of the new instructions. -/
def HeadAt (segments : List Segment) (k j : Nat) : Prop :=
  ∃ before s after, segments = before ++ s :: after ∧ (before.flatMap olds).length = k ∧
    (before.flatMap news).length = j

/-- At the head of a segment stands the piece that keeps or replaces its first instruction. -/
theorem HeadAt.exists_piece {segments : List Segment} {k j : Nat} (h : HeadAt segments k j) :
    ∃ entry piece, (segments.flatMap olds)[k]? = some entry ∧
      (segments.flatMap pieces)[j]? = some piece ∧ piece.id? = some entry.1 := by
  obtain ⟨before, s, after, rfl, rfl, rfl⟩ := h
  obtain ⟨head, rest, piece, pieces, first, others, holds, hpieces, _, hid⟩ := s.exists_cons
  refine ⟨head, piece, ?_, ?_, hid⟩
  · simp [holds]
  · rw [← length_flatMap_pieces]
    simp [-List.length_flatMap, hpieces]

theorem HeadAt.lt_length {segments : List Segment} {k j : Nat} (h : HeadAt segments k j) :
    j < (segments.flatMap news).length := by
  obtain ⟨entry, piece, _, hpiece, _⟩ := h.exists_piece
  rw [← length_flatMap_pieces]
  exact (List.getElem?_eq_some_iff.1 hpiece).1

end Segment

/-! ## Revisions of a graph -/

/-- A revision replaces proper segments of the runs of a graph. -/
structure Rewrites (g : FlowGraph) (script : Script) (starts : List Nat)
    (groups : List (List (Instruction × Nat))) (parts : List (List Segment)) (r : Revision) :
    Prop where
  graph : g.Describes script starts groups
  olds : List.Forall₂ (fun group segments => segments.flatMap Segment.olds = group.map Prod.swap)
    groups parts
  proper : ∀ s ∈ parts.flatten, s.Proper
  edited : Edited (.identity g) g.order (parts.flatten.flatMap Segment.pieces) r.order r

/-- Runs and their segments hold the same instructions. -/
theorem flatMap_olds_of_forall₂ {groups : List (List (Instruction × Nat))}
    {parts : List (List Segment)}
    (h : List.Forall₂ (fun group segments => segments.flatMap Segment.olds = group.map Prod.swap)
      groups parts) : parts.flatten.flatMap Segment.olds = groups.flatten.map Prod.swap := by
  induction h with
  | nil => rfl
  | cons heq _ ih =>
      rw [List.flatten_cons, List.flatMap_append, heq, ih, List.flatten_cons, List.map_append]

variable {g : FlowGraph} {script : Script} {code : Code} {starts : List Nat}
  {groups : List (List (Instruction × Nat))} {parts : List (List Segment)} {r : Revision}

namespace Rewrites

/-- The segments of a revision hold the instructions of the script with their numbers. -/
theorem flatMap_olds (h : Rewrites g script starts groups parts r) :
    parts.flatten.flatMap Segment.olds = script.instructions.toList.zipIdx.map Prod.swap := by
  rw [← h.graph.cut.flatten, flatMap_olds_of_forall₂ h.olds]

theorem getElem?_olds (h : Rewrites g script starts groups parts r) (k : Nat) :
    (parts.flatten.flatMap Segment.olds)[k]? = (script.instructions[k]?).map fun ins =>
      (k, ins) := by
  rw [h.flatMap_olds, List.getElem?_map, List.getElem?_zipIdx, Array.getElem?_toList]
  simp [Option.map_map, Function.comp_def]

/-- Every block begins with a segment. -/
theorem exists_headAt (h : Rewrites g script starts groups parts r) {t : Nat} {target : Instruction}
    (htarget : script.instructions[t]? = some target) (hstart : script.IsStart starts target.pc) :
    ∃ j, Segment.HeadAt parts.flatten t j := by
  obtain ⟨before, rest, after, heq⟩ := h.graph.cut.exists_split htarget hstart
  have hlength := h.graph.cut.length_before heq
  have holds := h.olds
  rw [heq] at holds
  obtain ⟨front, back, rfl, hfront, hback⟩ := Sequencing.exists_append_of_forall₂ holds
  obtain ⟨segments, back, hsegments, _, rfl⟩ := List.forall₂_cons_left_iff.1 hback
  cases segments with
  | nil => cases hsegments
  | cons s segments =>
      refine ⟨_, front.flatten, s, segments ++ back.flatten, by simp, ?_, rfl⟩
      rw [flatMap_olds_of_forall₂ hfront, List.length_map, hlength]

end Rewrites

/-! ## Targets -/

open Relocation

/-- The positions to which an instruction of a script leads after a revision. -/
inductive TargetsAt (script : Script) (segments : List Segment) (ins : Instruction) :
    List (Option Nat) → Prop where
  | plain (hsingle : ins.op.hasSingleTarget = false) (htry : ins.op.isTry = false) :
      TargetsAt script segments ins []
  | single {t j : Nat} (hsingle : ins.op.hasSingleTarget = true)
      (htarget : script.jumpTarget? ins = some t) (hhead : Segment.HeadAt segments t j) :
      TargetsAt script segments ins [some j]
  | handlers {handlers : HandlerIds} {c f : Option Nat} (htry : ins.op.isTry = true)
      (hhandlers : script.handlerTargets? ins = some handlers)
      (hc : Option.Rel (Segment.HeadAt segments) handlers.catchId c)
      (hf : Option.Rel (Segment.HeadAt segments) handlers.finallyId f) :
      TargetsAt script segments ins [c, f]

namespace Rewrites

/-- What a reference follows is found where its segment begins. -/
theorem positionOf_headAt (h : Rewrites g script starts groups parts r) {f : InstrId → InstrId}
    (hown : List.Forall₂ (fun piece id => ∀ old, Piece.id? piece = some old → f old = id)
      (parts.flatten.flatMap Segment.pieces) r.order) {t j : Nat}
    (hhead : Segment.HeadAt parts.flatten t j) : positionOf (positions r.order) (f t) = .ok j := by
  obtain ⟨entry, piece, hentry, hpiece, hid⟩ := hhead.exists_piece
  rw [h.getElem?_olds] at hentry
  obtain ⟨ins, _, rfl⟩ := Option.map_eq_some_iff.1 hentry
  obtain ⟨id, hget, hmoved⟩ := Sequencing.exists_getElem?_of_forall₂ hown hpiece
  rw [hmoved t hid]
  exact (positionOf_eq_ok_iff h.edited.nodup).2 hget

/-- A handler has a position if it is there. -/
theorem exists_handlerPosition (h : Rewrites g script starts groups parts r)
    (hvalid : script.IsValid code) {f : InstrId → InstrId}
    (hown : List.Forall₂ (fun piece id => ∀ old, Piece.id? piece = some old → f old = id)
      (parts.flatten.flatMap Segment.pieces) r.order) {ins : Instruction}
    (hins : ins ∈ script.instructions.toList) (offset : Int)
    (hoffset : offset ≠ 0 → offset ∈ relativeTargets ins) :
    ∃ c, handlerPosition (positions r.order) ((script.handlerId? ins offset).map f) = .ok c ∧
      Option.Rel (Segment.HeadAt parts.flatten) (script.handlerId? ins offset) c := by
  by_cases hzero : offset = 0
  · refine ⟨none, ?_, ?_⟩ <;> simp [Script.handlerId?, hzero, handlerPosition]
  · obtain ⟨t, target, htarget, hget, hpc⟩ := hvalid.exists_targetId? hins (hoffset hzero)
    have hstart := Script.IsStart.of_target hins (hoffset hzero) hpc starts
    obtain ⟨j, hhead⟩ := h.exists_headAt hget hstart
    have hposition := h.positionOf_headAt hown hhead
    refine ⟨some j, ?_, ?_⟩
    · simp [Script.handlerId?, hzero, htarget, handlerPosition, hposition, Except.map]
    · simp only [Script.handlerId?, hzero, if_false, htarget]
      exact .some hhead

/-- The targets of an instruction of a valid script are found at heads of segments. -/
theorem exists_targetsOf (h : Rewrites g script starts groups parts r)
    (hvalid : script.IsValid code)
    {k : Nat} {ins : Instruction} (hk : script.instructions[k]? = some ins) :
    ∃ targets, targetsOf r.references (positions r.order) k ins.op = .ok targets ∧
      TargetsAt script parts.flatten ins targets := by
  have hins : ins ∈ script.instructions.toList := Array.mem_toList_iff.2 (Array.mem_of_getElem? hk)
  obtain ⟨f, hrenamed, _, hown⟩ := h.edited.renamed
  have hfits := hvalid.fits hins
  rcases ins.op.refers_cases with hsingle | htry | ⟨hsingle, htry⟩
  · obtain ⟨offset, hoffset⟩ := hfits.exists_jumpOffset? hsingle
    have hmem : offset ∈ relativeTargets ins := by
      simp [Instruction.relativeTargets_of_jumpOffset? hoffset]
    -- The target starts a block, so it is the head of its segment and has a position.
    obtain ⟨t, target, htarget, hget, hpc⟩ := hvalid.exists_targetId? hins hmem
    obtain ⟨j, hhead⟩ := h.exists_headAt hget (Script.IsStart.of_target hins hmem hpc starts)
    have hjump : script.jumpTarget? ins = some t := by
      simp [Script.jumpTarget?, hoffset, htarget]
    -- The graph records the target, and the revision what has taken its place.
    have hrecord : r.references.jumps[k]? = some (f t) := by
      rw [hrenamed.jumps k]
      change (g.references.jumps[k]?).map f = _
      rw [h.graph.references.jumps k, hk, Option.bind_some, hjump, Option.map_some]
    refine ⟨[some j], ?_, .single hsingle hjump hhead⟩
    simp [targetsOf, hsingle, hrecord, h.positionOf_headAt hown hhead, Except.map]
  · have hsingle := Opcode.hasSingleTarget_of_isTry htry
    obtain ⟨a, b, hoffsets⟩ := hfits.exists_handlerOffsets? htry
    have hrelative := Instruction.relativeTargets_of_isTry htry hoffsets
    obtain ⟨c, hc, hcrel⟩ := h.exists_handlerPosition hvalid hown hins a (by simp [hrelative])
    obtain ⟨d, hd, hdrel⟩ := h.exists_handlerPosition hvalid hown hins b (by simp [hrelative])
    have hhandlers : script.handlerTargets? ins =
        some ⟨script.handlerId? ins a, script.handlerId? ins b⟩ := by
      simp [Script.handlerTargets?, hoffsets]
    have hrecord : r.references.tries[k]? =
        some (HandlerIds.map f ⟨script.handlerId? ins a, script.handlerId? ins b⟩) := by
      rw [hrenamed.tries k]
      change (g.references.tries[k]?).map (·.map f) = _
      rw [h.graph.references.tries k, hk, Option.bind_some, hhandlers, Option.map_some]
    refine ⟨[c, d], ?_, .handlers htry hhandlers hcrel hdrel⟩
    simp only [targetsOf, hsingle, Bool.false_eq_true, if_false, htry, if_true, hrecord,
      Option.getD_some]
    exact Sequencing.bind_eq_ok.2 ⟨c, hc, Sequencing.bind_eq_ok.2 ⟨d, hd, rfl⟩⟩
  · exact ⟨[], by simp [targetsOf, hsingle, htry], .plain hsingle htry⟩

end Rewrites

/-! ## Instructions -/

/-- What becomes of a piece: a kept instruction with its targets, or a local one. -/
inductive LocatedAs (script : Script) (segments : List Segment) : Piece → Located → Prop where
  | keep {k : Nat} {ins : Instruction} {targets : List (Option Nat)}
      (hk : script.instructions[k]? = some ins) (htargets : TargetsAt script segments ins targets) :
      LocatedAs script segments (.keep k) ⟨ins, targets⟩
  | standIn {ins : Instruction} {old : InstrId} (hlocal : ins.op.isLocal = true)
      (hfits : ins.Fits) : LocatedAs script segments (.standIn ins old) ⟨ins, []⟩
  | fresh {ins : Instruction} (hlocal : ins.op.isLocal = true) (hfits : ins.Fits) :
      LocatedAs script segments (.fresh ins) ⟨ins, []⟩

theorem Relocation.targetsOf_of_isLocal {references : References} {table : Std.TreeMap InstrId Nat}
    {id : InstrId} {op : Opcode} (h : op.isLocal = true) :
    targetsOf references table id op = .ok [] := by
  obtain ⟨hstraight, hsingle⟩ := Opcode.isLocal_iff.1 h
  simp [targetsOf, hsingle, Opcode.isTry_of_straight hstraight]

namespace Rewrites

theorem getElem?_of_mem_olds (h : Rewrites g script starts groups parts r) (entry : Numbered)
    (hentry : entry ∈ parts.flatten.flatMap Segment.olds) :
    script.instructions[entry.1]? = some entry.2 := by
  rw [h.flatMap_olds] at hentry
  obtain ⟨⟨ins, k⟩, hmem, rfl⟩ := List.mem_map.1 hentry
  rwa [List.mk_mem_zipIdx_iff_getElem?, Array.getElem?_toList] at hmem

/-- The pieces of a proper segment: kept instructions of the script and local ones. -/
theorem mem_pieces (h : Rewrites g script starts groups parts r) {piece : Piece}
    (hpiece : piece ∈ parts.flatten.flatMap Segment.pieces) :
    (∃ k ins, piece = .keep k ∧ script.instructions[k]? = some ins) ∨
      ∃ ins : Instruction, ins.op.isLocal = true ∧ ins.Fits ∧
        ((∃ old, piece = .standIn ins old) ∨ piece = .fresh ins) := by
  obtain ⟨s, hs, hpiece⟩ := List.mem_flatMap.1 hpiece
  cases h.proper s hs with
  | kept entry =>
      obtain rfl := List.mem_singleton.1 hpiece
      have hentry : entry ∈ parts.flatten.flatMap Segment.olds :=
        List.mem_flatMap.2 ⟨_, hs, List.mem_singleton.2 rfl⟩
      exact .inl ⟨entry.1, entry.2, rfl, h.getElem?_of_mem_olds entry hentry⟩
  | @replaced head rest first others _ hnews _ _ =>
      refine .inr ?_
      rcases List.mem_cons.1 hpiece with rfl | hfresh
      · obtain ⟨hlocal, hfits⟩ := hnews first (List.mem_cons_self ..)
        exact ⟨first, hlocal, hfits, .inl ⟨head.1, rfl⟩⟩
      · obtain ⟨ins, hins, rfl⟩ := List.mem_map.1 hfresh
        obtain ⟨hlocal, hfits⟩ := hnews ins (List.mem_cons_of_mem _ hins)
        exact ⟨ins, hlocal, hfits, .inr rfl⟩

/-- The instruction of a piece, with its targets. -/
theorem exists_locatedAs (h : Rewrites g script starts groups parts r)
    (hvalid : script.IsValid code)
    {piece : Piece} (hpiece : piece ∈ parts.flatten.flatMap Segment.pieces) {id : InstrId}
    (hplaced : Piece.PlacedAs g.arena r.arena piece id) :
    ∃ l, LocatedBy r id l ∧ LocatedAs script parts.flatten piece l := by
  rcases h.mem_pieces hpiece with ⟨k, ins, rfl, hk⟩ | ⟨ins, hlocal, hfits, ⟨old, rfl⟩ | rfl⟩
  · obtain ⟨targets, htargets, hat⟩ := h.exists_targetsOf hvalid hk
    have hget : g.arena.get? k = some ins := by
      rw [h.graph.arena, Arena.get?_ofInstructions, hk]
    -- The arena only grows, so a kept instruction is read from it as before.
    have hlt : k < g.arena.size := by
      obtain ⟨entry, hentry, _⟩ := Option.map_eq_some_iff.1 hget
      exact Arena.lt_size_of_getElem? hentry
    cases hplaced
    exact ⟨⟨ins, targets⟩, ⟨(h.edited.grows.get?_eq hlt).trans hget, htargets⟩, .keep hk hat⟩
  · cases hplaced with
    | standIn _ hentry =>
        exact ⟨⟨ins, []⟩, ⟨by simp [Arena.get?, hentry], targetsOf_of_isLocal hlocal⟩,
          .standIn hlocal hfits⟩
  · cases hplaced with
    | fresh _ hentry =>
        exact ⟨⟨ins, []⟩, ⟨by simp [Arena.get?, hentry], targetsOf_of_isLocal hlocal⟩,
          .fresh hlocal hfits⟩

/-- Every piece is located. -/
theorem exists_located (h : Rewrites g script starts groups parts r)
    (hvalid : script.IsValid code) :
    ∃ program, locate r = .ok program ∧
      List.Forall₂ (LocatedAs script parts.flatten)
        (parts.flatten.flatMap Segment.pieces) program := by
  have hplaced := (List.forall₂_and_left (p := (· ∈ parts.flatten.flatMap Segment.pieces)) _ _).2
    ⟨fun _ hpiece => hpiece, h.edited.placed⟩
  have hboth : ∀ id piece, piece ∈ parts.flatten.flatMap Segment.pieces ∧
      Piece.PlacedAs g.arena r.arena piece id →
      ∃ l, LocatedBy r id l ∧ LocatedAs script parts.flatten piece l :=
    fun _ _ hpiece => h.exists_locatedAs hvalid hpiece.1 hpiece.2
  obtain ⟨program, hlocated, hpieces⟩ :=
    Sequencing.exists_middle_of_forall₂ (S := fun l piece =>
      LocatedAs script parts.flatten piece l) hboth
      (List.Forall₂.flip hplaced)
  exact ⟨program, locate_eq_ok_iff.2 hlocated, List.Forall₂.flip hpieces⟩

/-- No handler of a try is the try itself. -/
theorem ne_of_handlerId? (hvalid : script.IsValid code) {k t : Nat} {ins : Instruction}
    (hk : script.instructions[k]? = some ins) {offset : Int}
    (hoffset : offset ≠ 0 → offset ∈ relativeTargets ins)
    (ht : script.handlerId? ins offset = some t) : t ≠ k := by
  have hins : ins ∈ script.instructions.toList := Array.mem_toList_iff.2 (Array.mem_of_getElem? hk)
  unfold Script.handlerId? at ht
  split at ht
  · cases ht
  · rename_i hzero
    obtain ⟨t', target, htarget, hget, hpc⟩ := hvalid.exists_targetId? hins (hoffset hzero)
    obtain rfl : t = t' := Option.some.inj (ht.symm.trans htarget)
    rintro rfl
    obtain rfl : target = ins := Option.some.inj (hget.symm.trans hk)
    omega

/-- The first piece of a segment tells where it was. -/
theorem eq_of_headAt (h : Rewrites g script starts groups parts r) {t j k : Nat}
    (hhead : Segment.HeadAt parts.flatten t j)
    (hpiece : (parts.flatten.flatMap Segment.pieces)[j]? = some (.keep k)) : t = k := by
  obtain ⟨entry, piece, hentry, hpiece', hid⟩ := hhead.exists_piece
  rw [hpiece] at hpiece'
  cases hpiece'
  rw [h.getElem?_olds] at hentry
  obtain ⟨ins, _, rfl⟩ := Option.map_eq_some_iff.1 hentry
  exact (Option.some.inj hid).symm

/-- A program that was located from a valid script is sound. -/
theorem soundProgram (h : Rewrites g script starts groups parts r) (hvalid : script.IsValid code)
    {program : List Located}
    (hprogram : List.Forall₂ (LocatedAs script parts.flatten) (parts.flatten.flatMap Segment.pieces)
      program) : SoundProgram program := by
  intro j l hl
  have hlength : (parts.flatten.flatMap Segment.news).length = program.length := by
    rw [← Segment.length_flatMap_pieces, hprogram.length_eq]
  obtain ⟨piece, hpiece, hlocated⟩ :=
    Sequencing.exists_getElem?_of_forall₂ (List.Forall₂.flip hprogram) hl
  have hlocal : ∀ ins : Instruction, ins.op.isLocal = true → ins.Fits →
      (Located.mk ins []).Sound program.length j := by
    intro ins hlocal hfits
    obtain ⟨hstraight, hsingle⟩ := Opcode.isLocal_iff.1 hlocal
    exact ⟨.plain hsingle (Opcode.isTry_of_straight hstraight) rfl, fun _ _ => hfits,
      fun _ => List.not_mem_nil⟩
  cases hlocated with
  | standIn hins hfits => exact hlocal _ hins hfits
  | fresh hins hfits => exact hlocal _ hins hfits
  | @keep k ins targets hk htargets =>
      have hins : ins ∈ script.instructions.toList :=
        Array.mem_toList_iff.2 (Array.mem_of_getElem? hk)
      have hfits := hvalid.fits hins
      cases htargets with
      | plain hsingle htry =>
          exact ⟨.plain hsingle htry rfl, fun _ _ => hfits, fun _ => List.not_mem_nil⟩
      | single hsingle _ hhead =>
          refine ⟨.single hsingle rfl (hlength ▸ hhead.lt_length), fun _ _ => hfits, fun htry => ?_⟩
          rw [Opcode.hasSingleTarget_of_isTry htry] at hsingle
          cases hsingle
      | @handlers ids c f htry hhandlers hc hf =>
          obtain ⟨⟨a, b⟩, hoffsets, rfl⟩ := Option.map_eq_some_iff.1 hhandlers
          have hrelative := Instruction.relativeTargets_of_isTry htry hoffsets
          -- An offset of zero is no handler, so no handler is the instruction itself.
          have hbound : ∀ {offset : Int} {c : Option Nat},
              (offset ≠ 0 → offset ∈ relativeTargets ins) →
              Option.Rel (Segment.HeadAt parts.flatten) (script.handlerId? ins offset) c →
              ∀ t, c = some t → t < program.length ∧ t ≠ j := by
            rintro offset _ hoffset hrel t rfl
            generalize hid : script.handlerId? ins offset = id at hrel
            cases hrel with
            | some hhead =>
                refine ⟨hlength ▸ hhead.lt_length, ?_⟩
                rintro rfl
                exact ne_of_handlerId? hvalid hk hoffset hid (h.eq_of_headAt hhead hpiece)
          have hc' := hbound (by simp [hrelative]) hc
          have hf' := hbound (by simp [hrelative]) hf
          refine ⟨.handlers htry rfl (fun t ht => (hc' t ht).1) (fun t ht => (hf' t ht).1),
            fun _ _ => hfits, fun _ hmem => ?_⟩
          rcases List.mem_pair.1 hmem with hj | hj
          · exact (hc' j hj.symm).2 rfl
          · exact (hf' j hj.symm).2 rfl

end Rewrites

end NeoScript
