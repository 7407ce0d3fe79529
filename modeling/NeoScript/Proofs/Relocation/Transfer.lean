import NeoScript.Proofs.Relocation.Locating
import NeoScript.Proofs.Relocation.Operands

/-!
# Transfer — an old script and the new instructions, segment by segment

* `Instruction.Carried` — the same instruction at a new address, leading to new addresses;
* `Link` — a segment and the placed instructions that stand for it, and `landings` — where links
  begin;
* `Transferred` — a script and new instructions that consist of links;
* `Rewrites.exists_transferred` — relocation of a revision gives such instructions.
-/

namespace NeoScript

/-! ## Carried instructions -/

/-- Relative addresses that lead to addresses which stand for one another. -/
def OffsetMoved (φ : Nat → Nat → Prop) (pc pc' : Nat) (a b : Int) : Prop :=
  ∃ p q, φ p q ∧ (p : Int) = pc + a ∧ (q : Int) = pc' + b

/-- Handler offsets: both absent, or leading to addresses that stand for one another. -/
inductive HandlerCarried (φ : Nat → Nat → Prop) (pc pc' : Nat) : Int → Int → Prop where
  | absent : HandlerCarried φ pc pc' 0 0
  | present {a b : Int} (ha : a ≠ 0) (hb : b ≠ 0) (h : OffsetMoved φ pc pc' a b) :
      HandlerCarried φ pc pc' a b

/-- The same instruction, up to its reach and the addresses that it names. -/
structure Instruction.Carried (φ : Nat → Nat → Prop) (i j : Instruction) : Prop where
  op : i.op.toLong = j.op.toLong
  fits : j.Fits
  operand : i.op.hasSingleTarget = false → i.op.isTry = false → i.operand = j.operand
  target : i.op.hasSingleTarget = true → ∃ a b, i.jumpOffset? = some a ∧ j.jumpOffset? = some b ∧
    OffsetMoved φ i.pc j.pc a b
  handlers : i.op.isTry = true → ∃ a b a' b', i.handlerOffsets? = some (a, b) ∧
    j.handlerOffsets? = some (a', b') ∧ HandlerCarried φ i.pc j.pc a a' ∧
    HandlerCarried φ i.pc j.pc b b'

/-! ## Links -/

/-- A segment and the placed instructions that stand for it. -/
abbrev Link := Segment × List Instruction

namespace Link

def olds (l : Link) : List Instruction := l.1.olds.map (·.2)

def news (l : Link) : List Instruction := l.2

end Link

def landings (p q : Nat) : List Link → List (Nat × Nat)
  | [] => []
  | l :: links => (p, q) :: landings (p + totalSize l.olds) (q + totalSize l.news) links

/-- The landings of links behind others are shifted by the sizes of those. -/
theorem landings_append (p q : Nat) (links links' : List Link) :
    landings p q (links ++ links') = landings p q links ++
      landings (p + totalSize (links.flatMap Link.olds))
        (q + totalSize (links.flatMap Link.news)) links' := by
  induction links generalizing p q with
  | nil => simp [landings]
  | cons l links ih => simp [landings, ih, Nat.add_assoc]

/-- A link begins at these addresses. -/
def Lands (links : List Link) (p q : Nat) : Prop :=
  (p, q) ∈ landings 0 0 links

/-- A landing is the size of the links before one of them, old and new. -/
theorem mem_landings_iff {p q a b : Nat} {links : List Link} :
    (p, q) ∈ landings a b links ↔ ∃ before l after, links = before ++ l :: after ∧
      p = a + totalSize (before.flatMap Link.olds) ∧
        q = b + totalSize (before.flatMap Link.news) := by
  constructor
  · intro h
    induction links generalizing a b with
    | nil => cases h
    | cons l links ih =>
        rcases List.mem_cons.1 h with heq | hrest
        · cases heq
          exact ⟨[], l, links, rfl, by simp, by simp⟩
        · obtain ⟨before, l', after, rfl, rfl, rfl⟩ := ih hrest
          exact ⟨l :: before, l', after, rfl, by simp [Nat.add_assoc], by simp [Nat.add_assoc]⟩
  · rintro ⟨before, l, after, rfl, rfl, rfl⟩
    rw [landings_append]
    exact List.mem_append_right _ (List.mem_cons_self ..)

/-- A link whose new instructions are what the segment asks for. -/
inductive Linked (φ : Nat → Nat → Prop) : Link → Prop where
  | kept {entry : Numbered} {ins : Instruction} (h : entry.2.Carried φ ins) :
      Linked φ (.kept entry, [ins])
  | replaced {head : Numbered} {rest : List Numbered} {first : Instruction}
      {others chunk : List Instruction}
      (h : List.Forall₂ (fun raw ins => ins.op = raw.op ∧ ins.operand = raw.operand)
        (first :: others)
        chunk) : Linked φ (.replaced head rest first others, chunk)

/-- A script and new instructions that consist of links. -/
structure Transferred (script : Script) (links : List Link) (xs : List Instruction) : Prop where
  olds : links.flatMap Link.olds = script.instructions.toList
  news : links.flatMap Link.news = xs
  placed : Placed 0 xs
  proper : ∀ l ∈ links, l.1.Proper
  linked : ∀ l ∈ links, Linked (Lands links) l

/-! ## Chunks -/

/-- What a list is related to can be split in the same way. -/
theorem exists_chunks {α β γ : Type} {R : α → β → Prop} {f : γ → List α} {segments : List γ}
    {ys : List β} (h : List.Forall₂ R (segments.flatMap f) ys) :
    ∃ chunks, chunks.flatten = ys ∧ List.Forall₂ (fun s chunk =>
      List.Forall₂ R (f s) chunk) segments chunks := by
  induction segments generalizing ys with
  | nil =>
      cases h
      exact ⟨[], rfl, .nil⟩
  | cons s segments ih =>
      rw [List.flatMap_cons] at h
      obtain ⟨chunk, rest, rfl, hchunk, hrest⟩ := Sequencing.exists_append_of_forall₂ h
      obtain ⟨chunks, rfl, hchunks⟩ := ih hrest
      exact ⟨chunk :: chunks, rfl, .cons hchunk hchunks⟩

/-! ## Relocated revisions -/

open Relocation

section Transfer

variable {g : FlowGraph} {script : Script} {code : Code} {starts : List Nat}
  {groups : List (List (Instruction × Nat))} {parts : List (List Segment)} {r : Revision}
  {xs : List Instruction}

def CarriedAs (script : Script) (segments : List Segment) (xs : List Instruction) (piece : Piece)
    (ins : Instruction) : Prop :=
  ∃ l, LocatedAs script segments piece l ∧ Rendered xs l ins

theorem flatMap_news_zip {segments : List Segment} {chunks : List (List Instruction)}
    (h : segments.length = chunks.length) :
    (segments.zip chunks).flatMap Link.news = chunks.flatten := by
  rw [List.flatMap_def]
  change ((segments.zip chunks).map Prod.snd).flatten = _
  rw [List.map_snd_zip (Nat.le_of_eq h.symm)]

theorem flatMap_olds_zip {segments : List Segment} {chunks : List (List Instruction)}
    (h : segments.length = chunks.length) :
    (segments.zip chunks).flatMap Link.olds = (segments.flatMap Segment.olds).map (·.2) := by
  rw [List.map_flatMap, ← List.map_fst_zip (Nat.le_of_eq h), List.flatMap_map,
    List.map_fst_zip (Nat.le_of_eq h)]
  rfl

/-- Positions of a segment become addresses at which its link lands. -/
theorem lands_of_headAt {segments : List Segment} {chunks : List (List Instruction)}
    (hplaced : Placed 0 script.instructions.toList)
    (holds : segments.flatMap Segment.olds = script.instructions.toList.zipIdx.map Prod.swap)
    (hxs : Placed 0 chunks.flatten)
    (hlength : List.Forall₂ (fun s chunk => s.news.length = chunk.length) segments chunks)
    {t j : Nat} (hhead : Segment.HeadAt segments t j) {target target' : Instruction}
    (htarget : script.instructions[t]? = some target)
    (htarget' : chunks.flatten[j]? = some target') :
    Lands (segments.zip chunks) target.pc target'.pc := by
  -- The segments in front and the chunks in front give both addresses as sizes.
  obtain ⟨before, s, after, rfl, rfl, rfl⟩ := hhead
  obtain ⟨front, back, rfl, hfront, hback⟩ := Sequencing.exists_append_of_forall₂ hlength
  obtain ⟨chunk, back, _, _, rfl⟩ := List.forall₂_cons_left_iff.1 hback
  have hcount : front.flatten.length = (before.flatMap Segment.news).length := by
    rw [List.length_flatMap, List.length_flatten, Sequencing.map_eq_of_forall₂ hfront]
  have hinstructions : script.instructions.toList = (before.flatMap Segment.olds).map (·.2) ++
      (s.olds ++ after.flatMap Segment.olds).map (·.2) := by
    have hsnd := congrArg (List.map (·.2)) holds
    simpa [Function.comp_def, Table.map_zipIdx id] using hsnd.symm
  refine mem_landings_iff.2 ⟨before.zip front, (s, chunk), after.zip back, ?_, ?_, ?_⟩
  · rw [List.zip_append hfront.length_eq, List.zip_cons_cons]
  · rw [flatMap_olds_zip hfront.length_eq]
    rw [hinstructions] at hplaced
    refine hplaced.pc_of_getElem?_append (List.length_map _) ?_
    rw [← hinstructions, Array.getElem?_toList, htarget]
  · rw [flatMap_news_zip hfront.length_eq]
    rw [List.flatten_append] at hxs htarget'
    exact hxs.pc_of_getElem?_append hcount htarget'

/-- A handler leads where its segment lands. -/
theorem handlerCarried_of_handlerAt (hvalid : script.IsValid code) {segments : List Segment}
    {φ : Nat → Nat → Prop}
    (hlands : ∀ {t j : Nat} {target target' : Instruction}, Segment.HeadAt segments t j →
      script.instructions[t]? = some target → xs[j]? = some target' → φ target.pc target'.pc)
    {i ins : Instruction} (hi : i ∈ script.instructions.toList) {offset offset' : Int}
    (hoffset : offset ≠ 0 → offset ∈ relativeTargets i) {c : Option Nat}
    (hrel : Option.Rel (Segment.HeadAt segments) (script.handlerId? i offset) c)
    (hat : HandlerAt xs ins c offset') : HandlerCarried φ i.pc ins.pc offset offset' := by
  by_cases hzero : offset = 0
  · subst hzero
    have hnone : script.handlerId? i 0 = none := by simp [Script.handlerId?]
    rw [hnone] at hrel
    cases hrel
    cases hat
    exact .absent
  · obtain ⟨t, target, htarget, hget, hpc⟩ := hvalid.exists_targetId? hi (hoffset hzero)
    have hsome : script.handlerId? i offset = some t := by
      simp [Script.handlerId?, hzero, htarget]
    rw [hsome] at hrel
    cases hrel with
    | some hhead =>
        cases hat with
        | @present _ target' _ htarget' hoffset' hne =>
            exact .present hzero hne ⟨target.pc, target'.pc, hlands hhead hget htarget',
              hpc, by omega⟩

/-- A kept instruction is carried. -/
theorem carried_of_rendered (hvalid : script.IsValid code) {segments : List Segment}
    {φ : Nat → Nat → Prop}
    (hlands : ∀ {t j : Nat} {target target' : Instruction}, Segment.HeadAt segments t j →
      script.instructions[t]? = some target → xs[j]? = some target' → φ target.pc target'.pc)
    {i ins : Instruction} (hi : i ∈ script.instructions.toList) {targets : List (Option Nat)}
    (htargets : TargetsAt script segments i targets) (h : Rendered xs ⟨i, targets⟩ ins) :
    i.Carried φ ins := by
  have hop : i.op.toLong = ins.op.toLong := h.op.symm
  -- The longer form of an operation refers in the same way.
  have hsingle : ins.op.hasSingleTarget = i.op.hasSingleTarget := by
    rw [← Opcode.hasSingleTarget_toLong, ← hop, Opcode.hasSingleTarget_toLong]
  have htry : ins.op.isTry = i.op.isTry := by
    rw [← Opcode.isTry_toLong, ← hop, Opcode.isTry_toLong]
  refine ⟨hop, h.fits, ?_, ?_, ?_⟩
  · intro hplain hplain'
    exact (h.operand (hsingle.trans hplain) (htry.trans hplain')).symm
  · intro hisSingle
    cases htargets with
    | plain hfalse => rw [hfalse] at hisSingle; cases hisSingle
    | handlers htrue =>
        rw [Opcode.hasSingleTarget_of_isTry htrue] at hisSingle
        cases hisSingle
    | @single t j _ htarget hhead =>
        obtain ⟨offset, hoffset⟩ := (hvalid.fits hi).exists_jumpOffset? hisSingle
        have hmem : offset ∈ relativeTargets i := by
          simp [Instruction.relativeTargets_of_jumpOffset? hoffset]
        obtain ⟨t', target, htarget', hget, hpc⟩ := hvalid.exists_targetId? hi hmem
        obtain rfl : t = t' := by
          simpa [Script.jumpTarget?, hoffset, htarget', eq_comm] using htarget
        obtain ⟨placed, hplaced, hjump⟩ := h.target (hsingle.trans hisSingle) j rfl
        exact ⟨offset, _, hoffset, hjump, target.pc, placed.pc, hlands hhead hget hplaced,
          hpc, by omega⟩
  · intro hisTry
    cases htargets with
    | plain _ hfalse => rw [hfalse] at hisTry; cases hisTry
    | single htrue =>
        rw [Opcode.hasSingleTarget_of_isTry hisTry] at htrue
        cases htrue
    | @handlers ids c f _ hhandlers hc hf =>
        obtain ⟨⟨a, b⟩, hoffsets, rfl⟩ := Option.map_eq_some_iff.1 hhandlers
        have hrelative := Instruction.relativeTargets_of_isTry hisTry hoffsets
        obtain ⟨a', b', hoffsets', hata, hatb⟩ := h.handlers (htry.trans hisTry) c f rfl
        refine ⟨a, b, a', b', hoffsets, hoffsets', ?_, ?_⟩
        · exact handlerCarried_of_handlerAt hvalid hlands hi (by simp [hrelative]) hc hata
        · exact handlerCarried_of_handlerAt hvalid hlands hi (by simp [hrelative]) hf hatb

/-- A local instruction is placed as it is. -/
theorem eq_of_rendered {raw ins : Instruction} (hlocal : raw.op.isLocal = true)
    (h : Rendered xs ⟨raw, []⟩ ins) : ins.op = raw.op ∧ ins.operand = raw.operand := by
  obtain ⟨hstraight, hsingle⟩ := Opcode.isLocal_iff.1 hlocal
  have hop : ins.op = raw.op :=
    (Opcode.eq_of_toLong_eq hsingle (Opcode.isTry_of_straight hstraight) h.op.symm).symm
  refine ⟨hop, h.operand ?_ ?_⟩
  · rw [hop, hsingle]
  · rw [hop, Opcode.isTry_of_straight hstraight]

/-- Proper segments do not get many more bytes, and not more instructions. -/
theorem totalSize_news_le {segments : List Segment} (h : ∀ s ∈ segments, s.Proper) :
    totalSize (segments.flatMap Segment.news) ≤
        totalSize ((segments.flatMap Segment.olds).map (·.2)) +
          33 * (segments.flatMap Segment.olds).length ∧
      (segments.flatMap Segment.news).length ≤ (segments.flatMap Segment.olds).length := by
  induction segments with
  | nil => simp
  | cons s segments ih =>
      rw [List.forall_mem_cons] at h
      obtain ⟨hsize, hlength⟩ := ih h.2
      simp only [List.flatMap_cons, totalSize_append, List.map_append, List.length_append]
      cases h.1 with
      | kept entry =>
          simp only [Segment.news, Segment.olds, List.map_cons, List.map_nil, totalSize_cons,
            totalSize_nil, List.length_cons, List.length_nil]
          omega
      | replaced _ _ hlength' hsize' =>
          simp only [Segment.news, Segment.olds]
          omega

theorem map_instruction_fresh {segments : List Segment} {others : List Instruction}
    {chunk : List Located}
    (h : List.Forall₂ (LocatedAs script segments) (others.map .fresh) chunk) :
    chunk.map (·.instruction) = others := by
  induction others generalizing chunk with
  | nil =>
      cases h
      rfl
  | cons ins others ih =>
      obtain ⟨l, chunk, hl, hrest, rfl⟩ := List.forall₂_cons_left_iff.1 h
      cases hl
      rw [List.map_cons, ih hrest]

/-- What is located are the new instructions. -/
theorem Rewrites.map_instruction (h : Rewrites g script starts groups parts r)
    {program : List Located}
    (hprogram : List.Forall₂ (LocatedAs script parts.flatten) (parts.flatten.flatMap Segment.pieces)
      program) : program.map (·.instruction) = parts.flatten.flatMap Segment.news := by
  obtain ⟨chunks, rfl, hchunks⟩ := exists_chunks hprogram
  have hnews : ∀ s ∈ parts.flatten, ∀ chunk,
      List.Forall₂ (LocatedAs script parts.flatten) s.pieces chunk →
      chunk.map (·.instruction) = s.news := by
    intro s hs chunk hchunk
    cases s with
    | kept entry =>
        have hentry := h.getElem?_of_mem_olds entry
          (List.mem_flatMap.2 ⟨_, hs, List.mem_singleton.2 rfl⟩)
        obtain ⟨l, rest, hl, hrest, rfl⟩ := List.forall₂_cons_left_iff.1 hchunk
        cases hrest
        cases hl with
        | keep hk _ =>
            obtain rfl := Option.some.inj (hk.symm.trans hentry)
            rfl
    | replaced head rest first others =>
        obtain ⟨l, chunk, hl, hrest, rfl⟩ := List.forall₂_cons_left_iff.1 hchunk
        cases hl
        rw [List.map_cons, map_instruction_fresh hrest]
        rfl
  have hall := (List.forall₂_and_left (p := (· ∈ parts.flatten)) _ _).2 ⟨fun _ hs => hs, hchunks⟩
  rw [List.map_flatten, List.flatMap_def]
  refine congrArg List.flatten (Sequencing.map_eq_of_forall₂ ?_).symm
  exact hall.imp fun s chunk hchunk => (hnews s hchunk.1 chunk hchunk.2).symm

/-- The link of a segment. -/
theorem Rewrites.linked (h : Rewrites g script starts groups parts r) (hvalid : script.IsValid code)
    {φ : Nat → Nat → Prop}
    (hlands : ∀ {t j : Nat} {target target' : Instruction}, Segment.HeadAt parts.flatten t j →
      script.instructions[t]? = some target → xs[j]? = some target' → φ target.pc target'.pc)
    {s : Segment} (hs : s ∈ parts.flatten) {chunk : List Instruction}
    (hchunk : List.Forall₂ (CarriedAs script parts.flatten xs) s.pieces chunk) :
    Linked φ (s, chunk) := by
  cases s with
  | kept entry =>
      have hentry := h.getElem?_of_mem_olds entry
        (List.mem_flatMap.2 ⟨_, hs, List.mem_singleton.2 rfl⟩)
      obtain ⟨ins, rest, ⟨l, hl, hrendered⟩, hrest, rfl⟩ := List.forall₂_cons_left_iff.1 hchunk
      cases hrest
      cases hl with
      | keep hk htargets =>
          obtain rfl := Option.some.inj (hk.symm.trans hentry)
          rw [← Array.getElem?_toList] at hk
          exact .kept (carried_of_rendered hvalid hlands
            (List.mem_of_getElem? hk) htargets hrendered)
  | replaced head rest first others =>
      refine .replaced ?_
      obtain ⟨ins, chunk, ⟨l, hl, hrendered⟩, hrest, rfl⟩ := List.forall₂_cons_left_iff.1 hchunk
      cases hl with
      | standIn hlocal _ =>
          refine .cons (eq_of_rendered hlocal hrendered) ?_
          rw [List.forall₂_map_left_iff] at hrest
          refine hrest.imp ?_
          rintro raw ins ⟨l, hl, hrendered⟩
          cases hl with
          | fresh hlocal _ => exact eq_of_rendered hlocal hrendered

theorem length_olds (hplaced : totalSize script.instructions.toList = code.size) :
    script.instructions.toList.length ≤ code.size := by
  rw [← hplaced]
  exact length_le_totalSize _

/-- The old instructions of the segments are those of the script. -/
theorem Rewrites.map_olds (h : Rewrites g script starts groups parts r) :
    (parts.flatten.flatMap Segment.olds).map (·.2) = script.instructions.toList := by
  rw [h.flatMap_olds, List.map_map]
  exact List.zipIdx_map_fst 0 _

/-- A located revision whose widened program is not too long is relocated, and its instructions are
linked to those of the script. -/
theorem Rewrites.transferred_of_located (h : Rewrites g script starts groups parts r)
    (hvalid : script.IsValid code) {program : List Located} (hlocate : locate r = .ok program)
    (hprogram : List.Forall₂ (LocatedAs script parts.flatten)
      (parts.flatten.flatMap Segment.pieces) program)
    (hsize : totalSize ((widen (shortCount program) program 0).1.map (·.instruction)) <
      0x80000000) :
    ∃ links xs, relocate r = .ok ⟨xs, mapOf r (xs.map (·.pc)).toArray (totalSize xs),
        (widen (shortCount program) program 0).2⟩ ∧
      Transferred script links xs ∧ links.map Prod.fst = parts.flatten ∧
      layout (widen (shortCount program) program 0).1 =
        (totalSize xs, (xs.map (·.pc)).toArray) := by
  obtain ⟨xs, hplace, hlayout, harranged⟩ := exists_arranged (h.soundProgram hvalid hprogram) hsize
  have hcarried : List.Forall₂ (CarriedAs script parts.flatten xs)
      (parts.flatten.flatMap Segment.pieces) xs :=
    Sequencing.forall₂_trans (fun _ l _ hl hrendered =>
      ⟨l, hl, hrendered⟩) hprogram harranged.rendered
  -- The new instructions are cut at the segments, and each chunk is linked to its segment.
  obtain ⟨chunks, hflatten, hchunks⟩ := exists_chunks hcarried
  have hlength : parts.flatten.length = chunks.length := hchunks.length_eq
  have hlands : ∀ {t j : Nat} {target target' : Instruction}, Segment.HeadAt parts.flatten t j →
      script.instructions[t]? = some target → xs[j]? = some target' →
      Lands (parts.flatten.zip chunks) target.pc target'.pc := by
    intro t j target target' hhead htarget htarget'
    rw [← hflatten] at htarget'
    refine lands_of_headAt hvalid.placed h.flatMap_olds
      (hflatten ▸ harranged.placed) ?_ hhead htarget htarget'
    refine hchunks.imp fun s chunk hchunk => ?_
    rw [← s.length_pieces, hchunk.length_eq]
  refine ⟨parts.flatten.zip chunks, xs, relocate_eq_ok hlocate hplace hlayout,
    ⟨?_, ?_, harranged.placed, ?_, ?_⟩, ?_, hlayout⟩
  · rw [flatMap_olds_zip hlength, h.map_olds]
  · rw [flatMap_news_zip hlength, hflatten]
  · exact fun l hl => h.proper l.1 (List.of_mem_zip hl).1
  · exact fun l hl => h.linked hvalid hlands (List.of_mem_zip hl).1 (List.forall₂_zip hchunks hl)
  · exact List.map_fst_zip (Nat.le_of_eq hlength)

/-- Relocation of a revision succeeds, and its instructions are linked to those of the script. -/
theorem Rewrites.exists_transferred (h : Rewrites g script starts groups parts r)
    (hvalid : script.IsValid code) (hsize : code.size ≤ 131070) :
    ∃ links xs upgraded, relocate r = .ok ⟨xs, mapOf r (xs.map (·.pc)).toArray (totalSize xs),
      upgraded⟩ ∧
      Transferred script links xs ∧ links.map Prod.fst = parts.flatten := by
  obtain ⟨program, hlocate, hprogram⟩ := h.exists_located hvalid
  -- The layout stays below two gigabytes.
  have hbound : totalSize ((widen (shortCount program) program 0).1.map (·.instruction)) <
      0x80000000 := by
    have hwidened := totalSize_widened (widen_spec (Nat.le_refl (shortCount program)) 0).1
    have hlong := totalSize_lengthen program
    have hnews := totalSize_news_le h.proper
    have hcount : (parts.flatten.flatMap Segment.olds).length ≤ code.size := by
      rw [← List.length_map (f := (·.2)), h.map_olds]
      exact length_olds hvalid.size
    have hlength : program.length = (parts.flatten.flatMap Segment.news).length := by
      rw [← Segment.length_flatMap_pieces, hprogram.length_eq]
    rw [h.map_instruction hprogram, hlength] at hlong
    rw [h.map_olds, hvalid.size] at hnews
    omega
  obtain ⟨links, xs, hrelocate, htransfer, hparts, _⟩ :=
    h.transferred_of_located hvalid hlocate hprogram hbound
  exact ⟨links, xs, _, hrelocate, htransfer, hparts⟩

end Transfer

end NeoScript
