import NeoScript.Proofs.FlowGraph.Build
import NeoScript.Proofs.Relocation.Validity

/-!
# Blocks — a relocated script has the same blocks

* `Transferred.isStart_iff` — the block starts of the new script are where those of the old one
  land;
* `regroup` — new instructions, block by block;
* `Transferred.isCutInto_regroup` — the runs of the new script are these.
-/

namespace NeoScript

section Starts

variable {script : Script} {code : Code} {links : List Link} {xs : List Instruction} {p q : Nat}

/-- Behind a link the next one begins. -/
theorem lands_next {before after : List Link} {l next : Link} :
    Lands (before ++ l :: next :: after) (totalSize (before.flatMap Link.olds) + totalSize l.olds)
      (totalSize (before.flatMap Link.news) + totalSize l.news) :=
  mem_landings_iff.2 ⟨before ++ [l], next, after, by simp, by simp, by simp⟩

namespace Transferred

/-- An old instruction is carried along, or it neither names an address nor transfers control. -/
theorem olds_cases (h : Transferred script links xs) {ins : Instruction}
    (hins : ins ∈ script.instructions.toList) :
    (∃ before entry ins' after, links = before ++ (.kept entry, [ins']) :: after ∧ entry.2 = ins) ∨
      ins.op.isLocal = true := by
  rw [← h.olds] at hins
  obtain ⟨l, hl, hmem⟩ := List.mem_flatMap.1 hins
  obtain ⟨before, after, rfl⟩ := List.append_of_mem hl
  rcases (h.linked l hl).kept_or_local (h.proper l hl) with ⟨entry, ins', rfl, -⟩ | ⟨hlocal, -⟩
  · exact .inl ⟨before, entry, ins', after, rfl, (List.mem_singleton.1 hmem).symm⟩
  · exact .inr (hlocal ins hmem)

/-- A carried instruction and its place in both scripts. -/
structure CarriedAt (script : Script) (before : List Link) (entry : Numbered) (ins : Instruction)
    (after : List Link) (xs : List Instruction) : Prop where
  mem : entry.2 ∈ script.instructions.toList
  mem' : ins ∈ xs
  pc : entry.2.pc = totalSize (before.flatMap Link.olds)
  pc' : ins.pc = totalSize (before.flatMap Link.news)
  carried : entry.2.Carried (Lands (before ++ (.kept entry, [ins]) :: after)) ins

theorem carriedAt {before after : List Link} {entry : Numbered} {ins : Instruction}
    (h : Transferred script (before ++ (.kept entry, [ins]) :: after) xs)
    (hread : script.IsReading code) : CarriedAt script before entry ins after xs := by
  have holds := h.olds
  have hnews := h.news
  rw [List.flatMap_append, List.flatMap_cons] at holds hnews
  have hplaced := hread.placed
  have hplaced' := h.placed
  rw [← holds, Placed.append_iff] at hplaced
  rw [← hnews, Placed.append_iff] at hplaced'
  refine ⟨?_, ?_, ?_, ?_, ?_⟩
  · rw [← holds]
    simp [Link.olds, Segment.olds]
  · rw [← hnews]
    simp [Link.news]
  · simpa using hplaced.2.1
  · simpa using hplaced'.2.1
  · cases h.linked (.kept entry, [ins]) (by simp) with
    | kept hcarried => exact hcarried

end Transferred

/-- An instruction that is a link of its own ends before the end, unless its link is the last. -/
theorem next_lt_iff {f : Link → List Instruction} {before after : List Link} {l : Link}
    {ins : Instruction} (hpos : ∀ x ∈ after, f x ≠ []) (hl : f l = [ins])
    (hpc : ins.pc = totalSize (before.flatMap f)) :
    ins.next < totalSize ((before ++ l :: after).flatMap f) ↔ after ≠ [] := by
  rw [List.flatMap_append, List.flatMap_cons, hl, totalSize_append, totalSize_append,
    totalSize_cons, totalSize_nil, Instruction.next, hpc]
  cases after with
  | nil => simp
  | cons x after =>
      have := totalSize_pos (hpos x (List.mem_cons_self ..))
      simp only [List.flatMap_cons, totalSize_append, ne_eq, reduceCtorEq,
        not_false_eq_true, iff_true]
      omega

/-- A local instruction asks for no block start. -/
theorem not_marks_of_isLocal {ins : Instruction} (h : ins.op.isLocal = true) :
    ¬ script.Marks ins p := by
  rintro (⟨offset, hoffset, -⟩ | ⟨hends, -⟩)
  · rw [relativeTargets_of_isLocal h] at hoffset
    cases hoffset
  · rw [(Opcode.isLocal_iff.1 h).1] at hends
    cases hends

namespace Transferred

variable {code' : Code}

/-- Carried instructions make the same block starts. -/
theorem marks {before after : List Link} {entry : Numbered} {ins : Instruction}
    (h : Transferred script (before ++ (.kept entry, [ins]) :: after) xs)
    (hread : script.IsReading code) (hread' : (Script.ofInstructions xs.toArray).IsReading code') :
    (∀ q, (Script.ofInstructions xs.toArray).Marks ins q →
      ∃ p, Lands (before ++ (.kept entry, [ins]) :: after) p q ∧ script.Marks entry.2 p) ∧
    ∀ p, script.Marks entry.2 p →
      ∃ q, Lands (before ++ (.kept entry, [ins]) :: after) p q ∧
        (Script.ofInstructions xs.toArray).Marks ins q := by
  have hat := h.carriedAt hread
  have htargets := hat.carried.relativeTargets
  have hending : entry.2.op.isBlockEnding = ins.op.isBlockEnding := by
    rw [← Opcode.isBlockEnding_toLong, hat.carried.op, Opcode.isBlockEnding_toLong]
  -- Both instructions stand in front of another one, or both are the last.
  have hlast : entry.2.next < script.length ↔ after ≠ [] := by
    rw [hread.length_eq, ← hread.size, ← h.olds]
    exact next_lt_iff (fun l _ => l.olds_ne_nil) rfl hat.pc
  have hlast' : ins.next < (Script.ofInstructions xs.toArray).length ↔ after ≠ [] := by
    have hsize : totalSize xs = code'.size := hread'.size
    rw [hread'.length_eq, ← hsize, ← h.news]
    exact next_lt_iff (fun l hl => h.news_ne_nil l (by simp [hl])) rfl hat.pc'
  have hnext : after ≠ [] →
      Lands (before ++ (.kept entry, [ins]) :: after) entry.2.next ins.next := by
    intro hne
    obtain ⟨l, after, rfl⟩ := List.exists_cons_of_ne_nil hne
    rw [Instruction.next, Instruction.next, hat.pc, hat.pc']
    exact lands_next
  constructor
  · rintro q (⟨offset, hoffset, rfl⟩ | ⟨hends, hlt, rfl⟩)
    · obtain ⟨old, hold, p, q, hlands, hp, hq⟩ := Sequencing.exists_left_of_forall₂ htargets hoffset
      refine ⟨p, ?_, .inl ⟨old, hold, by omega⟩⟩
      rwa [← hq, Int.toNat_natCast]
    · have hne := hlast'.1 hlt
      exact ⟨_, hnext hne, .inr ⟨by rw [hending, hends], hlast.2 hne, rfl⟩⟩
  · rintro p (⟨offset, hoffset, rfl⟩ | ⟨hends, hlt, rfl⟩)
    · obtain ⟨new, hnew, p, q, hlands, hp, hq⟩ :=
        Sequencing.exists_right_of_forall₂ htargets hoffset
      refine ⟨q, ?_, .inl ⟨new, hnew, by omega⟩⟩
      rwa [← hp, Int.toNat_natCast]
    · have hne := hlast.1 hlt
      exact ⟨_, hnext hne, .inr ⟨by rw [← hending, hends], hlast'.2 hne, rfl⟩⟩

/-- The first instruction stays the first. -/
theorem lands_zero (h : Transferred script links xs) (hne : script.instructions.toList ≠ []) :
    Lands links 0 0 := by
  cases links with
  | nil => exact absurd h.olds.symm hne
  | cons l links => exact List.mem_cons_self ..

/-- The block starts of the new script are where those of the old one land. -/
theorem isStart_iff (h : Transferred script links xs) (hread : script.IsReading code)
    (hread' : (Script.ofInstructions xs.toArray).IsReading code') {starts starts' : List Nat}
    (hstarts : ∀ q, q ∈ starts' ↔ ∃ p ∈ starts, Lands links p q) (q : Nat) :
    (Script.ofInstructions xs.toArray).IsStart starts' q ↔
      ∃ p, script.IsStart starts p ∧ Lands links p q := by
  have hnil : xs ≠ [] ↔ script.instructions.toList ≠ [] := by
    rw [← h.news, ← h.olds]
    cases links with
    | nil => simp
    | cons l links =>
        have hnews := h.news_ne_nil l (List.mem_cons_self ..)
        have holds := Link.olds_ne_nil l
        simp [hnews, holds]
  -- An instruction that marks a start refers to another, so it is never one that was removed or
  -- added.
  constructor
  · rintro (⟨rfl, hne⟩ | hentry | ⟨ins, hins, hmarks⟩)
    · have hne' := hnil.1 hne
      exact ⟨0, .inl ⟨rfl, hne'⟩, h.lands_zero hne'⟩
    · obtain ⟨p, hp, hlands⟩ := (hstarts q).1 hentry
      exact ⟨p, .inr (.inl hp), hlands⟩
    · rcases h.news_cases hins with ⟨entry, hmem, -⟩ | ⟨hlocal, -⟩
      · obtain ⟨before, after, rfl⟩ := List.append_of_mem hmem
        obtain ⟨p, hlands, hp⟩ := (h.marks hread hread').1 q hmarks
        exact ⟨p, .inr (.inr ⟨entry.2, (h.carriedAt hread).mem, hp⟩), hlands⟩
      · exact absurd hmarks (not_marks_of_isLocal hlocal)
  · rintro ⟨p, ⟨rfl, hne⟩ | hentry | ⟨ins, hins, hmarks⟩, hlands⟩
    · exact .inl ⟨((h.lands_inj hlands (h.lands_zero hne)).1 rfl), hnil.2 hne⟩
    · exact .inr (.inl ((hstarts q).2 ⟨p, hentry, hlands⟩))
    · rcases h.olds_cases hins with ⟨before, entry, ins', after, rfl, rfl⟩ | hlocal
      · obtain ⟨q', hlands', hq⟩ := (h.marks hread hread').2 p hmarks
        cases (h.lands_inj hlands hlands').1 rfl
        exact .inr (.inr ⟨ins', (h.carriedAt hread).mem', hq⟩)
      · exact absurd hmarks (not_marks_of_isLocal hlocal)

end Transferred

end Starts

/-! ## Runs -/

def regroup (k : Nat) : List (List Link) → List (List (Instruction × Nat))
  | [] => []
  | block :: blocks =>
      (block.flatMap Link.news).zipIdx k :: regroup (k + (block.flatMap Link.news).length) blocks

theorem flatten_regroup (k : Nat) (blocks : List (List Link)) :
    (regroup k blocks).flatten = (blocks.flatten.flatMap Link.news).zipIdx k := by
  induction blocks generalizing k with
  | nil => rfl
  | cons block blocks ih =>
      rw [regroup, List.flatten_cons, ih, List.flatten_cons, List.flatMap_append,
        List.zipIdx_append]

/-- Each block has the new instructions of its links. -/
theorem forall₂_regroup (k : Nat) (blocks : List (List Link)) :
    List.Forall₂ (fun block group => group.map Prod.fst =
      block.flatMap Link.news) blocks (regroup k blocks) := by
  induction blocks generalizing k with
  | nil => exact .nil
  | cons block blocks ih => exact .cons (List.zipIdx_map_fst ..) (ih _)

theorem exists_of_mem_regroup {k : Nat} {blocks : List (List Link)}
    {group : List (Instruction × Nat)} (h : group ∈ regroup k blocks) :
    ∃ before block after, blocks = before ++ block :: after ∧
      group.map Prod.fst = block.flatMap Link.news := by
  obtain ⟨block, hblock, heq⟩ := Sequencing.exists_left_of_forall₂ (forall₂_regroup k blocks) h
  obtain ⟨before, after, rfl⟩ := List.append_of_mem hblock
  exact ⟨before, block, after, rfl, heq⟩

section Runs

variable {script : Script} {code code' : Code} {blocks : List (List Link)} {xs : List Instruction}
  {starts starts' : List Nat} {groups : List (List (Instruction × Nat))}

def Divides (groups : List (List (Instruction × Nat))) (blocks : List (List Link)) : Prop :=
  List.Forall₂ (fun group block => block.flatMap Link.olds = group.map Prod.fst) groups blocks

/-- The old instructions of divided links are those of the runs. -/
theorem Divides.olds (h : Divides groups blocks) :
    blocks.flatten.flatMap Link.olds = groups.flatten.map Prod.fst := by
  induction h with
  | nil => rfl
  | cons heq _ ih => simp [heq, ih]

/-- A block starts where the blocks before it end. -/
theorem Divides.exists_of_isStart (h : Divides groups blocks)
    (hcut : script.IsCutInto starts groups)
    (hread : script.IsReading code) {ins : Instruction} (hins : ins ∈ script.instructions.toList)
    (hstart : script.IsStart starts ins.pc) :
    ∃ before block after, blocks = before ++ block :: after ∧
      ins.pc = totalSize (before.flatten.flatMap Link.olds) := by
  obtain ⟨k, hk⟩ := List.getElem?_of_mem hins
  rw [Array.getElem?_toList] at hk
  obtain ⟨before, rest, after, rfl⟩ := hcut.exists_split hk hstart
  obtain ⟨front, back, rfl, hfront, hback⟩ := Sequencing.exists_append_of_forall₂ h
  obtain ⟨block, back, -, -, rfl⟩ := List.forall₂_cons_left_iff.1 hback
  refine ⟨front, block, back, rfl, ?_⟩
  have hplaced := hread.placed
  have hlist := congrArg (List.map Prod.fst) hcut.flatten
  rw [List.zipIdx_map_fst, List.flatten_append, List.map_append] at hlist
  rw [← hlist, Placed.append_iff] at hplaced
  rw [Divides.olds hfront]
  simpa using hplaced.2.1

/-- Two places of a list: the same, or one in front of the other. -/
theorem append_cons_cases {α : Type} {before after before' after' : List α} {x y : α}
    (h : before ++ x :: after = before' ++ y :: after') :
    before = before' ∨ (∃ between, before' = before ++ x :: between) ∨
      ∃ between, before = before' ++ y :: between := by
  rcases List.append_eq_append_iff.1 h with ⟨between, hbefore, hrest⟩ | ⟨between, hbefore, hrest⟩
  · cases between with
    | nil => exact .inl (by simpa using hbefore.symm)
    | cons z between =>
        cases hrest
        exact .inr (.inl ⟨between, hbefore⟩)
  · cases between with
    | nil => exact .inl (by simpa using hbefore)
    | cons z between =>
        cases hrest
        exact .inr (.inr ⟨between, hbefore⟩)

/-- The new instructions of a block stand between those of the other blocks. -/
theorem Transferred.placed_block {before after : List (List Link)} {block : List Link}
    (h : Transferred script (before ++ block :: after).flatten xs) (hread : script.IsReading code) :
    Placed (totalSize (before.flatten.flatMap Link.olds)) (block.flatMap Link.olds) ∧
      Placed (totalSize (before.flatten.flatMap Link.news)) (block.flatMap Link.news) := by
  have holds := hread.placed
  have hnews := h.placed
  rw [← h.olds, List.flatten_append, List.flatten_cons, List.flatMap_append, List.flatMap_append,
    Placed.append_iff, Placed.append_iff] at holds
  rw [← h.news, List.flatten_append, List.flatten_cons, List.flatMap_append, List.flatMap_append,
    Placed.append_iff, Placed.append_iff] at hnews
  rw [Nat.zero_add] at holds hnews
  exact ⟨holds.2.1, hnews.2.1⟩

/-- A link begins where a block does, before and after. -/
theorem lands_block {before after : List (List Link)} {l : Link} {block : List Link} :
    Lands (before ++ (l :: block) :: after).flatten (totalSize (before.flatten.flatMap Link.olds))
      (totalSize (before.flatten.flatMap Link.news)) :=
  mem_landings_iff.2 ⟨before.flatten, l, block ++ after.flatten, by simp, by simp, by simp⟩

theorem Divides.ne_nil (h : Divides groups blocks) (hcut : script.IsCutInto starts groups)
    {block : List Link} (hblock : block ∈ blocks) : ∃ l ls, block = l :: ls := by
  obtain ⟨group, hgroup, heq⟩ := Sequencing.exists_left_of_forall₂ h hblock
  obtain ⟨first, rest, rfl, -, -⟩ := hcut.cut group hgroup
  cases block with
  | nil => cases heq
  | cons l ls => exact ⟨l, ls, rfl⟩

/-- The runs of the new script are the new instructions of the blocks. -/
theorem Transferred.isCutInto_regroup (h : Transferred script blocks.flatten xs)
    (hread : script.IsReading code) (hread' : (Script.ofInstructions xs.toArray).IsReading code')
    (hcut : script.IsCutInto starts groups) (hdivides : Divides groups blocks)
    (hstarts : ∀ q, q ∈ starts' ↔ ∃ p ∈ starts, Lands blocks.flatten p q) :
    (Script.ofInstructions xs.toArray).IsCutInto starts' (regroup 0 blocks) := by
  refine ⟨by rw [flatten_regroup, h.news]; rfl, ?_⟩
  intro group' hgroup'
  obtain ⟨before, block, after, rfl, hgroup⟩ := exists_of_mem_regroup hgroup'
  have hblock : block ∈ before ++ block :: after := by simp
  obtain ⟨l, ls, rfl⟩ := hdivides.ne_nil hcut hblock
  obtain ⟨holds, hnews⟩ := h.placed_block hread
  obtain ⟨first, others, hfirst⟩ := List.exists_cons_of_ne_nil (h.news_ne_nil l (by simp))
  rw [List.flatMap_cons, hfirst, List.cons_append] at hnews hgroup
  obtain ⟨entry, rest, rfl, rfl, hrest⟩ := List.map_eq_cons_iff.1 hgroup
  refine ⟨entry, rest, rfl, ?_, ?_⟩
  · rw [h.isStart_iff hread hread' hstarts, hnews.1]
    refine ⟨_, ?_, lands_block⟩
    obtain ⟨group, hmem, heq⟩ := Sequencing.exists_left_of_forall₂ hdivides
      (List.mem_append_right before (List.mem_cons_self ..))
    obtain ⟨head, tail, rfl, hstart, -⟩ := hcut.cut group hmem
    rw [heq] at holds
    rw [← holds.1]
    exact hstart
  · intro other hmem hstart
    obtain ⟨p, hp, hlands⟩ := (h.isStart_iff hread hread' hstarts other.1.pc).1 hstart
    obtain ⟨ins, hins, rfl⟩ := h.exists_old_of_lands hread hlands
    obtain ⟨before', block', after', hblocks, hpc⟩ := hdivides.exists_of_isStart hcut hread hins hp
    obtain ⟨l', ls', rfl⟩ :=
      hdivides.ne_nil hcut (hblocks ▸ List.mem_append_right before' (List.mem_cons_self ..))
    -- The instruction would stand where another block begins, but it stands inside of its own.
    have hother : other.1.pc = totalSize (before'.flatten.flatMap Link.news) := by
      rw [hblocks] at hlands h
      exact (h.lands_inj hlands (hpc ▸ lands_block)).1 rfl
    have hbounds := hnews.2.bounds (hrest ▸ List.mem_map_of_mem hmem)
    have hsize := other.1.size_pos
    have hsize' := entry.1.size_pos
    simp only [Instruction.next] at hbounds
    rcases append_cons_cases hblocks with rfl | ⟨between, rfl⟩ | ⟨between, rfl⟩
    · omega
    · simp only [List.flatten_append, List.flatten_cons, List.flatMap_append,
        List.flatMap_cons, hfirst, totalSize_append, totalSize_cons] at hother hbounds
      omega
    · simp only [List.flatten_append, List.flatMap_append, totalSize_append] at hother hbounds
      omega

end Runs

end NeoScript
