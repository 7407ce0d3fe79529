import NeoScript.Proofs.Pass.Step
import NeoScript.Proofs.Relocation.Blocks

/-!
# Settled — contracts in which a strategy finds nothing to do

* `Contract.Settled` — every block of the script is settled for a strategy;
* `Pass.step_settled` — a strategy leaves a settled contract behind;
* `Pass.step_folding_of_fusion` — fusion leaves it settled for folding;
* `Pass.step_of_settled` — a settled contract stays as it is.
-/

namespace NeoScript

/-! ## One way to cut -/

/-- A script is cut into runs in one way. -/
theorem Script.IsCutInto.unique {script : Script} {starts : List Nat}
    {groups groups' : List (List (Instruction × Nat))} (h : script.IsCutInto starts groups)
    (h' : script.IsCutInto starts groups') : groups = groups' := by
  classical
  have hcut : ∀ gs, script.IsCutInto starts gs →
      cutBlocks (fun pc => decide (script.IsStart starts pc)) gs.flatten = gs := by
    intro gs hgs
    refine cutBlocks_flatten ?_
    simpa [IsCut] using hgs.cut
  rw [← hcut groups h, ← hcut groups' h', h.flatten, h'.flatten]

/-- Bytes are read in one way only. -/
theorem Script.IsReading.unique {script script' : Script} {code : Code} (h : script.IsReading code)
    (h' : script'.IsReading code) : script = script' := by
  have heq := (Script.decode_eq_ok_iff.2 h).symm.trans (Script.decode_eq_ok_iff.2 h')
  exact Except.ok.inj heq

namespace Contract

def Settled (c : Contract) (s : Strategy) : Prop :=
  ∃ script groups, c.Checked script ∧ script.IsCutInto c.entryPoints groups ∧
    ∀ group ∈ groups, s.Settles (group.map Prod.swap)

/-- Whether blocks are settled does not depend on how the script is cut. -/
theorem Settled.settles {c : Contract} {s : Strategy} (h : c.Settled s) {script : Script}
    {groups : List (List (Instruction × Nat))} (hchecked : c.Checked script)
    (hcut : script.IsCutInto c.entryPoints groups) :
    ∀ group ∈ groups, s.Settles (group.map Prod.swap) := by
  obtain ⟨script', groups', hchecked', hcut', hsettles⟩ := h
  cases hchecked.valid.toIsReading.unique hchecked'.valid.toIsReading
  cases hcut.unique hcut'
  exact hsettles

end Contract

/-! ## What relocation leaves visible -/

/-- A carried instruction differs in its place and its addresses only. -/
theorem Instruction.Carried.core_eq {φ : Nat → Nat → Prop} {i j : Instruction} (h : i.Carried φ j) :
    i.core = j.core := by
  have hsingle : i.op.hasSingleTarget = j.op.hasSingleTarget := by
    rw [← Opcode.hasSingleTarget_toLong, h.op, Opcode.hasSingleTarget_toLong]
  have htry : i.op.isTry = j.op.isTry := by
    rw [← Opcode.isTry_toLong, h.op, Opcode.isTry_toLong]
  unfold core
  rw [← hsingle, ← htry]
  split
  · rw [h.op]
  · rename_i hplain
    rw [Bool.not_eq_true, Bool.or_eq_false_iff] at hplain
    rw [Opcode.eq_of_toLong_eq hplain.1 hplain.2 h.op, h.operand hplain.1 hplain.2]

/-- What fusion shows of a segment is what the link places. -/
theorem Linked.core_news {φ : Nat → Nat → Prop} {l : Link} (h : Linked φ l) :
    (Fusion.shown l.1).map (·.2.core) = l.news.map (·.core) := by
  cases h with
  | kept h => simp [Fusion.shown, Link.news, h.core_eq]
  | replaced h =>
      have hcore := Sequencing.map_eq_of_forall₂ (f := Instruction.core) (g := Instruction.core)
        (h.imp fun raw ins heq => by simp [Instruction.core, heq.1, heq.2])
      simpa [Fusion.shown, Fusion.unnumbered, Link.news, Function.comp_def] using hcore

/-- A list whose items are the images of others can be divided as these are. -/
theorem exists_blocks {α β : Type} {f : α → β} {l : List α} {parts : List (List β)}
    (h : l.map f = parts.flatten) :
    ∃ blocks, blocks.flatten = l ∧ List.Forall₂ (fun part block =>
      block.map f = part) parts blocks := by
  induction parts generalizing l with
  | nil => exact ⟨[], (List.map_eq_nil_iff.1 h).symm, .nil⟩
  | cons part parts ih =>
      obtain ⟨front, back, rfl, rfl, hback⟩ := List.map_eq_append_iff.1 h
      obtain ⟨blocks, rfl, hblocks⟩ := ih hback
      exact ⟨front :: blocks, rfl, .cons rfl hblocks⟩

/-- Links that belong to the segments of runs are divided as these runs. -/
theorem Rewrites.divides {g : FlowGraph} {script : Script} {starts : List Nat}
    {groups : List (List (Instruction × Nat))} {parts : List (List Segment)} {r : Revision}
    (h : Rewrites g script starts groups parts r) {blocks : List (List Link)}
    (hblocks : List.Forall₂ (fun part block => block.map Prod.fst = part) parts blocks) :
    Divides groups blocks := by
  refine Sequencing.forall₂_trans ?_ h.olds hblocks
  rintro group part block heq rfl
  have holds := congrArg (List.map Prod.snd) heq
  rw [List.map_map] at holds
  rw [← show (group.map (Prod.snd ∘ Prod.swap)) = group.map Prod.fst from rfl, ← holds,
    List.flatMap_map, List.map_flatMap]
  rfl

/-- The blocks of the rebuilt script show what the strategy made of the old ones. -/
theorem Contract.Rebuilt.exists_groups {c c' : Contract} {script : Script} {links : List Link}
    {xs : List Instruction} (h : c.Rebuilt c' script links xs) (hchecked : c.Checked script)
    {g : FlowGraph}
    {groups : List (List (Instruction × Nat))} {parts : List (List Segment)} {r : Revision}
    (hrewrites : Rewrites g script c.entryPoints groups parts r)
    (hparts : links.map Prod.fst = parts.flatten) :
    ∃ groups', (Script.ofInstructions xs.toArray).IsCutInto c'.entryPoints groups' ∧
      List.Forall₂ (fun segments group => (segments.flatMap Fusion.shown).map (·.2.core) =
        (group.map Prod.swap).map (·.2.core)) parts groups' := by
  obtain ⟨blocks, rfl, hblocks⟩ := exists_blocks hparts
  have htransfer := h.transferred
  refine ⟨regroup 0 blocks, htransfer.isCutInto_regroup hchecked.valid.toIsReading
    h.checked.valid.toIsReading hrewrites.graph.cut (hrewrites.divides hblocks) h.entryPoints, ?_⟩
  have hlinked := htransfer.linked
  have hcore : ∀ block ∈ blocks, ((block.map Prod.fst).flatMap Fusion.shown).map (·.2.core) =
      (block.flatMap Link.news).map (·.core) := by
    intro block hblock
    rw [List.flatMap_map, List.map_flatMap, List.map_flatMap]
    exact List.flatMap_congr fun l hl =>
      (hlinked l (List.mem_flatten.2 ⟨block, hblock, hl⟩)).core_news
  refine Sequencing.forall₂_trans ?_ hblocks ((List.forall₂_and_left (p := (· ∈ blocks)) _ _).2
    ⟨fun _ hblock => hblock, forall₂_regroup 0 blocks⟩)
  rintro part block group rfl ⟨hblock, hgroup⟩
  rw [hcore block hblock, ← hgroup, List.map_map, List.map_map]
  rfl

/-! ## Steps -/

namespace Pass

variable {p p' : Pass} {script : Script} {s : Strategy}

/-- A property of blocks that a strategy establishes holds of the contract that it leaves behind. -/
theorem settled_of_step {t : Strategy} (h : p.contract.Checked script) (hstep : p.step s = .ok p')
    (hshown : ∀ groups, script.IsCutInto p.contract.entryPoints groups → ∀ group ∈ groups,
      ∀ segments count, segments.flatMap Segment.olds = group.map Prod.swap →
      s.Allows segments count →
        t.Settles (segments.flatMap Fusion.shown)) : p'.contract.Settled t := by
  obtain ⟨g, groups, parts, counts, hrewrites, hallows, hstepped⟩ := step_stepped h s
  rw [hstep] at hstepped
  have hparts : ∀ segments ∈ parts, t.Settles (segments.flatMap Fusion.shown) := by
    intro segments hsegments
    obtain ⟨count, -, hallowed⟩ := Sequencing.exists_right_of_forall₂ hallows hsegments
    obtain ⟨group, hgroup, heq⟩ := Sequencing.exists_left_of_forall₂ hrewrites.olds hsegments
    exact hshown groups hrewrites.graph.cut group hgroup segments count heq hallowed
  -- Without a change every segment is kept, so what is shown is the block itself.
  cases hstepped with
  | unchanged hcounts _ =>
      refine ⟨script, groups, h, hrewrites.graph.cut, fun group hgroup => ?_⟩
      obtain ⟨segments, hsegments, heq⟩ := Sequencing.exists_right_of_forall₂ hrewrites.olds hgroup
      obtain ⟨count, hcount, hallowed⟩ := Sequencing.exists_right_of_forall₂ hallows hsegments
      have hkept := hallowed.isKept (List.sum_eq_zero_iff_forall_eq_nat.1 hcounts count hcount)
      rw [← heq, ← Fusion.shown_of_isKept hkept]
      exact hparts segments hsegments
  | rebuilt _ hrebuilt hlinks _ _ =>
      obtain ⟨groups', hcut', hcore⟩ := hrebuilt.exists_groups h hrewrites hlinks
      refine ⟨_, groups', hrebuilt.checked, hcut', fun group' hgroup' => ?_⟩
      obtain ⟨segments, hsegments, heq⟩ := Sequencing.exists_left_of_forall₂ hcore hgroup'
      exact (hparts segments hsegments).congr heq

/-- A strategy leaves a contract behind in which it finds nothing to do. -/
theorem step_settled (h : p.contract.Checked script) (hstep : p.step s = .ok p') :
    p'.contract.Settled s :=
  settled_of_step h hstep fun _ _ _ _ _ _ _ hallowed => hallowed.settles

/-- Fusion leaves nothing to fold behind where there was nothing to fold. -/
theorem step_folding_of_fusion {policy : ArithmeticPolicy} {threshold : Nat}
    (h : p.contract.Checked script) (hstep : p.step (.fusion threshold) = .ok p')
    (hsettled : p.contract.Settled (.folding policy)) : p'.contract.Settled (.folding policy) := by
  refine settled_of_step h hstep fun groups hcut group hgroup segments count heq hallowed => ?_
  refine Strategy.settles_folding_of_fusion hallowed ?_
  rw [heq]
  exact hsettled.settles h hcut group hgroup

/-- Where a strategy finds nothing to do, the contract stays as it is. -/
theorem step_of_settled (h : p.contract.Settled s) :
    ∃ events, p.step s = .ok { p with trace := p.trace ++ events } := by
  obtain ⟨script, -, hchecked, -, -⟩ := id h
  obtain ⟨g, groups, parts, counts, hrewrites, hallows, hstepped⟩ := step_stepped hchecked s
  have hzero : counts.sum = 0 := by
    rw [List.sum_eq_zero_iff_forall_eq_nat]
    intro count hcount
    obtain ⟨segments, hsegments, hallowed⟩ := Sequencing.exists_left_of_forall₂ hallows hcount
    obtain ⟨group, hgroup, heq⟩ := Sequencing.exists_left_of_forall₂ hrewrites.olds hsegments
    refine hallowed.count_eq_zero ?_
    rw [heq]
    exact h.settles hchecked hrewrites.graph.cut group hgroup
  generalize p.step s = result at hstepped
  cases hstepped with
  | unchanged => exact ⟨_, rfl⟩
  | rebuilt hcounts => omega
  | tooLong hcounts => omega

end Pass

end NeoScript
