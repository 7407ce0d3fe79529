import NeoScript.Proofs.Relocation.Locating
import NeoScript.Proofs.Revision.Fusion
import NeoScript.Revision.Strategy

/-!
# Strategy — what the strategies do to the blocks of a graph

* `Strategy.Allows` — the segments into which a strategy divides a block;
* `Strategy.Settles` — a block in which the strategy finds nothing to do;
* `Unfoldable.of_fusedInto` — fusion leaves nothing new to evaluate;
* `Strategy.rewrites` — the revision of a graph is made of such segments.
-/

namespace NeoScript

/-! ## Evaluation around arrays -/

def Inert (policy : ArithmeticPolicy) (ins : Instruction) : Prop :=
  ∀ a b, foldTriple? policy a b ins = none

/-- Only arithmetic is evaluated. -/
theorem inert_of_op {policy : ArithmeticPolicy} {ins : Instruction}
    (h : ∀ operation, ins.op ≠ .arith operation) : Inert policy ins := by
  intro a b
  rw [Option.eq_none_iff_forall_ne_some]
  intro push hpush
  obtain ⟨x, y, value, -, -, hvalue, -⟩ := foldTriple?_eq_some_iff.1 hpush
  cases hop : ins.op with
  | arith operation => exact h operation hop
  | _ => simp [hop, ArithmeticPolicy.evaluate] at hvalue

theorem inert_of_isConstant {policy : ArithmeticPolicy} {ins : Instruction}
    (h : ins.isConstant = true) : Inert policy ins := by
  refine inert_of_op fun operation hop => ?_
  simp [Instruction.isConstant, Opcode.isIntPush, Opcode.isDataPush, hop] at h

/-- A packing ends every triple. -/
theorem foldTriple?_pack (policy : ArithmeticPolicy) (a op : Instruction) :
    foldTriple? policy a (.simple .pack) op = none := by
  have hpack : (Instruction.simple .pack).pushedInteger? = none := rfl
  simp [foldTriple?, hpack]

namespace Unfoldable

variable {policy : ArithmeticPolicy} {xs : List Instruction}

/-- A block that cannot be folded stays so if no triple begins with the instruction in front. -/
theorem cons {ins : Instruction} (h : Unfoldable policy xs)
    (hfirst : ∀ b op rest, xs = b :: op :: rest → foldTriple? policy ins b op = none) :
    Unfoldable policy (ins :: xs) := by
  intro a b op hinfix
  rcases List.infix_cons_iff.1 hinfix with ⟨rest, heq⟩ | hinfix
  · cases heq
    exact hfirst b op rest rfl
  · exact h a b op hinfix

/-- A pack separates what stands before it from what follows. -/
theorem append_pack (h : Unfoldable policy xs) {front : List Instruction}
    (hinert : ∀ ins ∈ front, Inert policy ins) :
    Unfoldable policy (front ++ .simple .pack :: xs) := by
  have hpack : Inert policy (.simple .pack) := inert_of_op nofun
  induction front with
  | nil =>
      refine h.cons fun b op rest heq => ?_
      have hfirst : (Instruction.simple .pack).pushedInteger? = none := rfl
      simp [foldTriple?, hfirst]
  | cons ins front ih =>
      rw [List.forall_mem_cons] at hinert
      refine (ih hinert.2).cons fun b op rest heq => ?_
      -- The pack is the operation, the second operand, or further behind.
      rcases front with _ | ⟨x, _ | ⟨y, front⟩⟩
      · cases heq
        exact foldTriple?_pack ..
      · cases heq
        exact hpack ..
      · obtain ⟨rfl, rfl, -⟩ : x = b ∧ y = op ∧ _ := by simpa using heq
        exact hinert.2 y (by simp) ..

end Unfoldable

/-- A replacement that packs instructions none of which is evaluated. -/
inductive Segment.Packs (policy : ArithmeticPolicy) : Segment → Prop where
  | kept (entry : Numbered) : Packs policy (.kept entry)
  | replaced {head : Numbered} {rest : List Numbered} {first : Instruction}
      {others front : List Instruction} (heq : first :: others = first :: front ++ [.simple .pack])
      (hinert : ∀ ins ∈ first :: front, Inert policy ins) :
      Packs policy (.replaced head rest first others)

/-- Packing leaves nothing new to evaluate. -/
theorem Unfoldable.of_packs {policy : ArithmeticPolicy} {segments : List Segment}
    (hpacks : ∀ s ∈ segments, s.Packs policy)
    (h : Unfoldable policy ((segments.flatMap Segment.olds).map (·.2))) :
    Unfoldable policy (segments.flatMap Segment.news) := by
  have hpack : Inert policy (.simple .pack) := inert_of_op nofun
  induction segments with
  | nil => exact .nil
  | cons s segments ih =>
      rw [List.forall_mem_cons] at hpacks
      rw [List.flatMap_cons, List.map_append] at h
      have hrest := ih hpacks.2 (h.of_infix (List.suffix_append ..).isInfix)
      cases hpacks.1 with
      | kept entry =>
          refine hrest.cons fun b op rest heq => ?_
          -- The next two are kept as well, or the second one is part of a packing.
          match segments, hpacks.2, heq with
          | .kept x :: .kept y :: segments, _, heq =>
              cases heq
              exact h _ _ _ (List.prefix_append [entry.2, x.2, y.2] _).isInfix
          | .kept x :: .replaced .. :: segments, hpacks, heq =>
              cases hpacks _ (.tail _ (.head _)) with
              | replaced hfront hinert =>
                  cases heq
                  exact hinert _ (List.mem_cons_self ..) ..
          | .replaced _ _ first others :: segments, hpacks, heq =>
              cases hpacks _ (.head _) with
              | @replaced _ _ _ _ front hfront hinert =>
                  obtain rfl : others = front ++ [.simple .pack] := by simpa using hfront
                  cases front with
                  | nil =>
                      cases heq
                      exact hpack ..
                  | cons x front =>
                      cases heq
                      exact hinert op (by simp) ..
      | @replaced head rest first others front hfront hinert =>
          have hpacked := hrest.append_pack hinert
          rw [List.flatMap_cons, Segment.news, hfront]
          simpa using hpacked

namespace Fusion

/-- A packed array is made of constants, its size and the packing. -/
theorem FusedInto.packs {threshold : Nat} (hpos : 0 < threshold) (policy : ArithmeticPolicy)
    {block : List Numbered} {segments : List Segment} (h : FusedInto threshold block segments) :
    ∀ s ∈ segments, s.Packs policy := by
  induction h with
  | nil => simp
  | keep _ _ _ ih => exact List.forall_mem_cons.2 ⟨.kept _, ih⟩
  | @array head run after values others first segments harray _ hpacking _ ih =>
      refine List.forall_mem_cons.2 ⟨?_, ih⟩
      obtain ⟨push, hpush, heq⟩ := hpacking.exists_push
      have hlength := (harray.breaks hpos).2
      obtain ⟨front, hfront⟩ : ∃ front, values.reverse ++ [push] = first :: front := by
        cases hvalues : values.reverse with
        | nil => simp_all
        | cons value rest =>
            rw [hvalues] at heq
            cases heq
            exact ⟨_, rfl⟩
      have hshape : first :: others = first :: front ++ [.simple .pack] := by
        rw [heq, ← hfront, List.append_assoc]
        rfl
      refine .replaced hshape ?_
      rw [← hfront]
      intro ins hins
      rcases List.mem_append.1 hins with hvalue | hlast
      · exact inert_of_isConstant (harray.isConstant ins (List.mem_reverse.1 hvalue))
      · rw [List.mem_singleton.1 hlast]
        exact inert_of_isConstant (isConstant_of_pushedInteger?
          (Instruction.smallestPush?_spec hpush).1)

end Fusion

/-! ## Strategies -/

namespace Strategy

/-- The segments into which a strategy may divide a block, and the number of its replacements. -/
def Allows : Strategy → List Segment → Nat → Prop
  | folding policy => FoldedInto policy
  | fusion threshold => Fusion.FusedAs (max threshold Fusion.leastThreshold)

/-- A block in which the strategy finds nothing to do. -/
def Settles : Strategy → List Numbered → Prop
  | folding policy, block => Unfoldable policy (block.map (·.2))
  | fusion threshold, block => Fusion.Unfusable (max threshold Fusion.leastThreshold) block

/-- Whether a block is settled does not depend on places and addresses. -/
theorem Settles.congr {s : Strategy} {block block' : List Numbered} (h : s.Settles block)
    (hcore : block.map (·.2.core) = block'.map (·.2.core)) : s.Settles block' := by
  cases s with
  | folding policy => exact Unfoldable.congr h (by simpa [Function.comp_def] using hcore)
  | fusion threshold => exact Fusion.Unfusable.congr h hcore

theorem threshold_pos (threshold : Nat) : 0 < max threshold Fusion.leastThreshold :=
  Nat.lt_of_lt_of_le (by decide) (Nat.le_max_right ..)

namespace Allows

variable {s : Strategy} {segments : List Segment} {count : Nat}

/-- What a strategy leaves behind. -/
theorem settles (h : s.Allows segments count) : s.Settles (segments.flatMap Fusion.shown) := by
  cases s with
  | folding policy =>
      change Unfoldable policy _
      rw [Fusion.shown_snd]
      exact h.unfoldable
  | fusion threshold => exact h.fused.unfusable (threshold_pos threshold)

/-- A strategy that counts no change keeps every instruction. -/
theorem isKept (h : s.Allows segments count) (hcount : count = 0) :
    ∀ x ∈ segments, x.isKept = true := by
  cases s with
  | folding policy => exact h.kept hcount
  | fusion threshold => exact h.kept hcount

/-- Where there is nothing to do, nothing is done. -/
theorem count_eq_zero (h : s.Allows segments count)
    (hsettles : s.Settles (segments.flatMap Segment.olds)) : count = 0 := by
  cases s with
  | folding policy => exact h.stays hsettles
  | fusion threshold => exact h.stays hsettles

/-- Where something is done, a segment is replaced. -/
theorem exists_replaced (h : s.Allows segments count) (hcount : 0 < count) :
    ∃ x ∈ segments, x.isKept = false := by
  by_contra hnone
  have hkept : ∀ x ∈ segments, x.isKept = true := by
    intro x hx
    by_contra hx'
    exact hnone ⟨x, hx, Bool.not_eq_true _ ▸ hx'⟩
  have hzero := h.count_eq_zero (Fusion.shown_of_isKept hkept ▸ h.settles)
  omega

/-- What a strategy makes of a block may be relocated. -/
theorem proper (h : s.Allows segments count)
    (hfits : ∀ e ∈ segments.flatMap Segment.olds, e.2.Fits) : ∀ x ∈ segments, x.Proper := by
  cases s with
  | folding policy => exact fun x hx => (h.folded x hx).proper
  | fusion threshold => exact h.fused.proper (threshold_pos threshold) hfits

end Allows

theorem exists_allows {s : Strategy} {parts : List (List Segment)} {counts : List Nat}
    (h : List.Forall₂ s.Allows parts counts) {x : Segment} (hx : x ∈ parts.flatten) :
    ∃ segments count, s.Allows segments count ∧ x ∈ segments := by
  obtain ⟨segments, hsegments, hmem⟩ := List.mem_flatten.1 hx
  obtain ⟨count, -, hallows⟩ := Sequencing.exists_right_of_forall₂ h hsegments
  exact ⟨segments, count, hallows, hmem⟩

/-- Where something is done in one of the blocks, a segment is replaced. -/
theorem exists_replaced_of_allows {s : Strategy} {parts : List (List Segment)} {counts : List Nat}
    (h : List.Forall₂ s.Allows parts counts) (hcounts : 0 < counts.sum) :
    ∃ x ∈ parts.flatten, x.isKept = false := by
  obtain ⟨count, hcount, hpos⟩ := List.sum_pos_iff_exists_pos_nat.1 hcounts
  obtain ⟨segments, hsegments, hallows⟩ := Sequencing.exists_left_of_forall₂ h hcount
  obtain ⟨x, hx, hkept⟩ := hallows.exists_replaced hpos
  exact ⟨x, List.mem_flatten.2 ⟨segments, hsegments, hx⟩, hkept⟩

/-- Fusion after folding leaves nothing to fold. -/
theorem settles_folding_of_fusion {policy : ArithmeticPolicy} {threshold : Nat}
    {segments : List Segment} {count : Nat} (h : (fusion threshold).Allows segments count)
    (hsettles : (folding policy).Settles (segments.flatMap Segment.olds)) :
    (folding policy).Settles (segments.flatMap Fusion.shown) := by
  change Unfoldable policy _
  rw [Fusion.shown_snd]
  exact .of_packs (h.fused.packs (threshold_pos threshold) policy) hsettles

/-- A strategy divides the instructions of a graph into segments and edits them. -/
theorem exists_parts (s : Strategy) {g : FlowGraph} (hexact : g.references.Exact)
    (hnodup : g.order.Nodup) (hknown : ∀ id ∈ g.order, id < g.arena.size) :
    ∃ parts counts,
      List.Forall₂ (fun b segments => segments.flatMap Segment.olds =
        (Revision.identity g).numbered b.ids) g.blocks parts ∧
      List.Forall₂ s.Allows parts counts ∧ (s.apply g).changed = decide (0 < counts.sum) ∧
      Edited (.identity g) g.order (parts.flatten.flatMap Segment.pieces)
        (s.apply g).order (s.apply g) := by
  cases s with
  | folding policy => exact reviseBlocks_spec (foldBlock_editsBlocks policy) hexact hnodup hknown
  | fusion threshold =>
      exact reviseBlocks_spec (fuseBlock_editsBlocks (threshold_pos threshold)) hexact hnodup hknown

/-- The numbered instructions of a run. -/
theorem numbered_identity {g : FlowGraph} {script : Script} {starts : List Nat}
    {groups : List (List (Instruction × Nat))} (h : g.Describes script starts groups)
    {group : List (Instruction × Nat)} (hgroup : group ∈ groups) :
    (Revision.identity g).numbered (group.map (·.2)) = group.map Prod.swap := by
  have hget : ∀ entry ∈ group, (Revision.identity g).arena.get? entry.2 = some entry.1 := by
    intro entry hentry
    change g.arena.get? entry.2 = _
    rw [h.arena, Arena.get?_ofInstructions]
    exact h.cut.mem_iff.1 ⟨group, hgroup, hentry⟩
  unfold Revision.numbered
  rw [List.filterMap_map, ← List.filterMap_eq_map]
  refine List.filterMap_congr fun entry hentry => ?_
  simp only [Function.comp_apply, hget entry hentry, Option.map_some]
  rfl

/-- A strategy rewrites the blocks of a graph one by one. -/
theorem rewrites (s : Strategy) {g : FlowGraph} {script : Script} {code : Code} {starts : List Nat}
    {groups : List (List (Instruction × Nat))} (h : g.Describes script starts groups)
    (hread : script.IsReading code) :
    ∃ parts counts, Rewrites g script starts groups parts (s.apply g) ∧
      List.Forall₂ s.Allows parts counts ∧ (s.apply g).changed = decide (0 < counts.sum) := by
  have hsize : g.arena.size = script.instructions.size := by
    rw [h.arena]
    simp [Arena.size, Arena.ofInstructions]
  obtain ⟨parts, counts, holds, hallows, hchanged, hedited⟩ := s.exists_parts h.references.exact
    (by rw [h.order_eq]; exact List.nodup_range)
    (fun id hid => by rw [h.order_eq, List.mem_range] at hid; rwa [hsize])
  -- The blocks of the graph are the groups of the script, so the segments divide these.
  have holds' : List.Forall₂ (fun group segments =>
      segments.flatMap Segment.olds = group.map Prod.swap)
      groups parts := by
    have hids := (List.forall₂_map_left_iff (f := Block.ids)
        (R := fun ids (segments : List Segment) =>
      segments.flatMap Segment.olds = (Revision.identity g).numbered ids)).2 holds
    rw [h.blockIds, List.forall₂_map_left_iff] at hids
    refine ((List.forall₂_and_left (p := (· ∈ groups)) _ _).2 ⟨fun _ hg => hg, hids⟩).imp ?_
    rintro group segments ⟨hgroup, heq⟩
    rw [heq, numbered_identity h hgroup]
  have hproper : ∀ x ∈ parts.flatten, x.Proper := by
    intro x hx
    obtain ⟨segments, hsegments, hmem⟩ := List.mem_flatten.1 hx
    obtain ⟨count, -, hallowed⟩ := Sequencing.exists_right_of_forall₂ hallows hsegments
    obtain ⟨group, hgroup, heq⟩ := Sequencing.exists_left_of_forall₂ holds' hsegments
    refine hallowed.proper (fun entry hentry => ?_) x hmem
    obtain ⟨item, hitem, rfl⟩ := List.mem_map.1 (heq ▸ hentry)
    have hget := h.cut.mem_iff.1 ⟨group, hgroup, hitem⟩
    rw [← Array.getElem?_toList] at hget
    exact hread.fits (List.mem_of_getElem? hget)
  exact ⟨parts, counts, ⟨h, holds', hproper, hedited⟩, hallows, hchanged⟩

end Strategy

end NeoScript
