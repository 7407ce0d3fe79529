import Mathlib.Data.List.Pairwise
import NeoScript.Proofs.Relocation.Transfer

/-!
# Validity — a relocated script is valid

* `Transferred.exists_lands_of_headAt` — the segments of a script have a place in the new one;
* `Transferred.lands_lt_iff`, `Transferred.lands_inj` — links stay in order, and no two share an
  address;
* `Transferred.exists_of_lands` — each begins with an instruction;
* `Transferred.isValid` — the encoded instructions are a valid script.
-/

namespace NeoScript

/-! ## Landings -/

section Landings

variable {script : Script} {code : Code} {links : List Link} {xs : List Instruction} {p q : Nat}

/-- A link places an instruction at least, so it can be jumped to. -/
theorem Linked.news_ne_nil {φ : Nat → Nat → Prop} {l : Link} (h : Linked φ l) : l.news ≠ [] := by
  cases h with
  | kept => simp [Link.news]
  | replaced h =>
      cases h
      simp [Link.news]

/-- A segment begins with an old instruction. -/
theorem Link.olds_ne_nil (l : Link) : l.olds ≠ [] := by
  obtain ⟨s, chunk⟩ := l
  cases s <;> simp [Link.olds, Segment.olds]

/-- Where a link begins, its first new instruction stands. -/
theorem Transferred.exists_of_lands (h : Transferred script links xs) (hlands : Lands links p q) :
    ∃ ins ∈ xs, ins.pc = q := by
  obtain ⟨before, l, after, rfl, -, rfl⟩ := mem_landings_iff.1 hlands
  obtain ⟨ins, rest, hnews⟩ := List.exists_cons_of_ne_nil (h.linked l (by simp)).news_ne_nil
  have hplaced := h.placed
  rw [← h.news, List.flatMap_append, List.flatMap_cons, hnews] at hplaced
  refine ⟨ins, ?_, ?_⟩
  · rw [← h.news, List.flatMap_append, List.flatMap_cons, hnews]
    simp
  · rw [Placed.append_iff, List.cons_append] at hplaced
    exact hplaced.2.1

/-- Links begin at instructions of the old script. -/
theorem Transferred.exists_old_of_lands (h : Transferred script links xs)
    (hread : script.IsReading code)
    (hlands : Lands links p q) : ∃ ins ∈ script.instructions.toList, ins.pc = p := by
  obtain ⟨before, l, after, rfl, rfl, -⟩ := mem_landings_iff.1 hlands
  obtain ⟨ins, rest, holds⟩ := List.exists_cons_of_ne_nil (Link.olds_ne_nil l)
  have hplaced := hread.placed
  rw [← h.olds, List.flatMap_append, List.flatMap_cons, holds] at hplaced
  refine ⟨ins, ?_, ?_⟩
  · rw [← h.olds, List.flatMap_append, List.flatMap_cons, holds]
    simp
  · rw [Placed.append_iff, List.cons_append] at hplaced
    exact hplaced.2.1

/-- A segment that begins with an instruction lands somewhere. -/
theorem Transferred.exists_lands_of_headAt (h : Transferred script links xs)
    (hread : script.IsReading code)
    {t j : Nat} (hhead : Segment.HeadAt (links.map Prod.fst) t j) {target : Instruction}
    (htarget : script.instructions[t]? = some target) : ∃ q, Lands links target.pc q := by
  obtain ⟨before, s, after, heq, rfl, -⟩ := hhead
  obtain ⟨front, back, rfl, rfl, hback⟩ := List.map_eq_append_iff.1 heq
  obtain ⟨l, back, rfl, rfl, -⟩ := List.map_eq_cons_iff.1 hback
  refine ⟨_, mem_landings_iff.2 ⟨front, l, back, rfl, ?_, rfl⟩⟩
  have hplaced := hread.placed
  rw [← Array.getElem?_toList, ← h.olds] at htarget
  rw [← h.olds, List.flatMap_append] at hplaced
  rw [List.flatMap_append] at htarget
  refine (hplaced.pc_of_getElem?_append ?_ htarget).trans (by simp)
  simp [List.length_flatMap, Link.olds, Function.comp_def]

theorem totalSize_pos {xs : List Instruction} (h : xs ≠ []) : 0 < totalSize xs :=
  Nat.lt_of_lt_of_le (List.length_pos_of_ne_nil h) (length_le_totalSize xs)

/-- Links begin at ascending addresses, old and new. -/
theorem pairwise_landings (hnews : ∀ l ∈ links, l.news ≠ []) :
    (landings p q links).Pairwise (fun a b => a.1 < b.1 ∧ a.2 < b.2) ∧
      ∀ entry ∈ landings p q links, p ≤ entry.1 ∧ q ≤ entry.2 ∧
        entry.1 < p + totalSize (links.flatMap Link.olds) := by
  induction links generalizing p q with
  | nil => exact ⟨.nil, by simp [landings]⟩
  | cons l links ih =>
      rw [List.forall_mem_cons] at hnews
      obtain ⟨hsorted, hbounds⟩ :=
        ih (p := p + totalSize l.olds) (q := q + totalSize l.news) hnews.2
      -- No link is empty on either side, so the next one begins strictly behind.
      have hold := totalSize_pos (Link.olds_ne_nil l)
      have hnew := totalSize_pos hnews.1
      refine ⟨.cons ?_ hsorted, ?_⟩
      · intro entry hentry
        have := hbounds entry hentry
        simp only
        omega
      · intro entry hentry
        rw [List.flatMap_cons, totalSize_append]
        rcases List.mem_cons.1 hentry with rfl | hentry
        · simp only
          omega
        · have := hbounds entry hentry
          omega

theorem Transferred.news_ne_nil (h : Transferred script links xs) : ∀ l ∈ links, l.news ≠ [] :=
  fun l hl => (h.linked l hl).news_ne_nil

/-- Pairs that ascend on both sides are in the same order on both. -/
theorem lt_iff_of_pairwise {entries : List (Nat × Nat)}
    (hsorted : entries.Pairwise fun a b => a.1 < b.1 ∧ a.2 < b.2) {p' q' : Nat}
    (hmem : (p, q) ∈ entries) (hmem' : (p', q') ∈ entries) : p < p' ↔ q < q' := by
  let agree (a b : Nat × Nat) : Prop := (a.1 < b.1 ↔ a.2 < b.2) ∧ (b.1 < a.1 ↔ b.2 < a.2)
  have hsymm : Std.Symm agree := ⟨fun a b hab => ⟨hab.2, hab.1⟩⟩
  have hpairs : entries.Pairwise agree := hsorted.imp fun hlt =>
    ⟨iff_of_true hlt.1 hlt.2, iff_of_false (Nat.lt_asymm hlt.1) (Nat.lt_asymm hlt.2)⟩
  have hself : ∀ a ∈ entries, agree a a := fun a _ => by simp [agree]
  exact (hpairs.forall_of_forall hself hmem hmem').1

/-- Links stay in order. -/
theorem Transferred.lands_lt_iff (h : Transferred script links xs) {p' q' : Nat}
    (hlands : Lands links p q) (hlands' : Lands links p' q') : p < p' ↔ q < q' :=
  lt_iff_of_pairwise (pairwise_landings h.news_ne_nil).1 hlands hlands'

/-- No two links share an address. -/
theorem Transferred.lands_inj (h : Transferred script links xs) {p' q' : Nat}
    (hlands : Lands links p q) (hlands' : Lands links p' q') : p = p' ↔ q = q' := by
  have hlt := h.lands_lt_iff hlands hlands'
  have hgt := h.lands_lt_iff hlands' hlands
  omega

end Landings

/-! ## Addresses of the new script -/

section Valid

variable {script : Script} {code : Code} {links : List Link} {xs : List Instruction}

theorem relativeTargets_of_isLocal {ins : Instruction} (h : ins.op.isLocal = true) :
    relativeTargets ins = [] := by
  obtain ⟨hstraight, hsingle⟩ := Opcode.isLocal_iff.1 h
  exact Instruction.relativeTargets_eq_nil hsingle (Opcode.isTry_of_straight hstraight)

/-- A handler that is absent stays absent. -/
theorem HandlerCarried.filter {φ : Nat → Nat → Prop} {pc pc' : Nat} {a a' : Int} {as as' : List Int}
    (h : HandlerCarried φ pc pc' a a')
    (hrest : List.Forall₂ (OffsetMoved φ pc pc') (as.filter (· ≠ 0)) (as'.filter (· ≠ 0))) :
    List.Forall₂ (OffsetMoved φ pc pc') ((a :: as).filter (· ≠ 0))
      ((a' :: as').filter (· ≠ 0)) := by
  cases h with
  | absent => simpa using hrest
  | present ha ha' hmoved =>
      rw [List.filter_cons_of_pos (by simpa using ha), List.filter_cons_of_pos (by simpa using ha')]
      exact .cons hmoved hrest

/-- A carried instruction names the same addresses. -/
theorem Instruction.Carried.relativeTargets {φ : Nat → Nat → Prop} {i j : Instruction}
    (h : i.Carried φ j) :
    List.Forall₂ (OffsetMoved φ i.pc j.pc) (relativeTargets i) (relativeTargets j) := by
  rcases i.op.refers_cases with hsingle | htry | ⟨hsingle, htry⟩
  · obtain ⟨a, b, ha, hb, hmoved⟩ := h.target hsingle
    rw [relativeTargets_of_jumpOffset? ha, relativeTargets_of_jumpOffset? hb]
    exact .cons hmoved .nil
  · obtain ⟨a, b, a', b', holds, hnews, hcatch, hfinally⟩ := h.handlers htry
    have htry' : j.op.isTry = true := by
      rw [← Opcode.isTry_toLong, ← h.op, Opcode.isTry_toLong, htry]
    rw [relativeTargets_of_isTry htry holds, relativeTargets_of_isTry htry' hnews]
    exact hcatch.filter (hfinally.filter .nil)
  · have hop := Opcode.eq_of_toLong_eq hsingle htry h.op
    rw [relativeTargets_eq_nil hsingle htry, relativeTargets_eq_nil (hop ▸ hsingle) (hop ▸ htry)]
    exact .nil

/-- A link carries an instruction along, or puts local instructions in place of local ones. -/
theorem Linked.kept_or_local {φ : Nat → Nat → Prop} {l : Link} (h : Linked φ l)
    (hproper : l.1.Proper) :
    (∃ entry ins, l = (.kept entry, [ins]) ∧ entry.2.Carried φ ins) ∨
      (∀ ins ∈ l.olds, ins.op.isLocal = true) ∧ ∀ ins ∈ l.news, ins.op.isLocal = true ∧
        ins.Fits := by
  cases h with
  | kept hcarried => exact .inl ⟨_, _, rfl, hcarried⟩
  | replaced h =>
      cases hproper with
      | replaced holds hnews _ _ =>
          refine .inr ⟨?_, ?_⟩
          · intro ins hins
            obtain ⟨entry, hentry, rfl⟩ := List.mem_map.1 hins
            exact holds entry hentry
          · intro ins hins
            obtain ⟨raw, hraw, hop, hoperand⟩ := Sequencing.exists_left_of_forall₂ h hins
            unfold Instruction.Fits
            rw [hop, hoperand]
            exact hnews raw hraw

namespace Transferred

/-- A new instruction is carried from an old one, or it is local. -/
theorem news_cases (h : Transferred script links xs) {ins : Instruction} (hins : ins ∈ xs) :
    (∃ entry, (.kept entry, [ins]) ∈ links ∧ entry.2.Carried (Lands links) ins) ∨
      ins.op.isLocal = true ∧ ins.Fits := by
  rw [← h.news] at hins
  obtain ⟨l, hl, hmem⟩ := List.mem_flatMap.1 hins
  rcases (h.linked l hl).kept_or_local (h.proper l hl) with ⟨entry, ins', rfl, hcarried⟩ |
    ⟨-, hlocal⟩
  · cases List.mem_singleton.1 hmem
    exact .inl ⟨entry, hl, hcarried⟩
  · exact .inr (hlocal ins hmem)

/-- All new instructions can be written. -/
theorem fits (h : Transferred script links xs) : ∀ ins ∈ xs, ins.Fits := by
  intro ins hins
  rcases h.news_cases hins with ⟨entry, -, hcarried⟩ | ⟨-, hfits⟩
  · exact hcarried.fits
  · exact hfits

/-- The new instructions are a valid script. -/
theorem isValid (h : Transferred script links xs) (hencode : encode xs = .ok code) :
    (Script.ofInstructions xs.toArray).IsValid code := by
  have hread := Script.isReading_of_encode h.placed hencode
  refine ⟨hread, ?_⟩
  intro ins hins offset hoffset
  rcases h.news_cases hins with ⟨entry, -, hcarried⟩ | ⟨hlocal, -⟩
  · obtain ⟨old, -, p, q, hlands, -, hq⟩ :=
      Sequencing.exists_left_of_forall₂ hcarried.relativeTargets hoffset
    refine hread.leads_of_isBoundary (by omega) ?_
    rw [← hq, Int.toNat_natCast]
    exact hread.isBoundary_iff.2 (h.exists_of_lands hlands)
  · rw [relativeTargets_of_isLocal hlocal] at hoffset
    cases hoffset

end Transferred

end Valid

end NeoScript
