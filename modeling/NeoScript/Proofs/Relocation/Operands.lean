import NeoScript.Proofs.Arithmetic
import NeoScript.Proofs.Relocation.Widening

/-!
# Operands — address operands of a laid out program

* `PlacedAt`, `exists_placed` — every program that is not too long can be placed, with operands that
  lead to its targets;
* `Rendered` — an instruction at its address, whose operand leads to the addresses of its targets;
* `Arranged` — a placed program of rendered instructions;
* `exists_arranged` — every sound program that is not too long when it is widened has one.
-/

namespace NeoScript

namespace Instruction

variable {ins : Instruction}

/-- The offset of a single target fills the operand. -/
theorem jumpOffset?_eq (h : ins.op.hasSingleTarget = true) :
    ins.jumpOffset? = ins.signedAt? 0 ins.op.reachWidth := by
  unfold jumpOffset? Opcode.reachWidth
  rw [if_pos h]
  split <;> rfl

/-- The offsets of a try follow each other in the operand. -/
theorem handlerOffsets?_eq (h : ins.op.isTry = true) :
    ins.handlerOffsets? = (ins.signedAt? 0 ins.op.reachWidth).bind fun a =>
      (ins.signedAt? ins.op.reachWidth ins.op.reachWidth).map fun b => (a, b) := by
  obtain ⟨pc, op, operand⟩ := ins
  revert h
  cases op <;> simp only [Opcode.isTry, Bool.false_eq_true, false_implies, true_implies]
  case enterTry reach =>
      simp only [Option.map_eq_bind]
      cases reach <;> rfl

theorem signedAt?_of_handlerOffsets? (h : ins.op.isTry = true) {a b : Int}
    (hoffsets : ins.handlerOffsets? = some (a, b)) :
    ins.signedAt? 0 ins.op.reachWidth = some a ∧
      ins.signedAt? ins.op.reachWidth ins.op.reachWidth = some b := by
  rw [handlerOffsets?_eq h] at hoffsets
  obtain ⟨a', ha, hrest⟩ := Option.bind_eq_some_iff.1 hoffsets
  obtain ⟨b', hb, heq⟩ := Option.map_eq_some_iff.1 hrest
  cases heq
  exact ⟨ha, hb⟩

/-- A number that was written into an operand is read from there. -/
theorem signedAt?_of_operand (front back : List UInt8) {width start : Nat} {value : Int}
    (hoperand : ins.operand = front ++ Bytes.ofInt width value ++ back)
    (hstart : front.length = start)
    (hpos : 0 < width) (hfits : Bytes.fitsSigned width value = true) :
    ins.signedAt? start width = some value := by
  have hlength : (Bytes.ofInt width value).length = width := Bytes.length_ofNat ..
  have hslice : ins.operandSlice? start width = some (Bytes.ofInt width value) := by
    unfold operandSlice?
    rw [hoperand, if_pos (by simp only [List.length_append, hlength]; omega), ← hstart,
      List.append_assoc, List.drop_left, List.take_left' hlength]
  rw [signedAt?, hslice, Option.map_some, Bytes.toInt_ofInt hpos hfits]

/-- A distance that fits is read back from the operand. -/
theorem jumpOffset?_of_operand (h : ins.op.hasSingleTarget = true) {a : Int}
    (hoperand : ins.operand = Bytes.ofInt ins.op.reachWidth a)
    (hfits : Bytes.fitsSigned ins.op.reachWidth a = true) : ins.jumpOffset? = some a := by
  rw [jumpOffset?_eq h]
  exact signedAt?_of_operand [] [] (by simp [hoperand]) rfl
    (Opcode.reachWidth_pos _) hfits

/-- Two distances that fit are read back from the operand. -/
theorem handlerOffsets?_of_operand (h : ins.op.isTry = true) {a b : Int}
    (hoperand : ins.operand = Bytes.ofInt ins.op.reachWidth a ++ Bytes.ofInt ins.op.reachWidth b)
    (ha : Bytes.fitsSigned ins.op.reachWidth a = true)
    (hb : Bytes.fitsSigned ins.op.reachWidth b = true) : ins.handlerOffsets? = some (a, b) := by
  have hfirst : ins.signedAt? 0 ins.op.reachWidth = some a :=
    signedAt?_of_operand [] _ hoperand rfl (Opcode.reachWidth_pos _) ha
  have hsecond : ins.signedAt? ins.op.reachWidth ins.op.reachWidth = some b :=
    signedAt?_of_operand _ [] (hoperand.trans (List.append_nil _).symm) (Bytes.length_ofNat ..)
      (Opcode.reachWidth_pos _) hb
  rw [handlerOffsets?_eq h, hfirst, Option.bind_some, hsecond, Option.map_some]

end Instruction

namespace Relocation

/-! ## Distances -/

/-- The distance to a target; an absent handler has distance zero. -/
def distanceTo (addresses : Array Nat) (pc : Nat) : Option Nat → Int
  | some position => (addresses.getD position 0 : Int) - pc
  | none => 0

theorem distances_eq (addresses : Array Nat) (pc : Nat) (targets : List (Option Nat)) :
    distances addresses pc targets = targets.map (distanceTo addresses pc) := by
  unfold distances
  refine List.map_congr_left fun target _ => ?_
  cases target <;> rfl

theorem encodeDistance_of_fits {op : Opcode} {distance : Int}
    (h : Bytes.fitsSigned op.reachWidth distance = true) (pc : Nat) :
    encodeDistance op pc distance = .ok (Bytes.ofInt op.reachWidth distance) := by
  simp only [Opcode.reachWidth] at h
  simp only [encodeDistance, Opcode.reachWidth, h, if_true]

/-- Distances inside a program of less than two gigabytes fit long operands. -/
theorem fitsSigned_distanceTo {addresses : Array Nat} {pc : Nat} (hpc : pc < 0x80000000)
    (hbound : ∀ a ∈ addresses, a < 0x80000000) (target : Option Nat) :
    Bytes.fitsSigned 4 (distanceTo addresses pc target) = true := by
  rw [Bytes.fitsSigned_iff]
  have hpow : (Nat.pow 2 (8 * 4 - 1) : Int) = 0x80000000 := by decide
  rw [hpow]
  -- Both ends lie below two gigabytes, and so does their distance in either direction.
  cases target with
  | none =>
      simp only [distanceTo]
      omega
  | some t =>
      have ht : addresses.getD t 0 < 0x80000000 := by
        rw [Array.getD_eq_getD_getElem?]
        cases hget : addresses[t]? with
        | none => simp
        | some a => simpa using hbound a (Array.mem_of_getElem? hget)
      simp only [distanceTo]
      omega

/-- Every distance of an instruction that is not strained fits its operand. -/
theorem fitsSigned_of_isStrained {addresses : Array Nat} {pc : Nat} {l : Located}
    (hop : l.instruction.op.hasSingleTarget = true ∨ l.instruction.op.isTry = true)
    (hstrained : isStrained addresses pc l = false) (hpc : pc < 0x80000000)
    (hbound : ∀ a ∈ addresses, a < 0x80000000) (target : Option Nat)
    (htarget : target ∈ l.targets) :
    Bytes.fitsSigned l.instruction.op.reachWidth (distanceTo addresses pc target) = true := by
  by_cases hlong : l.instruction.op.isLong = true
  · rw [Opcode.reachWidth, if_pos hlong]
    exact fitsSigned_distanceTo hpc hbound target
  · rw [Opcode.reachWidth, if_neg hlong]
    rw [isStrained, isShort_iff.2 ⟨hop, Bool.not_eq_true _ ▸ hlong⟩, Bool.true_and,
      Bool.not_eq_false', distances_eq, List.all_map, List.all_eq_true] at hstrained
    exact hstrained target htarget

/-! ## Placing one instruction -/

section Place

variable {addresses : Array Nat} {pc n : Nat} {l : Located}

def operandTo (addresses : Array Nat) (pc width : Nat) (targets : List (Option Nat)) : List UInt8 :=
  targets.flatMap fun target => Bytes.ofInt width (distanceTo addresses pc target)

/-- An instruction whose distances fit is placed with them. -/
theorem place_of_fits (hne : l.targets ≠ [])
    (hfits : ∀ target ∈ l.targets,
      Bytes.fitsSigned l.instruction.op.reachWidth (distanceTo addresses pc target) = true) :
    place addresses pc l = .ok ⟨pc, l.instruction.op,
      operandTo addresses pc l.instruction.op.reachWidth l.targets⟩ := by
  have hparts : (distances addresses pc l.targets).mapM (encodeDistance l.instruction.op pc) =
      .ok (l.targets.map fun target =>
        Bytes.ofInt l.instruction.op.reachWidth (distanceTo addresses pc target)) := by
    rw [distances_eq]
    generalize l.targets = targets at hfits
    induction targets with
    | nil => rfl
    | cons target targets ih =>
        rw [List.forall_mem_cons] at hfits
        rw [List.map_cons, List.mapM_cons, encodeDistance_of_fits hfits.1, ih hfits.2]
        rfl
  unfold place
  split
  · rename_i htargets
    exact absurd htargets hne
  · rw [hparts]
    rfl

/-- What is known of a placed instruction in terms of addresses. -/
structure PlacedAt (addresses : Array Nat) (start : Nat) (l : Located) (ins : Instruction) :
    Prop where
  pc : ins.pc = start
  op : ins.op = l.instruction.op
  fits : (ins.op.hasSingleTarget = false → ins.op.isTry = false → l.instruction.Fits) → ins.Fits
  size : ins.size = l.instruction.size
  operand : ins.op.hasSingleTarget = false → ins.op.isTry = false →
    ins.operand = l.instruction.operand
  target : ins.op.hasSingleTarget = true → ∀ t, l.targets = [t] →
    ins.jumpOffset? = some (distanceTo addresses start t)
  handlers : ins.op.isTry = true → ∀ c f, l.targets = [c, f] →
    ins.handlerOffsets? = some (distanceTo addresses start c, distanceTo addresses start f)

theorem size_of_fixed {op : Opcode} {width : Nat} (h : op.layout = .fixed width)
    (operand operand' : List UInt8) :
    Instruction.sizeOf op operand = Instruction.sizeOf op operand' := by
  simp only [Instruction.sizeOf, h]

/-- Unless it is strained, an instruction of a script below two gigabytes can be placed. -/
theorem exists_place (haimed : l.Aimed n) (hstrained : isStrained addresses pc l = false)
    (hpc : pc < 0x80000000) (hbound : ∀ a ∈ addresses, a < 0x80000000) :
    ∃ ins, place addresses pc l = .ok ins ∧ PlacedAt addresses pc l ins := by
  cases haimed with
  | plain hsingle htry htargets =>
      refine ⟨{ l.instruction with pc }, by simp [place, htargets], rfl, rfl, fun h =>
        h hsingle htry, rfl, fun _ _ => rfl, ?_, ?_⟩
      · exact fun h => absurd h (by simp [hsingle])
      · exact fun h => absurd h (by simp [htry])
  | @single t hsingle htargets ht =>
      -- What refers is not strained, so its distances fit the operand that they are written into.
      have hfits := fitsSigned_of_isStrained (.inl hsingle) hstrained hpc hbound
      have hlayout := Opcode.layout_of_hasSingleTarget hsingle
      refine ⟨_, place_of_fits (by simp [htargets]) hfits, rfl, rfl, fun _ => ?_,
        size_of_fixed hlayout _ _, ?_, ?_, ?_⟩
      · simp [Instruction.Fits, hlayout, OperandLayout.Fits, operandTo, htargets, Bytes.ofInt]
      · exact fun h => absurd hsingle (by simpa using h)
      · intro hop t' ht'
        rw [htargets, List.singleton_inj] at ht'
        subst ht'
        exact Instruction.jumpOffset?_of_operand hop (by simp [operandTo, htargets])
          (hfits _ (by simp [htargets]))
      · intro htry
        exact absurd hsingle (by simp [Opcode.hasSingleTarget_of_isTry htry])
  | @handlers c f htry htargets hc hf =>
      have hfits := fitsSigned_of_isStrained (.inr htry) hstrained hpc hbound
      have hlayout := Opcode.layout_of_isTry htry
      refine ⟨_, place_of_fits (by simp [htargets]) hfits, rfl, rfl, fun _ => ?_,
        size_of_fixed hlayout _ _, ?_, ?_, ?_⟩
      · simp [Instruction.Fits, hlayout, OperandLayout.Fits, operandTo, htargets, Bytes.ofInt]
        omega
      · exact fun _ h => absurd htry (by simpa using h)
      · intro hsingle
        exact absurd hsingle (by simp [Opcode.hasSingleTarget_of_isTry htry])
      · intro hop c' f' heq
        rw [htargets] at heq
        cases heq
        exact Instruction.handlerOffsets?_of_operand hop (by simp [operandTo, htargets])
          (hfits c (by simp [htargets])) (hfits f (by simp [htargets]))

end Place

/-! ## Whole programs -/

/-- Every instruction of a settled program can be placed. -/
theorem Settled.exists_placedAt {program : List Located} (h : Settled program)
    (haimed : ∀ l ∈ program, l.Aimed program.length)
    (hsize : totalSize (program.map (·.instruction)) < 0x80000000) :
    ∃ xs, ((layout program).2.toList.zip program).mapM (fun entry =>
      place (layout program).2 entry.1 entry.2) =
        .ok xs ∧
      List.Forall₂ (fun entry ins => PlacedAt (layout program).2 entry.1 entry.2 ins)
        ((layout program).2.toList.zip program) xs := by
  have hbound : ∀ a ∈ (layout program).2, a < 0x80000000 := by
    intro a ha
    rw [layout_eq, List.mem_toArray] at ha
    have hle := le_of_mem_addressesFrom ha
    omega
  refine Sequencing.exists_mapM fun entry hentry => ?_
  obtain ⟨hpc, hl⟩ := List.of_mem_zip hentry
  exact exists_place (haimed _ hl) (h.isStrained_eq_false hentry)
    (hbound _ (by simpa using hpc)) hbound

/-- The addresses of the layout are those of the placed instructions. -/
theorem layout_of_placedAt {program : List Located} {xs : List Instruction}
    (h : List.Forall₂ (fun entry ins => PlacedAt (layout program).2 entry.1 entry.2 ins)
      ((layout program).2.toList.zip program) xs) :
    layout program = (totalSize xs, (xs.map (·.pc)).toArray) ∧ Placed 0 xs := by
  have hlength := length_layout program
  have hpc : (layout program).2.toList = xs.map (·.pc) := by
    rw [← Sequencing.map_eq_of_forall₂ (f := Prod.fst) (h.imp fun _ _ hp => hp.pc.symm)]
    exact (List.map_fst_zip (Nat.le_of_eq hlength)).symm
  -- A placed instruction has the size that the layout was made for.
  have hsizes : (program.map (·.instruction)).map (·.size) = xs.map (·.size) := by
    rw [← Sequencing.map_eq_of_forall₂ (f := fun entry : Nat × Located => entry.2.instruction.size)
      (h.imp fun _ _ hp => hp.size.symm), List.map_map]
    conv_lhs => rw [← List.map_snd_zip (Nat.le_of_eq hlength.symm), List.map_map]
    rfl
  have haddresses : (layout program).2.toList = addressesFrom 0 xs := by
    rw [layout_eq, addressesFrom_congr hsizes]
  refine ⟨Prod.ext ?_ ?_, placed_iff_addressesFrom.2 (hpc.symm.trans haddresses)⟩
  · rw [layout_eq, totalSize_eq_sum, totalSize_eq_sum, hsizes]
  · rw [← hpc]

/-- The distance to a position is the one to the instruction there. -/
theorem distanceTo_getElem? {xs : List Instruction} {t pc : Nat} {target : Instruction}
    (h : xs[t]? = some target) :
    distanceTo (xs.map (·.pc)).toArray pc (some t) = (target.pc : Int) - pc := by
  simp [distanceTo, Array.getD_eq_getD_getElem?, h]

/-- Different positions have different addresses. -/
theorem eq_of_pc_eq {xs : List Instruction} (hplaced : Placed 0 xs) {j k : Nat} {a b : Instruction}
    (ha : xs[j]? = some a) (hb : xs[k]? = some b) (hpc : a.pc = b.pc) : j = k := by
  have hj : j < (xs.map (·.pc)).length := by
    rw [List.length_map]
    exact (List.getElem?_eq_some_iff.1 ha).1
  refine (List.getElem?_inj hj hplaced.nodup_pc).1 ?_
  simp only [List.getElem?_map, ha, hb, Option.map_some, hpc]

/-- Every program that is not too long when it is widened can be placed. -/
theorem exists_placed_of_widen {program : List Located}
    (haimed : ∀ l ∈ program, l.Aimed program.length)
    (hsize : totalSize ((widen (shortCount program) program 0).1.map (·.instruction)) <
      0x80000000) :
    ∃ xs, ((layout (widen (shortCount program) program 0).1).2.toList.zip
          (widen (shortCount program) program 0).1).mapM
          (fun entry => place (layout (widen (shortCount program) program 0).1).2 entry.1 entry.2) =
        .ok xs ∧
      layout (widen (shortCount program) program 0).1 = (totalSize xs, (xs.map (·.pc)).toArray) ∧
      Placed 0 xs ∧
      List.Forall₂ (fun l ins => ∃ l', Widened l l' ∧
        PlacedAt (xs.map (·.pc)).toArray ins.pc l' ins)
        program xs := by
  -- The fuel suffices, so no reference is strained at the end.
  obtain ⟨hwidened, hsettled⟩ := widen_spec (Nat.le_refl (shortCount program)) 0
  generalize (widen (shortCount program) program 0).1 = program' at hwidened hsettled hsize ⊢
  have haimed' : ∀ l ∈ program', l.Aimed program'.length := by
    intro l' hl'
    obtain ⟨l, hl, hlong⟩ := Sequencing.exists_left_of_forall₂ hwidened hl'
    rw [← hwidened.length_eq]
    exact hlong.aimed (haimed l hl)
  obtain ⟨xs, hplace, hall⟩ := hsettled.exists_placedAt haimed' hsize
  obtain ⟨hlayout, hplaced⟩ := layout_of_placedAt hall
  refine ⟨xs, hplace, hlayout, hplaced, ?_⟩
  have hat : List.Forall₂ (fun l' ins => PlacedAt (xs.map (·.pc)).toArray ins.pc l' ins)
      program' xs := by
    rw [← List.map_snd_zip (Nat.le_of_eq (length_layout program').symm), List.forall₂_map_left_iff]
    rw [hlayout] at hall ⊢
    refine hall.imp fun entry ins hp => ?_
    rw [hp.pc]
    exact hp
  exact Sequencing.forall₂_trans (fun _ l' _ hlong hp => ⟨l', hlong, hp⟩) hwidened hat

/-- Every program that is not too long with long references only can be placed. -/
theorem exists_placed {program : List Located} (haimed : ∀ l ∈ program, l.Aimed program.length)
    (hsize : totalSize (program.map fun l => (lengthen l).instruction) < 0x80000000) :
    ∃ xs, ((layout (widen (shortCount program) program 0).1).2.toList.zip
          (widen (shortCount program) program 0).1).mapM
          (fun entry => place (layout (widen (shortCount program) program 0).1).2 entry.1 entry.2) =
        .ok xs ∧
      layout (widen (shortCount program) program 0).1 = (totalSize xs, (xs.map (·.pc)).toArray) ∧
      Placed 0 xs ∧
      List.Forall₂ (fun l ins => ∃ l', Widened l l' ∧
        PlacedAt (xs.map (·.pc)).toArray ins.pc l' ins)
        program xs :=
  exists_placed_of_widen haimed (Nat.lt_of_le_of_lt
    (totalSize_widened (widen_spec (Nat.le_refl (shortCount program)) 0).1) hsize)

/-- A located program that was placed is the result of relocation. -/
theorem relocate_eq_ok {r : Revision} {program : List Located} {xs : List Instruction}
    (hlocate : locate r = .ok program)
    (hplace : ((layout (widen (shortCount program) program 0).1).2.toList.zip
          (widen (shortCount program) program 0).1).mapM
          (fun entry => place (layout (widen (shortCount program) program 0).1).2 entry.1 entry.2) =
        .ok xs)
    (hlayout : layout (widen (shortCount program) program 0).1 =
      (totalSize xs, (xs.map (·.pc)).toArray)) :
    relocate r = .ok ⟨xs, mapOf r (xs.map (·.pc)).toArray (totalSize xs),
      (widen (shortCount program) program 0).2⟩ := by
  refine Sequencing.bind_eq_ok.2 ⟨program, hlocate, ?_⟩
  simp only [hlayout] at hplace ⊢
  exact Sequencing.bind_eq_ok.2 ⟨xs, hplace, rfl⟩

/-! ## Sound programs -/

/-- A handler of an instruction: absent, or the instruction at a position of the program. -/
inductive HandlerAt (xs : List Instruction) (ins : Instruction) : Option Nat → Int → Prop where
  | absent : HandlerAt xs ins none 0
  | present {t : Nat} {target : Instruction} {offset : Int} (htarget : xs[t]? = some target)
      (hoffset : offset = (target.pc : Int) - ins.pc) (hne : offset ≠ 0) :
      HandlerAt xs ins (some t) offset

/-- An instruction of a placed program whose operand leads to its targets. -/
structure Rendered (xs : List Instruction) (l : Located) (ins : Instruction) : Prop where
  op : ins.op.toLong = l.instruction.op.toLong
  fits : ins.Fits
  operand : ins.op.hasSingleTarget = false → ins.op.isTry = false →
    ins.operand = l.instruction.operand
  target : ins.op.hasSingleTarget = true → ∀ t, l.targets = [some t] →
    ∃ target, xs[t]? = some target ∧ ins.jumpOffset? = some ((target.pc : Int) - ins.pc)
  handlers : ins.op.isTry = true → ∀ c f, l.targets = [c, f] →
    ∃ a b, ins.handlerOffsets? = some (a, b) ∧ HandlerAt xs ins c a ∧ HandlerAt xs ins f b

structure Arranged (program : List Located) (xs : List Instruction) : Prop where
  placed : Placed 0 xs
  rendered : List.Forall₂ (Rendered xs) program xs

/-- The distance to a handler leads to it, and is zero exactly without one. -/
theorem handlerAt_of_distanceTo {xs : List Instruction} (hplaced : Placed 0 xs) {k : Nat}
    {ins : Instruction} (hins : xs[k]? = some ins) {c : Option Nat}
    (hc : ∀ t, c = some t → t < xs.length ∧ t ≠ k) :
    HandlerAt xs ins c (distanceTo (xs.map (·.pc)).toArray ins.pc c) := by
  cases c with
  | none => exact .absent
  | some t =>
      obtain ⟨ht, hne⟩ := hc t rfl
      have htarget := List.getElem?_eq_getElem ht
      rw [distanceTo_getElem? htarget]
      exact .present htarget rfl fun hzero => hne (eq_of_pc_eq hplaced htarget hins (by omega))

/-- Distances in terms of addresses lead to the instructions at these addresses. -/
theorem rendered_of_placedAt {xs : List Instruction} (hplaced : Placed 0 xs) {k pc : Nat}
    {ins : Instruction} (hins : xs[k]? = some ins) {l l' : Located} (hsound : l'.Sound xs.length k)
    (hwidened : Widened l l') (h : PlacedAt (xs.map (·.pc)).toArray pc l' ins) :
    Rendered xs l ins := by
  have hop := h.op
  have htargets := hwidened.targets_eq
  refine ⟨by rw [hop, hwidened.op_eq], h.fits (hop ▸ hsound.fits), ?_, ?_, ?_⟩
  · intro hsingle htry
    rw [h.operand hsingle htry, hwidened.operand_eq]
  · -- The kind of the operation decides which targets a sound instruction has.
    intro hsingle t ht
    cases hsound.aimed with
    | plain hplain => rw [hop, hplain] at hsingle; cases hsingle
    | @single t' _ htargets' hlt =>
        rw [htargets, ht] at htargets'
        cases htargets'
        have htarget := List.getElem?_eq_getElem hlt
        refine ⟨_, htarget, ?_⟩
        rw [h.target hsingle (some t) (htargets.trans ht), ← h.pc, distanceTo_getElem? htarget]
    | handlers htry =>
        rw [hop, Opcode.hasSingleTarget_of_isTry htry] at hsingle
        cases hsingle
  · intro htry c f ht
    have hapart := hsound.apart (hop ▸ htry)
    cases hsound.aimed with
    | plain _ hplain => rw [hop, hplain] at htry; cases htry
    | single hsingle =>
        rw [← hop, Opcode.hasSingleTarget_of_isTry htry] at hsingle
        cases hsingle
    | handlers _ htargets' hc hf =>
        rw [htargets, ht] at htargets' hapart
        cases htargets'
        refine ⟨_, _, h.handlers htry c f (htargets.trans ht), ?_, ?_⟩
        · rw [← h.pc]
          refine handlerAt_of_distanceTo hplaced hins fun t hct => ⟨hc t hct, ?_⟩
          rintro rfl
          exact hapart (by simp [hct])
        · rw [← h.pc]
          refine handlerAt_of_distanceTo hplaced hins fun t hft => ⟨hf t hft, ?_⟩
          rintro rfl
          exact hapart (by simp [hft])

/-- The program that relocation lays out. -/
theorem exists_arranged {program : List Located} (hsound : SoundProgram program)
    (hsize : totalSize ((widen (shortCount program) program 0).1.map (·.instruction)) <
      0x80000000) :
    ∃ xs, ((layout (widen (shortCount program) program 0).1).2.toList.zip
          (widen (shortCount program) program 0).1).mapM
          (fun entry => place (layout (widen (shortCount program) program 0).1).2 entry.1 entry.2) =
        .ok xs ∧
      layout (widen (shortCount program) program 0).1 = (totalSize xs, (xs.map (·.pc)).toArray) ∧
      Arranged program xs := by
  have haimed : ∀ l ∈ program, l.Aimed program.length := by
    intro l hl
    obtain ⟨k, hk⟩ := List.getElem?_of_mem hl
    exact (hsound k l hk).aimed
  obtain ⟨xs, hplace, hlayout, hplaced, hall⟩ := exists_placed_of_widen haimed hsize
  obtain ⟨hlength, hat⟩ := Sequencing.forall₂_iff_getElem?.1 hall
  refine ⟨xs, hplace, hlayout, hplaced, Sequencing.forall₂_iff_getElem?.2 ⟨hlength, ?_⟩⟩
  intro k l ins hl hins
  obtain ⟨l', hlong, hp⟩ := hat k l ins hl hins
  exact rendered_of_placedAt hplaced hins (hlength ▸ hlong.sound (hsound k l hl)) hlong hp

end Relocation
end NeoScript
