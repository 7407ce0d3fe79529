import Mathlib.Data.List.Forall2
import NeoScript.Proofs.Opcode
import NeoScript.Proofs.Script.Codec
import NeoScript.Proofs.Script.Layout
import NeoScript.Proofs.Sequencing
import NeoScript.Relocation

/-!
# Widening — the layout in which no reference is strained

* `addressesFrom` — where instructions begin;
* `Located.Aimed` — an instruction with as many targets as its operation has, inside the program;
* `Located.Sound` — moreover its operand fits, and no handler is the instruction itself;
* `Widened` — an instruction that became long, or did not;
* `widen_spec` — enough rounds leave nothing strained, and change nothing but the reach.
-/

namespace NeoScript
namespace Relocation

/-! ## Layout -/

/-- Where instructions begin if each follows the one before. -/
def addressesFrom (start : Nat) : List Instruction → List Nat
  | [] => []
  | ins :: rest => start :: addressesFrom (start + ins.size) rest

@[simp] theorem length_addressesFrom (start : Nat) (xs : List Instruction) :
    (addressesFrom start xs).length = xs.length := by
  induction xs generalizing start with
  | nil => rfl
  | cons ins xs ih => simp [addressesFrom, ih]

/-- The layout gives each instruction the address behind those before it. -/
theorem layout_foldl (program : List Located) (start : Nat) (front : Array Nat) :
    program.foldl layoutStep (start, front) =
      (start + totalSize (program.map (·.instruction)),
        front ++ (addressesFrom start (program.map (·.instruction))).toArray) := by
  induction program generalizing start front with
  | nil => simp [addressesFrom]
  | cons l program ih =>
      rw [List.foldl_cons, layoutStep, ih]
      simp [addressesFrom, Nat.add_assoc]

/-- The layout of a whole program begins at zero. -/
theorem layout_eq (program : List Located) :
    layout program = (totalSize (program.map (·.instruction)),
      (addressesFrom 0 (program.map (·.instruction))).toArray) := by
  rw [layout, layout_foldl]
  simp

theorem le_of_mem_addressesFrom {start pc : Nat} {xs : List Instruction}
    (h : pc ∈ addressesFrom start xs) : pc ≤ start + totalSize xs := by
  induction xs generalizing start with
  | nil => cases h
  | cons ins xs ih =>
      rw [totalSize_cons]
      rcases List.mem_cons.1 h with rfl | hrest
      · exact Nat.le_add_right ..
      · have hle := ih hrest
        omega

/-- Instructions are placed where they have the addresses of the layout. -/
theorem placed_iff_addressesFrom {start : Nat} {xs : List Instruction} :
    Placed start xs ↔ xs.map (·.pc) = addressesFrom start xs := by
  induction xs generalizing start with
  | nil => simp [addressesFrom]
  | cons ins xs ih => simp [addressesFrom, ih]

/-- Addresses depend on sizes only. -/
theorem addressesFrom_congr {start : Nat} {xs ys : List Instruction}
    (h : xs.map (·.size) = ys.map (·.size)) : addressesFrom start xs = addressesFrom start ys := by
  induction xs generalizing start ys with
  | nil =>
      rw [List.map_nil, eq_comm, List.map_eq_nil_iff] at h
      rw [h]
  | cons ins xs ih =>
      cases ys with
      | nil => cases h
      | cons other ys =>
          rw [List.map_cons, List.map_cons, List.cons.injEq] at h
          rw [addressesFrom, addressesFrom, h.1, ih h.2]

/-! ## Sound programs -/

/-- An instruction of a program of `n` instructions, with the targets of its operation. -/
inductive Located.Aimed (n : Nat) (l : Located) : Prop where
  | plain (hsingle : l.instruction.op.hasSingleTarget = false)
      (htry : l.instruction.op.isTry = false) (htargets : l.targets = []) : Aimed n l
  | single {t : Nat} (hsingle : l.instruction.op.hasSingleTarget = true)
      (htargets : l.targets = [some t]) (ht : t < n) : Aimed n l
  | handlers {c f : Option Nat} (htry : l.instruction.op.isTry = true)
      (htargets : l.targets = [c, f])
      (hc : ∀ t, c = some t → t < n) (hf : ∀ t, f = some t → t < n) : Aimed n l

/-- An instruction at position `k` of a program of `n` instructions: a plain operand fits, and no
handler is the instruction itself. -/
structure Located.Sound (n k : Nat) (l : Located) : Prop where
  aimed : l.Aimed n
  fits : l.instruction.op.hasSingleTarget = false → l.instruction.op.isTry = false →
    l.instruction.Fits
  apart : l.instruction.op.isTry = true → some k ∉ l.targets

def SoundProgram (program : List Located) : Prop :=
  ∀ (k : Nat) (l : Located), program[k]? = some l → l.Sound program.length k

/-- An instruction that became long, or did not. -/
inductive Widened : Located → Located → Prop where
  | same (l : Located) : Widened l l
  | long {l : Located} (hshort : isShort l.instruction.op = true) : Widened l (lengthen l)

/-- Short references are those that name addresses and are not long. -/
theorem isShort_iff {op : Opcode} :
    isShort op = true ↔ (op.hasSingleTarget = true ∨ op.isTry = true) ∧ op.isLong = false := by
  cases op <;> simp [isShort, Opcode.hasSingleTarget, Opcode.isTry, Opcode.isLong, Opcode.toLong]
  all_goals rename_i reach; cases reach <;> simp

theorem isShort_toLong (op : Opcode) : isShort op.toLong = false := by
  cases op <;> simp [isShort, Opcode.toLong, Opcode.isLong]

/-- A long instruction is not shorter; the longest operand has eight bytes where it had two. -/
theorem size_lengthen (l : Located) : l.instruction.size ≤ (lengthen l).instruction.size ∧
    (lengthen l).instruction.size ≤ l.instruction.size + 6 := by
  obtain ⟨⟨pc, op, operand⟩, targets⟩ := l
  change Instruction.sizeOf op operand ≤ Instruction.sizeOf op.toLong operand ∧
    Instruction.sizeOf op.toLong operand ≤ Instruction.sizeOf op operand + 6
  by_cases hreach : op.hasSingleTarget = true ∨ op.isTry = true
  · have hlong := Opcode.reachWidth_toLong hreach
    have hpos := op.reachWidth_pos
    have hle := op.reachWidth_le
    rcases hreach with hsingle | htry
    · simp only [Instruction.sizeOf, Opcode.layout_of_hasSingleTarget hsingle,
        Opcode.layout_of_hasSingleTarget ((Opcode.hasSingleTarget_toLong op).trans hsingle), hlong]
      omega
    · simp only [Instruction.sizeOf, Opcode.layout_of_isTry htry,
        Opcode.layout_of_isTry ((Opcode.isTry_toLong op).trans htry), hlong]
      omega
  · rw [not_or, Bool.not_eq_true, Bool.not_eq_true] at hreach
    rw [Opcode.toLong_eq_self hreach.1 hreach.2]
    omega

namespace Widened

variable {l l' l'' : Located} {n k : Nat}

theorem trans (h : Widened l l') (h' : Widened l' l'') : Widened l l'' := by
  cases h with
  | same => exact h'
  | long hshort =>
      cases h' with
      | same => exact .long hshort
      | long hshort' =>
          have hfalse := isShort_toLong l.instruction.op
          rw [show (lengthen l).instruction.op = l.instruction.op.toLong from rfl,
            hfalse] at hshort'
          cases hshort'

theorem op_eq (h : Widened l l') : l'.instruction.op.toLong = l.instruction.op.toLong := by
  cases h with
  | same => rfl
  | long _ =>
      change l.instruction.op.toLong.toLong = l.instruction.op.toLong
      cases l.instruction.op <;> rfl

theorem operand_eq (h : Widened l l') : l'.instruction.operand = l.instruction.operand := by
  cases h <;> rfl

theorem targets_eq (h : Widened l l') : l'.targets = l.targets := by
  cases h <;> rfl

theorem op_cases (h : Widened l l') :
    l'.instruction.op = l.instruction.op ∨ l'.instruction.op = l.instruction.op.toLong := by
  cases h with
  | same => exact .inl rfl
  | long _ => exact .inr rfl

theorem hasSingleTarget_eq (h : Widened l l') :
    l'.instruction.op.hasSingleTarget = l.instruction.op.hasSingleTarget := by
  rw [← Opcode.hasSingleTarget_toLong, h.op_eq, Opcode.hasSingleTarget_toLong]

theorem isTry_eq (h : Widened l l') : l'.instruction.op.isTry = l.instruction.op.isTry := by
  rw [← Opcode.isTry_toLong, h.op_eq, Opcode.isTry_toLong]

/-- Widening does not change targets, so they stay inside the program. -/
theorem aimed (h : Widened l l') (haimed : l.Aimed n) : l'.Aimed n := by
  cases h with
  | same => exact haimed
  | long hshort =>
      cases haimed with
      | plain hsingle htry _ => simp [isShort_iff, hsingle, htry] at hshort
      | single hsingle htargets ht =>
          exact .single ((Opcode.hasSingleTarget_toLong _).trans hsingle) htargets ht
      | handlers htry htargets hc hf =>
          exact .handlers ((Opcode.isTry_toLong _).trans htry) htargets hc hf

/-- Only an instruction with targets becomes long, and it keeps them. -/
theorem sound (h : Widened l l') (hsound : l.Sound n k) : l'.Sound n k := by
  refine ⟨h.aimed hsound.aimed, ?_, ?_⟩
  · intro hsingle htry
    rw [h.hasSingleTarget_eq] at hsingle
    rw [h.isTry_eq] at htry
    cases h with
    | same => exact hsound.fits hsingle htry
    | long hshort => simp [isShort_iff, hsingle, htry] at hshort
  · intro htry
    rw [h.targets_eq]
    exact hsound.apart (h.isTry_eq.symm.trans htry)

/-- Nothing gets longer than by being made long. -/
theorem size_le (h : Widened l l') : l'.instruction.size ≤ (lengthen l).instruction.size := by
  cases h with
  | same => exact (size_lengthen l).1
  | long _ => exact Nat.le_refl _

end Widened

/-! ## Rounds -/

theorem isShort_of_isStrained {addresses : Array Nat} {pc : Nat} {l : Located}
    (h : isStrained addresses pc l = true) : isShort l.instruction.op = true :=
  (Bool.and_eq_true_iff.1 h).1

/-- One round lengthens what is strained, so as many references stop being short. -/
theorem widenOnce_spec (addresses : Array Nat) {starts : List Nat} {program : List Located}
    (hlength : starts.length = program.length) :
    List.Forall₂ Widened program
        (List.zipWith (fun pc l => if isStrained addresses pc l then lengthen l else l)
          starts program) ∧
      shortCount (List.zipWith (fun pc l => if isStrained addresses pc l then lengthen l else l)
          starts program) +
          (List.zipWith (isStrained addresses) starts program).count true =
        shortCount program := by
  induction starts generalizing program with
  | nil =>
      cases program with
      | nil => exact ⟨.nil, rfl⟩
      | cons l program => cases hlength
  | cons pc starts ih =>
      cases program with
      | nil => cases hlength
      | cons l program =>
          obtain ⟨hwidened, hcount⟩ := ih (Nat.succ.inj hlength)
          simp only [List.zipWith_cons_cons, shortCount, List.countP_cons,
            List.count_cons] at hcount ⊢
          -- What is strained is short before the round and long after it.
          by_cases hstrained : isStrained addresses pc l = true
          · have hshort := isShort_of_isStrained hstrained
            have hlong : isShort (lengthen l).instruction.op = false := isShort_toLong _
            refine ⟨.cons ?_ hwidened, ?_⟩
            · rw [if_pos hstrained]
              exact .long hshort
            · simp only [hstrained, if_true, hshort, hlong, Bool.false_eq_true, if_false,
                beq_self_eq_true]
              omega
          · refine ⟨.cons ?_ hwidened, ?_⟩
            · rw [if_neg hstrained]
              exact .same l
            · simp only [hstrained, Bool.false_eq_true, if_false, beq_iff_eq]
              omega

def Settled (program : List Located) : Prop :=
  strainedCount (layout program).2 program = 0

theorem forall₂_widened_refl (program : List Located) : List.Forall₂ Widened program program :=
  List.forall₂_same.2 fun l _ => .same l

theorem length_layout (program : List Located) :
    (layout program).2.toList.length = program.length := by
  rw [layout_eq]
  simp

/-- Widening stops with no reference strained, since each round makes a short one long. -/
theorem widen_spec {fuel : Nat} {program : List Located} (hfuel : shortCount program ≤ fuel)
    (upgraded : Nat) :
    List.Forall₂ Widened program (widen fuel program upgraded).1 ∧
      Settled (widen fuel program upgraded).1 := by
  induction fuel generalizing program upgraded with
  | zero =>
      -- Without short references nothing is strained.
      refine ⟨forall₂_widened_refl program, ?_⟩
      have hcount := (widenOnce_spec (layout program).2 (length_layout program)).2
      change strainedCount (layout program).2 program = 0
      unfold strainedCount
      omega
  | succ fuel ih =>
      have hround := widenOnce_spec (layout program).2 (length_layout program)
      simp only [widen]
      split
      · rename_i hzero
        exact ⟨forall₂_widened_refl program, hzero⟩
      · rename_i n hstrained
        have hfuel' : shortCount (widenOnce (layout program).2 program) ≤ fuel := by
          have hcount := hround.2
          unfold strainedCount at hstrained
          unfold widenOnce
          omega
        obtain ⟨hwidened, hsettled⟩ := ih hfuel' (upgraded + (n + 1))
        exact ⟨Sequencing.forall₂_trans (fun _ _ _ h h' => h.trans h') hround.1 hwidened, hsettled⟩

/-- Where nothing is strained, no single instruction is. -/
theorem Settled.isStrained_eq_false {program : List Located} (h : Settled program) {pc : Nat}
    {l : Located} (hmem : (pc, l) ∈ (layout program).2.toList.zip program) :
    isStrained (layout program).2 pc l = false := by
  rw [Settled, strainedCount, List.count_eq_zero, ← List.map_uncurry_zip_eq_zipWith] at h
  rw [Bool.eq_false_iff]
  intro hstrained
  exact h (List.mem_map.2 ⟨(pc, l), hmem, hstrained⟩)

/-- A program is longest with all references long. -/
theorem totalSize_widened {program program' : List Located}
    (h : List.Forall₂ Widened program program') :
    totalSize (program'.map (·.instruction)) ≤
      totalSize (program.map fun l => (lengthen l).instruction) := by
  apply totalSize_le_of_forall₂
  rw [List.forall₂_map_left_iff, List.forall₂_map_right_iff]
  exact h.flip.imp fun _ _ hwidened => hwidened.size_le

/-- Making a reference long adds six bytes at most. -/
theorem totalSize_lengthen (program : List Located) :
    totalSize (program.map fun l => (lengthen l).instruction) ≤
      totalSize (program.map (·.instruction)) + 6 * program.length := by
  induction program with
  | nil => simp
  | cons l program ih =>
      have hsize := (size_lengthen l).2
      simp only [List.map_cons, totalSize_cons, List.length_cons]
      omega

end Relocation
end NeoScript
