import Mathlib.Algebra.GroupWithZero.Nat
import Mathlib.Data.List.Nodup
import NeoScript.Script

/-!
# Layout — instructions one behind the other

* `totalSize` — the number of bytes that instructions take;
* `Placed` — every instruction begins where the one before it ends.

The addresses of placed instructions ascend, so no two are equal, and behind each instruction
another one begins or all of them end.
-/

namespace NeoScript

def totalSize : List Instruction → Nat
  | [] => 0
  | ins :: rest => ins.size + totalSize rest

@[simp] theorem totalSize_nil : totalSize [] = 0 := rfl

@[simp] theorem totalSize_cons (ins : Instruction) (rest : List Instruction) :
    totalSize (ins :: rest) = ins.size + totalSize rest := rfl

@[simp] theorem totalSize_append (xs ys : List Instruction) :
    totalSize (xs ++ ys) = totalSize xs + totalSize ys := by
  induction xs with
  | nil => simp
  | cons ins rest ih => simp [ih, Nat.add_assoc]

theorem totalSize_eq_sum (xs : List Instruction) : totalSize xs = (xs.map (·.size)).sum := by
  induction xs with
  | nil => rfl
  | cons ins rest ih => simp [ih]

theorem totalSize_perm {xs ys : List Instruction} (h : xs.Perm ys) :
    totalSize xs = totalSize ys := by
  rw [totalSize_eq_sum, totalSize_eq_sum]
  exact (h.map _).sum_nat

theorem totalSize_sublist {xs ys : List Instruction} (h : List.Sublist xs ys) :
    totalSize xs ≤ totalSize ys := by
  induction h with
  | slnil => exact Nat.le_refl _
  | cons ins _ ih =>
      rw [totalSize_cons]
      omega
  | cons_cons ins _ ih =>
      rw [totalSize_cons, totalSize_cons]
      omega

theorem totalSize_le_of_forall₂ {xs ys : List Instruction}
    (h : List.Forall₂ (fun a b : Instruction => a.size ≤ b.size) xs ys) :
    totalSize xs ≤ totalSize ys := by
  induction h with
  | nil => exact Nat.le_refl _
  | cons hsize _ ih =>
      rw [totalSize_cons, totalSize_cons]
      exact Nat.add_le_add hsize ih

theorem length_le_totalSize (xs : List Instruction) : xs.length ≤ totalSize xs := by
  induction xs with
  | nil => simp
  | cons ins rest ih =>
      have hpos := ins.size_pos
      simp only [List.length_cons, totalSize_cons]
      omega

/-- Every instruction begins where the one before it ends, and the first at `start`. -/
def Placed (start : Nat) : List Instruction → Prop
  | [] => True
  | ins :: rest => ins.pc = start ∧ Placed (start + ins.size) rest

namespace Placed

variable {start : Nat} {xs ys : List Instruction} {ins : Instruction}

@[simp] theorem nil_iff : Placed start [] ↔ True := Iff.rfl

@[simp] theorem cons_iff :
    Placed start (ins :: xs) ↔ ins.pc = start ∧ Placed (start + ins.size) xs := Iff.rfl

/-- Instructions behind others are placed behind their bytes. -/
theorem append_iff :
    Placed start (xs ++ ys) ↔ Placed start xs ∧ Placed (start + totalSize xs) ys := by
  induction xs generalizing start with
  | nil => simp
  | cons ins rest ih => simp [ih, and_assoc, Nat.add_assoc]

/-- An instruction lies between the start and the end. -/
theorem bounds (h : Placed start xs) (hmem : ins ∈ xs) :
    start ≤ ins.pc ∧ ins.next ≤ start + totalSize xs := by
  induction xs generalizing start with
  | nil => cases hmem
  | cons first rest ih =>
      simp only [cons_iff, totalSize_cons] at h ⊢
      rcases List.mem_cons.1 hmem with rfl | hrest
      · refine ⟨by omega, ?_⟩
        unfold Instruction.next
        omega
      · have hbounds := ih h.2 hrest
        omega

/-- Addresses ascend. -/
theorem pairwise (h : Placed start xs) : xs.Pairwise fun a b => a.next ≤ b.pc := by
  induction xs generalizing start with
  | nil => exact .nil
  | cons first rest ih =>
      refine .cons ?_ (ih h.2)
      intro ins hmem
      have hbounds := h.2.bounds hmem
      have hfirst := h.1
      unfold Instruction.next
      omega

theorem pairwise_pc (h : Placed start xs) : xs.Pairwise fun a b => a.pc < b.pc := by
  refine h.pairwise.imp ?_
  intro a b hab
  have hpos := a.size_pos
  unfold Instruction.next at hab
  omega

theorem nodup_pc (h : Placed start xs) : (xs.map (·.pc)).Nodup := by
  rw [List.Nodup, List.pairwise_map]
  exact h.pairwise_pc.imp fun hab => Nat.ne_of_lt hab

/-- What stands behind instructions begins where they end. -/
theorem pc_of_getElem?_append (h : Placed start (xs ++ ys)) {k : Nat} (hk : xs.length = k)
    (hins : (xs ++ ys)[k]? = some ins) : ins.pc = start + totalSize xs := by
  subst hk
  cases ys with
  | nil => simp at hins
  | cons first ys =>
      have hfirst : first = ins := by simpa using hins
      rw [← hfirst]
      exact (append_iff.1 h).2.1

/-- Behind an instruction another one begins, or all of them end. -/
theorem next_cases (h : Placed start xs) (hmem : ins ∈ xs) :
    (∃ other ∈ xs, other.pc = ins.next) ∨ ins.next = start + totalSize xs := by
  obtain ⟨before, after, rfl⟩ := List.append_of_mem hmem
  have hplaced := (append_iff.1 h).2
  cases after with
  | nil =>
      right
      have hpc := hplaced.1
      unfold Instruction.next
      simp only [totalSize_append, totalSize_cons, totalSize_nil]
      omega
  | cons other rest =>
      left
      refine ⟨other, by simp, ?_⟩
      have hpc := hplaced.1
      have hother := hplaced.2.1
      unfold Instruction.next
      omega

/-- An instruction stands behind all those before it. -/
theorem getElem_pc (h : Placed start xs) {k : Nat} (hk : k < xs.length) :
    xs[k].pc = start + totalSize (xs.take k) := by
  induction xs generalizing start k with
  | nil => simp at hk
  | cons first rest ih =>
      cases k with
      | zero => simpa using h.1
      | succ k =>
          have hrest := ih h.2 (Nat.lt_of_succ_lt_succ hk)
          simp only [List.getElem_cons_succ, List.take_succ_cons, totalSize_cons]
          omega

end Placed

end NeoScript
