import NeoScript.FlowGraph.Build

/-!
# Cut — runs of instructions between block starts

* `IsCut` — each run begins at a start and meets no other one;
* `flatten_cutBlocks`, `isCut_cutBlocks` — cutting loses nothing and cuts exactly at starts;
* `cutBlocks_flatten` — no other list of runs has these properties.
-/

namespace NeoScript

/-- Each run begins at a start, and no other instruction of it does. -/
def IsCut (IsStart : Nat → Prop) (groups : List (List (Instruction × Nat))) : Prop :=
  ∀ group ∈ groups, ∃ first rest, group = first :: rest ∧ IsStart first.1.pc ∧
    ∀ entry ∈ rest, ¬ IsStart entry.1.pc

variable {isStart : Nat → Bool}

@[simp] theorem cutBlocks_nil : cutBlocks isStart [] = [] := rfl

@[simp] theorem cutBlocks_cons (entry : Instruction × Nat) (rest : List (Instruction × Nat)) :
    cutBlocks isStart (entry :: rest) = consBlock isStart entry (cutBlocks isStart rest) := rfl

/-- The first run begins with the first instruction, and every later run at a start. -/
theorem cutBlocks_cons_eq (isStart : Nat → Bool) (entry : Instruction × Nat)
    (rest : List (Instruction × Nat)) :
    ∃ group groups, cutBlocks isStart (entry :: rest) = (entry :: group) :: groups ∧
      group ++ groups.flatten = rest ∧ (∀ e ∈ group, ¬ isStart e.1.pc) ∧
      IsCut (isStart ·) groups := by
  induction rest generalizing entry with
  | nil => exact ⟨[], [], rfl, rfl, by simp, by simp [IsCut]⟩
  | cons next rest ih =>
      obtain ⟨group, groups, hcut, hflatten, hgroup, hgroups⟩ := ih next
      rw [cutBlocks_cons, hcut]
      by_cases hstart : isStart next.1.pc = true
      · refine ⟨[], (next :: group) :: groups, by simp [consBlock, hstart], by simp [hflatten],
          by simp, ?_⟩
        intro g hg
        rcases List.mem_cons.1 hg with rfl | hg
        · exact ⟨next, group, rfl, hstart, hgroup⟩
        · exact hgroups g hg
      · refine ⟨next :: group, groups, by simp [consBlock, hstart], by simp [hflatten], ?_, hgroups⟩
        intro e he
        rcases List.mem_cons.1 he with rfl | he
        · exact hstart
        · exact hgroup e he

/-- Cutting loses nothing. -/
theorem flatten_cutBlocks (entries : List (Instruction × Nat)) :
    (cutBlocks isStart entries).flatten = entries := by
  cases entries with
  | nil => rfl
  | cons entry rest =>
      obtain ⟨group, groups, hcut, hflatten, _⟩ := cutBlocks_cons_eq isStart entry rest
      rw [hcut, List.flatten_cons, List.cons_append, hflatten]

/-- If the first instruction is at a start, every run is. -/
theorem isCut_cutBlocks (isStart : Nat → Bool) {entries : List (Instruction × Nat)}
    (hfirst : ∀ entry, entries.head? = some entry → isStart entry.1.pc = true) :
    IsCut (isStart ·) (cutBlocks isStart entries) := by
  cases entries with
  | nil => simp [IsCut]
  | cons entry rest =>
      obtain ⟨group, groups, hcut, _, hgroup, hgroups⟩ :=
        cutBlocks_cons_eq isStart entry rest
      rw [hcut]
      intro g hg
      rcases List.mem_cons.1 hg with rfl | hg
      · exact ⟨entry, group, rfl, hfirst entry rfl, hgroup⟩
      · exact hgroups g hg

/-- A run of instructions without another start stays together. -/
theorem cutBlocks_run {first : Instruction × Nat} {rest entries : List (Instruction × Nat)}
    (hrest : ∀ entry ∈ rest, ¬ isStart entry.1.pc)
    (hentries : IsCut (isStart ·) (cutBlocks isStart entries)) :
    cutBlocks isStart (first :: rest ++ entries) = (first :: rest) ::
      cutBlocks isStart entries := by
  induction rest generalizing first with
  | nil =>
      rw [List.cons_append, List.nil_append, cutBlocks_cons]
      cases hcut : cutBlocks isStart entries with
      | nil => rfl
      | cons group groups =>
          rw [hcut] at hentries
          obtain ⟨next, others, rfl, hstart, _⟩ := hentries group (List.mem_cons_self ..)
          simp [consBlock, hstart]
  | cons next rest ih =>
      rw [List.forall_mem_cons] at hrest
      have hnext : cutBlocks isStart (next :: rest ++ entries) = (next :: rest) ::
          cutBlocks isStart entries :=
        ih hrest.2
      rw [List.cons_append] at hnext ⊢
      rw [List.cons_append, cutBlocks_cons, hnext]
      simp [consBlock, hrest.1]

/-- Runs that begin exactly at starts are what cutting finds. -/
theorem cutBlocks_flatten {groups : List (List (Instruction × Nat))}
    (h : IsCut (isStart ·) groups) : cutBlocks isStart groups.flatten = groups := by
  induction groups with
  | nil => rfl
  | cons group groups ih =>
      obtain ⟨first, rest, rfl, _, hrest⟩ := h group (List.mem_cons_self ..)
      have hlater : IsCut (isStart ·) groups := fun g hg => h g (List.mem_cons_of_mem _ hg)
      have hcut := ih hlater
      rw [List.flatten_cons, cutBlocks_run hrest (by rw [hcut]; exact hlater), hcut]

end NeoScript
