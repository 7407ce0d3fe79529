import Mathlib.Data.List.Nodup
import Std.Data.TreeMap.Lemmas
import Std.Data.TreeSet.Lemmas

/-!
# Table — maps and sets that are filled from a list

The last entry of a key counts in a table that is filled by `insert`.  If no key comes twice, each
entry of the list can be looked up.
-/

namespace NeoScript
namespace Table

open Std (TreeMap TreeSet)

variable {α β : Type} (key : α → Nat) (value : α → β)

/-- Filling a table changes only the keys that are filled. -/
theorem getElem?_fill_of_not_mem {l : List α} {k : Nat} (hk : k ∉ l.map key) (t : TreeMap Nat β) :
    (l.foldl (fun t a => t.insert (key a) (value a)) t)[k]? = t[k]? := by
  induction l generalizing t with
  | nil => rfl
  | cons a l ih =>
      rw [List.map_cons, List.mem_cons, not_or] at hk
      rw [List.foldl_cons, ih hk.2, TreeMap.getElem?_insert]
      have hne : ¬ compare (key a) k = .eq := by
        rw [Nat.compare_eq_eq]
        exact fun h => hk.1 h.symm
      rw [if_neg hne]

/-- If keys are distinct, every one of them is found with its value. -/
theorem getElem?_fill_of_mem {l : List α} (hnodup : (l.map key).Nodup) {a : α} (ha : a ∈ l)
    (t : TreeMap Nat β) :
    (l.foldl (fun t a => t.insert (key a) (value a)) t)[key a]? = some (value a) := by
  induction l generalizing t with
  | nil => cases ha
  | cons b l ih =>
      rw [List.map_cons, List.nodup_cons] at hnodup
      rw [List.foldl_cons]
      cases ha with
      | head =>
          rw [getElem?_fill_of_not_mem key value hnodup.1, TreeMap.getElem?_insert_self]
      | tail _ hmem => exact ih hnodup.2 hmem _

/-- What is computed from the items of a numbered list does not see the numbers. -/
theorem map_zipIdx {γ : Type} (f : α → γ) (l : List α) :
    l.zipIdx.map (fun entry => f entry.1) = l.map f := by
  have hfst := congrArg (List.map f) (List.zipIdx_map_fst 0 l)
  rwa [List.map_map] at hfst

/-- A table of places leads to where the item of a key stands. -/
theorem getElem?_fill_zipIdx {l : List α} (hnodup : (l.map key).Nodup) (place : Nat → β) {k : Nat}
    {b : β} :
    (l.zipIdx.foldl (fun t entry => t.insert (key entry.1) (place entry.2))
      (∅ : TreeMap Nat β))[k]? =
      some b ↔ ∃ i a, l[i]? = some a ∧ key a = k ∧ place i = b := by
  have hplace : ∀ {i : Nat} {a : α}, l[i]? = some a → (l.zipIdx.foldl (fun t entry =>
      t.insert (key entry.1) (place entry.2)) (∅ : TreeMap Nat β))[key a]? = some (place i) := by
    intro i a hi
    exact getElem?_fill_of_mem (fun entry : α × Nat => key entry.1) (fun entry => place entry.2)
      (by rwa [map_zipIdx key]) (List.mk_mem_zipIdx_iff_getElem?.2 hi) ∅
  constructor
  · intro h
    by_cases hk : k ∈ l.map key
    · obtain ⟨a, ha, rfl⟩ := List.mem_map.1 hk
      obtain ⟨i, hi⟩ := List.getElem?_of_mem ha
      exact ⟨i, a, hi, rfl, Option.some.inj ((hplace hi).symm.trans h)⟩
    · rw [← map_zipIdx key] at hk
      rw [getElem?_fill_of_not_mem (fun entry : α × Nat => key entry.1)
        (fun entry => place entry.2) hk]
        at h
      simp at h
  · rintro ⟨i, a, hi, rfl, rfl⟩
    exact hplace hi

/-- New entries of a table whose keys are all different. -/
theorem getElem?_insertNew {l : List (Nat × β)} (hnodup : (l.map (·.1)).Nodup) (t : TreeMap Nat β)
    (hnew : ∀ k ∈ l.map (·.1), k ∉ t) {k : Nat} {v : β} :
    (l.foldl (fun t entry => t.insertIfNew entry.1 entry.2) t)[k]? = some v ↔
      t[k]? = some v ∨ (k, v) ∈ l := by
  induction l generalizing t with
  | nil => simp
  | cons entry l ih =>
      rw [List.map_cons, List.nodup_cons] at hnodup
      rw [List.map_cons, List.forall_mem_cons] at hnew
      -- No later key is this one or an old one.
      have hlater : ∀ k ∈ l.map (·.1), k ∉ t.insertIfNew entry.1 entry.2 := by
        intro k hk hmem
        rw [TreeMap.mem_insertIfNew, Nat.compare_eq_eq] at hmem
        rcases hmem with rfl | hmem
        · exact hnodup.1 hk
        · exact hnew.2 k hk hmem
      rw [List.foldl_cons, ih hnodup.2 _ hlater, TreeMap.getElem?_insertIfNew, List.mem_cons,
        Prod.ext_iff]
      by_cases hkey : entry.1 = k
      · subst hkey
        simp [hnew.1, eq_comm (a := v)]
      · simp [hkey, eq_comm (a := k)]

/-- A table is listed in the order of its keys. -/
theorem toList_eq_of_pairwise {t : TreeMap Nat β} {l : List (Nat × β)}
    (hsorted : l.Pairwise fun a b => a.1 < b.1) (h : ∀ k v, t[k]? = some v ↔ (k, v) ∈ l) :
    t.toList = l := by
  have hlisted : t.toList.Pairwise fun a b => a.1 < b.1 :=
    TreeMap.ordered_keys_toList.imp fun hlt => Nat.compare_eq_lt.1 hlt
  have hnodup : ∀ {xs : List (Nat × β)}, xs.Pairwise (fun a b => a.1 < b.1) → xs.Nodup := by
    intro xs hxs
    refine List.Pairwise.imp ?_ hxs
    rintro a b hlt rfl
    exact Nat.lt_irrefl _ hlt
  refine List.Perm.eq_of_pairwise ?_ hlisted hsorted ?_
  · exact fun a b _ _ hab hba => absurd hab (Nat.lt_asymm hba)
  · rw [List.perm_ext_iff_of_nodup (hnodup hlisted) (hnodup hsorted)]
    rintro ⟨k, v⟩
    rw [TreeMap.mem_toList_iff_getElem?_eq_some, h]

theorem mem_insertAll (l : List Nat) (s : TreeSet Nat) (k : Nat) :
    k ∈ l.foldl (·.insert ·) s ↔ k ∈ l ∨ k ∈ s := by
  induction l generalizing s with
  | nil => simp
  | cons a l ih =>
      rw [List.foldl_cons, ih, TreeSet.mem_insert, List.mem_cons, Nat.compare_eq_eq,
        eq_comm (a := a)]
      tauto

end Table
end NeoScript
