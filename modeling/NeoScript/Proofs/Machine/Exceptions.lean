import NeoScript.Proofs.Machine.Copying
import NeoScript.Proofs.Sequencing

/-!
# Exceptions — the text of an exception that no handler takes

Arrays are shared, so an array may come to hold itself, and the text of such an array would have no
end.

* `Heap.Recurs` — a value leads to a collection that lies inside itself;
* `Heap.debugWithin?_of_recurs` — such a value has no text, however many levels are written;
* `Heap.debugText?_eq_none_iff` — every other value has one, and `Heap.debugText?_eq_some_iff` says
  that it is the same for all bounds on the levels.
-/

namespace NeoScript

def Value.cell? : Value → Option Nat
  | .array cell => some cell
  | .struct cell => some cell
  | _ => none

namespace Heap

variable {h : Heap} {v : Value}

/-! ## Circles -/

def Encloses (h : Heap) (cell inner : Nat) : Prop :=
  ∃ v ∈ h.items cell, v.cell? = some inner

/-- A value leads to a collection that lies inside itself. -/
def Recurs (h : Heap) (v : Value) : Prop :=
  ∃ cell inner, v.cell? = some cell ∧ Relation.ReflTransGen h.Encloses cell inner ∧
    Relation.TransGen h.Encloses inner inner

/-- A circle is reached through an item, or goes on through one. -/
theorem Recurs.exists_item (hv : h.Recurs v) :
    ∃ cell w, v.cell? = some cell ∧ w ∈ h.items cell ∧ h.Recurs w := by
  obtain ⟨cell, inner, hcell, hreach, hcircle⟩ := hv
  obtain ⟨next, hnext, hrest⟩ :
      ∃ next, h.Encloses cell next ∧ Relation.ReflTransGen h.Encloses next inner := by
    rcases hreach.cases_head with rfl | hstep
    · exact Relation.TransGen.head'_iff.1 hcircle
    · exact hstep
  obtain ⟨w, hw, hwcell⟩ := hnext
  exact ⟨cell, w, hcell, hw, next, inner, hwcell, hrest, hcircle⟩

theorem lt_size_of_encloses {cell inner : Nat} (hencloses : h.Encloses cell inner) :
    cell < h.cells.size := by
  obtain ⟨w, hw, -⟩ := hencloses
  by_contra hle
  rw [items_of_size_le (Nat.le_of_not_lt hle)] at hw
  simp at hw

/-- All cells of a chain but the last one hold something, so they exist. -/
theorem lt_size_of_mem_dropLast {cells : List Nat} (hchain : cells.IsChain h.Encloses) :
    ∀ cell ∈ cells.dropLast, cell < h.cells.size := by
  induction hchain with
  | nil => simp
  | singleton => simp
  | cons_cons hencloses _ ih =>
      rw [List.dropLast_cons_cons, List.forall_mem_cons]
      exact ⟨lt_size_of_encloses hencloses, ih⟩

/-- A chain of collections that is longer than there are cells has come to a circle. -/
theorem exists_circle_of_isChain {cell : Nat} {cells : List Nat}
    (hchain : (cell :: cells).IsChain h.Encloses) (hlength : h.cells.size < cells.length) :
    ∃ inner, Relation.ReflTransGen h.Encloses cell inner ∧
      Relation.TransGen h.Encloses inner inner := by
  by_contra hnone
  have hpairwise : (cell :: cells).Pairwise (Relation.TransGen h.Encloses) :=
    List.isChain_iff_pairwise.1 (hchain.imp fun _ _ hencloses => .single hencloses)
  have hreach : ∀ other ∈ cell :: cells, Relation.ReflTransGen h.Encloses cell other := by
    rw [List.forall_mem_cons]
    exact ⟨.refl, fun other hother =>
      ((List.pairwise_cons.1 hpairwise).1 other hother).to_reflTransGen⟩
  have hnodup : (cell :: cells).Nodup :=
    nodup_of_isChain hchain fun other hother hcircle =>
      hnone ⟨other, hreach other hother, hcircle⟩
  -- Only the last cell of a chain can be one that the heap does not have.
  have hle := length_le_of_nodup (hnodup.sublist (List.dropLast_sublist _))
    (lt_size_of_mem_dropLast hchain)
  rw [List.length_dropLast, List.length_cons] at hle
  omega

/-! ## Texts -/

/-- Without a level to go down, only collections have no text. -/
theorem debugWithin?_zero_eq_none_iff :
    h.debugWithin? 0 v = none ↔ ∃ cell, v.cell? = some cell := by
  cases v <;> simp [debugWithin?, Value.cell?]

/-- Collections of both kinds are written item by item. -/
theorem debugWithin?_succ_eq_none_iff {levels : Nat} : h.debugWithin? (levels + 1) v = none ↔
    ∃ cell w, v.cell? = some cell ∧ w ∈ h.items cell ∧ h.debugWithin? levels w = none := by
  cases v <;> simp [debugWithin?, Value.cell?, Sequencing.mapM_eq_none_iff]

/-- No number of levels is enough for a collection that lies inside itself. -/
theorem debugWithin?_of_recurs (hv : h.Recurs v) (levels : Nat) :
    h.debugWithin? levels v = none := by
  induction levels generalizing v with
  | zero =>
      obtain ⟨cell, _, hcell, -⟩ := hv
      exact debugWithin?_zero_eq_none_iff.2 ⟨cell, hcell⟩
  | succ levels ih =>
      obtain ⟨cell, w, hcell, hw, hrecurs⟩ := hv.exists_item
      exact debugWithin?_succ_eq_none_iff.2 ⟨cell, w, hcell, hw, ih hrecurs⟩

/-- A text that is cut has followed a chain of collections as long as it went deep. -/
theorem exists_chain_of_debugWithin?_eq_none {levels : Nat}
    (hnone : h.debugWithin? levels v = none) :
    ∃ cell cells, v.cell? = some cell ∧ (cell :: cells).IsChain h.Encloses ∧
      cells.length = levels := by
  induction levels generalizing v with
  | zero =>
      obtain ⟨cell, hcell⟩ := debugWithin?_zero_eq_none_iff.1 hnone
      exact ⟨cell, [], hcell, .singleton _, rfl⟩
  | succ levels ih =>
      obtain ⟨cell, w, hcell, hw, hnone⟩ := debugWithin?_succ_eq_none_iff.1 hnone
      obtain ⟨inner, cells, hinner, hchain, hlength⟩ := ih hnone
      exact ⟨cell, inner :: cells, hcell, List.isChain_cons_cons.2 ⟨⟨w, hw, hinner⟩, hchain⟩,
        by rw [List.length_cons, hlength]⟩

/-- The values without a text are those that lead to a collection inside itself. -/
theorem debugText?_eq_none_iff : h.debugText? v = none ↔ h.Recurs v := by
  constructor
  · intro hnone
    obtain ⟨cell, cells, hcell, hchain, hlength⟩ := exists_chain_of_debugWithin?_eq_none hnone
    obtain ⟨inner, hreach, hcircle⟩ := exists_circle_of_isChain hchain (by omega)
    exact ⟨cell, inner, hcell, hreach, hcircle⟩
  · intro hv
    exact debugWithin?_of_recurs hv _

/-- A deeper bound changes no text. -/
theorem debugWithin?_add {levels : Nat} {text : String}
    (hsome : h.debugWithin? levels v = some text)
    (extra : Nat) : h.debugWithin? (levels + extra) v = some text := by
  induction levels generalizing v text with
  | zero => cases v <;> cases extra <;> first | exact hsome | cases hsome
  | succ levels ih =>
      rw [Nat.succ_add]
      cases v with
      | array cell =>
          obtain ⟨items, hitems, htext⟩ := Option.map_eq_some_iff.1 hsome
          exact Option.map_eq_some_iff.2 ⟨items,
            Sequencing.mapM_eq_some_of_imp (fun _ _ => ih) hitems, htext⟩
      | struct cell =>
          obtain ⟨items, hitems, htext⟩ := Option.map_eq_some_iff.1 hsome
          exact Option.map_eq_some_iff.2 ⟨items,
            Sequencing.mapM_eq_some_of_imp (fun _ _ => ih) hitems, htext⟩
      | _ => exact hsome

/-- The text of a value is the one that any sufficient number of levels gives. -/
theorem debugText?_eq_some_iff {text : String} :
    h.debugText? v = some text ↔ ∃ levels, h.debugWithin? levels v = some text := by
  constructor
  · exact fun hsome => ⟨_, hsome⟩
  · rintro ⟨levels, hsome⟩
    cases htext : h.debugText? v with
    | none =>
        rw [debugWithin?_of_recurs (debugText?_eq_none_iff.1 htext)] at hsome
        cases hsome
    | some other =>
        -- Both texts are the one for the greater of the two bounds.
        have hother := debugWithin?_add htext levels
        have hsome' := debugWithin?_add hsome (h.cells.size + 1)
        rw [Nat.add_comm] at hsome'
        exact hother.symm.trans hsome'

end Heap

end NeoScript
