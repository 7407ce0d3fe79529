import Mathlib.Data.List.Chain
import Mathlib.Data.List.Perm.Subperm
import Mathlib.Logic.Relation
import NeoScript.Machine.Value

/-!
# Copying — copies of structs are fresh, and end if structs nest

* `Heap.items_alloc`, `Heap.items_put`, `Heap.items_modify` — cells after a change;
* `Heap.Copied` — what copying adds to a heap: cells whose structs were all copied after them;
* `Heap.copied_of_copy?` — every copy is of that kind;
* `Heap.Nests` — a cell holds a struct, and `Heap.Acyclic` — no struct holds itself, at any depth;
* `Heap.exists_copy?`, `Heap.exists_equalWithin?` — without a circle, copies and comparisons go no
  deeper than there are cells.

The last two come from one observation: a recursion that is cut at some depth has followed a chain
of structs of that length.
-/

namespace NeoScript
namespace Heap

variable {h h' h'' : Heap} {v w : Value}

/-! ## Cells -/

theorem items_of_size_le {cell : Nat} (hle : h.cells.size ≤ cell) : h.items cell = #[] := by
  simp [items, hle]

theorem size_alloc (items : Array Value) : (h.alloc items).2.cells.size = h.cells.size + 1 := by
  simp [alloc]

theorem size_put (cell : Nat) (items : Array Value) :
    (h.put cell items).cells.size = h.cells.size := by
  simp [put]

theorem size_modify (cell : Nat) (f : Array Value → Array Value) :
    (h.modify cell f).cells.size = h.cells.size := by
  simp [modify]

/-- A new cell lies behind all others and changes none. -/
theorem items_alloc (xs : Array Value) (cell : Nat) :
    (h.alloc xs).2.items cell = if cell = h.cells.size then xs else h.items cell := by
  simp only [items, alloc, Array.getD_eq_getD_getElem?, Array.getElem?_push]
  split <;> rfl

/-- Replacing the contents of a cell changes no other. -/
theorem items_put {target : Nat} (hin : target < h.cells.size) (xs : Array Value) (cell : Nat) :
    (h.put target xs).items cell = if cell = target then xs else h.items cell := by
  simp only [items, put, Array.getD_eq_getD_getElem?, Array.getElem?_setIfInBounds, hin, if_true]
  by_cases heq : cell = target
  · simp [heq]
  · simp [heq, Ne.symm heq]

/-- Changing a cell that does not exist does nothing. -/
theorem items_modify (target : Nat) (f : Array Value → Array Value) (cell : Nat) :
    (h.modify target f).items cell =
      if cell = target ∧ target < h.cells.size then f (h.items target) else h.items cell := by
  simp only [items, modify, Array.getD_eq_getD_getElem?, Array.getElem?_modify]
  by_cases heq : cell = target
  · subst heq
    by_cases hin : cell < h.cells.size <;> simp [hin]
  · simp [heq, Ne.symm heq]

/-! ## What copying adds -/

/-- A field of a copied cell: a value of the heap that is no struct, or a struct copied later. -/
def FieldCopy (h h' : Heap) (cell : Nat) (v : Value) : Prop :=
  ((∀ t, v ≠ .struct t) ∧ ∃ source, v ∈ h.items source) ∨
    ∃ t, v = .struct t ∧ cell < t ∧ t < h'.cells.size

/-- The second heap has the cells of the first, and behind them copies of structs. -/
structure Copied (h h' : Heap) : Prop where
  size_le : h.cells.size ≤ h'.cells.size
  items_eq : ∀ cell, cell < h.cells.size → h'.items cell = h.items cell
  field : ∀ cell, h.cells.size ≤ cell → ∀ v ∈ h'.items cell, FieldCopy h h' cell v
  length : ∀ cell, ∃ source, (h'.items cell).size = (h.items source).size

def ValueCopy (h h' : Heap) (v w : Value) : Prop :=
  (w = v ∧ ∀ t, v ≠ .struct t) ∨ ∃ t, w = .struct t ∧ h.cells.size ≤ t ∧ t < h'.cells.size

namespace Copied

theorem refl (h : Heap) : Copied h h := by
  refine ⟨Nat.le_refl _, fun _ _ => rfl, ?_, fun cell => ⟨cell, rfl⟩⟩
  intro cell hcell v hv
  simp [items_of_size_le hcell] at hv

theorem trans (hfirst : Copied h h') (hsecond : Copied h' h'') : Copied h h'' := by
  have hle := hfirst.size_le
  have hle' := hsecond.size_le
  refine ⟨Nat.le_trans hle hle', ?_, ?_, ?_⟩
  · intro cell hcell
    rw [hsecond.items_eq cell (by omega), hfirst.items_eq cell hcell]
  · intro cell hcell v hv
    by_cases hold : cell < h'.cells.size
    · rw [hsecond.items_eq cell hold] at hv
      rcases hfirst.field cell hcell v hv with hplain | ⟨t, rfl, hlt, hin⟩
      · exact .inl hplain
      · exact .inr ⟨t, rfl, hlt, by omega⟩
    · rcases hsecond.field cell (by omega) v hv with ⟨hplain, source, hsource⟩ | hstruct
      · -- The value stood in the heap between the two, and there in an old cell or in a copy.
        by_cases hsrc : source < h.cells.size
        · exact .inl ⟨hplain, source, hfirst.items_eq source hsrc ▸ hsource⟩
        · rcases hfirst.field source (by omega) v hsource with hfound | ⟨t, ht, _⟩
          · exact .inl hfound
          · exact absurd ht (hplain t)
      · exact .inr hstruct
  · intro cell
    obtain ⟨between, hbetween⟩ := hsecond.length cell
    obtain ⟨source, hsource⟩ := hfirst.length between
    exact ⟨source, hbetween.trans hsource⟩

/-- A new cell without items. -/
theorem alloc (h : Heap) : Copied h (h.alloc #[]).2 := by
  refine ⟨by rw [size_alloc]; omega, ?_, ?_, ?_⟩
  · intro cell hcell
    rw [items_alloc, if_neg (by omega)]
  · intro cell hcell v hv
    rw [items_alloc, items_of_size_le hcell] at hv
    simp at hv
  · intro cell
    refine ⟨cell, ?_⟩
    rw [items_alloc]
    split
    · rw [items_of_size_le (by omega)]
    · rfl

/-- A copied cell gets its fields. -/
theorem put (hcopied : Copied h h') {cell : Nat} (hfresh : h.cells.size ≤ cell)
    (hin : cell < h'.cells.size) {fields : Array Value}
    (hfields : ∀ v ∈ fields, FieldCopy h h' cell v)
    (hlength : ∃ source, fields.size = (h.items source).size) : Copied h (h'.put cell fields) := by
  refine ⟨by rw [size_put]; exact hcopied.size_le, ?_, ?_, ?_⟩
  · intro other hother
    rw [items_put hin, if_neg (by omega)]
    exact hcopied.items_eq other hother
  · intro other hother v hv
    rw [items_put hin] at hv
    unfold FieldCopy
    rw [size_put]
    split at hv
    · -- The cell that gets its fields; all others are as they were.
      rename_i heq
      exact heq ▸ hfields v hv
    · exact hcopied.field other hother v hv
  · intro other
    rw [items_put hin]
    split
    · exact hlength
    · exact hcopied.length other

end Copied

/-- Copies one more field, into the heap that the fields before it left. -/
def copyField (copy : Heap → Value → Option (Value × Heap)) (acc : Array Value × Heap)
    (field : Value) : Option (Array Value × Heap) := do
  let (value, heap) ← copy acc.2 field
  return (acc.1.push value, heap)

theorem copyField_eq_some {copy : Heap → Value → Option (Value × Heap)}
    {acc acc' : Array Value × Heap} {field : Value} : copyField copy acc field = some acc' ↔
      ∃ w g, copy acc.2 field = some (w, g) ∧ (acc.1.push w, g) = acc' := by
  simp only [copyField, Option.bind_eq_bind, Option.bind_eq_some_iff, Prod.exists, Option.pure_def,
    Option.some.injEq]

/-- A struct is numbered first, and then its fields are copied. -/
theorem copy?_struct (levels : Nat) (h : Heap) (cell : Nat) :
    h.copy? (levels + 1) (.struct cell) =
      ((h.items cell).toList.foldlM (copyField (copy? levels)) (#[], (h.alloc #[]).2)).map fun r =>
        (.struct h.cells.size, r.2.put h.cells.size r.1) := by
  simp only [copy?]
  split
  · rename_i fields g hsome
    have hfold : (h.items cell).toList.foldlM (copyField (copy? levels)) (#[], (h.alloc #[]).2) =
        some (fields, g) := hsome
    rw [hfold]
    rfl
  · rename_i hnone
    have hfold : (h.items cell).toList.foldlM (copyField (copy? levels)) (#[], (h.alloc #[]).2) =
        none := hnone
    rw [hfold]
    rfl

/-- Fields are copied one after the other, each into the heap that the one before left. -/
theorem copied_of_foldlM {copy : Heap → Value → Option (Value × Heap)}
    (hcopy : ∀ g g' v w, copy g v = some (w, g') → Copied g g' ∧ ValueCopy g g' v w)
    (fields : List Value) : ∀ {g g' : Heap} {out out' : Array Value},
      fields.foldlM (copyField copy) (out, g) = some (out', g') →
      Copied g g' ∧ out'.size = out.size + fields.length ∧ ∀ v ∈ out', v ∈ out ∨
        ((∀ t, v ≠ .struct t) ∧ v ∈ fields) ∨ ∃ t, v = .struct t ∧ g.cells.size ≤ t ∧
          t < g'.cells.size := by
  induction fields with
  | nil =>
      intro g g' out out' h
      cases h
      exact ⟨.refl _, rfl, fun v hv => .inl hv⟩
  | cons field fields ih =>
      intro g g' out out' h
      rw [List.foldlM_cons, Option.bind_eq_bind, Option.bind_eq_some_iff] at h
      obtain ⟨_, hfirst, hrest⟩ := h
      obtain ⟨w, between, hone, rfl⟩ := copyField_eq_some.1 hfirst
      dsimp only at hone
      obtain ⟨hcopied, hvalue⟩ := hcopy _ _ _ _ hone
      obtain ⟨hcopied', hsize, hvalues⟩ := ih hrest
      have hle := hcopied.size_le
      have hle' := hcopied'.size_le
      refine ⟨hcopied.trans hcopied', ?_, ?_⟩
      · rw [hsize, List.length_cons, Array.size_push]
        dsimp only
        omega
      · intro v hv
        rcases hvalues v hv with hout | ⟨hplain, hfield⟩ | ⟨t, rfl, hlow, hhigh⟩
        · -- A field taken before the rest: one of `out`, or the one that was just copied.
          rcases Array.mem_push.1 hout with hout | rfl
          · exact .inl hout
          · rcases hvalue with ⟨rfl, hplain⟩ | ⟨t, rfl, hlow, hhigh⟩
            · exact .inr (.inl ⟨hplain, List.mem_cons_self⟩)
            · exact .inr (.inr ⟨t, rfl, hlow, by omega⟩)
        · exact .inr (.inl ⟨hplain, List.mem_cons_of_mem _ hfield⟩)
        · exact .inr (.inr ⟨t, rfl, by omega, hhigh⟩)

/-- Copies stand behind the cells that were there, and every struct in one was copied after it. -/
theorem copied_of_copy? (levels : Nat) : ∀ {h h' : Heap} {v w : Value},
    h.copy? levels v = some (w, h') → Copied h h' ∧ ValueCopy h h' v w := by
  induction levels with
  | zero =>
      intro h h' v w hcopy
      cases v with
      | struct cell => cases hcopy
      | _ =>
          cases hcopy
          exact ⟨.refl _, .inl ⟨rfl, by simp⟩⟩
  | succ levels ih =>
      intro h h' v w hcopy
      cases v with
      | struct cell =>
          rw [copy?_struct, Option.map_eq_some_iff] at hcopy
          obtain ⟨⟨fields, g⟩, hfold, heq⟩ := hcopy
          obtain ⟨rfl, rfl⟩ := Prod.mk.inj heq
          -- The fields are copied into the heap in which the copy has its cell already, so their
          -- cells have greater numbers.
          obtain ⟨hcopied, hsize, hvalues⟩ := copied_of_foldlM (fun _ _ _ _ hone => ih hone) _ hfold
          have hle := hcopied.size_le
          rw [size_alloc] at hle
          have hall := (Copied.alloc h).trans hcopied
          refine ⟨hall.put (Nat.le_refl _) (by omega) ?_ ?_, .inr ⟨_, rfl, Nat.le_refl _, ?_⟩⟩
          · intro v hv
            rcases hvalues v hv with hout | ⟨hplain, hfield⟩ | ⟨t, rfl, hlow, hhigh⟩
            · simp at hout
            · exact .inl ⟨hplain, cell, by simpa using hfield⟩
            · rw [size_alloc] at hlow
              exact .inr ⟨t, rfl, by omega, hhigh⟩
          · exact ⟨cell, by simpa using hsize⟩
          · rw [size_put]
            dsimp only
            omega
      | _ =>
          cases hcopy
          exact ⟨.refl _, .inl ⟨rfl, by simp⟩⟩

/-- What is stored is a struct that was copied, or the value itself. -/
theorem copied_of_stored? (hstored : h.stored? v = some (w, h')) :
    Copied h h' ∧ ValueCopy h h' v w :=
  copied_of_copy? _ hstored

/-! ## Nesting -/

def Nests (h : Heap) (cell inner : Nat) : Prop :=
  Value.struct inner ∈ h.items cell

/-- No struct holds itself, be it through other structs. -/
def Acyclic (h : Heap) : Prop :=
  ∀ cell, ¬ Relation.TransGen h.Nests cell cell

def StructsWithin (h : Heap) : Prop :=
  ∀ cell inner, h.Nests cell inner → inner < h.cells.size

/-- Structs that hold only later structs form no cycle. -/
theorem acyclic_of_lt (hlt : ∀ cell inner, h.Nests cell inner → cell < inner) : h.Acyclic := by
  intro cell hcircle
  have hself : Relation.TransGen (· < ·) cell cell := Relation.TransGen.mono hlt cell cell hcircle
  rw [Relation.transGen_eq_self] at hself
  exact Nat.lt_irrefl cell hself

/-- A chain that comes to no circle passes no cell twice. -/
theorem nodup_of_isChain {R : Nat → Nat → Prop} {cells : List Nat} (hchain : cells.IsChain R)
    (hcircle : ∀ cell ∈ cells, ¬ Relation.TransGen R cell cell) : cells.Nodup := by
  have hpairwise : cells.Pairwise (Relation.TransGen R) :=
    List.isChain_iff_pairwise.1 (hchain.imp fun _ _ hstep => .single hstep)
  refine hpairwise.imp_of_mem ?_
  rintro cell _ hcell - hself rfl
  exact hcircle cell hcell hself

theorem length_le_of_nodup {cells : List Nat} (hnodup : cells.Nodup)
    (hin : ∀ cell ∈ cells, cell < h.cells.size) : cells.length ≤ h.cells.size := by
  have hsubset : cells ⊆ List.range h.cells.size :=
    fun cell hcell => List.mem_range.2 (hin cell hcell)
  simpa using (List.subperm_of_subset hnodup hsubset).length_le

/-- Without a circle, a chain of structs is no longer than there are cells. -/
theorem length_le_of_isChain (hacyclic : h.Acyclic) {cells : List Nat}
    (hchain : cells.IsChain h.Nests) (hin : ∀ cell ∈ cells, cell < h.cells.size) :
    cells.length ≤ h.cells.size :=
  length_le_of_nodup (nodup_of_isChain hchain fun cell _ => hacyclic cell) hin

/-- A chain of nested structs stays inside the heap. -/
theorem lt_size_of_isChain (hwithin : h.StructsWithin) {cells : List Nat} :
    ∀ {cell : Nat}, cell < h.cells.size → (cell :: cells).IsChain h.Nests →
      ∀ other ∈ cell :: cells, other < h.cells.size := by
  induction cells with
  | nil =>
      intro cell hcell _ other hother
      rw [List.mem_singleton] at hother
      exact hother ▸ hcell
  | cons next cells ih =>
      intro cell hcell hchain other hother
      rw [List.isChain_cons_cons] at hchain
      rcases List.mem_cons.1 hother with rfl | hother
      · exact hcell
      · exact ih (hwithin _ _ hchain.1) hchain.2 other hother

/-- A chain of structs as long as there are cells closes a circle. -/
theorem not_isChain_of_length (hacyclic : h.Acyclic) (hwithin : h.StructsWithin) {cell : Nat}
    (hcell : cell < h.cells.size) {cells : List Nat} (hchain : (cell :: cells).IsChain h.Nests) :
    cells.length < h.cells.size := by
  have hle := length_le_of_isChain hacyclic hchain (lt_size_of_isChain hwithin hcell hchain)
  rwa [List.length_cons] at hle

/-! ### Copies -/

/-- Fields that cannot all be copied: one of them cannot, in a heap that only has more copies. -/
theorem exists_of_foldlM_eq_none {copy : Heap → Value → Option (Value × Heap)}
    (hcopy : ∀ g g' v w, copy g v = some (w, g') → Copied g g') (fields : List Value) :
    ∀ {g : Heap} {out : Array Value},
      fields.foldlM (copyField copy) (out, g) = none →
      ∃ field ∈ fields, ∃ g', Copied g g' ∧ copy g' field = none := by
  induction fields with
  | nil =>
      intro g out h
      cases h
  | cons field fields ih =>
      intro g out h
      rw [List.foldlM_cons, Option.bind_eq_bind, Option.bind_eq_none_iff] at h
      cases hone : copy g field with
      | none => exact ⟨field, List.mem_cons_self, g, .refl g, hone⟩
      | some result =>
          obtain ⟨w, between⟩ := result
          have hrest := h _ (copyField_eq_some.2 ⟨w, between, hone, rfl⟩)
          -- The first field is copied, so a later one is cut, in a heap that holds this copy
          -- already.
          obtain ⟨other, hother, g', hcopied, hnone⟩ := ih hrest
          exact ⟨other, List.mem_cons_of_mem _ hother, g',
            (hcopy _ _ _ _ hone).trans hcopied, hnone⟩

/-- A copy that is cut has followed a chain of structs as long as it went deep. -/
theorem exists_chain_of_copy?_eq_none (hwithin : h.StructsWithin) (levels : Nat) :
    ∀ {g : Heap} {v : Value}, Copied h g → (∀ cell, v = .struct cell → cell < h.cells.size) →
      g.copy? levels v = none → ∃ cell cells, v = .struct cell ∧
        (cell :: cells).IsChain h.Nests ∧ cells.length = levels := by
  induction levels with
  | zero =>
      intro g v _ _ hcopy
      cases v with
      | struct cell => exact ⟨cell, [], rfl, .singleton _, rfl⟩
      | _ => cases hcopy
  | succ levels ih =>
      intro g v hcopied hv hcopy
      cases v with
      | struct cell =>
          rw [copy?_struct, Option.map_eq_none_iff] at hcopy
          obtain ⟨field, hfield, g', hcopied', hnone⟩ :=
            exists_of_foldlM_eq_none (fun _ _ _ _ hone => (copied_of_copy? levels hone).1) _ hcopy
          -- The field stands in a cell that was there before all copies.
          have hold : field ∈ h.items cell := by
            rw [← hcopied.items_eq cell (hv cell rfl)]
            simpa using hfield
          have hinner : ∀ inner, field = .struct inner → inner < h.cells.size := by
            rintro inner rfl
            exact hwithin cell inner hold
          obtain ⟨inner, cells, rfl, hchain, hlength⟩ :=
            ih ((hcopied.trans (.alloc g)).trans hcopied') hinner hnone
          exact ⟨cell, inner :: cells, rfl, List.isChain_cons_cons.2 ⟨hold,
            hchain⟩, by simp [hlength]⟩
      | _ => cases hcopy

/-- What one way of copying can do, one that can do more does as well. -/
theorem foldlM_eq_some_of_imp {copy copy' : Heap → Value → Option (Value × Heap)}
    (himp : ∀ g v r, copy g v = some r → copy' g v = some r) (fields : List Value) :
    ∀ {acc r : Array Value × Heap},
      fields.foldlM (copyField copy) acc = some r →
      fields.foldlM (copyField copy') acc = some r := by
  induction fields with
  | nil =>
      intro acc r h
      exact h
  | cons field fields ih =>
      intro acc r h
      rw [List.foldlM_cons, Option.bind_eq_bind, Option.bind_eq_some_iff] at h ⊢
      obtain ⟨acc', hfirst, hrest⟩ := h
      obtain ⟨w, g, hone, heq⟩ := copyField_eq_some.1 hfirst
      exact ⟨acc', copyField_eq_some.2 ⟨w, g, himp _ _ _ hone, heq⟩, ih hrest⟩

/-- A deeper bound changes no copy. -/
theorem copy?_succ (levels : Nat) : ∀ {h : Heap} {v : Value} {r : Value × Heap},
    h.copy? levels v = some r → h.copy? (levels + 1) v = some r := by
  induction levels with
  | zero =>
      intro h v r hcopy
      cases v with
      | struct cell => cases hcopy
      | _ => exact hcopy
  | succ levels ih =>
      intro h v r hcopy
      cases v with
      | struct cell =>
          -- Each field was copied within fewer levels.
          rw [copy?_struct, Option.map_eq_some_iff] at hcopy ⊢
          obtain ⟨fields, hfold, heq⟩ := hcopy
          exact ⟨fields, foldlM_eq_some_of_imp (fun _ _ _ hone => ih hone) _ hfold, heq⟩
      | _ => exact hcopy

/-- Without a circle, a copy goes no deeper than there are cells, and no deeper bound changes it. -/
theorem exists_copy? (hacyclic : h.Acyclic) (hwithin : h.StructsWithin)
    (hv : ∀ cell, v = .struct cell → cell < h.cells.size) :
    ∃ r, ∀ levels, h.cells.size ≤ levels → h.copy? levels v = some r := by
  cases hcopy : h.copy? h.cells.size v with
  | none =>
      obtain ⟨cell, cells, rfl, hchain, hlength⟩ :=
        exists_chain_of_copy?_eq_none hwithin _ (.refl h) hv hcopy
      have hlt := not_isChain_of_length hacyclic hwithin (hv cell rfl) hchain
      omega
  | some r =>
      refine ⟨r, fun levels hlevels => ?_⟩
      induction hlevels with
      | refl => exact hcopy
      | step _ ih => exact copy?_succ _ ih

/-! ### Comparisons -/

/-- If a comparison of lists fails, then that of some members does. -/
theorem exists_of_allPairs?_eq_none {test : Value → Value → Option Bool} :
    ∀ {as bs : List Value}, allPairs? test as bs = none → ∃ a ∈ as, ∃ b ∈ bs, test a b = none
  | [], _, h => by cases h
  | _ :: _, [], h => by cases h
  | a :: as, b :: bs, h => by
      cases htest : test a b with
      | none => exact ⟨a, List.mem_cons_self, b, List.mem_cons_self, htest⟩
      | some equal =>
          cases equal with
          | false => simp [allPairs?, htest] at h
          | true =>
              rw [allPairs?, htest] at h
              obtain ⟨a', ha', b', hb', hnone⟩ := exists_of_allPairs?_eq_none h
              exact ⟨a', List.mem_cons_of_mem _ ha', b', List.mem_cons_of_mem _ hb', hnone⟩

/-- What one way of comparing decides, one that decides more does as well. -/
theorem allPairs?_eq_some_of_imp {test test' : Value → Value → Option Bool}
    (himp : ∀ a b r, test a b = some r → test' a b = some r) :
    ∀ {as bs : List Value} {r : Bool}, allPairs? test as bs = some r →
      allPairs? test' as bs = some r
  | [], _, _, h => h
  | _ :: _, [], _, h => h
  | a :: as, b :: bs, r, h => by
      cases htest : test a b with
      | none => simp [allPairs?, htest] at h
      | some equal =>
          have htest' := himp a b equal htest
          cases equal with
          | false => simpa [allPairs?, htest, htest'] using h
          | true =>
              rw [allPairs?, htest] at h
              rw [allPairs?, htest']
              exact allPairs?_eq_some_of_imp himp h

/-- A comparison that is cut has followed a chain of structs as long as it went deep. -/
theorem exists_chain_of_equalWithin?_eq_none (levels : Nat) : ∀ {a b : Value},
    h.equalWithin? levels a b = none → ∃ cell cells, a = .struct cell ∧
      (cell :: cells).IsChain h.Nests ∧ cells.length = levels := by
  induction levels with
  | zero =>
      intro a b hequal
      cases a with
      | struct cell => exact ⟨cell, [], rfl, .singleton _, rfl⟩
      | _ => cases b <;> simp [equalWithin?] at hequal
  | succ levels ih =>
      intro a b hequal
      cases a with
      | struct cell =>
          cases b with
          | struct other =>
              simp only [equalWithin?] at hequal
              split at hequal
              · -- Some pair of fields was cut one level deeper; its chain goes on from this struct.
                obtain ⟨field, hfield, _, _, hnone⟩ := exists_of_allPairs?_eq_none hequal
                obtain ⟨inner, cells, rfl, hchain, hlength⟩ := ih hnone
                have hnests : h.Nests cell inner := by simpa [Nests] using hfield
                exact ⟨cell, inner :: cells, rfl, List.isChain_cons_cons.2 ⟨hnests, hchain⟩,
                  by simp [hlength]⟩
              · cases hequal
          | _ => simp [equalWithin?] at hequal
      | _ => cases b <;> simp [equalWithin?] at hequal

/-- A deeper bound changes no comparison. -/
theorem equalWithin?_succ (levels : Nat) : ∀ {a b : Value} {r : Bool},
    h.equalWithin? levels a b = some r → h.equalWithin? (levels + 1) a b = some r := by
  induction levels with
  | zero =>
      intro a b r hequal
      cases a with
      | struct cell =>
          cases b with
          | struct other => cases hequal
          | _ => exact hequal
      | _ => cases b <;> exact hequal
  | succ levels ih =>
      intro a b r hequal
      cases a with
      | struct cell =>
          cases b with
          | struct other =>
              simp only [equalWithin?] at hequal ⊢
              split at hequal
              · rename_i hsize
                rw [if_pos hsize]
                exact allPairs?_eq_some_of_imp (fun _ _ _ hone => ih hone) hequal
              · rename_i hsize
                rw [if_neg hsize]
                exact hequal
          | _ => exact hequal
      | _ => cases b <;> exact hequal

/-- Without a circle, a comparison goes no deeper than there are cells, and no deeper bound changes
it. -/
theorem exists_equalWithin? (hacyclic : h.Acyclic) (hwithin : h.StructsWithin)
    (hv : ∀ cell, v = .struct cell → cell < h.cells.size) (w : Value) :
    ∃ r, ∀ levels, h.cells.size ≤ levels → h.equalWithin? levels v w = some r := by
  cases hequal : h.equalWithin? h.cells.size v w with
  | none =>
      obtain ⟨cell, cells, rfl, hchain, hlength⟩ := exists_chain_of_equalWithin?_eq_none _ hequal
      have hlt := not_isChain_of_length hacyclic hwithin (hv cell rfl) hchain
      omega
  | some r =>
      refine ⟨r, fun levels hlevels => ?_⟩
      induction hlevels with
      | refl => exact hequal
      | step _ ih => exact equalWithin?_succ _ ih

end Heap
end NeoScript
