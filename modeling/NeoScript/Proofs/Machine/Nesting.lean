import NeoScript.Proofs.Machine.Evolution

/-!
# Nesting — structs never come to hold themselves

Arrays are shared, and an array may come to hold itself.  Structs are copied into collections, so
the one way to close a circle of structs would be to give an old struct a copy that leads back to
it.

* `Machine.Closed.of_evolves`, `Heap.Acyclic.of_evolves` — a step keeps the machine closed and its
  structs without circles: a chain of structs that enters a fresh cell goes on to ever greater
  numbers;
* `Machine.structs_never_circular` — so do runs, and then copies and comparisons of structs end.
-/

namespace NeoScript

/-! ## One step -/

section Step

variable {m m' : Machine} {extra : Nat}

theorem Value.IsIn.mono {h h' : Heap} {v : Value} (hv : v.IsIn h)
    (hle : h.cells.size ≤ h'.cells.size) : v.IsIn h' := by
  cases v with
  | array cell => exact Nat.lt_of_lt_of_le hv hle
  | struct cell => exact Nat.lt_of_lt_of_le hv hle
  | _ => trivial

/-- A step keeps all collections inside the heap. -/
theorem Machine.Closed.of_evolves (hclosed : m.Closed) (h : Machine.Evolves extra m m') :
    m'.Closed := by
  intro v hv
  cases Machine.all_iff.1 h.values v hv with
  | held hheld => exact (hclosed v hheld).mono h.size_le
  | array _ hin => exact hin
  | struct _ hin _ => exact hin
  | _ => trivial

theorem Machine.Closed.structsWithin (hclosed : m.Closed) : m.heap.StructsWithin :=
  fun _ _ hnests => hclosed _ (.cell hnests)

/-- Fresh structs hold structs of greater numbers. -/
theorem Machine.Evolves.lt_of_nests (h : Machine.Evolves extra m m') (hclosed : m.Closed)
    {outer cell inner : Nat} (hfresh : m.heap.cells.size ≤ cell) (houter : m'.heap.Nests outer cell)
    (hnests : m'.heap.Nests cell inner) : cell < inner := by
  cases Machine.all_iff.1 h.values _ (.cell houter) with
  | held hheld =>
      have hold : cell < m.heap.cells.size := hclosed _ hheld
      omega
  | struct _ _ hgreater => exact hgreater hclosed inner hnests

/-- A chain of structs that leaves a fresh cell never comes back to it. -/
theorem Machine.Evolves.lt_of_transGen (h : Machine.Evolves extra m m') (hclosed : m.Closed)
    {outer cell inner : Nat} (hfresh : m.heap.cells.size ≤ cell) (houter : m'.heap.Nests outer cell)
    (hchain : Relation.TransGen m'.heap.Nests cell inner) : cell < inner := by
  induction hchain using Relation.TransGen.head_induction_on generalizing outer with
  | single hnests => exact h.lt_of_nests hclosed hfresh houter hnests
  | head hnests _ ih =>
      have hlt := h.lt_of_nests hclosed hfresh houter hnests
      exact Nat.lt_trans hlt (ih (Nat.le_trans hfresh (Nat.le_of_lt hlt)) hnests)

/-- A chain of structs from an old cell was there before, or ends in a fresh cell. -/
theorem Machine.Evolves.transGen_or_fresh (h : Machine.Evolves extra m m') (hclosed : m.Closed)
    {cell inner : Nat} (hold : cell < m.heap.cells.size)
    (hchain : Relation.TransGen m'.heap.Nests cell inner) :
    Relation.TransGen m.heap.Nests cell inner ∨ m.heap.cells.size ≤ inner := by
  induction hchain with
  | single hnests =>
      rcases h.nests _ _ hold hnests with hbefore | hfresh
      · exact .inl (.single hbefore)
      · exact .inr hfresh
  | @tail between inner hchain hnests ih =>
      -- Once the chain is among fresh cells, the numbers only grow.
      rcases ih with hbefore | hfresh
      · have hbetween : between < m.heap.cells.size := by
          obtain ⟨last, -, hlast⟩ := Relation.TransGen.tail'_iff.1 hbefore
          exact hclosed.structsWithin _ _ hlast
        rcases h.nests _ _ hbetween hnests with hnests | hfresh
        · exact .inl (hbefore.tail hnests)
        · exact .inr hfresh
      · obtain ⟨last, -, hlast⟩ := Relation.TransGen.tail'_iff.1 hchain
        have hlt := h.lt_of_nests hclosed hfresh hlast hnests
        exact .inr (by omega)

/-- A step puts only copies of structs into structs, so it makes no cycle. -/
theorem Heap.Acyclic.of_evolves (hacyclic : m.heap.Acyclic) (hclosed : m.Closed)
    (h : Machine.Evolves extra m m') : m'.heap.Acyclic := by
  intro cell hcircle
  by_cases hold : cell < m.heap.cells.size
  · rcases h.transGen_or_fresh hclosed hold hcircle with hbefore | hfresh
    · exact hacyclic cell hbefore
    · omega
  · obtain ⟨last, -, hlast⟩ := Relation.TransGen.tail'_iff.1 hcircle
    have hlt := h.lt_of_transGen hclosed (by omega) hlast hcircle
    omega

end Step

/-! ## Copies and comparisons -/

namespace Machine

variable {code : Code} {m m' : Machine} {v w : Value}

/-- As many levels as there are cells suffice for a copy. -/
theorem exists_copy_of_holds (hclosed : m.Closed) (hacyclic : m.heap.Acyclic) (hv : m.Holds v) :
    ∃ r, ∀ levels, m.heap.cells.size ≤ levels → m.heap.copy? levels v = some r := by
  refine Heap.exists_copy? hacyclic hclosed.structsWithin ?_
  rintro cell rfl
  exact hclosed _ hv

/-- As many levels as there are cells suffice for a comparison. -/
theorem exists_equal_of_holds (hclosed : m.Closed) (hacyclic : m.heap.Acyclic) (hv : m.Holds v)
    (w : Value) : ∃ r, ∀ levels, m.heap.cells.size ≤ levels →
      m.heap.equalWithin? levels v w = some r := by
  refine Heap.exists_equalWithin? hacyclic hclosed.structsWithin ?_ w
  rintro cell rfl
  exact hclosed _ hv

/-- So no step meets a struct that holds itself. -/
theorem step_ne_circularStruct (hclosed : m.Closed) (hacyclic : m.heap.Acyclic) :
    step code m ≠ .error .circularStruct := by
  intro hstep
  rcases explained_of_step hstep with ⟨v, hv, hnone⟩ | ⟨v, hv, w, -, hnone⟩
  · obtain ⟨r, hcopy⟩ := exists_copy_of_holds hclosed hacyclic (.stack hv)
    rw [Heap.stored?, hcopy _ (Nat.le_refl _)] at hnone
    cases hnone
  · obtain ⟨r, hequal⟩ := exists_equal_of_holds hclosed hacyclic (.stack hv) w
    rw [Heap.equal?, hequal _ (Nat.le_refl _)] at hnone
    cases hnone

/-! ## Runs -/

/-- A whole run makes no struct that holds itself. -/
theorem closed_acyclic_of_reaches (hclosed : m.Closed) (hacyclic : m.heap.Acyclic)
    (hreaches : Reaches code m m') : m'.Closed ∧ m'.heap.Acyclic := by
  refine reaches_induction (I := fun n => n.Closed ∧ n.heap.Acyclic) ?_ ⟨hclosed, hacyclic⟩ hreaches
  rintro n n' ⟨hn, hcircle⟩ hstep
  obtain ⟨bound, hbound⟩ := exists_within n.heap
  have hevolves := evolves_of_step hbound hstep
  exact ⟨hn.of_evolves hevolves, hcircle.of_evolves hn hevolves⟩

/-- If every collection that the arguments lead to is there and no struct among them holds itself,
then no struct of any machine that a run reaches holds itself, directly or through other structs.
So every copy and every comparison of values ends, at a depth of at most the number of cells, and no
run stops for want of that. -/
theorem structs_never_circular (code : Code) (entry : Nat) (heap : Heap) (arguments : List Value)
    (harguments : ∀ v ∈ arguments, v.IsIn heap)
    (hcells : ∀ cell, ∀ v ∈ heap.items cell, v.IsIn heap)
    (hacyclic : ∀ cell, ¬ Relation.TransGen heap.Nests cell cell) :
    (∀ m, Reaches code (start heap entry arguments) m →
      (∀ cell, ¬ Relation.TransGen m.heap.Nests cell cell) ∧
      (∀ v, m.Holds v →
        ∃ r, ∀ levels, m.heap.cells.size ≤ levels → m.heap.copy? levels v = some r) ∧
      (∀ v w, m.Holds v → m.Holds w →
        ∃ r, ∀ levels, m.heap.cells.size ≤ levels → m.heap.equalWithin? levels v w = some r)) ∧
      ∀ limit, run code entry heap arguments limit ≠ .fault .circularStruct := by
  have hclosed : (start heap entry arguments).Closed :=
    all_iff.1 (all_start entry harguments hcells)
  refine ⟨?_, ?_⟩
  · intro m hreaches
    obtain ⟨hm, hcircle⟩ := closed_acyclic_of_reaches hclosed hacyclic hreaches
    exact ⟨hcircle, fun v hv => exists_copy_of_holds hm hcircle hv,
      fun v w hv _ => exists_equal_of_holds hm hcircle hv w⟩
  · intro limit hrun
    -- Of the three ways in which a run ends, only a fault of a step could be this one.
    rcases runFrom_cases limit (start heap entry arguments) with
      ⟨m, -, -, hhalt⟩ | ⟨m, f, hreaches, hstep, hfault⟩ | hlimit
    · rw [run, hhalt] at hrun
      cases hrun
    · rw [run, hfault] at hrun
      cases hrun
      obtain ⟨hm, hcircle⟩ := closed_acyclic_of_reaches hclosed hacyclic hreaches
      exact step_ne_circularStruct hm hcircle hstep
    · rw [run, hlimit] at hrun
      cases hrun

/-- An array that holds itself and a struct, which holds another struct, which holds the array. -/
def sharedHeap : Heap :=
  ⟨#[#[.array 0, .struct 1], #[.struct 2, .int 5], #[.array 0]]⟩

theorem sharedHeap_lt_of_nests {cell inner : Nat} (hnests : sharedHeap.Nests cell inner) :
    cell < inner := by
  unfold Heap.Nests at hnests
  rcases cell with _ | _ | _ | cell
  · have hinner : inner = 1 := by simpa [sharedHeap, Heap.items] using hnests
    omega
  · have hinner : inner = 2 := by simpa [sharedHeap, Heap.items] using hnests
    omega
  · simp [sharedHeap, Heap.items] at hnests
  · simp [sharedHeap, Heap.items] at hnests

theorem sharedHeap_isIn (cell : Nat) : ∀ v ∈ sharedHeap.items cell, v.IsIn sharedHeap := by
  rcases cell with _ | _ | _ | cell <;> simp [sharedHeap, Heap.items, Value.IsIn]

/-- Compares the struct with itself, appends it to the array that it holds, and the array to
itself. -/
def sharingCode : Code :=
  #[0x4A, 0x4A, 0x97, 0x45, 0xCF, 0xCF, 0x40]

def sharedArguments : List Value :=
  [.struct 1, .array 0, .array 0, .array 0]

/-- Two structs that share a third one are copied and compared. -/
theorem structs_never_circular_shared :
    (∀ v ∈ sharedArguments, v.IsIn sharedHeap) ∧
      (∀ cell, ∀ v ∈ sharedHeap.items cell, v.IsIn sharedHeap) ∧
      (∀ cell, ¬ Relation.TransGen sharedHeap.Nests cell cell) ∧
      (∀ m, Reaches sharingCode (start sharedHeap 0 sharedArguments) m →
        ∀ cell, ¬ Relation.TransGen m.heap.Nests cell cell) ∧
      ∀ limit, run sharingCode 0 sharedHeap sharedArguments limit ≠ .fault .circularStruct := by
  have harguments : ∀ v ∈ sharedArguments, v.IsIn sharedHeap := by
    simp [sharedArguments, sharedHeap, Value.IsIn]
  have hacyclic := Heap.acyclic_of_lt fun _ _ => sharedHeap_lt_of_nests
  have hresult := structs_never_circular sharingCode 0 sharedHeap sharedArguments harguments
    sharedHeap_isIn hacyclic
  exact ⟨harguments, sharedHeap_isIn, hacyclic, fun m hm => (hresult.1 m hm).1, hresult.2⟩

end Machine
end NeoScript
