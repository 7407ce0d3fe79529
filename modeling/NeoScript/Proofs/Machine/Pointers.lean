import NeoScript.Proofs.Machine.Simulation

/-!
# Pointers — outcomes with other addresses in their pointers

* `Value.mapPointers`, `Heap.mapPointers`, `Fault.mapPointers`, `Outcome.mapPointers` — every
  pointer gets the address that a function gives it;
* `Outcome.mapPointers_id`, `Outcome.mapPointers_mapPointers` — no change, and one change after the
  other;
* `Outcome.Related.eq_mapPointers` — a relation that follows a function leaves no other outcome.
-/

namespace NeoScript

/-! ## Pointers -/

/-- The value with another address if it is a pointer. -/
def Value.mapPointers (f : Nat → Nat) : Value → Value
  | .pointer address => .pointer (f address)
  | value => value

def Heap.mapPointers (f : Nat → Nat) (heap : Heap) : Heap :=
  ⟨heap.cells.map fun items => items.map (Value.mapPointers f)⟩

/-- Only an uncaught exception carries values. -/
def Fault.mapPointers (f : Nat → Nat) : Fault → Fault
  | .uncaught exception heap => .uncaught (exception.mapPointers f) (heap.mapPointers f)
  | cause => cause

/-- The outcome with the addresses that the function gives to its pointers. -/
def Outcome.mapPointers (f : Nat → Nat) : Outcome → Outcome
  | .halt stack heap => .halt (stack.map (Value.mapPointers f)) (heap.mapPointers f)
  | .fault cause => .fault (cause.mapPointers f)

/-! ## No change, and one change after the other -/

theorem Value.mapPointers_id : Value.mapPointers id = id := by
  funext value
  cases value <;> rfl

/-- Moving pointers twice is moving them once. -/
theorem Value.mapPointers_mapPointers (f g : Nat → Nat) (value : Value) :
    (value.mapPointers f).mapPointers g = value.mapPointers (g ∘ f) := by
  cases value <;> rfl

theorem Heap.mapPointers_id (heap : Heap) : heap.mapPointers id = heap := by
  simp [Heap.mapPointers, Value.mapPointers_id]

/-- Moving the pointers of a heap twice is moving them once. -/
theorem Heap.mapPointers_mapPointers (f g : Nat → Nat) (heap : Heap) :
    (heap.mapPointers f).mapPointers g = heap.mapPointers (g ∘ f) := by
  simp [Heap.mapPointers, Value.mapPointers_mapPointers]

theorem Outcome.mapPointers_id (o : Outcome) : o.mapPointers id = o := by
  cases o with
  | halt stack heap => simp [Outcome.mapPointers, Value.mapPointers_id, Heap.mapPointers_id]
  | fault cause =>
      cases cause with
      | uncaught exception heap =>
          simp [Outcome.mapPointers, Fault.mapPointers, Value.mapPointers_id, Heap.mapPointers_id]
      | _ => rfl

theorem Outcome.mapPointers_mapPointers (f g : Nat → Nat) (o : Outcome) :
    (o.mapPointers f).mapPointers g = o.mapPointers (g ∘ f) := by
  cases o with
  | halt stack heap =>
      simp [Outcome.mapPointers, Value.mapPointers_mapPointers, Heap.mapPointers_mapPointers]
  | fault cause =>
      cases cause with
      | uncaught exception heap =>
          simp [Outcome.mapPointers, Fault.mapPointers, Value.mapPointers_mapPointers,
            Heap.mapPointers_mapPointers]
      | _ => rfl

/-- A run that is cut stays cut, whatever its pointers become. -/
theorem Outcome.eq_stepLimit_of_mapPointers {f : Nat → Nat} {o : Outcome}
    (h : o.mapPointers f = .fault .stepLimit) : o = .fault .stepLimit := by
  cases o with
  | halt => cases h
  | fault cause =>
      cases cause with
      | uncaught => cases h
      | _ => exact h

/-! ## Relations that follow a function -/

section Follows

variable {φ : Nat → Nat → Prop} {f : Nat → Nat} (hf : ∀ p q, φ p q → f p = q)
include hf

/-- If a function gives the related address, the related value is the moved one. -/
theorem Value.Related.eq_mapPointers {v w : Value} (h : Value.Related φ v w) :
    w = v.mapPointers f := by
  cases h with
  | pointer hpq => exact congrArg Value.pointer (hf _ _ hpq).symm
  | _ => rfl

theorem ItemsRelated.eq_map {xs ys : Array Value} (h : ItemsRelated φ xs ys) :
    ys = xs.map (Value.mapPointers f) := by
  apply Array.ext_getElem?
  intro i
  have hi := h i
  rw [Array.getElem?_map]
  generalize xs[i]? = x, ys[i]? = y at hi
  cases hi with
  | none => rfl
  | some hv => exact congrArg some (hv.eq_mapPointers hf)

/-- The related heap is the one with all pointers moved. -/
theorem Heap.Related.eq_mapPointers {heap heap' : Heap} (h : Heap.Related φ heap heap') :
    heap' = heap.mapPointers f := by
  have hcells : heap'.cells = heap.cells.map fun items => items.map (Value.mapPointers f) := by
    apply Array.ext
    · simp [h.size]
    · intro cell hcell' hcell
      have hlt : cell < heap.cells.size := h.size ▸ hcell'
      have hitems := (h.items cell).eq_map hf
      simpa [Heap.items, hcell', hlt] using hitems
  obtain ⟨cells⟩ := heap'
  exact congrArg Heap.mk hcells

/-- A relation that follows a function leaves no other outcome. -/
theorem Outcome.Related.eq_mapPointers {o o' : Outcome} (h : Outcome.Related φ o o') :
    o' = o.mapPointers f := by
  cases h with
  | @halt stack stack' heap heap' hstack hheap =>
      have hvalues : stack' = stack.map (Value.mapPointers f) := by
        induction hstack with
        | nil => rfl
        | cons hv _ ih => rw [List.map_cons, hv.eq_mapPointers hf, ih]
      rw [Outcome.mapPointers, hvalues, hheap.eq_mapPointers hf]
  | fault hfault =>
      cases hfault with
      | plain hplain =>
          rename_i cause
          cases cause with
          | uncaught => cases hplain
          | _ => rfl
      | uncaught hv hheap =>
          rw [Outcome.mapPointers, Fault.mapPointers, hv.eq_mapPointers hf, hheap.eq_mapPointers hf]

end Follows

end NeoScript
