import Mathlib.Data.List.Forall2
import NeoScript.Machine.Run

/-!
# Relation — machines that differ in their addresses only

Two machines are related when they hold the same data, except that an address of the one may be
another address of the other.  This file defines:

* `Value.Related`, `ItemsRelated`, `Heap.Related` — data, given which addresses stand for one
  another;
* `Handler.Related`, `Frame.Related`, `Machine.Related` — machines, given in addition where
  invocations may go on;
* `Fault.Related`, `Result.Related` — faults and results of computations.

A fault that only a wrong address can cause is related to no fault, so related results never have
one. Relating a machine to itself therefore says that all its addresses are good.
-/

namespace NeoScript

/-! ## Data -/

/-- The same value, up to the addresses of pointers. -/
inductive Value.Related (φ : Nat → Nat → Prop) : Value → Value → Prop where
  | null : Related φ .null .null
  | bool (b : Bool) : Related φ (.bool b) (.bool b)
  | int (i : Int) : Related φ (.int i) (.int i)
  | bytes (data : List UInt8) : Related φ (.bytes data) (.bytes data)
  | array (cell : Nat) : Related φ (.array cell) (.array cell)
  | struct (cell : Nat) : Related φ (.struct cell) (.struct cell)
  | pointer {p q : Nat} : φ p q → Related φ (.pointer p) (.pointer q)

def ItemsRelated (φ : Nat → Nat → Prop) (xs ys : Array Value) : Prop :=
  ∀ i : Nat, Option.Rel (Value.Related φ) xs[i]? ys[i]?

/-- Heaps with the same cells, up to the addresses of pointers. -/
structure Heap.Related (φ : Nat → Nat → Prop) (h h' : Heap) : Prop where
  size : h.cells.size = h'.cells.size
  items : ∀ cell, ItemsRelated φ (h.items cell) (h'.items cell)

/-! ## Machines -/

structure Handler.Related (φ : Nat → Nat → Prop) (h h' : Handler) : Prop where
  catchAt : Option.Rel φ h.catchAt h'.catchAt
  finallyAt : Option.Rel φ h.finallyAt h'.finallyAt
  resumeAt : Option.Rel φ h.resumeAt h'.resumeAt
  phase : h.phase = h'.phase

/-- Invocations that go on at addresses related by `ψ`. -/
structure Frame.Related (φ ψ : Nat → Nat → Prop) (f f' : Frame) : Prop where
  ip : ψ f.ip f'.ip
  locals : Option.Rel (ItemsRelated φ) f.locals f'.locals
  arguments : Option.Rel (ItemsRelated φ) f.arguments f'.arguments
  handlers : List.Forall₂ (Handler.Related φ) f.handlers f'.handlers

/-- Stacks of invocations; where the innermost goes on is told apart. -/
inductive FramesRelated (φ inner ψ : Nat → Nat → Prop) : List Frame → List Frame → Prop where
  | nil : FramesRelated φ inner ψ [] []
  | cons {f f' : Frame} {outer outer' : List Frame} :
      Frame.Related φ inner f f' → List.Forall₂ (Frame.Related φ ψ) outer outer' →
        FramesRelated φ inner ψ (f :: outer) (f' :: outer')

/-- The same machine, up to addresses. -/
structure Machine.Related (φ inner ψ : Nat → Nat → Prop) (m m' : Machine) : Prop where
  stack : ItemsRelated φ m.stack m'.stack
  frames : FramesRelated φ inner ψ m.frames m'.frames
  statics : Option.Rel (ItemsRelated φ) m.statics m'.statics
  pending : Option.Rel (Value.Related φ) m.pending m'.pending
  heap : Heap.Related φ m.heap m'.heap

/-! ## Faults and results -/

def Fault.isPlain : Fault → Bool
  | .uncaught _ _ => false
  | .invalidJump _ => false
  | .decode _ => false
  | _ => true

/-- The same fault, up to the addresses of pointers. -/
inductive Fault.Related (φ : Nat → Nat → Prop) : Fault → Fault → Prop where
  | plain {f : Fault} : f.isPlain = true → Related φ f f
  | uncaught {v v' : Value} {h h' : Heap} :
      Value.Related φ v v' → Heap.Related φ h h' → Related φ (.uncaught v h) (.uncaught v' h')

/-- Computations that both succeed with related results, or both fail with related faults. -/
inductive Result.Related (φ : Nat → Nat → Prop) {α β : Type} (R : α → β → Prop) :
    Except Fault α → Except Fault β → Prop where
  | ok {a : α} {b : β} : R a b → Related φ R (.ok a) (.ok b)
  | error {f g : Fault} : Fault.Related φ f g → Related φ R (.error f) (.error g)

namespace Result.Related

variable {φ : Nat → Nat → Prop} {α β γ δ : Type}

/-- Both computations fail with the same plain fault. -/
theorem fail {R : α → β → Prop} (f : Fault) (h : f.isPlain = true) :
    Result.Related φ R (.error f) (.error f) :=
  .error (.plain h)

/-- Related results that go on in related ways end in related results. -/
theorem bind {R : α → β → Prop} {S : γ → δ → Prop} {x : Except Fault α} {y : Except Fault β}
    {f : α → Except Fault γ} {g : β → Except Fault δ} (h : Result.Related φ R x y)
    (hnext : ∀ a b, R a b → Result.Related φ S (f a) (g b)) :
    Result.Related φ S (x >>= f) (y >>= g) := by
  cases h with
  | ok hab => exact hnext _ _ hab
  | error hfault => exact .error hfault

theorem mono {R S : α → β → Prop} {x : Except Fault α} {y : Except Fault β}
    (h : Result.Related φ R x y) (hle : ∀ a b, R a b → S a b) : Result.Related φ S x y := by
  cases h with
  | ok hab => exact .ok (hle _ _ hab)
  | error hfault => exact .error hfault

end Result.Related

/-! ## Arrays of items -/

namespace ItemsRelated

variable {φ : Nat → Nat → Prop} {xs ys : Array Value} {v w : Value}

theorem size_eq (h : ItemsRelated φ xs ys) : xs.size = ys.size := by
  have hnone : ∀ i : Nat, xs[i]? = none ↔ ys[i]? = none := by
    intro i
    have hi := h i
    generalize xs[i]? = x, ys[i]? = y at hi
    cases hi <;> simp
  have hle : xs.size ≤ ys.size := by
    simpa using (hnone ys.size).2 (by simp)
  have hge : ys.size ≤ xs.size := by
    simpa using (hnone xs.size).1 (by simp)
  omega

theorem empty : ItemsRelated φ #[] #[] := by
  intro i
  simp

theorem push (h : ItemsRelated φ xs ys) (hv : Value.Related φ v w) :
    ItemsRelated φ (xs.push v) (ys.push w) := by
  intro i
  rw [Array.getElem?_push, Array.getElem?_push, h.size_eq]
  split
  · exact .some hv
  · exact h i

theorem pop (h : ItemsRelated φ xs ys) : ItemsRelated φ xs.pop ys.pop := by
  intro i
  rw [Array.getElem?_pop, Array.getElem?_pop, h.size_eq]
  split
  · exact h i
  · exact .none

theorem back? (h : ItemsRelated φ xs ys) : Option.Rel (Value.Related φ) xs.back? ys.back? := by
  rw [Array.back?_eq_getElem?, Array.back?_eq_getElem?, h.size_eq]
  exact h _

theorem set (h : ItemsRelated φ xs ys) (i : Nat) (hv : Value.Related φ v w) :
    ItemsRelated φ (xs.setIfInBounds i v) (ys.setIfInBounds i w) := by
  intro j
  rw [Array.getElem?_setIfInBounds, Array.getElem?_setIfInBounds, h.size_eq]
  split
  · split
    · exact .some hv
    · exact .none
  · exact h j

theorem insert (h : ItemsRelated φ xs ys) (hv : Value.Related φ v w) {i : Nat} (hx : i ≤ xs.size)
    (hy : i ≤ ys.size) : ItemsRelated φ (xs.insertIdx i v hx) (ys.insertIdx i w hy) := by
  intro j
  rw [Array.getElem?_insertIdx, Array.getElem?_insertIdx, h.size_eq]
  split
  · exact h j
  · split
    · split
      · exact .some hv
      · exact .none
    · exact h _

theorem erase (h : ItemsRelated φ xs ys) {i : Nat} (hx : i < xs.size) (hy : i < ys.size) :
    ItemsRelated φ (xs.eraseIdx i hx) (ys.eraseIdx i hy) := by
  intro j
  rw [Array.getElem?_eraseIdx, Array.getElem?_eraseIdx]
  split
  · exact h j
  · exact h _

theorem append {xs' ys' : Array Value} (h : ItemsRelated φ xs ys) (h' : ItemsRelated φ xs' ys') :
    ItemsRelated φ (xs ++ xs') (ys ++ ys') := by
  intro i
  rw [Array.getElem?_append, Array.getElem?_append, h.size_eq]
  split
  · exact h i
  · exact h' _

theorem reverse (h : ItemsRelated φ xs ys) : ItemsRelated φ xs.reverse ys.reverse := by
  intro i
  by_cases hi : i < xs.size
  · rw [Array.getElem?_reverse hi, Array.getElem?_reverse (h.size_eq ▸ hi), h.size_eq]
    exact h _
  · have hi' : ys.size ≤ i := by
      rw [← h.size_eq]
      omega
    rw [Array.getElem?_eq_none (by simpa using hi), Array.getElem?_eq_none (by simpa using hi')]
    exact .none

theorem replicate (count : Nat) (hv : Value.Related φ v w) :
    ItemsRelated φ (Array.replicate count v) (Array.replicate count w) := by
  intro i
  rw [Array.getElem?_replicate, Array.getElem?_replicate]
  split
  · exact .some hv
  · exact .none

theorem swap (h : ItemsRelated φ xs ys) (i j : Nat) :
    ItemsRelated φ (xs.swapIfInBounds i j) (ys.swapIfInBounds i j) := by
  have hsize := h.size_eq
  rw [Array.swapIfInBounds_def, Array.swapIfInBounds_def]
  by_cases hi : i < xs.size
  · by_cases hj : j < xs.size
    · have hi' : i < ys.size := hsize ▸ hi
      have hj' : j < ys.size := hsize ▸ hj
      simp only [hi, hj, hi', hj', dite_true]
      intro k
      rw [Array.getElem?_swap, Array.getElem?_swap]
      have hatI := h i
      have hatJ := h j
      simp only [Array.getElem?_eq_getElem, hi, hj, hi', hj'] at hatI hatJ
      split
      · exact hatI
      · split
        · exact hatJ
        · exact h k
    · have hj' : ¬ j < ys.size := hsize ▸ hj
      simpa only [hi, hj, hj', dite_true, dite_false, hsize ▸ hi] using h
  · have hi' : ¬ i < ys.size := hsize ▸ hi
    simpa only [hi, hi', dite_false] using h

theorem toList (h : ItemsRelated φ xs ys) :
    List.Forall₂ (Value.Related φ) xs.toList ys.toList := by
  rw [List.forall₂_iff_get]
  refine ⟨by simpa using h.size_eq, ?_⟩
  intro i hx hy
  have hi := h i
  simp only [Array.length_toList] at hx hy
  rw [Array.getElem?_eq_getElem hx, Array.getElem?_eq_getElem hy] at hi
  cases hi with
  | some hv => simpa using hv

theorem of_toList {as bs : List Value} (h : List.Forall₂ (Value.Related φ) as bs) :
    ItemsRelated φ as.toArray bs.toArray := by
  intro i
  induction h generalizing i with
  | nil => simp
  | cons hv hrest ih =>
      cases i with
      | zero => simpa using Option.Rel.some hv
      | succ i => simpa using ih i

end ItemsRelated

end NeoScript
