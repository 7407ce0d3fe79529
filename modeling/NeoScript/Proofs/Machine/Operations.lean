import NeoScript.Proofs.Machine.Relation

/-!
# Operations — what the parts of an instruction do to related machines

Every operation from which instructions are built takes related machines to related results:

* heap cells, copies and comparisons;
* the stack;
* frames, handlers and slots.

Comparing pointers is the one operation that looks at addresses, and there the relation of addresses
has to be one to one (`OneToOne`).
-/

namespace NeoScript

def OneToOne (φ : Nat → Nat → Prop) : Prop :=
  ∀ ⦃p q p' q' : Nat⦄, φ p q → φ p' q' → (p = p' ↔ q = q')

variable {φ inner ψ : Nat → Nat → Prop}

/-! ## Cells -/

namespace Heap.Related

variable {h h' : Heap}

theorem put (hr : Heap.Related φ h h') (cell : Nat) {xs ys : Array Value}
    (hitems : ItemsRelated φ xs ys) : Heap.Related φ (h.put cell xs) (h'.put cell ys) := by
  refine ⟨by simpa [Heap.put] using hr.size, ?_⟩
  intro other
  have hother := hr.items other
  simp only [Heap.items, Heap.put, Array.getD_eq_getD_getElem?,
    Array.getElem?_setIfInBounds, hr.size] at hother ⊢
  split
  · split
    · exact hitems
    · exact ItemsRelated.empty
  · exact hother

/-- Related changes of a cell keep heaps related. -/
theorem modify (hr : Heap.Related φ h h') (cell : Nat) {f g : Array Value → Array Value}
    (hfg : ∀ xs ys, ItemsRelated φ xs ys → ItemsRelated φ (f xs) (g ys)) :
    Heap.Related φ (h.modify cell f) (h'.modify cell g) := by
  refine ⟨by simpa [Heap.modify] using hr.size, ?_⟩
  intro other
  have hother := hr.items other
  simp only [Heap.items, Heap.modify, Array.getD_eq_getD_getElem?,
    Array.getElem?_modify] at hother ⊢
  split
  · -- A cell that is not there holds nothing in either heap.
    by_cases hin : other < h.cells.size
    · have hin' : other < h'.cells.size := hr.size ▸ hin
      simp only [Array.getElem?_eq_getElem, hin, hin', Option.getD_some, Option.map_some]
        at hother ⊢
      exact hfg _ _ hother
    · have hin' : ¬ other < h'.cells.size := hr.size ▸ hin
      simpa [hin, hin'] using ItemsRelated.empty
  · exact hother

/-- A new cell has the same number in both heaps. -/
theorem alloc (hr : Heap.Related φ h h') {xs ys : Array Value} (hitems : ItemsRelated φ xs ys) :
    (h.alloc xs).1 = (h'.alloc ys).1 ∧ Heap.Related φ (h.alloc xs).2 (h'.alloc ys).2 := by
  refine ⟨hr.size, by simpa [Heap.alloc] using hr.size, ?_⟩
  intro other
  have hother := hr.items other
  simp only [Heap.items, Heap.alloc, Array.getD_eq_getD_getElem?, Array.getElem?_push, hr.size]
    at hother ⊢
  split
  · exact hitems
  · exact hother

/-! ## Copies and comparisons -/

def Pair (φ : Nat → Nat → Prop) (a b : Value × Heap) : Prop :=
  Value.Related φ a.1 b.1 ∧ Heap.Related φ a.2 b.2

/-- Fields are copied one after the other, each into the heap that the one before left. -/
theorem copyFields {copy : Heap → Value → Option (Value × Heap)}
    (hcopy : ∀ g g' v w, Heap.Related φ g g' → Value.Related φ v w →
      Option.Rel (Pair φ) (copy g v) (copy g' w))
    {vs ws : List Value} (hfields : List.Forall₂ (Value.Related φ) vs ws) :
    ∀ {g g' : Heap} {out out' : Array Value}, Heap.Related φ g g' → ItemsRelated φ out out' →
      Option.Rel (fun a b => ItemsRelated φ a.1 b.1 ∧ Heap.Related φ a.2 b.2)
        (vs.foldlM (fun acc v => do
          let (value, heap) ← copy acc.2 v
          return (acc.1.push value, heap)) (out, g))
        (ws.foldlM (fun acc v => do
          let (value, heap) ← copy acc.2 v
          return (acc.1.push value, heap)) (out', g')) := by
  induction hfields with
  | nil =>
      intro g g' out out' hg hout
      exact .some ⟨hout, hg⟩
  | @cons v w vs ws hv _ ih =>
      intro g g' out out' hg hout
      have hone := hcopy g g' v w hg hv
      simp only [List.foldlM_cons]
      generalize copy g v = a, copy g' w = b at hone
      cases hone with
      | none => exact .none
      | some hab => exact ih hab.2 (hout.push hab.1)

/-- Copies of related values are made in the same cells, and are related. -/
theorem copy? (levels : Nat) : ∀ {h h' : Heap} {v w : Value}, Heap.Related φ h h' →
    Value.Related φ v w → Option.Rel (Pair φ) (h.copy? levels v) (h'.copy? levels w) := by
  induction levels with
  | zero =>
      intro h h' v w hr hv
      have hself := hv
      cases hv with
      | struct cell => exact .none
      | _ => exact .some ⟨hself, hr⟩
  | succ levels ih =>
      intro h h' v w hr hv
      have hself := hv
      cases hv with
      | struct cell =>
          -- The heaps have equally many cells, so the fresh cell has the same number in both.
          have hfields := (hr.items cell).toList
          have hfresh := hr.alloc (ItemsRelated.empty (φ := φ))
          have hcopied := copyFields (fun g g' v w hg hv => ih hg hv) hfields hfresh.2
            (ItemsRelated.empty (φ := φ))
          simp only [Heap.copy?]
          generalize List.foldlM (m := Option) _ _ (h.items cell).toList = a,
            List.foldlM (m := Option) _ _ (h'.items cell).toList = b at hcopied ⊢
          cases hcopied with
          | none => exact .none
          | some hab =>
              refine .some ⟨?_, ?_⟩
              · rw [hfresh.1]
                exact .struct _
              · rw [hfresh.1]
                exact hab.2.put _ hab.1
      | _ => exact .some ⟨hself, hr⟩

/-- Storing copies a struct in both heaps or in none. -/
theorem stored? (hr : Heap.Related φ h h') {v w : Value} (hv : Value.Related φ v w) :
    Option.Rel (Pair φ) (h.stored? v) (h'.stored? w) := by
  unfold Heap.stored?
  rw [hr.size]
  exact hr.copy? _ hv

/-- Lists of related values are compared with the same result. -/
theorem allPairs? {test test' : Value → Value → Option Bool}
    (htest : ∀ a a' b b', Value.Related φ a a' → Value.Related φ b b' → test a b = test' a' b')
    {as as' : List Value} (has : List.Forall₂ (Value.Related φ) as as') :
    ∀ {bs bs' : List Value}, List.Forall₂ (Value.Related φ) bs bs' →
      Heap.allPairs? test as bs = Heap.allPairs? test' as' bs' := by
  induction has with
  | nil =>
      intro bs bs' hbs
      rfl
  | cons ha _ ih =>
      intro bs bs' hbs
      cases hbs with
      | nil => rfl
      | cons hb hrest =>
          simp only [Heap.allPairs?, htest _ _ _ _ ha hb, ih hrest]

/-- Comparison sees pointers only as equal or not, which a one-to-one relation keeps. -/
theorem equalWithin? (hφ : OneToOne φ) (hr : Heap.Related φ h h') (levels : Nat) :
    ∀ {a a' b b' : Value}, Value.Related φ a a' → Value.Related φ b b' →
      h.equalWithin? levels a b = h'.equalWithin? levels a' b' := by
  induction levels with
  | zero =>
      intro a a' b b' ha hb
      cases ha <;> cases hb <;> try rfl
      -- Pointers are compared by address, and no two addresses get one image.
      rename_i hp _ _ hq
      simp only [Heap.equalWithin?, Option.some.injEq, beq_eq_beq]
      exact hφ hp hq
  | succ levels ih =>
      intro a a' b b' ha hb
      cases ha <;> cases hb <;> try rfl
      · -- Structs are compared field by field, one level deeper.
        rename_i x y
        have hx := hr.items x
        have hy := hr.items y
        simp only [Heap.equalWithin?, hx.size_eq, hy.size_eq]
        rw [allPairs? (fun a a' b b' ha hb => ih ha hb) hx.toList hy.toList]
      · rename_i hp _ _ hq
        simp only [Heap.equalWithin?, Option.some.injEq, beq_eq_beq]
        exact hφ hp hq

theorem equal? (hφ : OneToOne φ) (hr : Heap.Related φ h h') {a a' b b' : Value}
    (ha : Value.Related φ a a') (hb : Value.Related φ b b') : h.equal? a b = h'.equal? a' b' := by
  unfold Heap.equal?
  rw [hr.size]
  exact hr.equalWithin? hφ _ ha hb

end Heap.Related

/-! ## Values -/

namespace Value.Related

variable {v w : Value}

theorem toInt?_eq (h : Value.Related φ v w) : v.toInt? = w.toInt? := by
  cases h <;> rfl

theorem toBool_eq (h : Value.Related φ v w) : v.toBool = w.toBool := by
  cases h <;> rfl

theorem isNull_eq (h : Value.Related φ v w) : (v == .null) = (w == .null) := by
  cases h <;> rfl

end Value.Related

/-! ## Stack -/

namespace Machine.Related

variable {m m' : Machine}

def With {α β : Type} (R : α → β → Prop) (φ inner ψ : Nat → Nat → Prop)
    (a : α × Machine) (b : β × Machine) : Prop :=
  R a.1 b.1 ∧ Machine.Related φ inner ψ a.2 b.2

theorem push (hm : Machine.Related φ inner ψ m m') {v w : Value} (hv : Value.Related φ v w) :
    Machine.Related φ inner ψ (m.push v) (m'.push w) :=
  { hm with stack := hm.stack.push hv }

theorem pushInt (hm : Machine.Related φ inner ψ m m') (i : Int) :
    Result.Related φ (Machine.Related φ inner ψ) (m.pushInt i) (m'.pushInt i) := by
  unfold Machine.pushInt
  split
  · exact .ok (hm.push (.int i))
  · exact .fail _ rfl

theorem pop (hm : Machine.Related φ inner ψ m m') :
    Result.Related φ (With (Value.Related φ) φ inner ψ) m.pop m'.pop := by
  have hback := hm.stack.back?
  unfold Machine.pop
  generalize m.stack.back? = a, m'.stack.back? = b at hback
  cases hback with
  | none => exact .fail _ rfl
  | some hv => exact .ok ⟨hv, { hm with stack := hm.stack.pop }⟩

theorem wordAdd (a b : Nat) : Result.Related φ Eq (Word.add a b) (Word.add a b) := by
  unfold Word.add
  split
  · exact .ok rfl
  · exact .fail _ rfl

theorem position (hm : Machine.Related φ inner ψ m m') (count : Nat) :
    Result.Related φ Eq (m.position count) (m'.position count) := by
  unfold Machine.position
  rw [hm.stack.size_eq]
  split
  · exact .ok rfl
  · exact .fail _ rfl

theorem itemAt (hm : Machine.Related φ inner ψ m m') (position : Nat) :
    Result.Related φ (Value.Related φ) (m.itemAt position) (m'.itemAt position) := by
  have hat := hm.stack position
  unfold Machine.itemAt
  generalize m.stack[position]? = a, m'.stack[position]? = b at hat
  cases hat with
  | none => exact .fail _ rfl
  | some hv => exact .ok hv

theorem peek (hm : Machine.Related φ inner ψ m m') (depth : Nat) :
    Result.Related φ (Value.Related φ) (m.peek depth) (m'.peek depth) := by
  refine (wordAdd depth 1).bind ?_
  rintro count _ rfl
  refine (hm.position count).bind ?_
  rintro position _ rfl
  exact hm.itemAt position

theorem insertAt (hm : Machine.Related φ inner ψ m m') (position : Nat) {v w : Value}
    (hv : Value.Related φ v w) :
    Result.Related φ (Machine.Related φ inner ψ) (m.insertAt position v)
      (m'.insertAt position w) := by
  unfold Machine.insertAt
  by_cases hin : position ≤ m.stack.size
  · have hin' : position ≤ m'.stack.size := hm.stack.size_eq ▸ hin
    rw [dif_pos hin, dif_pos hin']
    exact .ok { hm with stack := hm.stack.insert hv hin hin' }
  · have hin' : ¬ position ≤ m'.stack.size := hm.stack.size_eq ▸ hin
    rw [dif_neg hin, dif_neg hin']
    exact .fail _ rfl

theorem removeAt (hm : Machine.Related φ inner ψ m m') (position : Nat) :
    Result.Related φ (With (Value.Related φ) φ inner ψ) (m.removeAt position)
      (m'.removeAt position) := by
  unfold Machine.removeAt
  by_cases hin : position < m.stack.size
  · have hin' : position < m'.stack.size := hm.stack.size_eq ▸ hin
    have hat := hm.stack position
    rw [Array.getElem?_eq_getElem hin, Array.getElem?_eq_getElem hin'] at hat
    rw [dif_pos hin, dif_pos hin']
    cases hat with
    | some hv => exact .ok ⟨hv, { hm with stack := hm.stack.erase hin hin' }⟩
  · have hin' : ¬ position < m'.stack.size := hm.stack.size_eq ▸ hin
    rw [dif_neg hin, dif_neg hin']
    exact .fail _ rfl

theorem popInt (hm : Machine.Related φ inner ψ m m') :
    Result.Related φ (With Eq φ inner ψ) m.popInt m'.popInt := by
  refine hm.pop.bind ?_
  rintro ⟨v, n⟩ ⟨w, n'⟩ ⟨hv, hn⟩
  dsimp only at hv hn ⊢
  rw [hv.toInt?_eq]
  split
  · exact .ok ⟨rfl, hn⟩
  · exact .fail _ rfl

theorem popBool (hm : Machine.Related φ inner ψ m m') :
    Result.Related φ (With Eq φ inner ψ) m.popBool m'.popBool := by
  refine hm.pop.bind ?_
  rintro ⟨v, n⟩ ⟨w, n'⟩ ⟨hv, hn⟩
  exact .ok ⟨hv.toBool_eq, hn⟩

theorem popIndex (hm : Machine.Related φ inner ψ m m') :
    Result.Related φ (With Eq φ inner ψ) m.popIndex m'.popIndex := by
  refine hm.popInt.bind ?_
  rintro ⟨i, n⟩ ⟨_, n'⟩ ⟨rfl, hn⟩
  dsimp only at hn ⊢
  split
  · exact .ok ⟨rfl, hn⟩
  · exact .fail _ rfl

theorem popCount (hm : Machine.Related φ inner ψ m m') :
    Result.Related φ (With Eq φ inner ψ) m.popCount m'.popCount := by
  refine hm.popIndex.bind ?_
  rintro ⟨i, n⟩ ⟨_, n'⟩ ⟨rfl, hn⟩
  dsimp only at hn ⊢
  split
  · exact .ok ⟨rfl, hn⟩
  · exact .fail _ rfl

theorem popCell (hm : Machine.Related φ inner ψ m m') :
    Result.Related φ (With Eq φ inner ψ) m.popCell m'.popCell := by
  refine hm.pop.bind ?_
  rintro ⟨v, n⟩ ⟨w, n'⟩ ⟨hv, hn⟩
  cases hv with
  | array cell => exact .ok ⟨rfl, hn⟩
  | struct cell => exact .ok ⟨rfl, hn⟩
  | _ => exact .fail _ rfl

theorem popMany (count : Nat) : ∀ {m m' : Machine} {out out' : Array Value},
    Machine.Related φ inner ψ m m' → ItemsRelated φ out out' →
      Result.Related φ (With (ItemsRelated φ) φ inner ψ)
        (Machine.popMany count m out) (Machine.popMany count m' out') := by
  induction count with
  | zero =>
      intro m m' out out' hm hout
      exact .ok ⟨hout, hm⟩
  | succ count ih =>
      intro m m' out out' hm hout
      refine hm.pop.bind ?_
      rintro ⟨v, n⟩ ⟨w, n'⟩ ⟨hv, hn⟩
      exact ih hn (hout.push hv)

/-- Swapping items of two stacks keeps them related place by place. -/
theorem swapTop {xs ys : Array Value} (h : ItemsRelated φ xs ys) (count : Nat) :
    ItemsRelated φ (Machine.swapTop xs count) (Machine.swapTop ys count) := by
  unfold Machine.swapTop
  rw [h.size_eq]
  generalize ys.size = size
  induction List.range (count / 2) generalizing xs ys with
  | nil => exact h
  | cons k rest ih => exact ih (h.swap _ _)

theorem reverseTop (hm : Machine.Related φ inner ψ m m') (count : Nat) :
    Result.Related φ (Machine.Related φ inner ψ) (m.reverseTop count) (m'.reverseTop count) := by
  refine (hm.position count).bind ?_
  rintro position _ rfl
  unfold Machine.reverseFrom
  rw [hm.stack.size_eq]
  split
  · exact .ok { hm with stack := swapTop hm.stack _ }
  · exact .fail _ rfl

/-- What is popped to be stored is copied in both machines or in none. -/
theorem popStored (hm : Machine.Related φ inner ψ m m') :
    Result.Related φ (With (Value.Related φ) φ inner ψ) m.popStored m'.popStored := by
  refine hm.pop.bind ?_
  rintro ⟨v, n⟩ ⟨w, n'⟩ ⟨hv, hn⟩
  have hcopy := hn.heap.stored? hv
  dsimp only at hcopy ⊢
  generalize n.heap.stored? v = a, n'.heap.stored? w = b at hcopy
  cases hcopy with
  | none => exact .fail _ rfl
  | some hab => exact .ok ⟨hab.1, { hn with heap := hab.2 }⟩

/-- Both machines allocate the same cell. -/
theorem pushCell (hm : Machine.Related φ inner ψ m m') {wrap : Nat → Value}
    (hwrap : ∀ cell, Value.Related φ (wrap cell) (wrap cell)) {xs ys : Array Value}
    (hitems : ItemsRelated φ xs ys) :
    Machine.Related φ inner ψ (m.pushCell wrap xs) (m'.pushCell wrap ys) := by
  have halloc := hm.heap.alloc hitems
  refine { hm with stack := ?_, heap := halloc.2 }
  refine hm.stack.push ?_
  rw [hm.heap.size]
  exact hwrap _

/-! ## Frames -/

/-- Related changes of the innermost frame keep machines related. -/
theorem withFrame (hm : Machine.Related φ inner ψ m m') {χ : Nat → Nat → Prop}
    {f g : Frame → Except Fault Frame}
    (hfg : ∀ a b, Frame.Related φ inner a b → Result.Related φ (Frame.Related φ χ) (f a) (g b)) :
    Result.Related φ (Machine.Related φ χ ψ) (m.withFrame f) (m'.withFrame g) := by
  have hframes := hm.frames
  unfold Machine.withFrame
  generalize m.frames = fs, m'.frames = fs' at hframes
  cases hframes with
  | nil => exact .fail _ rfl
  | cons hf houter =>
      refine (hfg _ _ hf).bind ?_
      intro a b hab
      exact .ok { hm with frames := .cons hab houter }

/-- Where the innermost frame goes on may be related in another way than the rest. -/
theorem goto (hm : Machine.Related φ inner ψ m m') {χ : Nat → Nat → Prop} {p q : Nat}
    (hpq : χ p q) : Result.Related φ (Machine.Related φ χ ψ) (m.goto p) (m'.goto q) :=
  hm.withFrame fun _ _ hf => .ok { hf with ip := hpq }

/-- All invocations go on at addresses related by `ψ`, the innermost included. -/
theorem settle (hm : Machine.Related φ inner ψ m m') (hinner : ∀ p q, inner p q → ψ p q) :
    Machine.Related φ ψ ψ m m' := by
  have hframes := hm.frames
  refine { hm with frames := ?_ }
  generalize m.frames = fs, m'.frames = fs' at hframes
  cases hframes with
  | nil => exact .nil
  | cons hf houter => exact .cons { hf with ip := hinner _ _ hf.ip } houter

/-- If all frames are related in one way, the innermost one is no exception. -/
theorem framesRelated_of_forall₂ {fs fs' : List Frame}
    (h : List.Forall₂ (Frame.Related φ ψ) fs fs') : FramesRelated φ ψ ψ fs fs' := by
  cases h with
  | nil => exact .nil
  | cons hf houter => exact .cons hf houter

theorem forall₂_of_framesRelated {fs fs' : List Frame} (h : FramesRelated φ ψ ψ fs fs') :
    List.Forall₂ (Frame.Related φ ψ) fs fs' := by
  cases h with
  | nil => exact .nil
  | cons hf houter => exact .cons hf houter

/-- The address behind the call stays in the frame that is left waiting. -/
theorem call (hm : Machine.Related φ ψ ψ m m') {p q : Nat} (hpq : ψ p q) :
    Machine.Related φ ψ ψ (m.call p) (m'.call q) :=
  { hm with frames := .cons ⟨hpq, .none, .none, .nil⟩ (forall₂_of_framesRelated hm.frames) }

theorem leave (hm : Machine.Related φ inner ψ m m') :
    Machine.Related φ ψ ψ m.leave m'.leave := by
  have hframes := hm.frames
  refine { hm with frames := ?_ }
  unfold Machine.leave
  generalize m.frames = fs, m'.frames = fs' at hframes
  cases hframes with
  | nil => exact .nil
  | cons hf houter => exact framesRelated_of_forall₂ houter

/-! ## Exceptions -/

theorem isSpent_eq {h h' : Handler} (hh : Handler.Related φ h h') :
    Machine.isSpent h = Machine.isSpent h' := by
  have hfinally := hh.finallyAt
  unfold Machine.isSpent
  rw [hh.phase]
  generalize h.finallyAt = a, h'.finallyAt = b at hfinally
  cases hfinally <;> rfl

/-- Control passes to a handler of an invocation. -/
theorem enterHandler (hm : Machine.Related φ inner ψ m m') {χ : Nat → Nat → Prop} {f f' : Frame}
    (hf : Frame.Related φ χ f f') {outer outer' : List Frame}
    (houter : List.Forall₂ (Frame.Related φ ψ) outer outer') {p q : Nat} (hpq : ψ p q)
    {hs hs' : List Handler} (hhandlers : List.Forall₂ (Handler.Related φ) hs hs') :
    Machine.Related φ ψ ψ
      { m with frames := { f with ip := p, handlers := hs } :: outer }
      { m' with frames := { f' with ip := q, handlers := hs' } :: outer' } :=
  { hm with frames := .cons ⟨hpq, hf.locals, hf.arguments, hhandlers⟩ houter }

/-- The innermost handler that can still run is the same in both machines. -/
theorem unwindFrame (hm : Machine.Related φ inner ψ m m') (hle : ∀ p q, φ p q → ψ p q)
    {χ : Nat → Nat → Prop} {f f' : Frame} (hf : Frame.Related φ χ f f') {outer outer' : List Frame}
    (houter : List.Forall₂ (Frame.Related φ ψ) outer outer') {hs hs' : List Handler}
    (hhandlers : List.Forall₂ (Handler.Related φ) hs hs') :
    Option.Rel (Result.Related φ (Machine.Related φ ψ ψ))
      (Machine.unwindFrame f outer m hs) (Machine.unwindFrame f' outer' m' hs') := by
  induction hhandlers with
  | nil => exact .none
  | @cons h h' hs hs' hh hrest ih =>
      unfold Machine.unwindFrame
      rw [isSpent_eq hh]
      split
      · exact ih
      · obtain ⟨catchAt, finallyAt, resumeAt, phase⟩ := h
        obtain ⟨catchAt', finallyAt', resumeAt', phase'⟩ := h'
        obtain ⟨hcatch, hfinally, hresume, hphase⟩ := hh
        dsimp only at hcatch hfinally hresume hphase ⊢
        subst hphase
        -- A finally block runs whenever there is one and no catch block comes first.
        have hrun : ∀ {p q : Nat}, φ p q → Machine.Related φ ψ ψ
            { m with frames := { f with
                ip := p, handlers := ⟨catchAt, some p, resumeAt, .finishing⟩ :: hs } :: outer }
            { m' with frames := { f' with
                ip := q, handlers := ⟨catchAt', some q, resumeAt', .finishing⟩ :: hs' } ::
                outer' } :=
          fun hpq => hm.enterHandler hf houter (hle _ _ hpq)
            (.cons ⟨hcatch, .some hpq, hresume, rfl⟩ hrest)
        cases phase with
        | body =>
            cases hcatch with
            | some hpq =>
                have hpending := hm.pending
                refine .some (.ok ⟨?_, ?_, hm.statics, .none, hm.heap⟩)
                · generalize m.pending = a, m'.pending = b at hpending
                  cases hpending with
                  | none => exact hm.stack
                  | some hv => exact hm.stack.push hv
                · exact .cons ⟨hle _ _ hpq, hf.locals, hf.arguments,
                    .cons ⟨.some hpq, hfinally, hresume, rfl⟩ hrest⟩ houter
            | none =>
                cases hfinally with
                | some hpq => exact .some (.ok (hrun hpq))
                | none => exact .some (.fail _ rfl)
        | _ =>
            cases hfinally with
            | some hpq => exact .some (.ok (hrun hpq))
            | none => exact .some (.fail _ rfl)

/-- An exception without handler is reported with related values. -/
theorem uncaught (hm : Machine.Related φ inner ψ m m') :
    Fault.Related φ (.uncaught (m.pending.getD .null) m.heap)
      (.uncaught (m'.pending.getD .null) m'.heap) := by
  have hpending := hm.pending
  generalize m.pending = a, m'.pending = b at hpending
  cases hpending with
  | none => exact .uncaught .null hm.heap
  | some hv => exact .uncaught hv hm.heap

/-- An exception goes to a handler of this frame, or on to the outer ones. -/
theorem unwindCons (hm : Machine.Related φ inner ψ m m') (hle : ∀ p q, φ p q → ψ p q)
    {χ : Nat → Nat → Prop} {f f' : Frame} (hf : Frame.Related φ χ f f') {fs fs' : List Frame}
    (houter : List.Forall₂ (Frame.Related φ ψ) fs fs')
    (hrest : Result.Related φ (Machine.Related φ ψ ψ) (m.unwind fs) (m'.unwind fs')) :
    Result.Related φ (Machine.Related φ ψ ψ) (m.unwind (f :: fs)) (m'.unwind (f' :: fs')) := by
  have hfound := hm.unwindFrame hle hf houter hf.handlers
  unfold Machine.unwind
  generalize Machine.unwindFrame f fs m f.handlers = a,
    Machine.unwindFrame f' fs' m' f'.handlers = b at hfound
  cases hfound with
  | none => exact hrest
  | some hresult => exact hresult

theorem unwindOuter (hm : Machine.Related φ inner ψ m m') (hle : ∀ p q, φ p q → ψ p q)
    {fs fs' : List Frame} (hframes : List.Forall₂ (Frame.Related φ ψ) fs fs') :
    Result.Related φ (Machine.Related φ ψ ψ) (m.unwind fs) (m'.unwind fs') := by
  induction hframes with
  | nil => exact .error hm.uncaught
  | cons hf houter ih => exact hm.unwindCons hle hf houter ih

/-- Both machines find a handler in the same invocation, or none does. -/
theorem unwind (hm : Machine.Related φ inner ψ m m') (hle : ∀ p q, φ p q → ψ p q)
    {fs fs' : List Frame} (hframes : FramesRelated φ inner ψ fs fs') :
    Result.Related φ (Machine.Related φ ψ ψ) (m.unwind fs) (m'.unwind fs') := by
  cases hframes with
  | nil => exact .error hm.uncaught
  | cons hf houter => exact hm.unwindCons hle hf houter (hm.unwindOuter hle houter)

/-- Related machines pass an exception to related handlers. -/
theorem throwValue (hm : Machine.Related φ inner ψ m m') (hle : ∀ p q, φ p q → ψ p q)
    {v w : Value} (hv : Value.Related φ v w) :
    Result.Related φ (Machine.Related φ ψ ψ) (m.throwValue v) (m'.throwValue w) := by
  have hm' : Machine.Related φ inner ψ { m with pending := some v } { m' with pending := some w } :=
    { hm with pending := .some hv }
  exact hm'.unwind hle hm.frames

/-- Related machines go on with what they had put off in the same way. -/
theorem endFinally (hm : Machine.Related φ inner ψ m m') (hle : ∀ p q, φ p q → ψ p q) :
    Result.Related φ (Machine.Related φ ψ ψ) m.endFinally m'.endFinally := by
  obtain ⟨stack, frames, statics, pending, heap⟩ := m
  obtain ⟨stack', frames', statics', pending', heap'⟩ := m'
  obtain ⟨hstack, hframes, hstatics, hpending, hheap⟩ := hm
  dsimp only at hstack hframes hstatics hpending hheap
  cases hframes with
  | nil => exact .fail _ rfl
  | @cons f f' outer outer' hf houter =>
      obtain ⟨ip, locals, arguments, handlers⟩ := f
      obtain ⟨ip', locals', arguments', handlers'⟩ := f'
      obtain ⟨hip, hlocals, harguments, hhandlers⟩ := hf
      dsimp only at hip hlocals harguments hhandlers
      cases hhandlers with
      | nil => exact .fail _ rfl
      | @cons h h' rest rest' hh hrest =>
          have hresume := hh.resumeAt
          unfold Machine.endFinally
          dsimp only
          generalize h.resumeAt = a, h'.resumeAt = b at hresume
          cases hpending with
          | none =>
              cases hresume with
              | none => exact .fail _ rfl
              | some hpq =>
                  exact .ok ⟨hstack, .cons ⟨hle _ _ hpq, hlocals, harguments, hrest⟩ houter,
                    hstatics, .none, hheap⟩
          | some hv =>
              -- The handler is spent, and the exception goes on from the invocation without it.
              have hframes : FramesRelated φ inner ψ (⟨ip, locals, arguments, rest⟩ :: outer)
                  (⟨ip', locals', arguments', rest'⟩ :: outer') :=
                .cons ⟨hip, hlocals, harguments, hrest⟩ houter
              have hm' : Machine.Related φ inner ψ
                  ⟨stack, ⟨ip, locals, arguments, rest⟩ :: outer, statics, some _, heap⟩
                  ⟨stack', ⟨ip', locals', arguments', rest'⟩ :: outer', statics', some _, heap'⟩ :=
                ⟨hstack, hframes, hstatics, .some hv, hheap⟩
              exact hm'.unwind hle hframes

end Machine.Related

end NeoScript
