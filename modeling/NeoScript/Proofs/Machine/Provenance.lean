import NeoScript.Proofs.Machine.Copying
import NeoScript.Proofs.Machine.Safety

/-!
# Provenance — where the values of a machine come from

* `Machine.Known` — where a value comes from: the machine held it before, or it is new;
* `Machine.Evolves` — what a step can make of a machine: values that are known, cells that keep
  their structs and get none but fresh ones, and a stack that grows by a bounded number of items;
* `Machine.SameControl` — invocations go on where they did, with the same try blocks, and the same
  exception is pending;
* `Machine.Proceeds` — both: what an instruction inside a block can do;
* `Fault.Explained` — why the host stopped or structs were found in a circle, if that is the fault;
* `Machine.Popped` — the machine after an instruction took its operands, and what it took.

Instructions pop their operands first and then change one part of the machine, so a machine in
between differs from the one before in its stack only.
-/

namespace NeoScript

/-! ## Values in a machine -/

/-- A collection that the value names is a cell of the heap. -/
def Value.IsIn (h : Heap) : Value → Prop
  | .array cell => cell < h.cells.size
  | .struct cell => cell < h.cells.size
  | _ => True

/-- No cell has more items than the bound, which is at least that for new collections. -/
structure Heap.Within (bound : Nat) (h : Heap) : Prop where
  le_bound : Machine.maxCollection ≤ bound
  size_le : ∀ cell, (h.items cell).size ≤ bound

/-- The slots of an invocation hold such values only. -/
structure Frame.All (P : Value → Prop) (f : Frame) : Prop where
  locals : ∀ xs, f.locals = some xs → ∀ v ∈ xs, P v
  arguments : ∀ xs, f.arguments = some xs → ∀ v ∈ xs, P v

theorem Frame.All.of_slots {P : Value → Prop} {f g : Frame} (hf : f.All P)
    (hlocals : g.locals = f.locals) (harguments : g.arguments = f.arguments) : g.All P :=
  ⟨hlocals ▸ hf.locals, harguments ▸ hf.arguments⟩

namespace Machine

structure All (P : Value → Prop) (m : Machine) : Prop where
  stack : ∀ v ∈ m.stack, P v
  frames : ∀ f ∈ m.frames, f.All P
  statics : ∀ xs, m.statics = some xs → ∀ v ∈ xs, P v
  pending : ∀ v, m.pending = some v → P v
  cells : ∀ cell, ∀ v ∈ m.heap.items cell, P v

/-- A machine holds values on its stack, in slots, as an exception and in cells. -/
theorem all_iff {P : Value → Prop} {m : Machine} : m.All P ↔ ∀ v, m.Holds v → P v := by
  constructor
  · intro hall v hv
    cases hv with
    | stack hmem => exact hall.stack v hmem
    | statics hslots hmem => exact hall.statics _ hslots v hmem
    | locals hf hslots hmem => exact (hall.frames _ hf).locals _ hslots v hmem
    | arguments hf hslots hmem => exact (hall.frames _ hf).arguments _ hslots v hmem
    | pending hpending => exact hall.pending v hpending
    | cell hmem => exact hall.cells _ v hmem
  · intro hall
    exact ⟨fun v hv => hall v (.stack hv),
      fun f hf => ⟨fun xs hxs v hv => hall v (.locals hf hxs hv),
        fun xs hxs v hv => hall v (.arguments hf hxs hv)⟩,
      fun xs hxs v hv => hall v (.statics hxs hv), fun v hv => hall v (.pending hv),
      fun cell v hv => hall v (.cell hv)⟩

theorem All.of_frames_eq {P : Value → Prop} {m : Machine} (h : m.All P) {frame : Frame}
    {outer : List Frame}
    (hframes : m.frames = frame :: outer) : frame.All P ∧ ∀ f ∈ outer, f.All P := by
  have hslots := h.frames
  rwa [hframes, List.forall_mem_cons] at hslots

/-- In the beginning there are only arguments and the contents of cells. -/
theorem all_start {P : Value → Prop} {heap : Heap} {arguments : List Value} (entry : Nat)
    (harguments : ∀ v ∈ arguments, P v) (hcells : ∀ cell, ∀ v ∈ heap.items cell, P v) :
    (start heap entry arguments).All P := by
  refine ⟨?_, ?_, ?_, ?_, hcells⟩
  · intro v hv
    exact harguments v (by simpa [start] using hv)
  · intro f hf
    rw [start, List.mem_singleton] at hf
    subst hf
    exact ⟨by rintro xs ⟨⟩, by rintro xs ⟨⟩⟩
  · rintro xs ⟨⟩
  · rintro v ⟨⟩

/-- Every collection that the machine names is a cell of its heap. -/
def Closed (m : Machine) : Prop :=
  ∀ v, m.Holds v → v.IsIn m.heap

/-- Where a value comes from that stands in a machine with this heap later: the machine held it, or
it is new.  A new struct holds structs of greater numbers only. -/
inductive Known (m : Machine) (h : Heap) : Value → Prop where
  | held {v : Value} : m.Holds v → Known m h v
  | null : Known m h .null
  | bool (b : Bool) : Known m h (.bool b)
  | int {i : Int} : Integer.inRange i = true → Known m h (.int i)
  | bytes (data : List UInt8) : Known m h (.bytes data)
  | pointer (address : Nat) : Known m h (.pointer address)
  | array {cell : Nat} : m.heap.cells.size ≤ cell → cell < h.cells.size → Known m h (.array cell)
  | struct {cell : Nat} : m.heap.cells.size ≤ cell → cell < h.cells.size →
      (m.Closed → ∀ inner, h.Nests cell inner → cell < inner) → Known m h (.struct cell)

/-- Plain values are always known, so only what the machine held and new collections count. -/
theorem Known.imp {m n : Machine} {h h' : Heap} {v : Value} (hv : m.Known h v)
    (hheld : ∀ v, m.Holds v → n.Known h' v)
    (harray : ∀ cell, m.heap.cells.size ≤ cell → cell < h.cells.size → n.Known h' (.array cell))
    (hstruct : ∀ cell, m.heap.cells.size ≤ cell → cell < h.cells.size →
      (m.Closed → ∀ inner, h.Nests cell inner → cell < inner) → n.Known h' (.struct cell)) :
    n.Known h' v := by
  cases hv with
  | held hmem => exact hheld v hmem
  | array hlow hhigh => exact harray _ hlow hhigh
  | struct hlow hhigh hnests => exact hstruct _ hlow hhigh hnests
  | null => exact .null
  | bool b => exact .bool b
  | int hrange => exact .int hrange
  | bytes data => exact .bytes data
  | pointer address => exact .pointer address

/-- What one step can make of the data of a machine. -/
structure Evolves (extra : Nat) (m m' : Machine) : Prop where
  size_le : m.heap.cells.size ≤ m'.heap.cells.size
  nests : ∀ cell inner, cell < m.heap.cells.size → m'.heap.Nests cell inner →
    m.heap.Nests cell inner ∨ m.heap.cells.size ≤ inner
  within : ∀ bound, m.heap.Within bound → m'.heap.Within bound
  values : m'.All (m.Known m'.heap)
  stack : m'.stack.size ≤ m.stack.size + extra
  frames : m'.frames.length ≤ m.frames.length + 1

/-- Invocations go on where they did, with the same try blocks, and the same exception is pending.
The slots of the innermost invocation may be others. -/
structure SameControl (m m' : Machine) : Prop where
  ip : m'.frames.head?.map (·.ip) = m.frames.head?.map (·.ip)
  handlers : m'.frames.map (·.handlers) = m.frames.map (·.handlers)
  outer : m'.frames.tail = m.frames.tail
  pending : m'.pending = m.pending

/-- What an instruction inside a block can make of a machine: control stays as it is. -/
structure Proceeds (extra : Nat) (m m' : Machine) :
    Prop extends Evolves extra m m', SameControl m m'

/-- The innermost invocation gets other slots. -/
theorem SameControl.of_inner {m m' : Machine} {frame frame' : Frame} {outer : List Frame}
    (hframes : m.frames = frame :: outer) (hframes' : m'.frames = frame' :: outer)
    (hip : frame'.ip = frame.ip) (hhandlers : frame'.handlers = frame.handlers)
    (hpending : m'.pending = m.pending) : SameControl m m' := by
  refine ⟨?_, ?_, ?_, hpending⟩
  · simp only [hframes, hframes', List.head?_cons, Option.map_some, hip]
  · simp only [hframes, hframes', List.map_cons, hhandlers]
  · simp only [hframes, hframes', List.tail_cons]

end Machine

/-! ## Results -/

/-- The two faults that no check reports have their reason: the host stops for `risk` only, and
structs in a circle are found where a value on the stack has them. -/
def Fault.Explained (m : Machine) (risk : Prop) : Fault → Prop
  | .crashed => risk
  | .circularStruct => (∃ v ∈ m.stack, m.heap.stored? v = none) ∨
      ∃ v ∈ m.stack, ∃ w ∈ m.stack, m.heap.equal? v w = none
  | _ => True

/-- The reason of a fault depends on stack and heap only. -/
theorem Fault.Explained.imp {m n : Machine} {risk risk' : Prop} {f : Fault}
    (hstack : n.stack = m.stack)
    (hheap : n.heap = m.heap) (hrisk : risk → risk') (h : f.Explained n risk) :
    f.Explained m risk' := by
  cases f with
  | crashed => exact hrisk h
  | circularStruct =>
      unfold Fault.Explained at h ⊢
      rwa [hstack, hheap] at h
  | _ => trivial

/-- A computation gives such a result, or fails with such a fault. -/
inductive Result.Meets {α : Type} (E : Fault → Prop) (P : α → Prop) : Except Fault α → Prop where
  | ok {a : α} : P a → Meets E P (.ok a)
  | error {f : Fault} : E f → Meets E P (.error f)

namespace Result.Meets

variable {α β : Type} {E : Fault → Prop} {P : α → Prop} {Q : β → Prop}

theorem bind {x : Except Fault α} {f : α → Except Fault β} (hx : Result.Meets E P x)
    (hf : ∀ a, P a → Result.Meets E Q (f a)) : Result.Meets E Q (x >>= f) := by
  cases hx with
  | ok ha => exact hf _ ha
  | error he => exact .error he

theorem mono {P' : α → Prop} {x : Except Fault α} (hx : Result.Meets E P x)
    (himp : ∀ a, P a → P' a) : Result.Meets E P' x := by
  cases hx with
  | ok ha => exact .ok (himp _ ha)
  | error he => exact .error he

theorem and_eq {x : Except Fault α} (hx : Result.Meets E P x) :
    Result.Meets E (fun a => x = .ok a ∧ P a) x := by
  cases hx with
  | ok ha => exact .ok ⟨rfl, ha⟩
  | error he => exact .error he

theorem of_faults {E' : Fault → Prop} {x : Except Fault α} (hx : Result.Meets E P x)
    (himp : ∀ f, E f → E' f) : Result.Meets E' P x := by
  cases hx with
  | ok ha => exact .ok ha
  | error he => exact .error (himp _ he)

end Result.Meets

/-! ## Stacks -/

namespace Machine

theorem mem_of_mem_pop {xs : Array Value} {v : Value} (h : v ∈ xs.pop) : v ∈ xs := by
  rw [← Array.mem_toList_iff] at h ⊢
  rw [Array.toList_pop] at h
  exact (List.dropLast_sublist _).subset h

theorem swapTop_perm (stack : Array Value) (count : Nat) : (swapTop stack count).Perm stack := by
  unfold swapTop
  generalize stack.size = size
  dsimp only
  induction List.range (count / 2) generalizing stack with
  | nil => exact .refl _
  | cons k rest ih =>
      refine (ih _).trans ?_
      dsimp only
      rw [Array.swapIfInBounds_def]
      split
      · split
        · exact Array.swap_perm _ _
        · exact .refl _
      · exact .refl _

/-! ## Words and positions -/

/-- Signed sizes are integers of the machine. -/
theorem inRange_signed (size : Nat) : Integer.inRange (Word.signed size) = true := by
  have hlow : -((Word.count : Int) / 2) ≤ Word.signed size := Int.le_bmod (by decide)
  have hhigh : Word.signed size < ((Word.count : Int) + 1) / 2 := Int.bmod_lt (by decide)
  have hmin : Integer.minimum ≤ -((Word.count : Int) / 2) := by decide
  have hmax : ((Word.count : Int) + 1) / 2 ≤ Integer.maximum := by decide
  simp only [Integer.inRange, Bool.and_eq_true, decide_eq_true_eq]
  omega

section Positions

variable {m₀ : Machine} {risk : Prop}

/-- A sum of words is exact, or it is too large and the risk is real. -/
theorem wordAdd_meets (a b : Nat) (hrisk : Word.count ≤ a + b → risk) :
    Result.Meets (Fault.Explained m₀ risk) (fun r => r = a + b) (Word.add a b) := by
  unfold Word.add
  split
  · exact .ok rfl
  · exact .error (hrisk (by omega))

theorem position_meets (n : Machine) (count : Nat) :
    Result.Meets (Fault.Explained m₀ risk) (fun p => p + count = n.stack.size)
      (n.position count) := by
  unfold Machine.position
  split
  · exact .ok (by omega)
  · exact .error trivial

end Positions

/-! ## Operands -/

/-- The machine after some items were popped. -/
structure Popped (m n : Machine) : Prop where
  frames : n.frames = m.frames
  statics : n.statics = m.statics
  pending : n.pending = m.pending
  heap : n.heap = m.heap
  mem : ∀ v ∈ n.stack, v ∈ m.stack
  size_le : n.stack.size ≤ m.stack.size

namespace Popped

variable {m n m₀ : Machine} {risk : Prop}

theorem refl (m : Machine) : Popped m m :=
  ⟨rfl, rfl, rfl, rfl, fun _ hv => hv, Nat.le_refl _⟩

/-- A popped value was on the stack. -/
theorem pop (h : Popped m n) :
    Result.Meets (Fault.Explained m₀ risk) (fun r => r.1 ∈ m.stack ∧ Popped m r.2) n.pop := by
  unfold Machine.pop
  cases hback : n.stack.back? with
  | none => exact .error trivial
  | some v =>
      refine .ok ⟨h.mem v (Array.mem_of_back? hback), { h with mem := ?_, size_le := ?_ }⟩
      · intro w hw
        exact h.mem w (mem_of_mem_pop hw)
      · have hsize := h.size_le
        simp only [Array.size_pop]
        omega

theorem popInt (h : Popped m n) :
    Result.Meets (Fault.Explained m₀ risk) (fun r => Popped m r.2) n.popInt := by
  refine h.pop.bind ?_
  rintro ⟨v, k⟩ ⟨-, hk⟩
  dsimp only at hk ⊢
  split
  · exact .ok hk
  · exact .error trivial

theorem popBool (h : Popped m n) :
    Result.Meets (Fault.Explained m₀ risk) (fun r => Popped m r.2) n.popBool := by
  refine h.pop.bind ?_
  rintro ⟨v, k⟩ ⟨-, hk⟩
  exact .ok hk

theorem popIndex (h : Popped m n) :
    Result.Meets (Fault.Explained m₀ risk) (fun r => Popped m r.2) n.popIndex := by
  refine h.popInt.bind ?_
  rintro ⟨i, k⟩ hk
  dsimp only at hk ⊢
  split
  · exact .ok hk
  · exact .error trivial

/-- A size that is accepted does not exceed what a collection may hold. -/
theorem popCount (h : Popped m n) :
    Result.Meets (Fault.Explained m₀ risk) (fun r => r.1 ≤ maxCollection ∧
      Popped m r.2) n.popCount := by
  refine h.popIndex.bind ?_
  rintro ⟨i, k⟩ hk
  dsimp only at hk ⊢
  split
  · rename_i hle
    exact .ok ⟨hle, hk⟩
  · exact .error trivial

/-- A popped cell belongs to a collection on the stack. -/
theorem popCell (h : Popped m n) :
    Result.Meets (Fault.Explained m₀ risk)
      (fun r => (.array r.1 ∈ m.stack ∨ .struct r.1 ∈ m.stack) ∧ Popped m r.2) n.popCell := by
  refine h.pop.bind ?_
  rintro ⟨v, k⟩ ⟨hv, hk⟩
  cases v with
  | array cell => exact .ok ⟨.inl hv, hk⟩
  | struct cell => exact .ok ⟨.inr hv, hk⟩
  | _ => exact .error trivial

/-- Popped values were on the stack, and there are as many as were asked for. -/
theorem popMany (count : Nat) : ∀ {n : Machine} {out : Array Value}, Popped m n →
    Result.Meets (Fault.Explained m₀ risk)
      (fun r => (∀ v ∈ r.1, v ∈ out ∨ v ∈ m.stack) ∧ r.1.size = out.size + count ∧ Popped m r.2)
      (Machine.popMany count n out) := by
  induction count with
  | zero =>
      intro n out h
      exact .ok ⟨fun v hv => .inl hv, rfl, h⟩
  | succ count ih =>
      intro n out h
      refine h.pop.bind ?_
      rintro ⟨v, k⟩ ⟨hv, hk⟩
      refine (ih hk).mono ?_
      rintro ⟨items, l⟩ ⟨hitems, hsize, hl⟩
      refine ⟨fun w hw => ?_, ?_, hl⟩
      · rcases hitems w hw with hout | hstack
        · rcases Array.mem_push.1 hout with hout | rfl
          · exact .inl hout
          · exact .inr hv
        · exact .inr hstack
      · rw [hsize, Array.size_push]
        omega

theorem popPair (h : Popped m n) :
    Result.Meets (Fault.Explained m₀ risk) (fun r => Popped m r.2.2) n.popPair := by
  refine h.popInt.bind ?_
  rintro ⟨b, k⟩ hk
  refine hk.popInt.bind ?_
  rintro ⟨a, l⟩ hl
  exact .ok hl

theorem popShift (h : Popped m n) :
    Result.Meets (Fault.Explained m₀ risk) (fun r => Popped m r.2.2) n.popShift := by
  refine h.popInt.bind ?_
  rintro ⟨count, k⟩ hk
  dsimp only at hk ⊢
  split
  · refine hk.popInt.bind ?_
    rintro ⟨a, l⟩ hl
    exact .ok hl
  · exact .error trivial

theorem popCondition (h : Popped m n) (condition : Condition) :
    Result.Meets (Fault.Explained m₀ risk) (fun r => Popped m r.2) (n.popCondition condition) := by
  cases condition with
  | always => exact .ok h
  | ifTrue => exact h.popBool
  | ifFalse =>
      refine h.popBool.bind ?_
      rintro ⟨b, k⟩ hk
      exact .ok hk
  | compare order =>
      refine h.popPair.bind ?_
      rintro ⟨a, b, k⟩ hk
      exact .ok hk

/-- A comparison looks at two items of the stack. -/
theorem popEqual (h : Popped m n) :
    Result.Meets (Fault.Explained m risk) (fun r => Popped m r.2) n.popEqual := by
  refine h.pop.bind ?_
  rintro ⟨b, k⟩ ⟨hb, hk⟩
  refine hk.pop.bind ?_
  rintro ⟨a, l⟩ ⟨ha, hl⟩
  dsimp only at ha hb hl ⊢
  cases hequal : l.heap.equal? a b with
  | none => exact .error (.inr ⟨a, ha, b, hb, hl.heap ▸ hequal⟩)
  | some equal => exact .ok hl

/-- What is kept in a collection is a copy of an item of the stack. -/
theorem popStored (h : Popped m n) :
    Result.Meets (Fault.Explained m risk)
      (fun r => ∃ v ∈ m.stack, Popped m { r.2 with heap := m.heap } ∧
        Heap.Copied m.heap r.2.heap ∧ Heap.ValueCopy m.heap r.2.heap v r.1) n.popStored := by
  refine h.pop.bind ?_
  rintro ⟨v, k⟩ ⟨hv, hk⟩
  dsimp only at hv hk ⊢
  cases hstored : k.heap.stored? v with
  | none => exact .error (.inl ⟨v, hv, hk.heap ▸ hstored⟩)
  | some result =>
      obtain ⟨w, heap⟩ := result
      rw [hk.heap] at hstored
      exact .ok ⟨v, hv, { hk with heap := rfl }, Heap.copied_of_stored? hstored⟩

/-- Popping goes on while the heap is another. -/
theorem reheap {k : Machine} (h : Popped m { n with heap := m.heap }) (hk : Popped n k) :
    Popped m { k with heap := m.heap } :=
  ⟨hk.frames.trans h.frames, hk.statics.trans h.statics, hk.pending.trans h.pending, rfl,
    fun v hv => h.mem v (hk.mem v hv), Nat.le_trans hk.size_le h.size_le⟩

/-- An item is looked up at a position of the stack; only the sum in front can stop the host. -/
theorem peek (h : Popped m n) (depth : Nat) (hrisk : Word.count ≤ depth + 1 → risk) :
    Result.Meets (Fault.Explained m₀ risk) (fun v => v ∈ m.stack) (n.peek depth) := by
  refine (wordAdd_meets depth 1 hrisk).bind ?_
  rintro _ rfl
  refine (position_meets n _).bind ?_
  intro p hp
  have hin : p < n.stack.size := by omega
  simp only [Machine.itemAt, Array.getElem?_eq_getElem hin]
  exact .ok (h.mem _ (Array.getElem_mem hin))

end Popped

end Machine
end NeoScript
