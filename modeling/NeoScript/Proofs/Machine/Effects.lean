import NeoScript.Proofs.Arithmetic
import NeoScript.Proofs.Machine.Stepping
import NeoScript.Revision.Fusion

/-!
# Effects — what straight-line instructions do to the data

Pushes, arithmetic and the building of arrays work on the stack and the heap and on nothing else.
What they do is told here apart from invocations and addresses.

* `Machine.Data` — stack and heap, `Data.on` — a machine with other data, and `Data.Related` — the
  same data, up to the addresses of pointers;
* `Instruction.Effect`, `Effects` — where one instruction, or one after the other, takes the data;
* `Instruction.constantValue` — what a constant pushes, and `effect_of_isConstant`;
* `effect_arith` — an operation on integers leaves its exact result;
* `effect_append`, `effect_setItem` — one element of an array, and `effect_pack` — all of them;
* `Spelled` — instructions that stand in a code from an address on;
* `Machine.advance_of_effects` — a machine that runs over the instructions ends behind them.
-/

namespace NeoScript

/-! ## Data -/

/-- The part of a machine that straight-line instructions work on. -/
structure Machine.Data where
  stack : Array Value
  heap : Heap

namespace Machine

def refusal : Arith → Fault
  | .shl | .shr => .invalidShift
  | _ => .divideByZero

/-- Pushes the result of an operation, if there is one and the machine can hold it. -/
def settle (m : Machine) (operation : Arith) : Option Int → Except Fault Machine
  | some value => m.pushInt value
  | none => .error (refusal operation)

def data (m : Machine) : Data :=
  ⟨m.stack, m.heap⟩

namespace Data

def on (d : Data) (m : Machine) : Machine :=
  { m with stack := d.stack, heap := d.heap }

def push (d : Data) (value : Value) : Data :=
  { d with stack := d.stack.push value }

def pushArray (d : Data) (items : Array Value) : Data :=
  ⟨d.stack.push (.array d.heap.cells.size), ⟨d.heap.cells.push items⟩⟩

variable {d : Data} {m : Machine} {value : Value}

theorem pop_push : ((d.push value).on m).pop = .ok (value, d.on m) := by
  simp [Machine.pop, push, on]

theorem peek_pushArray {items : Array Value} :
    ((d.pushArray items).on m).peek 0 = .ok (.array d.heap.cells.size) := by
  have hcount : Word.add 0 1 = .ok 1 := rfl
  have hposition : ((d.pushArray items).on m).position 1 = .ok d.stack.size := by
    simp [Machine.position, pushArray, on]
  have hitem : ((d.pushArray items).on m).itemAt d.stack.size = .ok (.array d.heap.cells.size) := by
    simp [Machine.itemAt, pushArray, on]
  rw [Machine.peek, hcount, Sequencing.ok_bind, hposition, Sequencing.ok_bind, hitem]

theorem popInt_push {n : Int} : ((d.push (.int n)).on m).popInt = .ok (n, d.on m) := by
  rw [Machine.popInt, pop_push, Sequencing.ok_bind]
  rfl

theorem popPair_push {a b : Int} :
    (((d.push (.int a)).push (.int b)).on m).popPair = .ok (a, b, d.on m) := by
  simp only [Machine.popPair, popInt_push, Sequencing.ok_bind]
  rfl

theorem popShift_push {a b : Int} {n : Nat} (h : shiftCount? b = some n) :
    (((d.push (.int a)).push (.int b)).on m).popShift = .ok (a, n, d.on m) := by
  unfold shiftCount? at h
  split at h
  · rename_i hcount
    cases h
    have hshift : 0 ≤ b ∧ b ≤ maxShift := hcount
    simp only [Machine.popShift, popInt_push, Sequencing.ok_bind, if_pos hshift]
    rfl
  · cases h

/-- A shift by too much is refused before the other operand is looked at. -/
theorem popShift_refused {a b : Int} (h : shiftCount? b = none) :
    (((d.push (.int a)).push (.int b)).on m).popShift = .error .invalidShift := by
  unfold shiftCount? at h
  split at h
  · cases h
  · rename_i hcount
    have hshift : ¬ (0 ≤ b ∧ b ≤ maxShift) := hcount
    simp only [Machine.popShift, popInt_push, Sequencing.ok_bind, if_neg hshift]

theorem pushInt_on {value : Int} (h : Integer.inRange value = true) :
    (d.on m).pushInt value = .ok ((d.push (.int value)).on m) := by
  rw [Machine.pushInt, if_pos h]
  rfl

/-- What the machine makes of two integers on top of its stack. -/
theorem arithmetic_push (operation : Arith) (a b : Int) :
    (((d.push (.int a)).push (.int b)).on m).arithmetic operation =
      (d.on m).settle operation (exactResult? operation a b) := by
  cases operation with
  | add | sub | mul | and | or | xor =>
      simp only [arithmetic, popPair_push, Sequencing.ok_bind, exactResult?, settle]
  | div | mod =>
      simp only [arithmetic, popPair_push, Sequencing.ok_bind, exactResult?]
      split
      · rfl
      · rfl
  | shl =>
      simp only [arithmetic, exactResult?]
      -- The count is on top, so it is refused before the operand is looked at.
      cases hcount : shiftCount? b with
      | none =>
          rw [popShift_refused hcount]
          rfl
      | some n =>
          have hshift : a.shiftLeft n = a * Nat.pow 2 n := Int.shiftLeft_eq a n
          simp only [popShift_push hcount, Sequencing.ok_bind, Option.map_some, settle, hshift]
  | shr =>
      simp only [arithmetic, exactResult?]
      cases hcount : shiftCount? b with
      | none =>
          rw [popShift_refused hcount]
          rfl
      | some n =>
          have hshift : a.shiftRight n = a / Nat.pow 2 n := Int.shiftRight_eq_div_pow a n
          simp only [popShift_push hcount, Sequencing.ok_bind, Option.map_some, settle, hshift]

/-- The index of a collection is popped as it was pushed. -/
theorem popIndex_push {n : Nat} (h : n ≤ maxCollection) :
    ((d.push (.int n)).on m).popIndex = .ok (n, d.on m) := by
  have hrange : (0 : Int) ≤ n ∧ (n : Int) < 0x10000000000000000 := by
    unfold maxCollection at h
    omega
  rw [Machine.popIndex, popInt_push, Sequencing.ok_bind]
  simp only [if_pos hrange, Int.toNat_natCast]

theorem popCount_push {n : Nat} (h : n ≤ maxCollection) :
    ((d.push (.int n)).on m).popCount = .ok (n, d.on m) := by
  rw [Machine.popCount, popIndex_push h, Sequencing.ok_bind]
  simp only [if_pos h]

theorem popCell_push {cell : Nat} : ((d.push (.array cell)).on m).popCell = .ok (cell, d.on m) := by
  rw [Machine.popCell, pop_push, Sequencing.ok_bind]

/-- A collection keeps every value but a struct as it is. -/
theorem popStored_push (h : ∀ cell, value ≠ .struct cell) :
    ((d.push value).on m).popStored = .ok (value, d.on m) := by
  have hstored : (d.on m).heap.stored? value = some (value, (d.on m).heap) := by
    unfold Heap.stored?
    cases value with
    | struct cell => exact absurd rfl (h cell)
    | _ => cases (d.on m).heap.cells.size <;> rfl
  rw [Machine.popStored, pop_push, Sequencing.ok_bind]
  simp only [hstored]

/-- Values that were pushed in reverse order are popped in order. -/
theorem popMany_append (values : List Value) (out : Array Value) :
    popMany values.length (Data.on ⟨d.stack ++ values.reverse.toArray, d.heap⟩ m) out =
      .ok (out ++ values.toArray, d.on m) := by
  induction values generalizing out with
  | nil => simp [popMany]
  | cons value values ih =>
      have htop : (⟨d.stack ++ (value :: values).reverse.toArray, d.heap⟩ : Data) =
          Data.push ⟨d.stack ++ values.reverse.toArray, d.heap⟩ value := by
        simp [push]
      rw [htop, List.length_cons, popMany, pop_push, Sequencing.ok_bind]
      simp only [ih]
      simp

theorem items_pushArray {items : Array Value} :
    ((d.pushArray items).on m).heap.items d.heap.cells.size = items := by
  simp [pushArray, on, Heap.items]

/-- The array on top of the stack is the last that was allocated. -/
theorem modify_pushArray {items : Array Value} (f : Array Value → Array Value) :
    { (d.pushArray items).on m with
      heap := ((d.pushArray items).on m).heap.modify d.heap.cells.size f } =
        (d.pushArray (f items)).on m := by
  have hcells : (d.heap.cells.push items).modify d.heap.cells.size f =
      d.heap.cells.push (f items) := by
    apply Array.ext_getElem?
    intro i
    simp only [Array.getElem?_modify, Array.getElem?_push]
    grind
  simp only [pushArray, on, Heap.modify, hcells]

end Data
end Machine

/-- The same data, up to the addresses of pointers. -/
structure Machine.Data.Related (φ : Nat → Nat → Prop) (d d' : Machine.Data) : Prop where
  stack : ItemsRelated φ d.stack d'.stack
  heap : Heap.Related φ d.heap d'.heap

namespace Machine.Data.Related

variable {φ : Nat → Nat → Prop} {d d' : Data}

theorem push (h : Data.Related φ d d') {value value' : Value}
    (hvalue : Value.Related φ value value') : Data.Related φ (d.push value) (d'.push value') :=
  ⟨h.stack.push hvalue, h.heap⟩

theorem pushArray (h : Data.Related φ d d') {items items' : Array Value}
    (hitems : ItemsRelated φ items items') :
    Data.Related φ (d.pushArray items) (d'.pushArray items') := by
  obtain ⟨hcell, hheap⟩ := h.heap.alloc hitems
  have hcells : d.heap.cells.size = d'.heap.cells.size := hcell
  refine ⟨?_, hheap⟩
  unfold Data.pushArray
  rw [hcells]
  exact h.stack.push (.array _)

end Machine.Data.Related

/-! ## Instructions -/

open Machine

/-- Executing the instruction takes the data of every machine to other data and leaves the rest
alone. -/
def Instruction.Effect (ins : Instruction) (d d' : Data) : Prop :=
  ∀ (code : Code) (m : Machine), execute code ins (d.on m) = .ok (d'.on m)

/-- Executing the instructions one after the other takes the data to other data. -/
inductive Effects : List Instruction → Data → Data → Prop where
  | nil (d : Data) : Effects [] d d
  | cons {ins : Instruction} {rest : List Instruction} {d d' d'' : Data} (hfirst : ins.Effect d d')
      (hrest : Effects rest d' d'') : Effects (ins :: rest) d d''

/-- What a local instruction does depends neither on its address nor on the code around it. -/
theorem execute_of_isLocal {i j : Instruction} (hlocal : i.op.isLocal = true) (hop : j.op = i.op)
    (hoperand : j.operand = i.operand) (code : Code) (m : Machine) :
    execute code j m = execute code i m := by
  obtain ⟨pc, op, operand⟩ := i
  obtain ⟨pc', op', operand'⟩ := j
  cases hop
  cases hoperand
  obtain ⟨hstraight, hsingle⟩ := Opcode.isLocal_iff.1 hlocal
  cases op with
  | pushPointer | jump | call | endTry => cases hsingle
  | enterTry => cases hstraight
  | _ => rfl

namespace Effects

variable {xs ys : List Instruction} {ins : Instruction} {d d' d'' : Data}

theorem single (h : ins.Effect d d') : Effects [ins] d d' :=
  .cons h (.nil d')

theorem append (hxs : Effects xs d d') (hys : Effects ys d' d'') : Effects (xs ++ ys) d d'' := by
  induction hxs with
  | nil => exact hys
  | cons hfirst _ ih => exact .cons hfirst (ih hys)

/-- Placed instructions do what they did before they were placed. -/
theorem congr (h : Effects xs d d') (hlocal : ∀ ins ∈ xs, ins.op.isLocal = true)
    (hsame : List.Forall₂ (fun raw ins => ins.op = raw.op ∧ ins.operand = raw.operand) xs ys) :
    Effects ys d d' := by
  induction h generalizing ys with
  | nil d =>
      cases hsame
      exact .nil d
  | cons hfirst _ ih =>
      rw [List.forall_mem_cons] at hlocal
      cases hsame with
      | cons heq hrest =>
          refine .cons (fun code m => ?_) (ih hlocal.2 hrest)
          rw [execute_of_isLocal hlocal.1 heq.1 heq.2]
          exact hfirst code m

end Effects

namespace Instruction

variable {ins : Instruction} {d : Data}

def constantValue (ins : Instruction) : Value :=
  match ins.op with
  | .pushNull => .null
  | .pushTrue => .bool true
  | .pushFalse => .bool false
  | .pushData _ => .bytes ins.operand
  | _ => .int (ins.pushedInteger?.getD 0)

/-- No constant is a struct, so storing one copies nothing. -/
theorem constantValue_ne_struct (ins : Instruction) (cell : Nat) :
    ins.constantValue ≠ .struct cell := by
  unfold constantValue
  split <;> exact nofun

/-- Constants hold no addresses. -/
theorem constantValue_related (φ : Nat → Nat → Prop) (ins : Instruction) :
    Value.Related φ ins.constantValue ins.constantValue := by
  unfold constantValue
  split <;> constructor

theorem effect_of_pushedInteger? (hfits : ins.Fits) {value : Int}
    (h : ins.pushedInteger? = some value) : ins.Effect d (d.push (.int value)) := by
  intro code m
  -- What an integer push can spell is in the range of the machine, so it is never refused.
  have hrange := inRange_of_pushedInteger? hfits h
  have hpush : (d.on m).pushInt value = .ok ((d.push (.int value)).on m) := Data.pushInt_on hrange
  cases hop : ins.op with
  | pushMinusOne =>
      cases (by simpa [pushedInteger?, hop] using h : (-1 : Int) = value)
      simpa [execute, hop] using hpush
  | pushSmall n =>
      cases (by simpa [pushedInteger?, hop] using h : (n.val : Int) = value)
      simpa [execute, hop] using hpush
  | pushInt width =>
      cases (by simpa [pushedInteger?, hop] using h : Bytes.toInt ins.operand = value)
      simpa [execute, hop] using hpush
  | _ => simp [pushedInteger?, hop] at h

/-- A constant push pushes its constant. -/
theorem effect_of_isConstant (hfits : ins.Fits) (h : ins.isConstant = true) :
    ins.Effect d (d.push ins.constantValue) := by
  cases hop : ins.op with
  | pushNull | pushTrue | pushFalse | pushData =>
      intro code m
      simp only [execute, hop, constantValue]
      rfl
  | pushMinusOne | pushSmall | pushInt =>
      have hvalue : ins.pushedInteger? = some (ins.pushedInteger?.getD 0) := by
        simp [pushedInteger?, hop]
      have heq : ins.constantValue = .int (ins.pushedInteger?.getD 0) := by
        simp [constantValue, hop]
      rw [heq]
      exact effect_of_pushedInteger? hfits hvalue
  | _ => simp [isConstant, Opcode.isIntPush, Opcode.isDataPush, hop] at h

/-- An operation leaves its exact result if the machine can hold it. -/
theorem effect_arith {operation : Arith} {a b value : Int} (hop : ins.op = .arith operation)
    (hresult : exactResult? operation a b = some value) (hrange : Integer.inRange value = true) :
    ins.Effect ((d.push (.int a)).push (.int b)) (d.push (.int value)) := by
  intro code m
  simp only [execute, hop, Data.arithmetic_push, hresult]
  exact Data.pushInt_on hrange

/-! ### Arrays -/

theorem effect_dup {items : Array Value} (hop : ins.op = .dup) :
    ins.Effect (d.pushArray items) ((d.pushArray items).push (.array d.heap.cells.size)) := by
  intro code m
  simp only [execute, hop, Data.peek_pushArray, Sequencing.ok_bind]
  rfl

theorem effect_newArray0 (hop : ins.op = .newArray0) : ins.Effect d (d.pushArray #[]) := by
  intro code m
  simp only [execute, hop]
  rfl

/-- A sized allocation fills the new array with some value. -/
theorem effect_allocation {n : Nat} (hn : n ≤ maxCollection)
    (hop : Fusion.isSizedAllocation ins.op = true) (d : Data) :
    ∃ fill, ins.Effect (d.push (.int n)) (d.pushArray (Array.replicate n fill)) := by
  cases hcase : ins.op with
  | newArray =>
      refine ⟨.null, fun code m => ?_⟩
      simp only [execute, hcase, Data.popCount_push hn, Sequencing.ok_bind]
      rfl
  | newArrayOf =>
      refine ⟨fillOf ins, fun code m => ?_⟩
      simp only [execute, hcase, Data.popCount_push hn, Sequencing.ok_bind]
      rfl
  | _ => simp [Fusion.isSizedAllocation, hcase] at hop

/-- Appending a value that is no struct to an array that nothing else holds. -/
theorem effect_append {items : Array Value} {value : Value} (hop : ins.op = .append)
    (hsize : items.size < maxCollection) (hvalue : ∀ cell, value ≠ .struct cell) :
    ins.Effect (((d.pushArray items).push (.array d.heap.cells.size)).push value)
      (d.pushArray (items.push value)) := by
  intro code m
  simp only [execute, hop, Machine.append, Data.popStored_push hvalue, Data.popCell_push,
    Sequencing.ok_bind, Data.items_pushArray, if_pos hsize]
  rw [Data.modify_pushArray]

/-- Setting an element of an array that nothing else holds. -/
theorem effect_setItem {items : Array Value} {value : Value} {i : Nat} (hop : ins.op = .setItem)
    (hi : i < items.size) (hsize : items.size ≤ maxCollection)
    (hvalue : ∀ cell, value ≠ .struct cell) :
    ins.Effect ((((d.pushArray items).push (.array d.heap.cells.size)).push (.int i)).push value)
      (d.pushArray (items.setIfInBounds i value)) := by
  intro code m
  have hindex : i ≤ maxCollection := by omega
  simp only [execute, hop, Machine.setItem, Data.popStored_push hvalue, Data.popIndex_push hindex,
    Data.popCell_push, Sequencing.ok_bind, Data.items_pushArray, if_pos hi]
  rw [Data.modify_pushArray]

/-- Packing makes an array of the topmost values, the first one lowest. -/
theorem effect_pack (hop : ins.op = .pack) (values : List Value)
    (hsize : values.length ≤ maxCollection)
    (d : Data) : ins.Effect (Data.push ⟨d.stack ++ values.reverse.toArray, d.heap⟩
      (.int values.length))
      (d.pushArray values.toArray) := by
  intro code m
  simp only [execute, hop, Data.popCount_push hsize, Sequencing.ok_bind, Data.popMany_append]
  simp only [Array.empty_append]
  rfl

end Instruction

/-! ## Steps -/

/-- A step executes the instruction at hand with the innermost invocation pointing behind it. -/
theorem Machine.step_of_effect {code : Code} {ins : Instruction} {d d' : Data} {m : Machine}
    {f : Frame} {outer : List Frame} (hframes : m.frames = f :: outer) (hip : f.ip < code.size)
    (hdecoded : decodeAt code f.ip = .ok ins) (heffect : ins.Effect d d') :
    step code (d.on m) = .ok (d'.on { m with frames := { f with ip := ins.next } :: outer }) := by
  have hon : (d.on m).frames = f :: outer := hframes
  simp only [step, hon, if_pos hip, hdecoded]
  exact heffect code { m with frames := { f with ip := ins.next } :: outer }

/-- Instructions that stand in the code from an address on. -/
structure Spelled (code : Code) (start : Nat) (xs : List Instruction) : Prop where
  placed : Placed start xs
  decoded : ∀ ins ∈ xs, decodeAt code ins.pc = .ok ins
  size : start + totalSize xs ≤ code.size

/-- A machine that runs over the instructions ends behind them. -/
theorem Machine.advance_of_effects {code : Code} {xs : List Instruction} {d d' : Data}
    (heffects : Effects xs d d') {m : Machine} {f : Frame} (hspelled : Spelled code f.ip xs)
    {outer : List Frame} (hframes : m.frames = f :: outer) :
    advance code xs.length (d.on m) =
      .ok (d'.on { m with frames := { f with ip := f.ip + totalSize xs } :: outer }) := by
  induction heffects generalizing m f with
  | nil d =>
      simp only [List.length_nil, advance, totalSize_nil, Nat.add_zero]
      rw [← hframes]
  | @cons ins rest d d' d'' hfirst _ ih =>
      obtain ⟨hplaced, hdecoded, hsize⟩ := hspelled
      rw [List.forall_mem_cons] at hdecoded
      rw [totalSize_cons] at hsize ⊢
      have hpos := ins.size_pos
      have hnext : ins.next = f.ip + ins.size := by
        rw [Instruction.next, hplaced.1]
      -- The first instruction takes the machine to its successor, from where the rest is spelled.
      have hstep := step_of_effect hframes (by omega) (hplaced.1 ▸ hdecoded.1) hfirst
      have hrest : Spelled code ins.next rest := ⟨hnext ▸ hplaced.2, hdecoded.2, by omega⟩
      rw [List.length_cons, advance_succ hstep, ih hrest rfl]
      simp only [hnext, Nat.add_assoc]

end NeoScript
