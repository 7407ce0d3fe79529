import NeoScript.Machine.State

/-!
# Step — one instruction of the machine

* `Machine.unwind` — finds the handler of a pending exception;
* `Machine.execute` — the effect of an instruction whose successor is already the next to run;
* `Machine.step` — fetches the instruction of the innermost frame and executes it.  Running off the
  end of the code returns from the invocation.

Only a thrown exception unwinds through handlers; every other fault ends the run.
-/

namespace NeoScript
namespace Machine

/-! ## Exceptions -/

def isSpent (h : Handler) : Bool :=
  match h.phase with
  | .body => false
  | .handling => h.finallyAt.isNone
  | .finishing => true

/-- Gives a pending exception to the innermost handler that can still run: a catch block takes an
exception raised in the try body, and otherwise a finally block runs with the exception pending. -/
def unwindFrame (frame : Frame) (outer : List Frame) (m : Machine) :
    List Handler → Option (Except Fault Machine)
  | [] => none
  | h :: rest =>
      if isSpent h then unwindFrame frame outer m rest
      else
        match h.phase, h.catchAt, h.finallyAt with
        | .body, some address, _ =>
            let handlers := { h with phase := .handling } :: rest
            let frames := { frame with ip := address, handlers } :: outer
            let stack := match m.pending with
              | some exception => m.stack.push exception
              | none => m.stack
            some (.ok { m with frames, stack, pending := none })
        | _, _, some address =>
            let handlers := { h with phase := .finishing } :: rest
            let frames := { frame with ip := address, handlers } :: outer
            some (.ok { m with frames })
        | _, _, none => some (.error .invalidTry)

/-- Leaves frames until one has a handler for the pending exception. -/
def unwind (m : Machine) : List Frame → Except Fault Machine
  | [] => .error (.uncaught (m.pending.getD .null) m.heap)
  | frame :: outer =>
      match unwindFrame frame outer m frame.handlers with
      | some result => result
      | none => unwind m outer

def throwValue (m : Machine) (exception : Value) : Except Fault Machine :=
  let m := { m with pending := some exception }
  m.unwind m.frames

/-! ## Addresses -/

/-- An address relative to an instruction; it may be the end of the code. -/
def addressFrom (code : Code) (pc : Nat) (offset : Int) : Except Fault Nat :=
  let target := (pc : Int) + offset
  if 0 ≤ target ∧ target ≤ code.size then .ok target.toNat else .error (.invalidJump target)

def targetOf (code : Code) (ins : Instruction) : Except Fault Nat :=
  match ins.jumpOffset? with
  | some offset => addressFrom code ins.pc offset
  | none => .error (.invalidJump ins.pc)

def jump (code : Code) (ins : Instruction) (m : Machine) : Except Fault Machine := do
  m.goto (← targetOf code ins)

/-- The address of a handler; an offset of zero means that there is none. -/
def handlerFrom (code : Code) (pc : Nat) (offset : Int) : Except Fault (Option Nat) :=
  if offset = 0 then .ok none else (addressFrom code pc offset).map some

def enterTry (code : Code) (ins : Instruction) (m : Machine) : Except Fault Machine :=
  match ins.handlerOffsets? with
  | none => .error .invalidTry
  | some (catchOffset, finallyOffset) =>
      if catchOffset = 0 ∧ finallyOffset = 0 then .error .invalidTry
      else do
        let catchAt ← handlerFrom code ins.pc catchOffset
        let finallyAt ← handlerFrom code ins.pc finallyOffset
        m.withFrame fun frame =>
          .ok { frame with handlers := ⟨catchAt, finallyAt, none, .body⟩ :: frame.handlers }

/-- Leaves a try or catch block: its finally block runs first, if it has one. -/
def endTry (code : Code) (ins : Instruction) (m : Machine) : Except Fault Machine := do
  let resume ← targetOf code ins
  m.withFrame fun frame =>
    match frame.handlers with
    | [] => .error .invalidTry
    | h :: rest =>
        if h.phase = .finishing then .error .invalidTry
        else
          match h.finallyAt with
          | some address =>
              let h := { h with phase := .finishing, resumeAt := some resume }
              .ok { frame with ip := address, handlers := h :: rest }
          | none => .ok { frame with ip := resume, handlers := rest }

/-- Leaves a finally block: an exception that is still pending goes on, and otherwise the code goes
on where the try block was left. -/
def endFinally (m : Machine) : Except Fault Machine :=
  match m.frames with
  | [] => .error .stackUnderflow
  | frame :: outer =>
      match frame.handlers with
      | [] => .error .invalidTry
      | h :: rest =>
          let frame := { frame with handlers := rest }
          match m.pending, h.resumeAt with
          | none, some address => .ok { m with frames := { frame with ip := address } :: outer }
          | none, none => .error .invalidTry
          | some _, _ =>
              let m := { m with frames := frame :: outer }
              m.unwind m.frames

/-! ## Slots -/

def slots? (m : Machine) : Slot → Option (Array Value)
  | .statics => m.statics
  | .locals => m.frames.head?.bind (·.locals)
  | .arguments => m.frames.head?.bind (·.arguments)

def setSlots (m : Machine) (slot : Slot) (values : Array Value) : Machine :=
  match slot, m.frames with
  | .statics, _ => { m with statics := some values }
  | .locals, frame :: outer => { m with frames := { frame with locals := some values } :: outer }
  | .arguments, frame :: outer =>
      { m with frames := { frame with arguments := some values } :: outer }
  | _, [] => m

def slotIndex (ins : Instruction) : SlotIndex → Except Fault Nat
  | .fixed i => .ok i.val
  | .operand =>
      match ins.byte0? with
      | some n => .ok n
      | none => .error (.invalidType (.operand ins.op))

def loadSlot (ins : Instruction) (slot : Slot) (index : SlotIndex) (m : Machine) :
    Except Fault Machine := do
  let i ← slotIndex ins index
  match m.slots? slot with
  | none => .error (.invalidType .slot)
  | some values =>
      match values[i]? with
      | some value => .ok (m.push value)
      | none => .error .indexOutOfRange

def storeSlot (ins : Instruction) (slot : Slot) (index : SlotIndex) (m : Machine) :
    Except Fault Machine := do
  let i ← slotIndex ins index
  let (value, m) ← m.pop
  match m.slots? slot with
  | none => .error (.invalidType .slot)
  | some values =>
      if i < values.size then .ok (m.setSlots slot (values.setIfInBounds i value))
      else .error .indexOutOfRange

def initStatics (ins : Instruction) (m : Machine) : Except Fault Machine :=
  match ins.byte0? with
  | none => .error (.invalidType (.operand ins.op))
  | some count => .ok { m with statics := some (Array.replicate count .null) }

/-- Makes the local slots and moves the arguments from the stack into theirs. -/
def initSlots (ins : Instruction) (m : Machine) : Except Fault Machine :=
  match ins.byte0?, ins.byte1? with
  | some locals, some count => do
      let (arguments, m) ← popMany count m #[]
      m.withFrame fun frame =>
        .ok { frame with
          locals := some (Array.replicate locals .null)
          arguments := some arguments }
  | _, _ => .error (.invalidType (.operand ins.op))

/-! ## Arithmetic -/

def maxShift : Int := 256

/-- Pops the two operands of an operation; the right one is on top. -/
def popPair (m : Machine) : Except Fault (Int × Int × Machine) := do
  let (b, m) ← m.popInt
  let (a, m) ← m.popInt
  return (a, b, m)

def popShift (m : Machine) : Except Fault (Int × Nat × Machine) := do
  let (count, m) ← m.popInt
  if 0 ≤ count ∧ count ≤ maxShift then
    let (a, m) ← m.popInt
    return (a, count.toNat, m)
  else .error .invalidShift

def arithmetic (m : Machine) : Arith → Except Fault Machine
  | .add => do let (a, b, m) ← m.popPair; m.pushInt (a + b)
  | .sub => do let (a, b, m) ← m.popPair; m.pushInt (a - b)
  | .mul => do let (a, b, m) ← m.popPair; m.pushInt (a * b)
  | .div => do
      let (a, b, m) ← m.popPair
      if b = 0 then .error .divideByZero else m.pushInt (a.tdiv b)
  | .mod => do
      let (a, b, m) ← m.popPair
      if b = 0 then .error .divideByZero else m.pushInt (a.tmod b)
  | .shl => do let (a, n, m) ← m.popShift; m.pushInt (a * Nat.pow 2 n)
  | .shr => do let (a, n, m) ← m.popShift; m.pushInt (a / Nat.pow 2 n)
  | .and => do let (a, b, m) ← m.popPair; m.pushInt (Integer.land a b)
  | .or => do let (a, b, m) ← m.popPair; m.pushInt (Integer.lor a b)
  | .xor => do let (a, b, m) ← m.popPair; m.pushInt (Integer.lxor a b)

def unaryValue : Unary → Int → Int
  | .invert, x => -x - 1
  | .sign, x => x.sign
  | .abs, x => x.natAbs
  | .negate, x => -x
  | .inc, x => x + 1
  | .dec, x => x - 1

/-- Whether a jump is taken; its operands are popped. -/
def popCondition (m : Machine) : Condition → Except Fault (Bool × Machine)
  | .always => .ok (true, m)
  | .ifTrue => m.popBool
  | .ifFalse => do
      let (b, m) ← m.popBool
      return (!b, m)
  | .compare order => do
      let (a, b, m) ← m.popPair
      return (order.holds a b, m)

/-! ## Collections -/

def fillOf (ins : Instruction) : Value :=
  match ins.byte0?.bind fun n => ItemType.ofByte? (UInt8.ofNat n) with
  | some .boolean => .bool false
  | some .integer => .int 0
  | some .byteString => .bytes []
  | _ => .null

/-- Pushes the items of a collection, the first on top, and their count. -/
def unpack (m : Machine) : Except Fault Machine := do
  let (cell, m) ← m.popCell
  let items := m.heap.items cell
  return { m with stack := (m.stack ++ items.reverse).push (.int (Word.signed items.size)) }

def sizeOf (m : Machine) : Value → Except Fault Nat
  | .array cell => .ok (m.heap.items cell).size
  | .struct cell => .ok (m.heap.items cell).size
  | .bytes data => .ok data.length
  | _ => .error (.invalidType .sized)

def pickItem (m : Machine) : Except Fault Machine := do
  let (index, m) ← m.popIndex
  let (cell, m) ← m.popCell
  match (m.heap.items cell)[index]? with
  | some value => .ok (m.push value)
  | none => .error .indexOutOfRange

def append (m : Machine) : Except Fault Machine := do
  let (value, m) ← m.popStored
  let (cell, m) ← m.popCell
  if (m.heap.items cell).size < maxCollection then
    .ok { m with heap := m.heap.modify cell (·.push value) }
  else .error .indexOutOfRange

def setItem (m : Machine) : Except Fault Machine := do
  let (value, m) ← m.popStored
  let (index, m) ← m.popIndex
  let (cell, m) ← m.popCell
  if index < (m.heap.items cell).size then
    .ok { m with heap := m.heap.modify cell (·.setIfInBounds index value) }
  else .error .indexOutOfRange

def popEqual (m : Machine) : Except Fault (Bool × Machine) := do
  let (b, m) ← m.pop
  let (a, m) ← m.pop
  match m.heap.equal? a b with
  | some equal => .ok (equal, m)
  | none => .error .circularStruct

/-! ## Instructions -/

/-- The effect of an instruction.  The innermost frame already points behind it. -/
def execute (code : Code) (ins : Instruction) (m : Machine) : Except Fault Machine :=
  match ins.op with
  | .pushInt _ => m.pushInt (Bytes.toInt ins.operand)
  | .pushMinusOne => m.pushInt (-1)
  | .pushSmall n => m.pushInt n.val
  | .pushTrue => .ok (m.push (.bool true))
  | .pushFalse => .ok (m.push (.bool false))
  | .pushNull => .ok (m.push .null)
  | .pushData _ => .ok (m.push (.bytes ins.operand))
  | .pushPointer => do return m.push (.pointer (← targetOf code ins))
  | .nop => .ok m
  | .jump condition _ => do
      let (taken, m) ← m.popCondition condition
      if taken then m.jump code ins else .ok m
  | .call _ => do return m.call (← targetOf code ins)
  | .callPointer => do
      let (value, m) ← m.pop
      match value with
      | .pointer address => .ok (m.call address)
      | _ => .error (.invalidType .pointer)
  | .abort => .error .abort
  | .abortMessage => do
      let _ ← m.pop
      .error .abort
  | .assert => do
      let (holds, m) ← m.popBool
      if holds then .ok m else .error .assertFailed
  | .assertMessage => do
      let (_, m) ← m.pop
      let (holds, m) ← m.popBool
      if holds then .ok m else .error .assertFailed
  | .throw => do
      let (exception, m) ← m.pop
      m.throwValue exception
  | .enterTry _ => m.enterTry code ins
  | .endTry _ => m.endTry code ins
  | .endFinally => m.endFinally
  | .ret => .ok m.leave
  | .depth => .ok (m.push (.int (Word.signed m.stack.size)))
  | .drop => do
      let (_, m) ← m.pop
      return m
  | .nip => do
      let (top, m) ← m.pop
      let (_, m) ← m.pop
      return m.push top
  | .clear => .ok { m with stack := #[] }
  | .dup => do return m.push (← m.peek 0)
  | .overTop => do return m.push (← m.peek 1)
  | .pick => do
      let (depth, m) ← m.popIndex
      return m.push (← m.peek depth)
  | .tuck => do
      let top ← m.peek 0
      m.insertAt (← m.position 2) top
  | .swap => m.reverseTop 2
  | .rot => do
      let (item, m) ← m.removeAt (← m.position 3)
      return m.push item
  | .reverse3 => m.reverseTop 3
  | .reverse4 => m.reverseTop 4
  | .initStatics => m.initStatics ins
  | .initSlots => m.initSlots ins
  | .load slot index => m.loadSlot ins slot index
  | .store slot index => m.storeSlot ins slot index
  | .arith operation => m.arithmetic operation
  | .unary operation => do
      let (x, m) ← m.popInt
      m.pushInt (unaryValue operation x)
  | .equal => do
      let (equal, m) ← m.popEqual
      return m.push (.bool equal)
  | .notEqual => do
      let (equal, m) ← m.popEqual
      return m.push (.bool !equal)
  | .not => do
      let (b, m) ← m.popBool
      return m.push (.bool !b)
  | .boolAnd => do
      let (b, m) ← m.popBool
      let (a, m) ← m.popBool
      return m.push (.bool (a && b))
  | .boolOr => do
      let (b, m) ← m.popBool
      let (a, m) ← m.popBool
      return m.push (.bool (a || b))
  | .nonZero => do
      let (x, m) ← m.popInt
      return m.push (.bool (x != 0))
  | .compare order => do
      let (a, b, m) ← m.popPair
      return m.push (.bool (order.holds a b))
  | .min => do
      let (a, b, m) ← m.popPair
      m.pushInt (if a ≤ b then a else b)
  | .max => do
      let (a, b, m) ← m.popPair
      m.pushInt (if a ≤ b then b else a)
  | .within => do
      let (high, m) ← m.popInt
      let (low, m) ← m.popInt
      let (x, m) ← m.popInt
      return m.push (.bool (decide (low ≤ x) && decide (x < high)))
  | .newArray0 => .ok (m.pushCell .array #[])
  | .newArray => do
      let (count, m) ← m.popCount
      return m.pushCell .array (Array.replicate count .null)
  | .newArrayOf => do
      let (count, m) ← m.popCount
      return m.pushCell .array (Array.replicate count (fillOf ins))
  | .newStruct0 => .ok (m.pushCell .struct #[])
  | .newStruct => do
      let (count, m) ← m.popCount
      return m.pushCell .struct (Array.replicate count .null)
  | .pack => do
      let (count, m) ← m.popCount
      let (items, m) ← popMany count m #[]
      return m.pushCell .array items
  | .unpack => m.unpack
  | .size => do
      let (value, m) ← m.pop
      return m.push (.int (Word.signed (← m.sizeOf value)))
  | .pickItem => m.pickItem
  | .append => m.append
  | .setItem => m.setItem
  | .isNull => do
      let (value, m) ← m.pop
      return m.push (.bool (value == .null))
  | op => .error (.unsupported op)

/-- Runs the next instruction of the innermost frame. -/
def step (code : Code) (m : Machine) : Except Fault Machine :=
  match m.frames with
  | [] => .error .stackUnderflow
  | frame :: outer =>
      if frame.ip < code.size then
        match decodeAt code frame.ip with
        | .error e => .error (.decode e)
        | .ok ins =>
            execute code ins { m with frames := { frame with ip := ins.next } :: outer }
      else .ok m.leave

end Machine
end NeoScript
