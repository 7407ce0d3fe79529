import NeoScript.Integer
import NeoScript.Machine.Value
import NeoScript.Script

/-!
# State — the machine between two instructions

* `Handler` — what a try block has left to do, and `Frame` — one invocation;
* `Machine` — stack, frames, static slots, pending exception and heap;
* `Fault` — why a run ends without halting;
* `Word` — sums of machine words, and sizes as signed numbers;
* the stack operations from which every instruction is built: `push`, `pop`, `popInt`, `popBool`,
  `popIndex`, `popCount`, `popCell`, `peek`, `insertAt`, `removeAt`, `reverseTop`.

The stack grows at the end of its array; the innermost frame stands first.  Depths and positions are
machine words, and a sum or a position that is not checked beforehand can stop the host.
-/

namespace NeoScript

/-- What an instruction asked for and did not find. -/
inductive Expected where
  | integer
  | collection
  | pointer
  | sized
  | slot
  | operand (op : Opcode)
  deriving DecidableEq, Repr

namespace Expected

def text : Expected → String
  | integer => "integer"
  | collection => "array"
  | pointer => "CALLA expects a pointer"
  | sized => "SIZE"
  | slot => "uninitialized slot"
  | operand (.load _ _) => "slot index"
  | operand (.store _ _) => "slot index"
  | operand op => op.mnemonic

end Expected

inductive Fault where
  /-- An integer result leaves the range. -/
  | overflow
  | divideByZero
  | invalidShift
  | invalidType (expected : Expected)
  | indexOutOfRange
  | stackUnderflow
  | abort
  | assertFailed
  /-- An exception that no handler takes; its text is `Heap.debugText?`. -/
  | uncaught (exception : Value) (heap : Heap)
  | invalidJump (target : Int)
  | invalidTry
  | decode (error : Error)
  | unsupported (op : Opcode)
  | stepLimit
  /-- Structs hold one another in a circle. -/
  | circularStruct
  /-- The host stops: a sum is no word, or a position lies outside the stack. -/
  | crashed
  deriving DecidableEq, Repr

namespace Word

/-- How many words there are, `2 ^ 64`. -/
def count : Nat := 0x10000000000000000

def add (a b : Nat) : Except Fault Nat :=
  if a + b < count then .ok (a + b) else .error .crashed

def signed (size : Nat) : Int :=
  Int.bmod size count

end Word

inductive Phase where
  | body
  | handling
  | finishing
  deriving DecidableEq, Repr

/-- A try block that was entered and not left. -/
structure Handler where
  catchAt : Option Nat
  finallyAt : Option Nat
  /-- Where to go on after the finally block. -/
  resumeAt : Option Nat
  phase : Phase
  deriving DecidableEq, Repr

/-- One invocation; the innermost handler stands first. -/
structure Frame where
  ip : Nat
  locals : Option (Array Value)
  arguments : Option (Array Value)
  handlers : List Handler
  deriving DecidableEq, Repr

namespace Frame

def enter (ip : Nat) : Frame :=
  ⟨ip, none, none, []⟩

end Frame

/-- The machine between two instructions. -/
structure Machine where
  stack : Array Value
  frames : List Frame
  statics : Option (Array Value)
  pending : Option Value
  heap : Heap
  deriving DecidableEq, Repr

namespace Machine

/-- The machine before its first instruction; the first argument is on top of the stack. -/
def start (heap : Heap) (entry : Nat) (arguments : List Value) : Machine :=
  ⟨arguments.reverse.toArray, [Frame.enter entry], none, none, heap⟩

/-! ## Stack -/

def push (m : Machine) (value : Value) : Machine :=
  { m with stack := m.stack.push value }

def pushInt (m : Machine) (value : Int) : Except Fault Machine :=
  if Integer.inRange value then .ok (m.push (.int value)) else .error .overflow

def pop (m : Machine) : Except Fault (Value × Machine) :=
  match m.stack.back? with
  | some value => .ok (value, { m with stack := m.stack.pop })
  | none => .error .stackUnderflow

def position (m : Machine) (count : Nat) : Except Fault Nat :=
  if count ≤ m.stack.size then .ok (m.stack.size - count) else .error .stackUnderflow

def itemAt (m : Machine) (position : Nat) : Except Fault Value :=
  match m.stack[position]? with
  | some value => .ok value
  | none => .error .crashed

/-- The item at a depth; the top has depth zero. -/
def peek (m : Machine) (depth : Nat) : Except Fault Value := do
  m.itemAt (← m.position (← Word.add depth 1))

/-- Puts a value at a position, below the items from there on. -/
def insertAt (m : Machine) (position : Nat) (value : Value) : Except Fault Machine :=
  if h : position ≤ m.stack.size then
    .ok { m with stack := m.stack.insertIdx position value h }
  else .error .crashed

def removeAt (m : Machine) (position : Nat) : Except Fault (Value × Machine) :=
  if h : position < m.stack.size then
    .ok (m.stack[position], { m with stack := m.stack.eraseIdx position h })
  else .error .crashed

end Machine

namespace Value

def toInt? : Value → Option Int
  | int value => some value
  | bool value => some (if value then 1 else 0)
  | bytes data => if data.length ≤ 32 then some (Bytes.toInt data) else none
  | _ => none

def toBool : Value → Bool
  | null => false
  | bool value => value
  | int value => value != 0
  | bytes data => data.any (· != 0)
  | array _ => true
  | struct _ => true
  | pointer _ => true

end Value

namespace Machine

def popInt (m : Machine) : Except Fault (Int × Machine) := do
  let (value, m) ← m.pop
  match value.toInt? with
  | some n => .ok (n, m)
  | none => .error (.invalidType .integer)

def popBool (m : Machine) : Except Fault (Bool × Machine) := do
  let (value, m) ← m.pop
  return (value.toBool, m)

def popIndex (m : Machine) : Except Fault (Nat × Machine) := do
  let (n, m) ← m.popInt
  if 0 ≤ n ∧ n < 0x10000000000000000 then .ok (n.toNat, m) else .error .indexOutOfRange

def maxCollection : Nat := 2048

def popCount (m : Machine) : Except Fault (Nat × Machine) := do
  let (n, m) ← m.popIndex
  if n ≤ maxCollection then .ok (n, m) else .error .indexOutOfRange

def popCell (m : Machine) : Except Fault (Nat × Machine) := do
  let (value, m) ← m.pop
  match value with
  | .array cell => .ok (cell, m)
  | .struct cell => .ok (cell, m)
  | _ => .error (.invalidType .collection)

/-- Pops items, the topmost first, behind those already popped. -/
def popMany : (count : Nat) → Machine → Array Value → Except Fault (Array Value × Machine)
  | 0, m, out => .ok (out, m)
  | count + 1, m, out => do
      let (value, m) ← m.pop
      popMany count m (out.push value)

/-- Exchanges the items that lie equally far from both ends of the topmost `count`. -/
def swapTop (stack : Array Value) (count : Nat) : Array Value :=
  let size := stack.size
  (List.range (count / 2)).foldl
    (fun stack k => stack.swapIfInBounds (size - count + k) (size - 1 - k)) stack

def reverseFrom (m : Machine) (position : Nat) : Except Fault Machine :=
  if position ≤ m.stack.size then
    .ok { m with stack := swapTop m.stack (m.stack.size - position) }
  else .error .crashed

def reverseTop (m : Machine) (count : Nat) : Except Fault Machine := do
  m.reverseFrom (← m.position count)

/-- Pops a value and takes the copy of it that a collection keeps. -/
def popStored (m : Machine) : Except Fault (Value × Machine) := do
  let (value, m) ← m.pop
  match m.heap.stored? value with
  | some (value, heap) => .ok (value, { m with heap })
  | none => .error .circularStruct

def pushCell (m : Machine) (wrap : Nat → Value) (items : Array Value) : Machine :=
  let (cell, heap) := m.heap.alloc items
  { m with heap, stack := m.stack.push (wrap cell) }

/-! ## Frames -/

def withFrame (m : Machine) (f : Frame → Except Fault Frame) : Except Fault Machine :=
  match m.frames with
  | [] => .error .stackUnderflow
  | frame :: outer => do
      let frame ← f frame
      return { m with frames := frame :: outer }

def goto (m : Machine) (address : Nat) : Except Fault Machine :=
  m.withFrame fun frame => .ok { frame with ip := address }

def call (m : Machine) (address : Nat) : Machine :=
  { m with frames := Frame.enter address :: m.frames }

def leave (m : Machine) : Machine :=
  { m with frames := m.frames.tail }

end Machine

end NeoScript
