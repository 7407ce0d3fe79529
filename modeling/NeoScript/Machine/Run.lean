import NeoScript.Machine.Step

/-!
# Run — whole runs of the machine

* `Outcome` — the stack of a run that halts, or the fault of one that does not;
* `Machine.run` — steps until no frame is left, a fault occurs or the step limit is reached.
-/

namespace NeoScript

inductive Outcome where
  /-- The stack at the end, bottom first, and the heap that gives it meaning. -/
  | halt (stack : List Value) (heap : Heap)
  | fault (cause : Fault)
  deriving DecidableEq, Repr

namespace Machine

def runFrom (code : Code) : (limit : Nat) → Machine → Outcome
  | 0, m =>
      if m.frames.isEmpty then .halt m.stack.toList m.heap else .fault .stepLimit
  | limit + 1, m =>
      if m.frames.isEmpty then .halt m.stack.toList m.heap
      else
        match step code m with
        | .ok next => runFrom code limit next
        | .error cause => .fault cause

/-- Steps after which a run is given up, unless told otherwise. -/
def defaultStepLimit : Nat := 100000

/-- Runs code from an address with values of a heap as arguments. -/
def run (code : Code) (entry : Nat) (heap : Heap) (arguments : List Value) (limit : Nat) :
    Outcome :=
  runFrom code limit (start heap entry arguments)

def runItems (code : Code) (entry : Nat) (arguments : List Item) (limit : Nat) : Outcome :=
  let (values, heap) := Heap.empty.loadAll arguments #[]
  run code entry heap values.toList limit

end Machine

end NeoScript
