import Std.Data.TreeMap
import Std.Data.TreeSet

/-!
# References — which instruction refers to which

Instructions have numbers of their own, independent of addresses.  Every address operand is kept as
a reference from one number to another, together with the reverse index.

* `References` — targets of single-target instructions, handlers of tries, and sources by target;
* `References.addJump`, `References.addTry` — record an operand;
* `References.retarget` — moves every reference from one target to another.
-/

namespace NeoScript

open Std (TreeMap TreeSet)

abbrev InstrId := Nat

structure HandlerIds where
  catchId : Option InstrId
  finallyId : Option InstrId
  deriving DecidableEq, Repr

namespace HandlerIds

def none : HandlerIds := ⟨.none, .none⟩

/-- The handlers that are there, catch first. -/
def toList (h : HandlerIds) : List InstrId :=
  h.catchId.toList ++ h.finallyId.toList

def replace (h : HandlerIds) (old new : InstrId) : HandlerIds :=
  let swap (id : Option InstrId) : Option InstrId := if id = some old then some new else id
  ⟨swap h.catchId, swap h.finallyId⟩

end HandlerIds

/-- Address operands as references between instructions. -/
structure References where
  /-- Jumps, calls, ends of try bodies and pointers. -/
  jumps : TreeMap InstrId InstrId
  tries : TreeMap InstrId HandlerIds
  /-- The instructions that refer to a target. -/
  sources : TreeMap InstrId (TreeSet InstrId)

namespace References

def empty : References := ⟨∅, ∅, ∅⟩

/-- Records that `source` refers to `target`. -/
def addSource (r : References) (target source : InstrId) : References :=
  let add (known : Option (TreeSet InstrId)) : Option (TreeSet InstrId) :=
    some ((known.getD ∅).insert source)
  { r with sources := r.sources.alter target add }

def addJump (r : References) (source target : InstrId) : References :=
  { r with jumps := r.jumps.insert source target }.addSource target source

def addTry (r : References) (source : InstrId) (handlers : HandlerIds) : References :=
  handlers.toList.foldl (fun r target => r.addSource target source)
    { r with tries := r.tries.insert source handlers }

def isTarget (r : References) (id : InstrId) : Bool :=
  match r.sources[id]? with
  | some set => !set.isEmpty
  | none => false

/-- Every instruction that is referred to, in order. -/
def targets (r : References) : List InstrId :=
  (r.sources.toList.filter fun entry => !entry.2.isEmpty).map (·.1)

/-- Points the references of one source from `old` to `new`. -/
def redirect (old new : InstrId) (r : References) (source : InstrId) : References :=
  { r with
    jumps := r.jumps.modify source fun target => if target = old then new else target
    tries := r.tries.modify source fun handlers => handlers.replace old new }

/-- Points every reference to `old` at `new`. -/
def retarget (r : References) (old new : InstrId) : References :=
  if old = new then r
  else
    match r.sources[old]? with
    | none => r
    | some moved =>
        let r := moved.toList.foldl (redirect old new) { r with sources := r.sources.erase old }
        let join (known : Option (TreeSet InstrId)) : Option (TreeSet InstrId) :=
          some (moved.toList.foldl (·.insert ·) (known.getD ∅))
        { r with sources := r.sources.alter new join }

end References

end NeoScript
