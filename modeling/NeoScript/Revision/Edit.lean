import NeoScript.Revision.Basic

/-!
# Edit — changes to a program by hand

* `Edit` — one change of the order, the arena or the references;
* `Revision.edit` — its effect; a position that does not exist is ignored.
-/

namespace NeoScript

inductive Edit where
  /-- Drops what stands at a position. -/
  | remove (position : Nat)
  /-- Allocates an instruction and inserts it, as often as asked; a position behind the end is the
  end. -/
  | insert (ins : Instruction) (position copies : Nat) (origin : Option Nat)
  | swap (first second : Nat)
  | retarget (old new : InstrId)
  | addJump (source target : InstrId)
  /-- Appends a number, which need not exist. -/
  | append (id : InstrId)
  | clear
  deriving DecidableEq, Repr

namespace Revision

/-- Inserts numbers one after the other at the same position, or at the end while the order is too
short.  So those that reach the position stand there in reverse. -/
def insertAll (order ids : List InstrId) (position : Nat) : List InstrId :=
  let room := position - order.length
  let front := order ++ ids.take room
  front.take position ++ (ids.drop room).reverse ++ front.drop position

/-- Allocates copies of an instruction and inserts them at a position. -/
def insertCopies (r : Revision) (ins : Instruction) (position copies : Nat) (origin : Option Nat) :
    Revision :=
  let ids := List.range' r.arena.size copies
  let arena := copies.repeat (fun arena => (Arena.alloc arena ins origin).2) r.arena
  { r with arena, order := insertAll r.order ids position }

def edit (r : Revision) : Edit → Revision
  | .remove position => { r with order := r.order.eraseIdx position }
  | .insert ins position copies origin =>
      r.insertCopies ins position copies origin
  | .swap first second =>
      match r.order[first]?, r.order[second]? with
      | some a, some b => { r with order := (r.order.set first b).set second a }
      | _, _ => r
  | .retarget old new => { r with references := r.references.retarget old new }
  | .addJump source target => { r with references := r.references.addJump source target }
  | .append id => { r with order := r.order ++ [id] }
  | .clear => { r with order := [] }

end Revision

end NeoScript
