/-!
# Value — stack items, the heap behind them, and items as trees

Arrays and structs are shared: a value holds the number of a heap cell, and whoever holds the number
sees every change.  Storing a struct in a collection stores a copy of it instead.

* `Value` and `Heap`, with cells that are allocated, read and written;
* `Heap.stored?` — the copy of a value that a collection keeps;
* `Heap.equal?` — equality of values: structs by their fields, arrays by identity;
* `Item` — a value as a tree, with `Heap.load` from trees and `Heap.view` to trees;
* `Heap.debugText?` — a value as a text.

A copied struct is numbered before its fields are copied, so in every heap that the machine builds a
struct holds structs of greater numbers only.
-/

namespace NeoScript

inductive Value where
  | null
  | bool (value : Bool)
  | int (value : Int)
  | bytes (data : List UInt8)
  | array (cell : Nat)
  | struct (cell : Nat)
  | pointer (address : Nat)
  deriving DecidableEq, Repr

/-- The cells of arrays and structs. -/
structure Heap where
  cells : Array (Array Value)
  deriving DecidableEq, Repr

inductive Item where
  | null
  | bool (value : Bool)
  | int (value : Int)
  | bytes (data : List UInt8)
  | array (items : List Item)
  | struct (items : List Item)
  | pointer (address : Nat)
  /-- A collection whose contents are not shown. -/
  | cut
  deriving Repr

namespace Heap

/-! ## Cells -/

def empty : Heap := ⟨#[]⟩

def items (heap : Heap) (cell : Nat) : Array Value :=
  heap.cells.getD cell #[]

def put (heap : Heap) (cell : Nat) (items : Array Value) : Heap :=
  ⟨heap.cells.setIfInBounds cell items⟩

def modify (heap : Heap) (cell : Nat) (f : Array Value → Array Value) : Heap :=
  ⟨heap.cells.modify cell f⟩

def alloc (heap : Heap) (items : Array Value) : Nat × Heap :=
  (heap.cells.size, ⟨heap.cells.push items⟩)

/-! ## Copies and equality -/

/-- The copy of a value that a collection keeps: structs are copied with the structs they hold, and
arrays stay shared.  `levels` bounds the nesting of structs. -/
def copy? : (levels : Nat) → Heap → Value → Option (Value × Heap)
  | 0, _, .struct _ => none
  | levels + 1, heap, .struct cell =>
      let fields := heap.items cell
      let (fresh, heap) := heap.alloc #[]
      let copyField (acc : Array Value × Heap) (field : Value) : Option (Array Value × Heap) := do
        let (value, heap) ← copy? levels acc.2 field
        return (acc.1.push value, heap)
      match fields.toList.foldlM copyField (#[], heap) with
      | some (fields, heap) => some (.struct fresh, heap.put fresh fields)
      | none => none
  | _, heap, value => some (value, heap)

/-- The copy of a value that a collection keeps; none if structs hold one another in a circle. -/
def stored? (heap : Heap) (value : Value) : Option (Value × Heap) :=
  copy? heap.cells.size heap value

/-- Whether all pairs pass; the first that does not decides. -/
def allPairs? (test : Value → Value → Option Bool) : List Value → List Value → Option Bool
  | a :: as, b :: bs =>
      match test a b with
      | some true => allPairs? test as bs
      | other => other
  | _, _ => some true

/-- Equality of values whose structs nest at most `levels` deep. -/
def equalWithin? (heap : Heap) : (levels : Nat) → Value → Value → Option Bool
  | 0, .struct _, .struct _ => none
  | levels + 1, .struct x, .struct y =>
      let xs := heap.items x
      let ys := heap.items y
      if xs.size = ys.size then allPairs? (equalWithin? heap levels) xs.toList ys.toList
      else some false
  | _, .array x, .array y => some (x == y)
  | _, .int x, .int y => some (x == y)
  | _, .bool x, .bool y => some (x == y)
  | _, .bytes x, .bytes y => some (x == y)
  | _, .null, .null => some true
  | _, .pointer x, .pointer y => some (x == y)
  | _, _, _ => some false

/-- Equality of values; none if structs hold one another in a circle. -/
def equal? (heap : Heap) (a b : Value) : Option Bool :=
  equalWithin? heap heap.cells.size a b

/-! ## Trees -/

mutual

/-- Puts a tree into the heap; a cell is numbered before the cells inside it. -/
def load (heap : Heap) : Item → Value × Heap
  | .null => (.null, heap)
  | .bool b => (.bool b, heap)
  | .int i => (.int i, heap)
  | .bytes data => (.bytes data, heap)
  | .pointer address => (.pointer address, heap)
  | .cut => (.null, heap)
  | .array items =>
      let (cell, heap) := heap.alloc #[]
      let (values, heap) := loadAll heap items #[]
      (.array cell, heap.put cell values)
  | .struct items =>
      let (cell, heap) := heap.alloc #[]
      let (values, heap) := loadAll heap items #[]
      (.struct cell, heap.put cell values)

/-- Puts trees into the heap, behind the values already loaded. -/
def loadAll (heap : Heap) : List Item → Array Value → Array Value × Heap
  | [], out => (out, heap)
  | item :: rest, out =>
      let (value, heap) := load heap item
      loadAll heap rest (out.push value)

end

/-- The tree of a value down to `depth` levels of collections. -/
def view (heap : Heap) : (depth : Nat) → Value → Item
  | _, .null => .null
  | _, .bool b => .bool b
  | _, .int i => .int i
  | _, .bytes data => .bytes data
  | _, .pointer address => .pointer address
  | 0, .array _ => .cut
  | 0, .struct _ => .cut
  | depth + 1, .array cell => .array ((heap.items cell).toList.map (view heap depth))
  | depth + 1, .struct cell => .struct ((heap.items cell).toList.map (view heap depth))

/-! ## Texts -/

/-- The text of a collection: its kind, and the texts of its items. -/
def collectionText (kind : String) (items : List String) : String :=
  kind ++ "(RefCell \x7b value: [" ++ ", ".intercalate items ++ "] \x7d)"

/-- The text of a value whose collections nest at most `levels` deep. -/
def debugWithin? (heap : Heap) : (levels : Nat) → Value → Option String
  | _, .null => some "Null"
  | _, .bool b => some s!"Bool({b})"
  | _, .int i => some s!"Int({i})"
  | _, .bytes data =>
      some ("Bytes([" ++ ", ".intercalate (data.map fun b => toString b.toNat) ++ "])")
  | _, .pointer address => some s!"Pointer({address})"
  | 0, .array _ => none
  | 0, .struct _ => none
  | levels + 1, .array cell =>
      ((heap.items cell).toList.mapM (debugWithin? heap levels)).map (collectionText "Array")
  | levels + 1, .struct cell =>
      ((heap.items cell).toList.mapM (debugWithin? heap levels)).map (collectionText "Struct")

/-- The text of a value; none if a collection lies inside itself, whose text would have no end. -/
def debugText? (heap : Heap) (value : Value) : Option String :=
  debugWithin? heap (heap.cells.size + 1) value

end Heap

end NeoScript
