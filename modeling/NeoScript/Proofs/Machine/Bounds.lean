import NeoScript.Proofs.Arithmetic.Evaluation
import NeoScript.Proofs.Machine.Evolution

/-!
# Bounds — integers of 256 bits, and sizes that are words

* `Machine.integers_in_range` — no run brings an integer into the machine that leaves 256 bits;
* `Machine.Grown` — how much may have gathered in a machine after a number of steps;
* `Machine.crashed_iff_picks_last` — the positions, depths and sizes of a run are words, but for one
  sum.
-/

namespace NeoScript
namespace Machine

variable {code : Code} {m m' : Machine} {extra : Nat}

/-! ## Integers -/

/-- If the value is an integer, it is in range. -/
def Fits (v : Value) : Prop :=
  ∀ i, v = .int i → Integer.inRange i = true

/-- A value that a step takes over or makes is in range if those of the machine are. -/
theorem Known.fits {h : Heap} {v : Value} (hm : m.All Fits) (hv : m.Known h v) : Fits v := by
  cases hv with
  | held hheld => exact all_iff.1 hm v hheld
  | int hrange =>
      rintro i ⟨⟩
      exact hrange
  | _ => rintro i ⟨⟩

/-- Integers stay in range in a whole run. -/
theorem all_fits_of_reaches (hm : m.All Fits) (hreaches : Reaches code m m') : m'.All Fits := by
  refine reaches_induction (I := All Fits) ?_ hm hreaches
  intro n n' hn hstep
  obtain ⟨bound, hbound⟩ := exists_within n.heap
  have hvalues := (evolves_of_step hbound hstep).values
  exact all_iff.2 fun v hv => (all_iff.1 hvalues v hv).fits hn

/-- If the integers among the arguments and in the collections that they lead to have 256 bits, so
has every integer in a machine that the run reaches. -/
theorem integers_in_range (code : Code) (entry : Nat) (heap : Heap) (arguments : List Value)
    (harguments : ∀ i, Value.int i ∈ arguments → -2 ^ 255 ≤ i ∧ i < 2 ^ 255)
    (hcells : ∀ cell i, Value.int i ∈ heap.items cell → -2 ^ 255 ≤ i ∧ i < 2 ^ 255) (m : Machine)
    (hreaches : Reaches code (start heap entry arguments) m) (i : Int) (hi : m.Holds (.int i)) :
    -2 ^ 255 ≤ i ∧ i < 2 ^ 255 := by
  have hstart : (start heap entry arguments).All Fits := by
    refine all_start entry ?_ ?_
    · rintro v hv i rfl
      exact Integer.inRange_iff.2 (harguments i hv)
    · rintro cell v hv i rfl
      exact Integer.inRange_iff.2 (hcells cell i hv)
  exact Integer.inRange_iff.1 (all_iff.1 (all_fits_of_reaches hstart hreaches) _ hi i rfl)

/-- Takes one from the greatest integer and gives it back. -/
def extremeCode : Code :=
  #[0x9D, 0x9C, 0x40]

def extremeArguments : List Value :=
  [.int (2 ^ 255 - 1), .array 0]

def extremeHeap : Heap :=
  ⟨#[#[.int (-2 ^ 255)]]⟩

/-- The greatest integer is back on the stack, and an array holds the least. -/
theorem integers_in_range_extreme :
    (∀ i, Value.int i ∈ extremeArguments → -2 ^ 255 ≤ i ∧ i < 2 ^ 255) ∧
      (∀ cell i, Value.int i ∈ extremeHeap.items cell → -2 ^ 255 ≤ i ∧ i < 2 ^ 255) ∧
      Reaches extremeCode (start extremeHeap 0 extremeArguments)
        ⟨#[.array 0, .int (2 ^ 255 - 1)], [Frame.enter 2], none, none, extremeHeap⟩ ∧
      (-2 ^ 255 ≤ (2 ^ 255 - 1 : Int) ∧ (2 ^ 255 - 1 : Int) < 2 ^ 255) := by
  have harguments : ∀ i, Value.int i ∈ extremeArguments → -2 ^ 255 ≤ i ∧ i < 2 ^ 255 := by
    intro i hi
    have hi : i = 2 ^ 255 - 1 := by simpa [extremeArguments] using hi
    subst hi
    decide +kernel
  have hcells : ∀ cell i, Value.int i ∈ extremeHeap.items cell → -2 ^ 255 ≤ i ∧ i < 2 ^ 255 := by
    intro cell i hi
    rcases cell with _ | cell
    · have hi : i = -2 ^ 255 := by simpa [extremeHeap, Heap.items] using hi
      subst hi
      decide +kernel
    · simp [extremeHeap, Heap.items] at hi
  have hreaches : Reaches extremeCode (start extremeHeap 0 extremeArguments)
      ⟨#[.array 0, .int (2 ^ 255 - 1)], [Frame.enter 2], none, none, extremeHeap⟩ :=
    ⟨2, by decide +kernel⟩
  exact ⟨harguments, hcells, hreaches, integers_in_range extremeCode 0 extremeHeap extremeArguments
    harguments hcells _ hreaches _ (.stack (by simp))⟩

/-! ## Words -/

/-- What may have gathered after a number of steps. -/
structure Grown (items bound steps : Nat) (m : Machine) : Prop where
  stack : m.stack.size ≤ items + steps * (bound + 1)
  frames : m.frames.length ≤ 1 + steps
  within : m.heap.Within bound

/-- One step adds at most the items of one collection and one invocation. -/
theorem Grown.of_step {items bound steps : Nat} (hm : m.Grown items bound steps)
    (hstep : step code m = .ok m') : m'.Grown items bound (steps + 1) := by
  have hevolves := evolves_of_step hm.within hstep
  have hstack := hevolves.stack
  have hframes := hevolves.frames
  refine ⟨?_, ?_, hevolves.within bound hm.within⟩
  · have hbefore := hm.stack
    rw [Nat.add_mul, Nat.one_mul]
    omega
  · have hbefore := hm.frames
    omega

/-- From the start on, what has gathered is bounded by the number of steps. -/
theorem grown_of_advance {heap : Heap} {bound : Nat} (hbound : heap.Within bound) (entry : Nat)
    (arguments : List Value) {steps : Nat}
    (hadvance : advance code steps (start heap entry arguments) = .ok m) :
    m.Grown arguments.length bound steps := by
  have hstart : (start heap entry arguments).Grown arguments.length bound 0 :=
    ⟨by simp [start], by simp [start], hbound⟩
  have hgrown := advance_induction (I := Grown arguments.length bound)
    (fun _ _ _ hn hstep => hn.of_step hstep) hstart hadvance
  rwa [Nat.zero_add] at hgrown

/-- The instruction that a machine is at ends inside the code. -/
theorem IsAt.next_le {ins : Instruction} (h : IsAt code m ins) : ins.next ≤ code.size := by
  obtain ⟨frame, outer, -, hip, hdecode⟩ := h
  have hpc := (decodeAt_eq_ok_iff.1 hdecode).1
  unfold Instruction.next
  rw [hpc]
  exact next_le_of_decodeAt (Nat.le_of_lt hip) hdecode

/-- The depth of the greatest word has no successor. -/
theorem step_of_picksLast {ins : Instruction} (hat : IsAt code m ins) (hlast : PicksLast ins.op m) :
    step code m = .error .crashed := by
  obtain ⟨frame, outer, hframes, hip, hdecode⟩ := hat
  obtain ⟨hpick, htop⟩ := hlast
  have hindex : popIndex { m with frames := { frame with ip := ins.next } :: outer } =
      .ok (Word.count - 1, { m with
        frames := { frame with ip := ins.next } :: outer, stack := m.stack.pop }) := by
    refine popIndex_eq_ok_iff.2 ⟨?_, by decide, rfl⟩
    rw [htop]
    rfl
  simp only [step, hframes, if_pos hip, hdecode, execute, hpick, hindex]
  rfl

/-- A step crashes exactly where it picks the item at the greatest depth. -/
theorem step_eq_crashed_iff :
    step code m = .error .crashed ↔ ∃ ins, IsAt code m ins ∧ PicksLast ins.op m := by
  constructor
  · intro hstep
    exact explained_of_step hstep
  · rintro ⟨ins, hat, hlast⟩
    exact step_of_picksLast hat hlast

/-- For code of fewer than `2 ^ 32` bytes and arguments of fewer than `2 ^ 32` values, all that is
counted in the first `2 ^ 30` steps is a word: the address behind an instruction, the items of the
stack and of each collection, and the invocations.  Of the sums and positions that the fault
`crashed` stands for, one can fail: the depth of a picked item is the greatest word, and has no
successor. -/
theorem crashed_iff_picks_last (code : Code) (entry : Nat) (heap : Heap) (arguments : List Value)
    (hcode : code.size < 2 ^ 32) (harguments : arguments.length < 2 ^ 32)
    (hcells : ∀ cell, (heap.items cell).size < 2 ^ 32) (steps : Nat) (hsteps : steps ≤ 2 ^ 30)
    (m : Machine) (hadvance : advance code steps (start heap entry arguments) = .ok m) :
    (∀ ins, IsAt code m ins → ins.next < 2 ^ 32) ∧ m.stack.size < 2 ^ 63 ∧
      (∀ cell, (m.heap.items cell).size < 2 ^ 32) ∧ m.frames.length < 2 ^ 32 ∧
      (step code m = .error .crashed ↔ ∃ ins, IsAt code m ins ∧ ins.op = .pick ∧
        m.stack.back?.bind Value.toInt? = some (2 ^ 64 - 1)) := by
  have hbound : heap.Within (2 ^ 32 - 1) :=
    ⟨by decide, fun cell => Nat.le_sub_one_of_lt (hcells cell)⟩
  -- Every step adds at most one invocation and the items of one collection.
  have hgrown := grown_of_advance hbound entry arguments hadvance
  have hstack := hgrown.stack
  have hframes := hgrown.frames
  refine ⟨?_, by omega, ?_, by omega, ?_⟩
  · intro ins hat
    have hnext := hat.next_le
    omega
  · intro cell
    have hle := hgrown.within.size_le cell
    omega
  · have hlast : ((Word.count : Nat) : Int) - 1 = 2 ^ 64 - 1 := by decide
    rw [step_eq_crashed_iff]
    simp only [PicksLast, hlast]

def pickCode (depth : Nat) : Code :=
  (0x04 :: Bytes.ofNat 16 depth ++ [0x4D, 0x40]).toArray

/-- One below the greatest word there is only an item missing. -/
theorem crashed_iff_picks_last_below :
    (pickCode (2 ^ 64 - 2)).size < 2 ^ 32 ∧ ([] : List Value).length < 2 ^ 32 ∧
      (∀ cell, (Heap.empty.items cell).size < 2 ^ 32) ∧
      advance (pickCode (2 ^ 64 - 2)) 1 (start Heap.empty 0 []) =
        .ok ⟨#[.int (2 ^ 64 - 2)], [Frame.enter 17], none, none, Heap.empty⟩ ∧
      step (pickCode (2 ^ 64 - 2)) ⟨#[.int (2 ^ 64 - 2)], [Frame.enter 17], none, none,
        Heap.empty⟩ ≠
        .error .crashed := by
  have hcells : ∀ cell, (Heap.empty.items cell).size < 2 ^ 32 := by
    intro cell
    simp [Heap.empty, Heap.items]
  have hadvance : advance (pickCode (2 ^ 64 - 2)) 1 (start Heap.empty 0 []) =
      .ok ⟨#[.int (2 ^ 64 - 2)], [Frame.enter 17], none, none, Heap.empty⟩ := by
    decide +kernel
  refine ⟨by decide +kernel, by decide, hcells, hadvance, ?_⟩
  intro hcrashed
  have hiff := (crashed_iff_picks_last _ 0 Heap.empty [] (by decide +kernel) (by decide) hcells 1
    (by decide) _ hadvance).2.2.2.2
  obtain ⟨ins, -, -, htop⟩ := hiff.1 hcrashed
  revert htop
  decide

/-- The host stops instead of missing an item. -/
theorem pick_last_crashes :
    run (pickCode (2 ^ 64 - 1)) 0 Heap.empty [] defaultStepLimit = .fault .crashed := by
  decide +kernel

end Machine
end NeoScript
