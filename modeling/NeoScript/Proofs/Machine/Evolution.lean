import NeoScript.Proofs.Machine.Changes

/-!
# Evolution — what one step can do to the data of a machine

Whatever invariant the data of a machine has, it has to survive some sixty instructions.  They are
looked at once, here:

* `Machine.executeStraight_meets` — an instruction inside a block evolves the machine and leaves
  control as it is, or its fault is explained;
* `Machine.execute_meets` — every instruction evolves the machine, or its fault is explained;
* `Machine.step_meets` — so does every step;
* `Machine.PicksLast` — the one risk of the host;
* `Machine.advance_induction`, `Machine.reaches_induction` — what steps keep, runs keep.
-/

namespace NeoScript
namespace Machine

variable {m m' : Machine} {bound extra : Nat} {code : Code}

/-! ## Instructions -/

/-- The one risk of the host: an item is asked for at the depth of the greatest word. -/
def PicksLast (op : Opcode) (m : Machine) : Prop :=
  op = .pick ∧ m.stack.back?.bind Value.toInt? = some ((Word.count : Int) - 1)

/-- An operation pops its operands and pushes its result, or faults. -/
theorem arithmetic_meets {risk : Prop} (m : Machine) (operation : Arith) :
    Result.Meets (Fault.Explained m risk) (Proceeds (extra + 1) m) (m.arithmetic operation) := by
  cases operation <;> unfold Machine.arithmetic
  case shl | shr =>
    refine (Popped.refl m).popShift.bind ?_
    rintro ⟨a, n, k⟩ hk
    exact hk.pushInt _
  case div | mod =>
    refine (Popped.refl m).popPair.bind ?_
    rintro ⟨a, b, k⟩ hk
    dsimp only at hk ⊢
    split
    · exact .error trivial
    · exact hk.pushInt _
  all_goals
    refine (Popped.refl m).popPair.bind ?_
    rintro ⟨a, b, k⟩ hk
    exact hk.pushInt _

/-- The index that is popped is what the top of the stack stands for. -/
theorem popIndex_eq_ok_iff {m n : Machine} {depth : Nat} :
    m.popIndex = .ok (depth, n) ↔ m.stack.back?.bind Value.toInt? = some (depth : Int) ∧
      depth < Word.count ∧ n = { m with stack := m.stack.pop } := by
  simp only [popIndex, popInt, pop]
  cases hback : m.stack.back? with
  | none => simp [bind, Except.bind]
  | some v =>
      cases hint : v.toInt? with
      | none => simp [bind, Except.bind, hint]
      | some i =>
          simp only [bind, Except.bind, hint, Option.bind_some, Option.some.injEq, Word.count]
          split
          · rename_i hrange
            simp only [Except.ok.injEq, Prod.mk.injEq]
            constructor
            · rintro ⟨rfl, rfl⟩
              exact ⟨by omega, by omega, rfl⟩
            · rintro ⟨rfl, -, rfl⟩
              exact ⟨by omega, rfl⟩
          · simp only [reduceCtorEq, false_iff]
            omega

/-- Only picking can ask for the item at the greatest depth, and crash. -/
theorem pick_meets (code : Code) (pc : Nat) (operand : List UInt8) (m : Machine) :
    Result.Meets (Fault.Explained m (PicksLast .pick m)) (Proceeds (extra + 1) m)
      (execute code ⟨pc, .pick, operand⟩ m) := by
  refine (Popped.refl m).popIndex.and_eq.bind ?_
  rintro ⟨depth, n⟩ ⟨hindex, hn⟩
  obtain ⟨htop, hword, -⟩ := popIndex_eq_ok_iff.1 hindex
  dsimp only at hn ⊢
  refine (hn.peek depth ?_).bind ?_
  · intro hlast
    have hdepth : (depth : Int) = (Word.count : Int) - 1 := by omega
    exact ⟨rfl, hdepth ▸ htop⟩
  · intro v hv
    exact .ok (hn.push (.held (.stack hv)))

theorem fillOf_known (h : Heap) (ins : Instruction) : m.Known h (fillOf ins) := by
  unfold fillOf
  split
  · exact .bool _
  · exact .int (by decide)
  · exact .bytes _
  · exact .null

/-- Packing pushes one new array of popped values. -/
theorem pack_meets {risk : Prop} (code : Code) (pc : Nat) (operand : List UInt8) (m : Machine) :
    Result.Meets (Fault.Explained m risk) (Proceeds (extra + 1) m)
      (execute code ⟨pc, .pack, operand⟩ m) := by
  refine (Popped.refl m).popCount.bind ?_
  rintro ⟨count, n⟩ ⟨hcount, hn⟩
  refine (Popped.popMany count hn).bind ?_
  rintro ⟨items, k⟩ ⟨hitems, hsize, hk⟩
  refine .ok (hk.pushArray ?_ ?_)
  · intro v hv
    rcases hitems v hv with hnone | hv
    · simp at hnone
    · exact .held (.stack hv)
  · simp only [List.size_toArray, List.length_nil] at hsize hcount
    omega

/-- What an instruction inside a block can do: it pops its operands, and then it changes the stack,
slots or a cell. -/
theorem executeStraight_meets (hbound : m.heap.Within bound) {ins : Instruction}
    (hstraight : ins.op.isBlockEnding = false) :
    Result.Meets (Fault.Explained m (PicksLast ins.op m)) (Proceeds (bound + 1) m)
      (execute code ins m) := by
  have hm := Popped.refl m
  -- Positions that are written in the code are far below the greatest word.
  have hwords : ∀ depth : Nat, depth ≤ 1 → Word.count ≤ depth + 1 → PicksLast ins.op m := by
    intro depth hle hword
    have hcount : 2 < Word.count := by decide
    omega
  obtain ⟨pc, op, operand⟩ := ins
  dsimp only at hstraight hwords ⊢
  cases op with
  | jump | call | callPointer | enterTry | endTry | endFinally | ret | throw | abort |
      abortMessage =>
      exact absurd hstraight (by simp [Opcode.isBlockEnding, Opcode.isTerminal])
  | pushInt | pushMinusOne | pushSmall => exact hm.pushInt _
  | pushTrue => exact .ok (hm.push (.bool true))
  | pushFalse => exact .ok (hm.push (.bool false))
  | pushNull => exact .ok (hm.push .null)
  | pushData width => exact .ok (hm.push (.bytes _))
  | pushPointer =>
      refine (targetOf_meets code _).bind ?_
      intro address _
      exact .ok (hm.push (.pointer address))
  | nop => exact .ok hm.proceeds
  | assert =>
      refine hm.popBool.bind ?_
      rintro ⟨b, n⟩ hn
      dsimp only at hn ⊢
      split
      · exact .ok hn.proceeds
      · exact .error trivial
  | assertMessage =>
      refine hm.pop.bind ?_
      rintro ⟨v, n⟩ ⟨-, hn⟩
      refine hn.popBool.bind ?_
      rintro ⟨b, k⟩ hk
      dsimp only at hk ⊢
      split
      · exact .ok hk.proceeds
      · exact .error trivial
  | depth => exact .ok (hm.push (.int (inRange_signed _)))
  | drop =>
      refine hm.pop.bind ?_
      rintro ⟨v, n⟩ ⟨-, hn⟩
      exact .ok hn.proceeds
  | nip =>
      refine hm.pop.bind ?_
      rintro ⟨v, n⟩ ⟨hv, hn⟩
      refine hn.pop.bind ?_
      rintro ⟨_, k⟩ ⟨-, hk⟩
      exact .ok (hk.push (.held (.stack hv)))
  | clear =>
      refine .ok (hm.restack ?_ (by simp))
      intro v hv
      simp at hv
  | dup =>
      refine (hm.peek 0 (hwords 0 (by omega))).bind ?_
      intro v hv
      exact .ok (hm.push (.held (.stack hv)))
  | overTop =>
      refine (hm.peek 1 (hwords 1 (by omega))).bind ?_
      intro v hv
      exact .ok (hm.push (.held (.stack hv)))
  | pick => exact pick_meets code pc operand m
  | tuck =>
      refine (hm.peek 0 (hwords 0 (by omega))).bind ?_
      intro v hv
      refine (position_meets m 2).bind ?_
      intro p hp
      exact hm.insertAt (by omega) hv
  | swap => exact hm.reverseTop 2
  | rot =>
      refine (position_meets m 3).bind ?_
      intro p hp
      refine (hm.removeAt (by omega)).bind ?_
      rintro ⟨v, n⟩ ⟨hv, hn⟩
      exact .ok (hn.push (.held (.stack hv)))
  | reverse3 => exact hm.reverseTop 3
  | reverse4 => exact hm.reverseTop 4
  | initStatics => exact initStatics_meets _
  | initSlots => exact initSlots_meets _
  | load slot index => exact loadSlot_meets _ slot index
  | store slot index => exact storeSlot_meets _ slot index
  | arith operation => exact arithmetic_meets m operation
  | unary operation =>
      refine hm.popInt.bind ?_
      rintro ⟨x, n⟩ hn
      exact hn.pushInt _
  | equal | notEqual =>
      refine hm.popEqual.bind ?_
      rintro ⟨b, n⟩ hn
      exact .ok (hn.push (.bool _))
  | not =>
      refine hm.popBool.bind ?_
      rintro ⟨b, n⟩ hn
      exact .ok (hn.push (.bool _))
  | boolAnd | boolOr =>
      refine hm.popBool.bind ?_
      rintro ⟨b, n⟩ hn
      refine hn.popBool.bind ?_
      rintro ⟨a, k⟩ hk
      exact .ok (hk.push (.bool _))
  | nonZero =>
      refine hm.popInt.bind ?_
      rintro ⟨x, n⟩ hn
      exact .ok (hn.push (.bool _))
  | compare order =>
      refine hm.popPair.bind ?_
      rintro ⟨a, b, n⟩ hn
      exact .ok (hn.push (.bool _))
  | min | max =>
      refine hm.popPair.bind ?_
      rintro ⟨a, b, n⟩ hn
      exact hn.pushInt _
  | within =>
      refine hm.popInt.bind ?_
      rintro ⟨high, n⟩ hn
      refine hn.popInt.bind ?_
      rintro ⟨low, k⟩ hk
      refine hk.popInt.bind ?_
      rintro ⟨x, l⟩ hl
      exact .ok (hl.push (.bool _))
  | newArray0 => exact .ok (hm.pushArray (by simp) (by simp))
  | newArray =>
      refine hm.popCount.bind ?_
      rintro ⟨count, n⟩ ⟨hcount, hn⟩
      exact .ok (hn.pushArray (known_of_mem_replicate .null) (by simpa using hcount))
  | newArrayOf =>
      refine hm.popCount.bind ?_
      rintro ⟨count, n⟩ ⟨hcount, hn⟩
      exact .ok (hn.pushArray (known_of_mem_replicate (fillOf_known _ _)) (by simpa using hcount))
  | newStruct0 =>
      have hempty : Proceeds (bound + 1) m (m.pushCell .struct (Array.replicate 0 .null)) :=
        hm.pushStruct (by simp)
      exact .ok hempty
  | newStruct =>
      refine hm.popCount.bind ?_
      rintro ⟨count, n⟩ ⟨hcount, hn⟩
      exact .ok (hn.pushStruct hcount)
  | pack => exact pack_meets code pc operand m
  | unpack => exact hm.unpack hbound
  | size =>
      refine hm.pop.bind ?_
      rintro ⟨v, n⟩ ⟨-, hn⟩
      refine (sizeOf_meets n v).bind ?_
      intro size _
      exact .ok (hn.push (.int (inRange_signed _)))
  | pickItem => exact pickItem_meets m
  | append => exact append_meets m
  | setItem => exact setItem_meets m
  | isNull =>
      refine hm.pop.bind ?_
      rintro ⟨v, n⟩ ⟨-, hn⟩
      exact .ok (hn.push (.bool _))
  -- The machine has no other operations.
  | _ => exact .error trivial

/-- What an instruction can do. -/
theorem execute_meets (hbound : m.heap.Within bound) (ins : Instruction) :
    Result.Meets (Fault.Explained m (PicksLast ins.op m)) (Evolves (bound + 1) m)
      (execute code ins m) := by
  have hm := Popped.refl m
  obtain ⟨pc, op, operand⟩ := ins
  cases op with
  | jump condition reach =>
      refine (hm.popCondition condition).bind ?_
      rintro ⟨taken, n⟩ hn
      dsimp only at hn ⊢
      split
      · refine (targetOf_meets code _).bind ?_
        intro address _
        exact hn.goto address
      · exact .ok hn.proceeds.toEvolves
  | call reach =>
      refine (targetOf_meets code _).bind ?_
      intro address _
      exact .ok (hm.call address)
  | callPointer =>
      refine hm.pop.bind ?_
      rintro ⟨v, n⟩ ⟨-, hn⟩
      cases v with
      | pointer address => exact .ok (hn.call address)
      | _ => exact .error trivial
  | abort => exact .error trivial
  | abortMessage =>
      refine hm.pop.bind ?_
      intro _ _
      exact .error trivial
  | throw =>
      refine hm.pop.bind ?_
      rintro ⟨v, n⟩ ⟨hv, hn⟩
      exact throwValue_meets hn hv
  | enterTry reach => exact enterTry_meets code _
  | endTry reach => exact endTry_meets code _
  | endFinally => exact endFinally_meets m
  | ret => exact .ok hm.leave
  | _ => exact (executeStraight_meets hbound rfl).mono fun _ hproceeds => hproceeds.toEvolves

/-! ## Steps -/

/-- The innermost invocation has gone on to another address, which has no part in what becomes of
values. -/
theorem Evolves.of_moved {m m' : Machine} {frame : Frame} {outer : List Frame} {address : Nat}
    (hframes : m.frames = frame :: outer)
    (h : Evolves extra { m with frames := { frame with ip := address } :: outer } m') :
    Evolves extra m m' := by
  -- Both machines hold the same values, so what is known of the one is known of the other.
  have hall : ∀ P, m.All P → All P { m with frames := { frame with ip := address } :: outer } := by
    intro P hm
    have hslots := hm.of_frames_eq hframes
    exact { hm with frames := List.forall_mem_cons.2 ⟨hslots.1.of_slots rfl rfl, hslots.2⟩ }
  have hknown : ∀ v, Known { m with frames := { frame with ip := address } :: outer } m'.heap v →
      m.Known m'.heap v := by
    intro v hv
    refine hv.imp (all_iff.1 (hall _ (all_known m m'.heap)))
      (fun _ hlow hhigh => .array hlow hhigh) ?_
    intro cell hlow hhigh hnests
    exact .struct hlow hhigh fun hm => hnests (all_iff.1 (hall _ (all_iff.2 hm)))
  refine ⟨h.size_le, h.nests, h.within, ?_, h.stack, ?_⟩
  · exact all_iff.2 fun v hv => hknown v (all_iff.1 h.values v hv)
  · rw [hframes]
    exact h.frames

/-- The instruction that the innermost invocation is at. -/
def IsAt (code : Code) (m : Machine) (ins : Instruction) : Prop :=
  ∃ frame outer, m.frames = frame :: outer ∧ frame.ip < code.size ∧ decodeAt code frame.ip = .ok ins

/-- What a step can do. -/
theorem step_meets (hbound : m.heap.Within bound) :
    Result.Meets (Fault.Explained m (∃ ins, IsAt code m ins ∧ PicksLast ins.op m))
      (Evolves (bound + 1) m) (step code m) := by
  unfold step
  split
  · exact .error trivial
  · rename_i frame outer hframes
    split
    · rename_i hip
      split
      · exact .error trivial
      · rename_i ins hdecode
        have hbehind : Heap.Within bound
            { m with frames := { frame with ip := ins.next } :: outer : Machine }.heap := hbound
        refine ((execute_meets hbehind ins).mono ?_).of_faults ?_
        · intro m' hm'
          exact hm'.of_moved hframes
        · intro f hf
          refine hf.imp rfl rfl ?_
          intro hlast
          exact ⟨ins, ⟨frame, outer, hframes, hip, hdecode⟩, hlast⟩
    · exact .ok (Popped.refl m).leave

/-- Every heap has a largest cell. -/
theorem exists_within (heap : Heap) : ∃ bound, heap.Within bound := by
  have hsizes : ∀ cells : List (Array Value), ∃ bound, ∀ items ∈ cells, items.size ≤ bound := by
    intro cells
    induction cells with
    | nil => exact ⟨0, by simp⟩
    | cons items rest ih =>
        obtain ⟨bound, hrest⟩ := ih
        refine ⟨max items.size bound, List.forall_mem_cons.2 ⟨Nat.le_max_left _ _, ?_⟩⟩
        intro other hother
        exact Nat.le_trans (hrest other hother) (Nat.le_max_right _ _)
  obtain ⟨bound, hbound⟩ := hsizes heap.cells.toList
  refine ⟨max maxCollection bound, Nat.le_max_left _ _, fun cell => ?_⟩
  unfold Heap.items
  rw [Array.getD_eq_getD_getElem?]
  cases hcell : heap.cells[cell]? with
  | none => simp
  | some items =>
      have hle := hbound items (Array.mem_toList_iff.2 (Array.mem_of_getElem? hcell))
      exact Nat.le_trans hle (Nat.le_max_right _ _)

/-- A step makes no value out of nothing, and the stack grows by one collection at most. -/
theorem evolves_of_step (hbound : m.heap.Within bound) (h : step code m = .ok m') :
    Evolves (bound + 1) m m' := by
  have hmeets := @step_meets _ _ code hbound
  rw [h] at hmeets
  cases hmeets with
  | ok hevolves => exact hevolves

/-- Every fault of a step has a reason in the machine. -/
theorem explained_of_step {f : Fault} (h : step code m = .error f) :
    f.Explained m (∃ ins, IsAt code m ins ∧ PicksLast ins.op m) := by
  obtain ⟨bound, hbound⟩ := exists_within m.heap
  have hmeets := @step_meets _ _ code hbound
  rw [h] at hmeets
  cases hmeets with
  | error hexplained => exact hexplained

/-! ## Runs -/

/-- What steps keep holds after any number of them, which may be counted. -/
theorem advance_induction {I : Nat → Machine → Prop}
    (hstep : ∀ k n n', I k n → step code n = .ok n' → I (k + 1) n') {k : Nat} (hm : I k m)
    {count : Nat} (h : advance code count m = .ok m') : I (k + count) m' := by
  induction count generalizing k m with
  | zero =>
      cases h
      exact hm
  | succ count ih =>
      obtain ⟨next, hnext, hrest⟩ := Sequencing.bind_eq_ok.1 h
      rw [Nat.add_succ, ← Nat.succ_add]
      exact ih (hstep k m next hm hnext) hrest

/-- What a step keeps, a run keeps. -/
theorem reaches_induction {I : Machine → Prop}
    (hstep : ∀ n n', I n → step code n = .ok n' → I n') (hm : I m) (h : Reaches code m m') :
    I m' := by
  obtain ⟨count, hcount⟩ := h
  exact advance_induction (I := fun _ => I) (k := 0) (fun _ n n' => hstep n n') hm hcount

end Machine
end NeoScript
