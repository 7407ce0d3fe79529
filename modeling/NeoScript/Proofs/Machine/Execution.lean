import NeoScript.Proofs.Machine.Operations
import NeoScript.Proofs.Opcode

/-!
# Execution — one instruction on related machines

* `Instruction.Moved` — the same instruction at another place: its reach may have grown, and its
  addresses are those that stand for the old ones;
* `Machine.Related.execute` — such instructions take related machines to related results.
-/

namespace NeoScript

/-! ## Moved instructions -/

/-- Handler offsets of an instruction and of its moved form: both absent, or leading to addresses
that stand for one another. -/
inductive HandlerMoved (φ : Nat → Nat → Prop) (code code' : Code) (pc pc' : Nat) :
    Int → Int → Prop where
  | absent : HandlerMoved φ code code' pc pc' 0 0
  | present {a b : Int} {p q : Nat} : a ≠ 0 → b ≠ 0 → Machine.addressFrom code pc a = .ok p →
      Machine.addressFrom code' pc' b = .ok q → φ p q → HandlerMoved φ code code' pc pc' a b

/-- The same instruction, up to its reach and the addresses that it names. -/
structure Instruction.Moved (φ : Nat → Nat → Prop) (code code' : Code) (i j : Instruction) :
    Prop where
  op : i.op.toLong = j.op.toLong
  operand : i.op.hasSingleTarget = false → i.op.isTry = false → i.operand = j.operand
  target : i.op.hasSingleTarget = true →
    ∃ p q, Machine.targetOf code i = .ok p ∧ Machine.targetOf code' j = .ok q ∧ φ p q
  handlers : i.op.isTry = true → ∃ a b a' b',
    i.handlerOffsets? = some (a, b) ∧ j.handlerOffsets? = some (a', b') ∧
      HandlerMoved φ code code' i.pc j.pc a a' ∧ HandlerMoved φ code code' i.pc j.pc b b'

namespace Instruction

variable {i j : Instruction}

theorem byte0?_eq (h : i.operand = j.operand) : i.byte0? = j.byte0? := by
  simp only [byte0?, unsignedAt?, operandSlice?, h]

theorem byte1?_eq (h : i.operand = j.operand) : i.byte1? = j.byte1? := by
  simp only [byte1?, unsignedAt?, operandSlice?, h]

/-- An operation that names no address is the same at another place. -/
theorem Moved.op_eq {φ : Nat → Nat → Prop} {code code' : Code} {op : Opcode}
    (h : i.Moved φ code code' j)
    (hop : i.op = op) (hsingle : op.hasSingleTarget = false) (htry : op.isTry = false) :
    j.op = op := by
  subst hop
  exact (Opcode.eq_of_toLong_eq hsingle htry h.op).symm

end Instruction

namespace Machine.Related

variable {φ inner ψ : Nat → Nat → Prop} {m m' : Machine} {code code' : Code} {i j : Instruction}

/-! ## Slots -/

theorem slots? (hm : Machine.Related φ inner ψ m m') (slot : Slot) :
    Option.Rel (ItemsRelated φ) (m.slots? slot) (m'.slots? slot) := by
  have hframes := hm.frames
  cases slot with
  | statics => exact hm.statics
  | locals =>
      unfold Machine.slots?
      generalize m.frames = fs, m'.frames = fs' at hframes
      cases hframes with
      | nil => exact .none
      | cons hf _ => exact hf.locals
  | arguments =>
      unfold Machine.slots?
      generalize m.frames = fs, m'.frames = fs' at hframes
      cases hframes with
      | nil => exact .none
      | cons hf _ => exact hf.arguments

theorem setSlots (hm : Machine.Related φ inner ψ m m') (slot : Slot) {xs ys : Array Value}
    (hitems : ItemsRelated φ xs ys) :
    Machine.Related φ inner ψ (m.setSlots slot xs) (m'.setSlots slot ys) := by
  obtain ⟨stack, frames, statics, pending, heap⟩ := m
  obtain ⟨stack', frames', statics', pending', heap'⟩ := m'
  obtain ⟨hstack, hframes, hstatics, hpending, hheap⟩ := hm
  dsimp only at hstack hframes hstatics hpending hheap
  cases slot with
  | statics => exact ⟨hstack, hframes, .some hitems, hpending, hheap⟩
  | locals =>
      cases hframes with
      | nil => exact ⟨hstack, .nil, hstatics, hpending, hheap⟩
      | cons hf houter =>
          exact ⟨hstack, .cons { hf with locals := .some hitems } houter, hstatics, hpending, hheap⟩
  | arguments =>
      cases hframes with
      | nil => exact ⟨hstack, .nil, hstatics, hpending, hheap⟩
      | cons hf houter =>
          exact ⟨hstack, .cons { hf with arguments := .some hitems } houter, hstatics, hpending,
            hheap⟩

theorem slotIndex (hop : i.op = j.op) (hoperand : i.operand = j.operand) (index : SlotIndex) :
    Result.Related φ Eq (Machine.slotIndex i index) (Machine.slotIndex j index) := by
  cases index with
  | fixed k => exact .ok rfl
  | operand =>
      simp only [Machine.slotIndex, Instruction.byte0?_eq hoperand, hop]
      split
      · exact .ok rfl
      · exact .fail _ rfl

/-- The index of a slot is part of the operation or of the operand, which both have in common. -/
theorem loadSlot (hm : Machine.Related φ inner ψ m m') (hop : i.op = j.op)
    (hoperand : i.operand = j.operand) (slot : Slot) (index : SlotIndex) :
    Result.Related φ (Machine.Related φ inner ψ) (m.loadSlot i slot index)
      (m'.loadSlot j slot index) := by
  refine (slotIndex hop hoperand index).bind ?_
  rintro k _ rfl
  have hslots := hm.slots? slot
  generalize m.slots? slot = a, m'.slots? slot = b at hslots
  cases hslots with
  | none => exact .fail _ rfl
  | @some xs ys hitems =>
      have hat := hitems k
      dsimp only
      generalize xs[k]? = a, ys[k]? = b at hat
      cases hat with
      | none => exact .fail _ rfl
      | some hv => exact .ok (hm.push hv)

theorem storeSlot (hm : Machine.Related φ inner ψ m m') (hop : i.op = j.op)
    (hoperand : i.operand = j.operand) (slot : Slot) (index : SlotIndex) :
    Result.Related φ (Machine.Related φ inner ψ) (m.storeSlot i slot index)
      (m'.storeSlot j slot index) := by
  refine (slotIndex hop hoperand index).bind ?_
  rintro k _ rfl
  refine hm.pop.bind ?_
  rintro ⟨v, n⟩ ⟨w, n'⟩ ⟨hv, hn⟩
  have hslots := hn.slots? slot
  dsimp only at hslots hv ⊢
  generalize n.slots? slot = a, n'.slots? slot = b at hslots
  cases hslots with
  | none => exact .fail _ rfl
  | some hitems =>
      dsimp only
      rw [hitems.size_eq]
      split
      · exact .ok (hn.setSlots slot (hitems.set k hv))
      · exact .fail _ rfl

theorem initStatics (hm : Machine.Related φ inner ψ m m') (hop : i.op = j.op)
    (hoperand : i.operand = j.operand) :
    Result.Related φ (Machine.Related φ inner ψ) (m.initStatics i) (m'.initStatics j) := by
  unfold Machine.initStatics
  rw [Instruction.byte0?_eq hoperand, hop]
  split
  · exact .fail _ rfl
  · exact .ok { hm with statics := .some (ItemsRelated.replicate _ .null) }

theorem initSlots (hm : Machine.Related φ inner ψ m m') (hop : i.op = j.op)
    (hoperand : i.operand = j.operand) :
    Result.Related φ (Machine.Related φ inner ψ) (m.initSlots i) (m'.initSlots j) := by
  unfold Machine.initSlots
  rw [Instruction.byte0?_eq hoperand, Instruction.byte1?_eq hoperand, hop]
  split
  · refine (popMany _ hm ItemsRelated.empty).bind ?_
    rintro ⟨xs, n⟩ ⟨ys, n'⟩ ⟨hitems, hn⟩
    exact hn.withFrame fun _ _ hf => .ok
      { hf with locals := .some (ItemsRelated.replicate _ .null), arguments := .some hitems }
  · exact .fail _ rfl

/-! ## Arithmetic -/

theorem popPair (hm : Machine.Related φ inner ψ m m') :
    Result.Related φ (fun a b => a.1 = b.1 ∧ With Eq φ inner ψ a.2 b.2) m.popPair m'.popPair := by
  refine hm.popInt.bind ?_
  rintro ⟨b, n⟩ ⟨_, n'⟩ ⟨rfl, hn⟩
  refine hn.popInt.bind ?_
  rintro ⟨a, k⟩ ⟨_, k'⟩ ⟨rfl, hk⟩
  exact .ok ⟨rfl, rfl, hk⟩

theorem popShift (hm : Machine.Related φ inner ψ m m') :
    Result.Related φ (fun a b => a.1 = b.1 ∧ With Eq φ inner ψ a.2 b.2) m.popShift m'.popShift := by
  refine hm.popInt.bind ?_
  rintro ⟨count, n⟩ ⟨_, n'⟩ ⟨rfl, hn⟩
  dsimp only at hn ⊢
  split
  · refine hn.popInt.bind ?_
    rintro ⟨a, k⟩ ⟨_, k'⟩ ⟨rfl, hk⟩
    exact .ok ⟨rfl, rfl, hk⟩
  · exact .fail _ rfl

/-- Integers are equal in related machines, so results and faults are. -/
theorem arithmetic (hm : Machine.Related φ inner ψ m m') (operation : Arith) :
    Result.Related φ (Machine.Related φ inner ψ) (m.arithmetic operation)
      (m'.arithmetic operation) := by
  cases operation <;> unfold Machine.arithmetic
  case shl | shr =>
    refine hm.popShift.bind ?_
    rintro ⟨a, n, k⟩ ⟨_, _, k'⟩ ⟨rfl, rfl, hk⟩
    exact hk.pushInt _
  case div | mod =>
    refine hm.popPair.bind ?_
    rintro ⟨a, b, k⟩ ⟨_, _, k'⟩ ⟨rfl, rfl, hk⟩
    dsimp only at hk ⊢
    split
    · exact .fail _ rfl
    · exact hk.pushInt _
  all_goals
    refine hm.popPair.bind ?_
    rintro ⟨a, b, k⟩ ⟨_, _, k'⟩ ⟨rfl, rfl, hk⟩
    exact hk.pushInt _

theorem popCondition (hm : Machine.Related φ inner ψ m m') (condition : Condition) :
    Result.Related φ (With Eq φ inner ψ) (m.popCondition condition)
      (m'.popCondition condition) := by
  cases condition with
  | always => exact .ok ⟨rfl, hm⟩
  | ifTrue => exact hm.popBool
  | ifFalse =>
      refine hm.popBool.bind ?_
      rintro ⟨b, n⟩ ⟨_, n'⟩ ⟨rfl, hn⟩
      exact .ok ⟨rfl, hn⟩
  | compare order =>
      refine hm.popPair.bind ?_
      rintro ⟨a, b, n⟩ ⟨_, _, n'⟩ ⟨rfl, rfl, hn⟩
      exact .ok ⟨rfl, hn⟩

/-! ## Collections -/

theorem unpack (hm : Machine.Related φ inner ψ m m') :
    Result.Related φ (Machine.Related φ inner ψ) m.unpack m'.unpack := by
  refine hm.popCell.bind ?_
  rintro ⟨cell, n⟩ ⟨_, n'⟩ ⟨rfl, hn⟩
  have hitems := hn.heap.items cell
  refine .ok { hn with stack := ?_ }
  dsimp only at hitems ⊢
  rw [hitems.size_eq]
  exact (hn.stack.append hitems.reverse).push (.int _)

theorem sizeOf (hm : Machine.Related φ inner ψ m m') {v w : Value} (hv : Value.Related φ v w) :
    Result.Related φ Eq (m.sizeOf v) (m'.sizeOf w) := by
  cases hv with
  | array cell => exact .ok (hm.heap.items cell).size_eq
  | struct cell => exact .ok (hm.heap.items cell).size_eq
  | bytes data => exact .ok rfl
  | _ => exact .fail _ rfl

theorem pickItem (hm : Machine.Related φ inner ψ m m') :
    Result.Related φ (Machine.Related φ inner ψ) m.pickItem m'.pickItem := by
  refine hm.popIndex.bind ?_
  rintro ⟨index, n⟩ ⟨_, n'⟩ ⟨rfl, hn⟩
  refine hn.popCell.bind ?_
  rintro ⟨cell, k⟩ ⟨_, k'⟩ ⟨rfl, hk⟩
  have hat := hk.heap.items cell index
  dsimp only at hat hk ⊢
  generalize (k.heap.items cell)[index]? = a, (k'.heap.items cell)[index]? = b at hat
  cases hat with
  | none => exact .fail _ rfl
  | some hv => exact .ok (hk.push hv)

theorem append (hm : Machine.Related φ inner ψ m m') :
    Result.Related φ (Machine.Related φ inner ψ) m.append m'.append := by
  refine hm.popStored.bind ?_
  rintro ⟨v, n⟩ ⟨w, n'⟩ ⟨hv, hn⟩
  refine hn.popCell.bind ?_
  rintro ⟨cell, k⟩ ⟨_, k'⟩ ⟨rfl, hk⟩
  dsimp only at hk ⊢
  rw [(hk.heap.items cell).size_eq]
  split
  · exact .ok { hk with heap := hk.heap.modify cell fun _ _ hitems => hitems.push hv }
  · exact .fail _ rfl

theorem setItem (hm : Machine.Related φ inner ψ m m') :
    Result.Related φ (Machine.Related φ inner ψ) m.setItem m'.setItem := by
  refine hm.popStored.bind ?_
  rintro ⟨v, n⟩ ⟨w, n'⟩ ⟨hv, hn⟩
  refine hn.popIndex.bind ?_
  rintro ⟨index, o⟩ ⟨_, o'⟩ ⟨rfl, ho⟩
  refine ho.popCell.bind ?_
  rintro ⟨cell, k⟩ ⟨_, k'⟩ ⟨rfl, hk⟩
  dsimp only at hk ⊢
  rw [(hk.heap.items cell).size_eq]
  split
  · exact .ok { hk with heap := hk.heap.modify cell fun _ _ hitems => hitems.set index hv }
  · exact .fail _ rfl

/-- A comparison of pointers has the same result because no address stands for two. -/
theorem popEqual (hm : Machine.Related φ inner ψ m m') (hφ : OneToOne φ) :
    Result.Related φ (With Eq φ inner ψ) m.popEqual m'.popEqual := by
  refine hm.pop.bind ?_
  rintro ⟨b, n⟩ ⟨b', n'⟩ ⟨hb, hn⟩
  refine hn.pop.bind ?_
  rintro ⟨a, k⟩ ⟨a', k'⟩ ⟨ha, hk⟩
  have hequal := hk.heap.equal? hφ ha hb
  dsimp only at hequal hk ⊢
  rw [hequal]
  split
  · exact .ok ⟨rfl, hk⟩
  · exact .fail _ rfl

/-! ## Instructions -/

theorem fillOf (hoperand : i.operand = j.operand) :
    Value.Related φ (Machine.fillOf i) (Machine.fillOf j) := by
  unfold Machine.fillOf
  rw [Instruction.byte0?_eq hoperand]
  split
  · exact .bool _
  · exact .int _
  · exact .bytes _
  · exact .null

/-- Instructions that do not transfer control leave invocations as they are. -/
theorem executeStraight (hm : Machine.Related φ inner ψ m m') (hφ : OneToOne φ)
    (hi : i.Moved φ code code' j) (hstraight : i.op.isBlockEnding = false) :
    Result.Related φ (Machine.Related φ inner ψ) (Machine.execute code i m)
      (Machine.execute code' j m') := by
  -- Of the instructions inside a block only a pointer push names an address; all others are the
  -- same in both codes, operand included.
  by_cases hpointer : i.op = .pushPointer
  · have hj : j.op = .pushPointer := Opcode.eq_pushPointer_of_toLong (hpointer ▸ hi.op)
    obtain ⟨p, q, hp, hq, hpq⟩ := hi.target (by rw [hpointer]; rfl)
    simp only [Machine.execute, hpointer, hj, hp, hq]
    exact .ok (hm.push (.pointer hpq))
  · have hsingle := Opcode.hasSingleTarget_of_straight hstraight hpointer
    have htry := Opcode.isTry_of_straight hstraight
    have hop := Opcode.eq_of_toLong_eq hsingle htry hi.op
    have hoperand := hi.operand hsingle htry
    obtain ⟨pc, op, operand⟩ := i
    obtain ⟨pc', op', operand'⟩ := j
    dsimp only at hop hoperand hstraight hpointer
    subst hop hoperand
    cases op with
    | pushInt | pushMinusOne | pushSmall => exact hm.pushInt _
    | pushTrue => exact .ok (hm.push (.bool true))
    | pushFalse => exact .ok (hm.push (.bool false))
    | pushNull => exact .ok (hm.push .null)
    | pushData width => exact .ok (hm.push (.bytes _))
    | nop => exact .ok hm
    | assert =>
        refine hm.popBool.bind ?_
        rintro ⟨b, n⟩ ⟨_, n'⟩ ⟨rfl, hn⟩
        dsimp only at hn ⊢
        split
        · exact .ok hn
        · exact .fail _ rfl
    | assertMessage =>
        refine hm.pop.bind ?_
        rintro ⟨v, n⟩ ⟨w, n'⟩ ⟨_, hn⟩
        refine hn.popBool.bind ?_
        rintro ⟨b, k⟩ ⟨_, k'⟩ ⟨rfl, hk⟩
        dsimp only at hk ⊢
        split
        · exact .ok hk
        · exact .fail _ rfl
    | depth =>
        refine .ok ?_
        rw [hm.stack.size_eq]
        exact hm.push (.int _)
    | drop =>
        refine hm.pop.bind ?_
        rintro ⟨v, n⟩ ⟨w, n'⟩ ⟨_, hn⟩
        exact .ok hn
    | nip =>
        refine hm.pop.bind ?_
        rintro ⟨v, n⟩ ⟨w, n'⟩ ⟨hv, hn⟩
        refine hn.pop.bind ?_
        rintro ⟨_, k⟩ ⟨_, k'⟩ ⟨_, hk⟩
        exact .ok (hk.push hv)
    | clear => exact .ok { hm with stack := ItemsRelated.empty }
    | dup =>
        refine (hm.peek 0).bind ?_
        intro v w hv
        exact .ok (hm.push hv)
    | overTop =>
        refine (hm.peek 1).bind ?_
        intro v w hv
        exact .ok (hm.push hv)
    | pick =>
        refine hm.popIndex.bind ?_
        rintro ⟨depth, n⟩ ⟨_, n'⟩ ⟨rfl, hn⟩
        refine (hn.peek depth).bind ?_
        intro v w hv
        exact .ok (hn.push hv)
    | tuck =>
        refine (hm.peek 0).bind ?_
        intro v w hv
        refine (hm.position 2).bind ?_
        rintro position _ rfl
        exact hm.insertAt position hv
    | swap => exact hm.reverseTop 2
    | rot =>
        refine (hm.position 3).bind ?_
        rintro position _ rfl
        refine (hm.removeAt position).bind ?_
        rintro ⟨v, n⟩ ⟨w, n'⟩ ⟨hv, hn⟩
        exact .ok (hn.push hv)
    | reverse3 => exact hm.reverseTop 3
    | reverse4 => exact hm.reverseTop 4
    | initStatics => exact hm.initStatics rfl rfl
    | initSlots => exact hm.initSlots rfl rfl
    | load slot index => exact hm.loadSlot rfl rfl slot index
    | store slot index => exact hm.storeSlot rfl rfl slot index
    | arith operation => exact hm.arithmetic operation
    | unary operation =>
        refine hm.popInt.bind ?_
        rintro ⟨x, n⟩ ⟨_, n'⟩ ⟨rfl, hn⟩
        exact hn.pushInt _
    | equal | notEqual =>
        refine (hm.popEqual hφ).bind ?_
        rintro ⟨b, n⟩ ⟨_, n'⟩ ⟨rfl, hn⟩
        exact .ok (hn.push (.bool _))
    | not =>
        refine hm.popBool.bind ?_
        rintro ⟨b, n⟩ ⟨_, n'⟩ ⟨rfl, hn⟩
        exact .ok (hn.push (.bool _))
    | boolAnd | boolOr =>
        refine hm.popBool.bind ?_
        rintro ⟨b, n⟩ ⟨_, n'⟩ ⟨rfl, hn⟩
        refine hn.popBool.bind ?_
        rintro ⟨a, k⟩ ⟨_, k'⟩ ⟨rfl, hk⟩
        exact .ok (hk.push (.bool _))
    | nonZero =>
        refine hm.popInt.bind ?_
        rintro ⟨x, n⟩ ⟨_, n'⟩ ⟨rfl, hn⟩
        exact .ok (hn.push (.bool _))
    | compare order =>
        refine hm.popPair.bind ?_
        rintro ⟨a, b, n⟩ ⟨_, _, n'⟩ ⟨rfl, rfl, hn⟩
        exact .ok (hn.push (.bool _))
    | min | max =>
        refine hm.popPair.bind ?_
        rintro ⟨a, b, n⟩ ⟨_, _, n'⟩ ⟨rfl, rfl, hn⟩
        exact hn.pushInt _
    | within =>
        refine hm.popInt.bind ?_
        rintro ⟨high, n⟩ ⟨_, n'⟩ ⟨rfl, hn⟩
        refine hn.popInt.bind ?_
        rintro ⟨low, k⟩ ⟨_, k'⟩ ⟨rfl, hk⟩
        refine hk.popInt.bind ?_
        rintro ⟨x, l⟩ ⟨_, l'⟩ ⟨rfl, hl⟩
        exact .ok (hl.push (.bool _))
    | newArray0 => exact .ok (hm.pushCell .array ItemsRelated.empty)
    | newArray =>
        refine hm.popCount.bind ?_
        rintro ⟨count, n⟩ ⟨_, n'⟩ ⟨rfl, hn⟩
        exact .ok (hn.pushCell .array (ItemsRelated.replicate _ .null))
    | newArrayOf =>
        refine hm.popCount.bind ?_
        rintro ⟨count, n⟩ ⟨_, n'⟩ ⟨rfl, hn⟩
        exact .ok (hn.pushCell .array (ItemsRelated.replicate _ (fillOf rfl)))
    | newStruct0 => exact .ok (hm.pushCell .struct ItemsRelated.empty)
    | newStruct =>
        refine hm.popCount.bind ?_
        rintro ⟨count, n⟩ ⟨_, n'⟩ ⟨rfl, hn⟩
        exact .ok (hn.pushCell .struct (ItemsRelated.replicate _ .null))
    | pack =>
        refine hm.popCount.bind ?_
        rintro ⟨count, n⟩ ⟨_, n'⟩ ⟨rfl, hn⟩
        refine (popMany count hn ItemsRelated.empty).bind ?_
        rintro ⟨xs, k⟩ ⟨ys, k'⟩ ⟨hitems, hk⟩
        exact .ok (hk.pushCell .array hitems)
    | unpack => exact hm.unpack
    | size =>
        refine hm.pop.bind ?_
        rintro ⟨v, n⟩ ⟨w, n'⟩ ⟨hv, hn⟩
        refine (hn.sizeOf hv).bind ?_
        rintro size _ rfl
        exact .ok (hn.push (.int _))
    | pickItem => exact hm.pickItem
    | append => exact hm.append
    | setItem => exact hm.setItem
    | isNull =>
        refine hm.pop.bind ?_
        rintro ⟨v, n⟩ ⟨w, n'⟩ ⟨hv, hn⟩
        refine .ok ?_
        dsimp only at hv hn ⊢
        rw [hv.isNull_eq]
        exact hn.push (.bool _)
    | pushPointer => exact absurd rfl hpointer
    | jump | call | callPointer | enterTry | endTry | endFinally | ret | throw | abort
    | abortMessage => exact absurd hstraight (by simp [Opcode.isBlockEnding, Opcode.isTerminal])
    -- The machine has no other operations.
    | _ => exact .fail _ rfl

/-- The handlers of a moved try are related. -/
theorem enterTry (hm : Machine.Related φ inner ψ m m') (hi : i.Moved φ code code' j)
    (htry : i.op.isTry = true) :
    Result.Related φ (Machine.Related φ inner ψ) (m.enterTry code i) (m'.enterTry code' j) := by
  obtain ⟨a, b, a', b', hoffsets, hoffsets', hcatch, hfinally⟩ := hi.handlers htry
  have hhandler : ∀ {a a' : Int}, HandlerMoved φ code code' i.pc j.pc a a' →
      Result.Related φ (Option.Rel φ) (Machine.handlerFrom code i.pc a)
        (Machine.handlerFrom code' j.pc a') := by
    intro a a' h
    cases h with
    | absent => exact .ok .none
    | present ha ha' hp hq hpq =>
        simp only [Machine.handlerFrom, ha, ha', if_false, hp, hq]
        exact .ok (.some hpq)
  -- A try without handlers is refused in both codes, since handlers are absent in both or in none.
  have hzero : (a = 0 ∧ b = 0) ↔ (a' = 0 ∧ b' = 0) := by
    cases hcatch <;> cases hfinally <;> simp_all
  simp only [Machine.enterTry, hoffsets, hoffsets', hzero]
  split
  · exact .fail _ rfl
  · refine (hhandler hcatch).bind ?_
    intro catchAt catchAt' hcatchAt
    refine (hhandler hfinally).bind ?_
    intro finallyAt finallyAt' hfinallyAt
    exact hm.withFrame fun _ _ hf => .ok
      { hf with handlers := .cons ⟨hcatchAt, hfinallyAt, .none, rfl⟩ hf.handlers }

/-- A moved end of a try block leads to related addresses, or puts them off. -/
theorem endTry (hm : Machine.Related φ inner ψ m m') (hle : ∀ p q, φ p q → ψ p q)
    (hi : i.Moved φ code code' j) (hsingle : i.op.hasSingleTarget = true) :
    Result.Related φ (Machine.Related φ ψ ψ) (m.endTry code i) (m'.endTry code' j) := by
  obtain ⟨p, q, hp, hq, hpq⟩ := hi.target hsingle
  simp only [Machine.endTry, hp, hq]
  refine hm.withFrame ?_
  intro f f' hf
  obtain ⟨ip, locals, arguments, handlers⟩ := f
  obtain ⟨ip', locals', arguments', handlers'⟩ := f'
  obtain ⟨_, hlocals, harguments, hhandlers⟩ := hf
  dsimp only at hlocals harguments hhandlers ⊢
  cases hhandlers with
  | nil => exact .fail _ rfl
  | @cons h h' rest rest' hh hrest =>
      have hfinally := hh.finallyAt
      dsimp only
      rw [hh.phase]
      split
      · exact .fail _ rfl
      · generalize h.finallyAt = a, h'.finallyAt = b at hfinally
        cases hfinally with
        | none => exact .ok ⟨hle _ _ hpq, hlocals, harguments, hrest⟩
        | some hab =>
            exact .ok ⟨hle _ _ hab, hlocals, harguments,
              .cons ⟨hh.catchAt, .some hab, .some hpq, rfl⟩ hrest⟩

end Machine.Related

/-- Control may go on with the next instruction, at once or after a call. -/
def Opcode.passesOn : Opcode → Bool
  | .jump .always _ => false
  | .endTry _ => false
  | .endFinally => false
  | op => !op.isTerminal

namespace Machine.Related

variable {φ inner ψ : Nat → Nat → Prop} {m m' : Machine} {code code' : Code} {i j : Instruction}

/-- A moved instruction takes related machines to related results.  Where the innermost invocation
would go on matters only if the instruction may let it. -/
theorem execute (hm : Machine.Related φ inner ψ m m') (hφ : OneToOne φ)
    (hle : ∀ p q, φ p q → ψ p q) (hi : i.Moved φ code code' j)
    (hinner : i.op.passesOn = true → ∀ p q, inner p q → ψ p q) :
    Result.Related φ (Machine.Related φ ψ ψ) (Machine.execute code i m)
      (Machine.execute code' j m') := by
  cases hop : i.op with
  | jump condition reach =>
      obtain ⟨reach', hj⟩ := Opcode.eq_jump_of_toLong (hop ▸ hi.op)
      obtain ⟨p, q, hp, hq, hpq⟩ := hi.target (by rw [hop]; rfl)
      have hjump : ∀ {n n' : Machine}, Machine.Related φ inner ψ n n' →
          Result.Related φ (Machine.Related φ ψ ψ) (n.jump code i) (n'.jump code' j) := by
        intro n n' hn
        simp only [Machine.jump, hp, hq]
        exact hn.goto (hle _ _ hpq)
      simp only [Machine.execute, hop, hj]
      -- Only a jump with a condition may fall through, so only then the next instructions must
      -- correspond.
      by_cases halways : condition = .always
      · subst halways
        exact hjump hm
      · refine (hm.popCondition condition).bind ?_
        rintro ⟨taken, n⟩ ⟨_, n'⟩ ⟨rfl, hn⟩
        dsimp only at hn ⊢
        split
        · exact hjump hn
        · have hpasses : i.op.passesOn = true := by
            rw [hop]
            cases condition <;> simp_all [Opcode.passesOn, Opcode.isTerminal]
          exact .ok (hn.settle (hinner hpasses))
  | call reach =>
      obtain ⟨reach', hj⟩ := Opcode.eq_call_of_toLong (hop ▸ hi.op)
      obtain ⟨p, q, hp, hq, hpq⟩ := hi.target (by rw [hop]; rfl)
      simp only [Machine.execute, hop, hj, hp, hq]
      exact .ok ((hm.settle (hinner (by rw [hop]; rfl))).call (hle _ _ hpq))
  | callPointer =>
      have hj : j.op = .callPointer := hi.op_eq hop rfl rfl
      simp only [Machine.execute, hop, hj]
      refine hm.pop.bind ?_
      rintro ⟨v, n⟩ ⟨w, n'⟩ ⟨hv, hn⟩
      cases hv with
      | pointer hpq => exact .ok ((hn.settle (hinner (by rw [hop]; rfl))).call (hle _ _ hpq))
      | _ => exact .fail _ rfl
  | enterTry reach =>
      obtain ⟨reach', hj⟩ := Opcode.eq_enterTry_of_toLong (hop ▸ hi.op)
      simp only [Machine.execute, hop, hj]
      exact (hm.enterTry hi (by rw [hop]; rfl)).mono
        fun _ _ h => h.settle (hinner (by rw [hop]; rfl))
  | endTry reach =>
      obtain ⟨reach', hj⟩ := Opcode.eq_endTry_of_toLong (hop ▸ hi.op)
      simp only [Machine.execute, hop, hj]
      exact hm.endTry hle hi (by rw [hop]; rfl)
  | endFinally =>
      have hj : j.op = .endFinally := hi.op_eq hop rfl rfl
      simp only [Machine.execute, hop, hj]
      exact hm.endFinally hle
  | ret =>
      have hj : j.op = .ret := hi.op_eq hop rfl rfl
      simp only [Machine.execute, hop, hj]
      exact .ok hm.leave
  | throw =>
      have hj : j.op = .throw := hi.op_eq hop rfl rfl
      simp only [Machine.execute, hop, hj]
      refine hm.pop.bind ?_
      rintro ⟨v, n⟩ ⟨w, n'⟩ ⟨hv, hn⟩
      exact hn.throwValue hle hv
  | abort =>
      have hj : j.op = .abort := hi.op_eq hop rfl rfl
      simp only [Machine.execute, hop, hj]
      exact .fail _ rfl
  | abortMessage =>
      have hj : j.op = .abortMessage := hi.op_eq hop rfl rfl
      simp only [Machine.execute, hop, hj]
      refine hm.pop.bind ?_
      intro _ _ _
      exact .fail _ rfl
  -- All that is left stays inside its block.
  | _ =>
      refine (hm.executeStraight hφ hi (by rw [hop]; rfl)).mono ?_
      intro _ _ h
      exact h.settle (hinner (by rw [hop]; rfl))

end Machine.Related

end NeoScript
