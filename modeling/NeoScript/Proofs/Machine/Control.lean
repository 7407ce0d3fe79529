import NeoScript.Proofs.Machine.Evolution
import NeoScript.Proofs.Script.Reading

/-!
# Control — which instructions pass control on to the next one

* `Handler.work`, `Machine.unwind_work` — an exception uses up what try blocks have left to do;
* `Machine.execute_transfers` — every instruction that ends a block transfers control, unless it is
  a jump;
* `Machine.FallsThrough` — a step that only goes on behind its instruction;
* `Machine.step_fallsThrough`, `Machine.isJump_of_fallsThrough` — the two for steps.
-/

namespace NeoScript

/-! ## Instructions at the end of a block -/

/-- How much a try block has left to do: body, catch block and finally block come one after the
other. -/
def Handler.work (h : Handler) : Nat :=
  match h.phase with
  | .body => 3
  | .handling => 2
  | .finishing => 1

/-- A handler has something left to do as long as it is there. -/
theorem Handler.work_pos (h : Handler) : 0 < h.work := by
  unfold work
  split <;> omega

namespace Machine

variable {m n m' m₀ : Machine} {risk : Prop} {frame : Frame} {outer : List Frame}

def handlersWork : List Handler → Nat
  | [] => 0
  | h :: rest => h.work + handlersWork rest

def work : List Frame → Nat
  | [] => 0
  | frame :: outer => handlersWork frame.handlers + work outer

/-- Only handlers count as work. -/
theorem work_eq_of_handlers {frames frames' : List Frame}
    (h : frames'.map (·.handlers) = frames.map (·.handlers)) : work frames' = work frames := by
  induction frames generalizing frames' with
  | nil => rw [List.map_eq_nil_iff.1 h]
  | cons frame outer ih =>
      obtain ⟨frame', outer', rfl, hframe, houter⟩ := List.map_eq_cons_iff.1 h
      simp only [work, hframe, ih houter]

/-- A handler that can still catch has more to do than one that cannot. -/
theorem one_lt_work_of_not_isSpent {h : Handler} (hspent : ¬ isSpent h = true) : 1 < h.work := by
  unfold isSpent at hspent
  unfold Handler.work
  split <;> simp_all

/-- Passing an exception to a handler uses up some of its work. -/
theorem unwindFrame_work (handlers : List Handler) :
    ∀ r ∈ unwindFrame frame outer n handlers,
      Result.Meets (Fault.Explained m₀ risk)
        (fun m' => work m'.frames < handlersWork handlers + work outer) r := by
  induction handlers with
  | nil => rintro r ⟨⟩
  | cons handler rest ih =>
      unfold unwindFrame
      split
      · -- A handler that can do nothing more is dropped.
        intro r hr
        refine (ih r hr).mono ?_
        intro m' hm'
        have hpos := handler.work_pos
        simp only [handlersWork]
        omega
      · rename_i hspent
        have hmore := one_lt_work_of_not_isSpent hspent
        split
        · -- The catch block takes the exception.
          rename_i hphase _
          rintro r ⟨⟩
          refine .ok ?_
          simp only [work, handlersWork, Handler.work, hphase]
          omega
        · -- The finally block runs, and the exception stays pending.
          rintro r ⟨⟩
          refine .ok ?_
          simp only [work, handlersWork]
          have hlast : Handler.work { handler with phase := .finishing } = 1 := rfl
          omega
        · rintro r ⟨⟩
          exact .error trivial

/-- An exception that finds a handler uses up what try blocks have left to do. -/
theorem unwind_work (frames : List Frame) :
    Result.Meets (Fault.Explained m₀ risk) (fun m' => work m'.frames < work frames)
      (n.unwind frames) := by
  induction frames with
  | nil => exact .error trivial
  | cons frame outer ih =>
      unfold unwind
      split
      · rename_i result hresult
        exact unwindFrame_work frame.handlers result hresult
      · refine ih.mono ?_
        intro m' hm'
        simp only [work]
        omega

/-- An invocation was entered or left, or the try blocks have more or less to do than before. -/
def Transfers (m m' : Machine) : Prop :=
  m'.frames.length ≠ m.frames.length ∨ work m'.frames ≠ work m.frames

/-- A try adds the work of its handler. -/
theorem enterTry_transfers (code : Code) (ins : Instruction) (hframes : m.frames = frame :: outer) :
    Result.Meets (Fault.Explained m₀ risk) (Transfers m) (m.enterTry code ins) := by
  unfold Machine.enterTry
  split
  · exact .error trivial
  · split
    · exact .error trivial
    · refine (handlerFrom_meets code _ _).bind ?_
      intro catchAt _
      refine (handlerFrom_meets code _ _).bind ?_
      intro finallyAt _
      simp only [withFrame, hframes]
      refine .ok (.inr ?_)
      simp only [hframes, work, handlersWork, Handler.work]
      omega

/-- The end of a try block takes work off. -/
theorem endTry_transfers (code : Code) (ins : Instruction) (hframes : m.frames = frame :: outer) :
    Result.Meets (Fault.Explained m₀ risk) (Transfers m) (m.endTry code ins) := by
  refine (targetOf_meets code ins).bind ?_
  intro resume _
  simp only [withFrame, hframes]
  cases hhandlers : frame.handlers with
  | nil => exact .error trivial
  | cons handler rest =>
      dsimp only
      split
      · exact .error trivial
      · rename_i hphase
        split
        · -- Body or catch block are done, and the finally block is left.
          refine .ok (.inr ?_)
          simp only [hframes, hhandlers, work, handlersWork, Handler.work]
          split
          · omega
          · omega
          · contradiction
        · -- Nothing is left, and the try block is gone.
          refine .ok (.inr ?_)
          have hpos := handler.work_pos
          simp only [hframes, hhandlers, work, handlersWork]
          omega

/-- So does the end of a finally block. -/
theorem endFinally_transfers (hframes : m.frames = frame :: outer) :
    Result.Meets (Fault.Explained m₀ risk) (Transfers m) m.endFinally := by
  simp only [Machine.endFinally, hframes]
  cases hhandlers : frame.handlers with
  | nil => exact .error trivial
  | cons handler rest =>
      have hpos := handler.work_pos
      dsimp only
      split
      · refine .ok (.inr ?_)
        simp only [hframes, hhandlers, work, handlersWork]
        omega
      · exact .error trivial
      · -- The try block is gone, and the pending exception uses up more.
        refine (unwind_work _).mono ?_
        intro m' hm'
        right
        simp only [hframes, hhandlers, work, handlersWork] at hm' ⊢
        omega

/-- Every instruction that ends a block transfers control, unless it is a jump: that may go on
behind itself. -/
theorem execute_transfers {code : Code} {ins : Instruction} (hframes : m.frames = frame :: outer)
    (hends : ins.op.isBlockEnding = true)
    (hjump : ∀ condition reach, ins.op ≠ .jump condition reach) :
    Result.Meets (Fault.Explained m₀ risk) (Transfers m) (execute code ins m) := by
  have hm := Popped.refl m
  obtain ⟨pc, op, operand⟩ := ins
  dsimp only at hends hjump ⊢
  cases op with
  | jump condition reach => exact absurd rfl (hjump condition reach)
  | call =>
      refine (targetOf_meets code _).bind ?_
      intro address _
      exact .ok (.inl (by simp [Machine.call]))
  | callPointer =>
      refine hm.pop.bind ?_
      rintro ⟨v, n⟩ ⟨-, hn⟩
      dsimp only at hn
      cases v with
      | pointer address => exact .ok (.inl (by simp [Machine.call, hn.frames]))
      | _ => exact .error trivial
  | enterTry => exact enterTry_transfers code _ hframes
  | endTry => exact endTry_transfers code _ hframes
  | endFinally => exact endFinally_transfers hframes
  | ret => exact .ok (.inl (by simp [Machine.leave, hframes]))
  | throw =>
      refine hm.pop.bind ?_
      rintro ⟨v, n⟩ ⟨-, hn⟩
      refine (unwind_work _).mono ?_
      intro m' hm'
      rw [hn.frames] at hm'
      exact .inr (Nat.ne_of_lt hm')
  | abort => exact .error trivial
  | abortMessage =>
      refine hm.pop.bind ?_
      intro _ _
      exact .error trivial
  | _ => cases hends

/-! ## Steps -/

/-- The step goes on at an address and leaves the rest of control alone: the number of invocations,
all but the innermost, the try blocks of each, and the pending exception. -/
structure FallsThrough (address : Nat) (m m' : Machine) : Prop where
  length : m'.frames.length = m.frames.length
  ip : m'.frames.head?.map (·.ip) = some address
  outer : m'.frames.tail = m.frames.tail
  handlers : m'.frames.map (·.handlers) = m.frames.map (·.handlers)
  pending : m'.pending = m.pending

namespace FallsThrough

theorem refl {address : Nat} (hip : m.frames.head?.map (·.ip) = some address) :
    FallsThrough address m m :=
  ⟨rfl, hip, rfl, rfl, rfl⟩

theorem trans {a b : Nat} (h : FallsThrough a m n) (h' : FallsThrough b n m') :
    FallsThrough b m m' :=
  ⟨h'.length.trans h.length, h'.ip, h'.outer.trans h.outer, h'.handlers.trans h.handlers,
    h'.pending.trans h.pending⟩

/-- Falling through and transferring control exclude each other. -/
theorem not_transfers {address : Nat} (h : FallsThrough address m m') : ¬ Transfers m m' := by
  rintro (hlength | hwork)
  · exact hlength h.length
  · exact hwork (work_eq_of_handlers h.handlers)

/-- The innermost invocation had gone on to the address before. -/
theorem of_moved {address : Nat} (hframes : m.frames = frame :: outer)
    (h : SameControl { m with frames := { frame with ip := address } :: outer } m') :
    FallsThrough address m m' := by
  have hhandlers : m'.frames.map (·.handlers) = m.frames.map (·.handlers) := by
    rw [h.handlers, hframes]
    rfl
  refine ⟨?_, h.ip, ?_, hhandlers, h.pending⟩
  · simpa using congrArg List.length hhandlers
  · rw [h.outer, hframes]
    rfl

end FallsThrough

variable {code : Code} {ins : Instruction}

/-- A step executes the instruction at which the innermost frame stands. -/
theorem step_eq_execute (hframes : m.frames = frame :: outer)
    (hdecode : decodeAt code frame.ip = .ok ins) :
    step code m =
      execute code ins { m with frames := { frame with ip := frame.ip + ins.size } :: outer } := by
  have hpc : ins.next = frame.ip + ins.size := by
    rw [Instruction.next, (decodeAt_eq_ok_iff.1 hdecode).1]
  have hip : frame.ip < code.size := by
    by_contra hbehind
    have hnone : code[frame.ip]? = none := Array.getElem?_eq_none (by omega)
    simp [decodeAt, hnone] at hdecode
  simp only [step, hframes, if_pos hip, hdecode, hpc]

/-- A step inside a block goes on behind its instruction. -/
theorem step_fallsThrough (hframes : m.frames = frame :: outer)
    (hdecode : decodeAt code frame.ip = .ok ins)
    (hstraight : ins.op.isBlockEnding = false) (hstep : step code m = .ok m') :
    FallsThrough (frame.ip + ins.size) m m' := by
  rw [step_eq_execute hframes hdecode] at hstep
  obtain ⟨bound, hbound⟩ := exists_within m.heap
  let moved : Machine := { m with frames := { frame with ip := frame.ip + ins.size } :: outer }
  have hmeets := @executeStraight_meets moved bound code hbound ins hstraight
  rw [hstep] at hmeets
  cases hmeets with
  | ok hproceeds => exact .of_moved hframes hproceeds.toSameControl

/-- Of the instructions that end a block, only jumps may go on behind themselves. -/
theorem isJump_of_fallsThrough (hframes : m.frames = frame :: outer)
    (hdecode : decodeAt code frame.ip = .ok ins) (hends : ins.op.isBlockEnding = true)
    (hstep : step code m = .ok m') {address : Nat} (hfalls : FallsThrough address m m') :
    ∃ condition reach, ins.op = .jump condition reach := by
  by_contra hjump
  rw [step_eq_execute hframes hdecode] at hstep
  let moved : Machine := { m with frames := { frame with ip := frame.ip + ins.size } :: outer }
  have hmeets : Result.Meets (Fault.Explained m True) (Transfers moved) (execute code ins moved) :=
    execute_transfers rfl hends fun condition reach hop => hjump ⟨condition, reach, hop⟩
  rw [hstep] at hmeets
  cases hmeets with
  | ok htransfers =>
      -- Where the innermost invocation goes on counts neither as an invocation nor as work.
      refine hfalls.not_transfers ?_
      unfold Transfers at htransfers ⊢
      rw [hframes]
      exact htransfers

end Machine

end NeoScript
