import NeoScript.Proofs.Machine.Provenance

/-!
# Changes — what the parts of an instruction do to a machine

One lemma for each way in which an instruction changes a machine once its operands are popped.

* Inside a block it pushes and reorders (`Popped.push`, `Popped.restack`), sets slots
  (`Popped.reslot`), allocates a cell (`Popped.pushCell`) or keeps a copy in one
  (`proceeds_of_stored`).
* At the end of a block it enters and leaves invocations (`Popped.call`, `Popped.withFrame`) or
  passes an exception to a handler (`unwind_meets`).
-/

namespace NeoScript
namespace Machine

variable {m n m' m₀ : Machine} {extra bound : Nat} {risk : Prop} {h : Heap} {v : Value}

/-! ## Stacks -/

/-- A step that leaves the heap alone. -/
theorem Evolves.of_all (hheap : m'.heap = m.heap) (hall : m'.All (m.Known m.heap))
    (hstack : m'.stack.size ≤ m.stack.size + extra)
    (hframes : m'.frames.length ≤ m.frames.length + 1) : Evolves extra m m' := by
  refine ⟨?_, ?_, ?_, hheap ▸ hall, hstack, hframes⟩
  · rw [hheap]
  · intro cell inner _ hnests
    exact .inl (hheap ▸ hnests)
  · intro bound hwithin
    rwa [hheap]

/-- Every value of a machine is one that it knows. -/
theorem all_known (m : Machine) (h : Heap) : m.All (m.Known h) :=
  all_iff.2 fun _ hv => .held hv

namespace Popped

/-- Popping leaves only values that were there. -/
theorem all (hn : Popped m n) (h : Heap) : n.All (m.Known h) := by
  have hall := all_known m h
  exact ⟨fun v hv => hall.stack v (hn.mem v hv), hn.frames ▸ hall.frames, hn.statics ▸ hall.statics,
    hn.pending ▸ hall.pending, hn.heap ▸ hall.cells⟩

theorem length_frames (hn : Popped m n) : n.frames.length ≤ m.frames.length + 1 := by
  rw [hn.frames]
  omega

/-- Popping leaves invocations and the exception alone. -/
theorem sameControl (hn : Popped m n) (hframes : m'.frames = n.frames)
    (hpending : m'.pending = n.pending) : SameControl m m' := by
  have hall := hframes.trans hn.frames
  exact ⟨by rw [hall], by rw [hall], by rw [hall], hpending.trans hn.pending⟩

/-- Popping is a change that leaves control as it is. -/
theorem proceeds (hn : Popped m n) : Proceeds extra m n := by
  have hsize := hn.size_le
  exact ⟨.of_all hn.heap (hn.all _) (by omega) hn.length_frames, hn.sameControl rfl rfl⟩

/-- The stack is replaced. -/
theorem restack (hn : Popped m n) {stack : Array Value} (hvalues : ∀ v ∈ stack, m.Known m.heap v)
    (hsize : stack.size ≤ m.stack.size + extra) : Proceeds extra m { n with stack } :=
  ⟨.of_all hn.heap { hn.all m.heap with stack := hvalues } hsize hn.length_frames,
    hn.sameControl rfl rfl⟩

theorem push (hn : Popped m n) (hv : m.Known m.heap v) : Proceeds (extra + 1) m (n.push v) := by
  have hsize := hn.size_le
  refine hn.restack ?_ (by rw [Array.size_push]; omega)
  intro w hw
  rcases Array.mem_push.1 hw with hw | rfl
  · exact .held (.stack (hn.mem w hw))
  · exact hv

/-- Pushing an integer adds one value, or the integer is out of range. -/
theorem pushInt (hn : Popped m n) (i : Int) :
    Result.Meets (Fault.Explained m₀ risk) (Proceeds (extra + 1) m) (n.pushInt i) := by
  unfold Machine.pushInt
  split
  · rename_i hrange
    exact .ok (hn.push (.int hrange))
  · exact .error trivial

/-- Reversing items moves them and adds none. -/
theorem reverseTop (hn : Popped m n) (count : Nat) :
    Result.Meets (Fault.Explained m₀ risk) (Proceeds extra m) (n.reverseTop count) := by
  refine (position_meets n count).bind ?_
  intro p hp
  have hperm := swapTop_perm n.stack (n.stack.size - p)
  have hsize := hn.size_le
  unfold Machine.reverseFrom
  rw [if_pos (by omega)]
  refine .ok (hn.restack ?_ ?_)
  · intro v hv
    exact .held (.stack (hn.mem v (hperm.mem_iff.1 hv)))
  · rw [hperm.size_eq]
    omega

/-- An item of the stack may be put in at another position. -/
theorem insertAt (hn : Popped m n) {p : Nat} (hp : p ≤ n.stack.size) (hv : v ∈ m.stack) :
    Result.Meets (Fault.Explained m₀ risk) (Proceeds (extra + 1) m) (n.insertAt p v) := by
  have hsize := hn.size_le
  unfold Machine.insertAt
  rw [dif_pos hp]
  refine .ok (hn.restack ?_ ?_)
  · intro w hw
    rcases Array.mem_insertIdx.1 hw with rfl | hw
    · exact .held (.stack hv)
    · exact .held (.stack (hn.mem w hw))
  · rw [Array.size_insertIdx]
    omega

/-- An item that is taken out was on the stack. -/
theorem removeAt (hn : Popped m n) {p : Nat} (hp : p < n.stack.size) :
    Result.Meets (Fault.Explained m₀ risk) (fun r => r.1 ∈ m.stack ∧ Popped m r.2)
      (n.removeAt p) := by
  have hsize := hn.size_le
  unfold Machine.removeAt
  rw [dif_pos hp]
  refine .ok ⟨hn.mem _ (Array.getElem_mem hp), { hn with mem := ?_, size_le := ?_ }⟩
  · intro w hw
    exact hn.mem w (Array.mem_of_mem_eraseIdx hw)
  · simp only [Array.size_eraseIdx]
    omega

/-- The items of a collection are values that the machine knows. -/
theorem unpack (hn : Popped m n) (hbound : m.heap.Within bound) :
    Result.Meets (Fault.Explained m₀ risk) (Proceeds (bound + 1) m) n.unpack := by
  refine hn.popCell.bind ?_
  rintro ⟨cell, k⟩ ⟨-, hk⟩
  have hsize := hk.size_le
  have hcell := hbound.size_le cell
  dsimp only at hk hsize ⊢
  refine .ok (hk.restack ?_ ?_)
  · intro v hv
    rcases Array.mem_push.1 hv with hv | rfl
    · rcases Array.mem_append.1 hv with hv | hv
      · exact .held (.stack (hk.mem v hv))
      · rw [Array.mem_reverse, hk.heap] at hv
        exact .held (.cell hv)
    · exact .int (inRange_signed _)
  · rw [hk.heap, Array.size_push, Array.size_append, Array.size_reverse]
    omega

/-! ## Invocations and slots -/

/-- The innermost frame may be changed as long as it holds known values. -/
theorem withFrame (hn : Popped m n) {f : Frame → Except Fault Frame}
    (hf : ∀ frame, frame.All (m.Known m.heap) →
      Result.Meets (Fault.Explained m₀ risk) (Frame.All (m.Known m.heap)) (f frame)) :
    Result.Meets (Fault.Explained m₀ risk) (Evolves extra m) (n.withFrame f) := by
  have hall := hn.all m.heap
  have hsize := hn.size_le
  have hlength := hn.length_frames
  unfold Machine.withFrame
  split
  · exact .error trivial
  · rename_i frame outer hframes
    rw [hframes] at hlength
    have hslots := hall.of_frames_eq hframes
    refine (hf frame hslots.1).bind ?_
    intro changed hchanged
    refine .ok (.of_all hn.heap { hall with frames := ?_ } (by dsimp only; omega) hlength)
    exact List.forall_mem_cons.2 ⟨hchanged, hslots.2⟩

theorem goto (hn : Popped m n) (address : Nat) :
    Result.Meets (Fault.Explained m₀ risk) (Evolves extra m) (n.goto address) :=
  hn.withFrame fun _ hframe => .ok (hframe.of_slots rfl rfl)

theorem call (hn : Popped m n) (address : Nat) : Evolves extra m (n.call address) := by
  have hall := hn.all m.heap
  have hsize := hn.size_le
  refine .of_all hn.heap { hall with frames := ?_ } (by dsimp only [Machine.call]; omega) ?_
  · refine List.forall_mem_cons.2 ⟨⟨?_, ?_⟩, hall.frames⟩
    · intro xs hxs
      cases hxs
    · intro xs hxs
      cases hxs
  · simp only [Machine.call, List.length_cons, hn.frames]
    omega

theorem leave (hn : Popped m n) : Evolves extra m n.leave := by
  have hall := hn.all m.heap
  have hsize := hn.size_le
  refine .of_all hn.heap { hall with frames := ?_ } (by dsimp only [Machine.leave]; omega) ?_
  · intro f hf
    exact hall.frames f (List.mem_of_mem_tail hf)
  · simp only [Machine.leave, List.length_tail, hn.frames]
    omega

theorem slots? (hn : Popped m n) (slot : Slot) {xs : Array Value} (hxs : n.slots? slot = some xs) :
    ∀ v ∈ xs, m.Known m.heap v := by
  have hall := hn.all m.heap
  cases slot with
  | statics => exact hall.statics xs hxs
  | locals =>
      obtain ⟨f, hf, hlocals⟩ := Option.bind_eq_some_iff.1 hxs
      exact (hall.frames f (List.mem_of_head? hf)).locals xs hlocals
  | arguments =>
      obtain ⟨f, hf, harguments⟩ := Option.bind_eq_some_iff.1 hxs
      exact (hall.frames f (List.mem_of_head? hf)).arguments xs harguments

/-- The innermost invocation gets other slots. -/
theorem reslot (hn : Popped m n) {frame frame' : Frame} {outer : List Frame}
    (hframes : n.frames = frame :: outer) (hslots : frame'.All (m.Known m.heap))
    (hip : frame'.ip = frame.ip) (hhandlers : frame'.handlers = frame.handlers) :
    Proceeds extra m { n with frames := frame' :: outer } := by
  have hall := hn.all m.heap
  have hsize := hn.size_le
  have hlength := hn.length_frames
  rw [hframes] at hlength
  have houter := (hall.of_frames_eq hframes).2
  refine ⟨.of_all hn.heap { hall with frames := ?_ } (by dsimp only; omega) hlength, ?_⟩
  · exact List.forall_mem_cons.2 ⟨hslots, houter⟩
  · exact .of_inner (hn.frames.symm.trans hframes) rfl hip hhandlers hn.pending

theorem setSlots (hn : Popped m n) (slot : Slot) {xs : Array Value}
    (hxs : ∀ v ∈ xs, m.Known m.heap v) : Proceeds extra m (n.setSlots slot xs) := by
  have hall := hn.all m.heap
  have hsize := hn.size_le
  have hsome : ∀ ys, some xs = some ys → ∀ v ∈ ys, m.Known m.heap v := by
    rintro ys ⟨⟩
    exact hxs
  unfold Machine.setSlots
  split
  · exact ⟨.of_all hn.heap { hall with statics := hsome } (by dsimp only; omega) hn.length_frames,
      hn.sameControl rfl rfl⟩
  · rename_i frame outer hframes
    exact hn.reslot hframes ⟨hsome, (hall.of_frames_eq hframes).1.arguments⟩ rfl rfl
  · rename_i frame outer hframes
    exact hn.reslot hframes ⟨(hall.of_frames_eq hframes).1.locals, hsome⟩ rfl rfl
  · exact hn.proceeds

end Popped

theorem slotIndex_meets (ins : Instruction) (index : SlotIndex) :
    Result.Meets (Fault.Explained m₀ risk) (fun _ => True) (slotIndex ins index) := by
  unfold slotIndex
  split
  · exact .ok trivial
  · split
    · exact .ok trivial
    · exact .error trivial

theorem loadSlot_meets (ins : Instruction) (slot : Slot) (index : SlotIndex) :
    Result.Meets (Fault.Explained m₀ risk) (Proceeds (extra + 1) m)
      (m.loadSlot ins slot index) := by
  refine (slotIndex_meets ins index).bind ?_
  intro i _
  split
  · exact .error trivial
  · rename_i values hvalues
    split
    · rename_i value hvalue
      exact .ok ((Popped.refl m).push
        ((Popped.refl m).slots? slot hvalues value (Array.mem_of_getElem? hvalue)))
    · exact .error trivial

theorem storeSlot_meets (ins : Instruction) (slot : Slot) (index : SlotIndex) :
    Result.Meets (Fault.Explained m₀ risk) (Proceeds extra m) (m.storeSlot ins slot index) := by
  refine (slotIndex_meets ins index).bind ?_
  intro i _
  refine (Popped.refl m).pop.bind ?_
  rintro ⟨value, n⟩ ⟨hvalue, hn⟩
  dsimp only at hvalue hn ⊢
  split
  · exact .error trivial
  · rename_i values hvalues
    split
    · refine .ok (hn.setSlots slot ?_)
      intro v hv
      rcases Array.mem_or_eq_of_mem_setIfInBounds hv with hv | rfl
      · exact hn.slots? slot hvalues v hv
      · exact .held (.stack hvalue)
    · exact .error trivial

theorem known_of_mem_replicate {count : Nat} {fill : Value} (hfill : m.Known h fill) :
    ∀ v ∈ Array.replicate count fill, m.Known h v := by
  intro v hv
  rw [(Array.mem_replicate.1 hv).2]
  exact hfill

theorem initStatics_meets (ins : Instruction) :
    Result.Meets (Fault.Explained m₀ risk) (Proceeds extra m) (m.initStatics ins) := by
  unfold Machine.initStatics
  split
  · exact .error trivial
  · rename_i count _
    have hstatics : Proceeds extra m (m.setSlots .statics (Array.replicate count .null)) :=
      (Popped.refl m).setSlots .statics (known_of_mem_replicate .null)
    exact .ok hstatics

/-- New slots hold arguments from the stack and nothing else. -/
theorem initSlots_meets (ins : Instruction) :
    Result.Meets (Fault.Explained m₀ risk) (Proceeds extra m) (m.initSlots ins) := by
  unfold Machine.initSlots
  split
  · refine (Popped.popMany _ (Popped.refl m)).bind ?_
    rintro ⟨arguments, n⟩ ⟨harguments, -, hn⟩
    dsimp only at harguments hn ⊢
    unfold Machine.withFrame
    split
    · exact .error trivial
    · rename_i frame outer hframes
      refine .ok (hn.reslot hframes ⟨?_, ?_⟩ rfl rfl)
      · rintro xs ⟨⟩
        exact known_of_mem_replicate .null
      · rintro xs ⟨⟩ v hv
        rcases harguments v hv with hnone | hv
        · simp at hnone
        · exact .held (.stack hv)
  · exact .error trivial

/-! ## Exceptions -/

/-- What control passing to a handler leaves of a machine. -/
structure Handled (P : Value → Prop) (n : Machine) (depth : Nat) (m' : Machine) : Prop where
  heap : m'.heap = n.heap
  all : m'.All P
  stack : m'.stack.size ≤ n.stack.size + 1
  frames : m'.frames.length ≤ depth

/-- A handler of the frame goes on with the values that are there. -/
theorem unwindFrame_meets {P : Value → Prop} {n : Machine} (hall : n.All P) {frame : Frame}
    (hframe : frame.All P) {outer : List Frame} (houter : ∀ f ∈ outer, f.All P)
    (handlers : List Handler) :
    ∀ r ∈ unwindFrame frame outer n handlers,
      Result.Meets (Fault.Explained m₀ risk) (Handled P n (outer.length + 1)) r := by
  induction handlers with
  | nil =>
      rintro r ⟨⟩
  | cons handler rest ih =>
      unfold unwindFrame
      split
      · exact ih
      · split
        · rintro r ⟨⟩
          refine .ok ⟨rfl, ⟨?_, ?_, hall.statics, ?_, hall.cells⟩, ?_, Nat.le_refl _⟩
          · dsimp only
            split
            · rename_i exception hpending
              intro v hv
              rcases Array.mem_push.1 hv with hv | rfl
              · exact hall.stack v hv
              · exact hall.pending v hpending
            · exact hall.stack
          · exact List.forall_mem_cons.2 ⟨hframe.of_slots rfl rfl, houter⟩
          · intro v hv
            cases hv
          · dsimp only
            split
            · rw [Array.size_push]
            · omega
        · rintro r ⟨⟩
          refine .ok ⟨rfl, { hall with frames := ?_ }, Nat.le_succ _, Nat.le_refl _⟩
          exact List.forall_mem_cons.2 ⟨hframe.of_slots rfl rfl, houter⟩
        · rintro r ⟨⟩
          exact .error trivial

/-- So does a handler of any frame; the frames inside it are left. -/
theorem unwind_meets {P : Value → Prop} {n : Machine} (hall : n.All P) (frames : List Frame)
    (hframes : ∀ f ∈ frames, f.All P) :
    Result.Meets (Fault.Explained m₀ risk) (Handled P n frames.length) (n.unwind frames) := by
  induction frames with
  | nil => exact .error trivial
  | cons frame outer ih =>
      rw [List.forall_mem_cons] at hframes
      have hfound : ∀ r ∈ unwindFrame frame outer n frame.handlers,
          Result.Meets (Fault.Explained m₀ risk) (Handled P n (outer.length + 1)) r :=
        unwindFrame_meets hall hframes.1 hframes.2 frame.handlers
      unfold unwind
      split
      · rename_i result hresult
        exact hfound result hresult
      · refine (ih hframes.2).mono ?_
        intro m' hm'
        exact { hm' with frames := Nat.le_succ_of_le hm'.frames }

/-- An exception is a value of the stack. -/
theorem throwValue_meets (hn : Popped m n) (hv : v ∈ m.stack) :
    Result.Meets (Fault.Explained m₀ risk) (Evolves (extra + 1) m) (n.throwValue v) := by
  have hall : All (m.Known m.heap) { n with pending := some v } := by
    refine { hn.all m.heap with pending := ?_ }
    rintro w ⟨⟩
    exact .held (.stack hv)
  have hsize := hn.size_le
  refine (unwind_meets hall _ hall.frames).mono ?_
  intro m' hm'
  have hstack := hm'.stack
  have hframes := hm'.frames
  dsimp only at hstack hframes
  rw [hn.frames] at hframes
  exact .of_all (hm'.heap.trans hn.heap) hm'.all (by omega) (by omega)

/-- The end of a finally block goes on with what it had put off. -/
theorem endFinally_meets (m : Machine) :
    Result.Meets (Fault.Explained m₀ risk) (Evolves (extra + 1) m) m.endFinally := by
  have hall := all_known m m.heap
  unfold Machine.endFinally
  split
  · exact .error trivial
  · rename_i frame outer hframes
    have hslots := hall.of_frames_eq hframes
    have hlength : m.frames.length = outer.length + 1 := by rw [hframes, List.length_cons]
    split
    · exact .error trivial
    · split
      · refine .ok (.of_all rfl { hall with frames := ?_ } (by dsimp only; omega) ?_)
        · exact List.forall_mem_cons.2 ⟨hslots.1.of_slots rfl rfl, hslots.2⟩
        · rw [List.length_cons]
          omega
      · exact .error trivial
      · rename_i handler rest _ _ _ _ _
        have hrest : All (m.Known m.heap)
            { m with frames := { frame with handlers := rest } :: outer } :=
          { hall with frames := List.forall_mem_cons.2 ⟨hslots.1.of_slots rfl rfl, hslots.2⟩ }
        refine (unwind_meets hrest _ hrest.frames).mono ?_
        intro m' hm'
        have hstack := hm'.stack
        have hframes' := hm'.frames
        simp only [List.length_cons] at hstack hframes'
        exact .of_all hm'.heap hm'.all (by omega) (by omega)

/-! ## Cells -/

/-- A new collection on top of the stack. -/
theorem Popped.pushCell (hn : Popped m n) {wrap : Nat → Value} {items : Array Value}
    (hitems : ∀ v ∈ items, m.Known m.heap v) (hsize : items.size ≤ maxCollection)
    (hwrap : m.Known (m.heap.alloc items).2 (wrap m.heap.cells.size)) :
    Proceeds (extra + 1) m (n.pushCell wrap items) := by
  have hstack := hn.size_le
  have hcells := Heap.size_alloc (h := m.heap) items
  -- Without a new cell there are no new collections, so what was known stays known.
  have hlater : ∀ w, m.Known m.heap w → m.Known (m.heap.alloc items).2 w := by
    intro w hw
    refine hw.imp (fun _ hheld => .held hheld) ?_ ?_
    · intro cell hlow hhigh
      omega
    · intro cell hlow hhigh _
      omega
  have heap_eq : (n.pushCell wrap items).heap = (m.heap.alloc items).2 := by
    simp only [Machine.pushCell, hn.heap]
  refine ⟨⟨?_, ?_, ?_, ?_, ?_, hn.length_frames⟩, hn.sameControl rfl rfl⟩
  · rw [heap_eq]
    omega
  · intro cell inner hcell hnests
    rw [heap_eq, Heap.Nests, Heap.items_alloc, if_neg (by omega)] at hnests
    exact .inl hnests
  · intro bound hwithin
    refine ⟨hwithin.le_bound, fun cell => ?_⟩
    rw [heap_eq, Heap.items_alloc]
    split
    · exact Nat.le_trans hsize hwithin.le_bound
    · exact hwithin.size_le cell
  · rw [heap_eq]
    refine { hn.all (m.heap.alloc items).2 with stack := ?_, cells := ?_ }
    · intro w hw
      rcases Array.mem_push.1 hw with hw | rfl
      · exact .held (.stack (hn.mem w hw))
      · rw [hn.heap]
        exact hwrap
    · intro cell w hw
      rw [heap_eq, Heap.items_alloc] at hw
      split at hw
      · exact hlater w (hitems w hw)
      · exact .held (.cell hw)
  · simp only [Machine.pushCell, Array.size_push]
    omega

theorem Popped.pushArray (hn : Popped m n) {items : Array Value}
    (hitems : ∀ v ∈ items, m.Known m.heap v) (hsize : items.size ≤ maxCollection) :
    Proceeds (extra + 1) m (n.pushCell .array items) :=
  hn.pushCell hitems hsize (.array (Nat.le_refl _) (by rw [Heap.size_alloc]; omega))

theorem Popped.pushStruct (hn : Popped m n) {count : Nat} (hsize : count ≤ maxCollection) :
    Proceeds (extra + 1) m (n.pushCell .struct (Array.replicate count .null)) := by
  refine hn.pushCell (known_of_mem_replicate .null) (by simpa using hsize) ?_
  refine .struct (Nat.le_refl _) (by rw [Heap.size_alloc]; omega) ?_
  intro _ inner hnests
  rw [Heap.Nests, Heap.items_alloc, if_pos rfl, Array.mem_replicate] at hnests
  cases hnests.2

/-- A struct of a copy is known: if the machine names cells of its heap only, the cell that changes
is an old one, so the struct is as it was copied. -/
theorem known_of_copied {heap : Heap} (hcopied : Heap.Copied m.heap heap) {cell : Nat}
    (hcell : .array cell ∈ m.stack ∨ .struct cell ∈ m.stack) {f : Array Value → Array Value}
    {t : Nat} (hlow : m.heap.cells.size ≤ t) (hhigh : t < heap.cells.size) :
    m.Known (heap.modify cell f) (.struct t) := by
  refine .struct hlow (by rwa [Heap.size_modify]) ?_
  intro hclosed inner hnests
  have hold : cell < m.heap.cells.size := by
    rcases hcell with hcell | hcell
    · exact hclosed _ (.stack hcell)
    · exact hclosed _ (.stack hcell)
  rw [Heap.Nests, Heap.items_modify, if_neg (by omega)] at hnests
  rcases hcopied.field t hlow _ hnests with ⟨hplain, -⟩ | ⟨t', heq, hlt, -⟩
  · exact absurd rfl (hplain inner)
  · cases heq
    exact hlt

/-- Copies are as long as what they were copied from. -/
theorem within_of_copied {h heap : Heap} (hcopied : Heap.Copied h heap) {cell : Nat}
    {f : Array Value → Array Value} (hsize : (f (heap.items cell)).size ≤ maxCollection ∨
      (f (heap.items cell)).size = (heap.items cell).size)
    {bound : Nat} (hwithin : h.Within bound) : (heap.modify cell f).Within bound := by
  have hcopies : ∀ c, (heap.items c).size ≤ bound := by
    intro c
    obtain ⟨source, hsource⟩ := hcopied.length c
    rw [hsource]
    exact hwithin.size_le source
  refine ⟨hwithin.le_bound, fun c => ?_⟩
  rw [Heap.items_modify]
  split
  · rcases hsize with hsize | hsize
    · exact Nat.le_trans hsize hwithin.le_bound
    · rw [hsize]
      exact hcopies cell
  · exact hcopies c

/-- A copy is kept in a cell that the stack names. -/
theorem proceeds_of_stored (hn : Popped m n) {heap : Heap} (hcopied : Heap.Copied m.heap heap)
    {w : Value} (hv : v ∈ m.stack) (hcopy : Heap.ValueCopy m.heap heap v w) {cell : Nat}
    (hcell : .array cell ∈ m.stack ∨ .struct cell ∈ m.stack) {f : Array Value → Array Value}
    (hmem : ∀ x ∈ f (heap.items cell), x ∈ heap.items cell ∨ x = w)
    (hsize : (f (heap.items cell)).size ≤ maxCollection ∨
      (f (heap.items cell)).size = (heap.items cell).size) :
    Proceeds extra m { n with heap := heap.modify cell f } := by
  have hstack := hn.size_le
  have hle := hcopied.size_le
  have hcells : (heap.modify cell f).cells.size = heap.cells.size := Heap.size_modify cell f
  -- Items are those of the copied heap, and the copy.
  have hitems : ∀ c x, x ∈ (heap.modify cell f).items c → x ∈ heap.items c ∨ x = w := by
    intro c x hx
    rw [Heap.items_modify] at hx
    split at hx
    · rename_i hc
      rw [hc.1]
      exact hmem x hx
    · exact .inl hx
  have hnew : m.Known (heap.modify cell f) w := by
    rcases hcopy with ⟨rfl, -⟩ | ⟨t, rfl, hlow, hhigh⟩
    · exact .held (.stack hv)
    · exact known_of_copied hcopied hcell hlow hhigh
  refine ⟨⟨by dsimp only; omega, ?_, fun _ =>
    within_of_copied hcopied hsize, ?_, by dsimp only; omega,
    hn.length_frames⟩, hn.sameControl rfl rfl⟩
  · intro c inner hc hnests
    rcases hitems c _ hnests with hold | hw
    · rw [hcopied.items_eq c hc] at hold
      exact .inl hold
    · rcases hcopy with ⟨rfl, hplain⟩ | ⟨t, rfl, hlow, -⟩
      · exact absurd hw.symm (hplain inner)
      · cases hw
        exact .inr hlow
  · refine { hn.all (heap.modify cell f) with cells := ?_ }
    intro c x hx
    rcases hitems c x hx with hx | rfl
    · by_cases hc : c < m.heap.cells.size
      · rw [hcopied.items_eq c hc] at hx
        exact .held (.cell hx)
      · rcases hcopied.field c (by omega) x hx with ⟨-, source, hsource⟩ | ⟨t, rfl, hlt, hhigh⟩
        · exact .held (.cell hsource)
        · exact known_of_copied hcopied hcell (by omega) hhigh
    · exact hnew

/-- Appending keeps a copy of a struct in the cell, and any other value as it is. -/
theorem append_meets (m : Machine) :
    Result.Meets (Fault.Explained m risk) (Proceeds extra m) m.append := by
  refine (Popped.refl m).popStored.bind ?_
  rintro ⟨w, n⟩ ⟨v, hv, hn, hcopied, hcopy⟩
  dsimp only at hn hcopied hcopy ⊢
  refine (Popped.refl n).popCell.bind ?_
  rintro ⟨cell, k⟩ ⟨hcell, hk⟩
  dsimp only at hcell hk ⊢
  rw [hk.heap]
  split
  · rename_i hroom
    refine .ok (proceeds_of_stored (hn.reheap hk) hcopied hv hcopy
      (hcell.imp (hn.mem _) (hn.mem _)) ?_ (.inl ?_))
    · intro x hx
      exact Array.mem_push.1 hx
    · rw [Array.size_push]
      exact hroom
  · exact .error trivial

/-- Setting an item keeps a copy of a struct in the cell, and any other value as it is. -/
theorem setItem_meets (m : Machine) :
    Result.Meets (Fault.Explained m risk) (Proceeds extra m) m.setItem := by
  refine (Popped.refl m).popStored.bind ?_
  rintro ⟨w, n⟩ ⟨v, hv, hn, hcopied, hcopy⟩
  dsimp only at hn hcopied hcopy ⊢
  refine (Popped.refl n).popIndex.bind ?_
  rintro ⟨index, l⟩ hl
  dsimp only at hl ⊢
  refine hl.popCell.bind ?_
  rintro ⟨cell, k⟩ ⟨hcell, hk⟩
  dsimp only at hcell hk ⊢
  rw [hk.heap]
  split
  · refine .ok (proceeds_of_stored (hn.reheap hk) hcopied hv hcopy
      (hcell.imp (hn.mem _) (hn.mem _)) ?_ (.inr ?_))
    · intro x hx
      exact Array.mem_or_eq_of_mem_setIfInBounds hx
    · rw [Array.size_setIfInBounds]
  · exact .error trivial

/-- A picked item is a value that the machine knows. -/
theorem pickItem_meets (m : Machine) :
    Result.Meets (Fault.Explained m₀ risk) (Proceeds (extra + 1) m) m.pickItem := by
  refine (Popped.refl m).popIndex.bind ?_
  rintro ⟨index, n⟩ hn
  refine hn.popCell.bind ?_
  rintro ⟨cell, k⟩ ⟨-, hk⟩
  dsimp only at hk ⊢
  split
  · rename_i value hvalue
    rw [hk.heap] at hvalue
    exact .ok (hk.push (.held (.cell (Array.mem_of_getElem? hvalue))))
  · exact .error trivial

theorem sizeOf_meets (m : Machine) (v : Value) :
    Result.Meets (Fault.Explained m₀ risk) (fun _ => True) (m.sizeOf v) := by
  cases v with
  | array cell => exact .ok trivial
  | struct cell => exact .ok trivial
  | bytes data => exact .ok trivial
  | _ => exact .error trivial

/-! ## Control -/

theorem addressFrom_meets (code : Code) (pc : Nat) (offset : Int) :
    Result.Meets (Fault.Explained m₀ risk) (fun _ => True) (addressFrom code pc offset) := by
  unfold addressFrom
  dsimp only
  split
  · exact .ok trivial
  · exact .error trivial

theorem targetOf_meets (code : Code) (ins : Instruction) :
    Result.Meets (Fault.Explained m₀ risk) (fun _ => True) (targetOf code ins) := by
  unfold targetOf
  split
  · exact addressFrom_meets _ _ _
  · exact .error trivial

theorem handlerFrom_meets (code : Code) (pc : Nat) (offset : Int) :
    Result.Meets (Fault.Explained m₀ risk) (fun _ => True) (handlerFrom code pc offset) := by
  unfold handlerFrom
  split
  · exact .ok trivial
  · have hmeets : Result.Meets (Fault.Explained m₀ risk) (fun _ => True)
      (addressFrom code pc offset) :=
      addressFrom_meets code pc offset
    generalize addressFrom code pc offset = address at hmeets
    cases hmeets with
    | ok _ => exact .ok trivial
    | error hf => exact .error hf

/-- Entering a try block adds a handler and no value. -/
theorem enterTry_meets (code : Code) (ins : Instruction) :
    Result.Meets (Fault.Explained m₀ risk) (Evolves extra m) (m.enterTry code ins) := by
  unfold Machine.enterTry
  split
  · exact .error trivial
  · split
    · exact .error trivial
    · refine (handlerFrom_meets code _ _).bind ?_
      intro catchAt _
      refine (handlerFrom_meets code _ _).bind ?_
      intro finallyAt _
      exact (Popped.refl m).withFrame fun _ hframe => .ok (hframe.of_slots rfl rfl)

/-- Leaving a try block takes a handler off, or goes on in its finally block. -/
theorem endTry_meets (code : Code) (ins : Instruction) :
    Result.Meets (Fault.Explained m₀ risk) (Evolves extra m) (m.endTry code ins) := by
  refine (targetOf_meets code ins).bind ?_
  intro resume _
  refine (Popped.refl m).withFrame fun frame hframe => ?_
  split
  · exact .error trivial
  · split
    · exact .error trivial
    · split
      · exact .ok (hframe.of_slots rfl rfl)
      · exact .ok (hframe.of_slots rfl rfl)

end Machine
end NeoScript
