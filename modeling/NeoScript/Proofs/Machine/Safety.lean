import NeoScript.Proofs.Machine.Stepping
import NeoScript.Proofs.Script.Validity

/-!
# Safety — a validated script keeps every address good

A machine that runs a validated script is related to itself by the relation of equal boundaries, and
every step keeps it so.  Hence:

* `Machine.WellAddressed` — every address in the machine is an instruction boundary, where an
  invocation may also go on at the end of the code;
* `Machine.run_wellAddressed` — so it is in every machine that a run reaches, and no run ends
  because of a wrong address.
-/

namespace NeoScript

/-! ## Addresses in a machine -/

/-- A value lies somewhere in the machine. -/
inductive Machine.Holds (m : Machine) (v : Value) : Prop where
  | stack : v ∈ m.stack → Holds m v
  | statics {xs : Array Value} : m.statics = some xs → v ∈ xs → Holds m v
  | locals {f : Frame} {xs : Array Value} : f ∈ m.frames → f.locals = some xs → v ∈ xs → Holds m v
  | arguments {f : Frame} {xs : Array Value} :
      f ∈ m.frames → f.arguments = some xs → v ∈ xs → Holds m v
  | pending : m.pending = some v → Holds m v
  | cell {cell : Nat} : v ∈ m.heap.items cell → Holds m v

/-- Every address in the machine is a boundary; an invocation may also go on at the end. -/
structure Machine.WellAddressed (script : Script) (m : Machine) : Prop where
  ip : ∀ f ∈ m.frames, script.isBoundary f.ip = true ∨ f.ip = script.length
  handler : ∀ f ∈ m.frames, ∀ h ∈ f.handlers, ∀ a : Nat,
    h.catchAt = some a ∨ h.finallyAt = some a ∨ h.resumeAt = some a → script.isBoundary a = true
  pointer : ∀ p : Nat, m.Holds (.pointer p) → script.isBoundary p = true

def Heap.Pointerless (heap : Heap) : Prop :=
  ∀ cell p : Nat, Value.pointer p ∉ heap.items cell

theorem Heap.pointerless_empty : Heap.empty.Pointerless := by
  intro cell p hp
  simp [Heap.empty, Heap.items] at hp

/-! ## The relation of equal boundaries -/

namespace Script

variable {script : Script} {code : Code}

def SameBoundary (script : Script) (p q : Nat) : Prop :=
  p = q ∧ script.isBoundary p = true

/-- Equal addresses at which an instruction begins or the script ends. -/
def SamePlace (script : Script) (p q : Nat) : Prop :=
  p = q ∧ (script.isBoundary p = true ∨ p = script.length)

/-- Equal addresses are related one to one. -/
theorem oneToOne_sameBoundary (script : Script) : OneToOne script.SameBoundary := by
  rintro p q p' q' ⟨rfl, _⟩ ⟨rfl, _⟩
  exact Iff.rfl

theorem samePlace_of_sameBoundary {p q : Nat} (h : script.SameBoundary p q) :
    script.SamePlace p q :=
  ⟨h.1, .inl h.2⟩

/-- An operand that leads to an instruction names its address. -/
theorem IsReading.addressFrom_of_leads (h : script.IsReading code) {ins : Instruction}
    {offset : Int} (hleads : script.Leads ins offset) :
    ∃ p, Machine.addressFrom code ins.pc offset = .ok p ∧ (p : Int) = ins.pc + offset ∧
      script.SameBoundary p p := by
  have hlt := h.lt_of_isBoundary hleads.boundary
  have hpos := hleads.nonneg
  refine ⟨_, ?_, Int.toNat_of_nonneg hpos, rfl, hleads.boundary⟩
  unfold Machine.addressFrom
  rw [if_pos ⟨hpos, by omega⟩]

/-- An instruction is its own moved form where its operands lead to addresses that stand for
themselves. -/
theorem IsReading.moved_self (h : script.IsReading code) {φ : Nat → Nat → Prop} {ins : Instruction}
    (hmem : ins ∈ script.instructions.toList)
    (htargets : ∀ offset ∈ relativeTargets ins,
      ∃ p, Machine.addressFrom code ins.pc offset = .ok p ∧ φ p p) :
    ins.Moved φ code code ins := by
  have hfits := h.fits hmem
  refine ⟨rfl, fun _ _ => rfl, ?_, ?_⟩
  · intro hsingle
    obtain ⟨offset, hoffset⟩ := hfits.exists_jumpOffset? hsingle
    rw [Instruction.relativeTargets_of_jumpOffset? hoffset] at htargets
    obtain ⟨p, hp, hsame⟩ := htargets offset List.mem_cons_self
    refine ⟨p, p, ?_, ?_, hsame⟩ <;> simpa only [Machine.targetOf, hoffset] using hp
  · intro htry
    obtain ⟨a, b, hoffsets⟩ := hfits.exists_handlerOffsets? htry
    rw [Instruction.relativeTargets_of_isTry htry hoffsets] at htargets
    -- A handler of offset zero is absent, and every other one is among the relative targets.
    have hhandler : ∀ offset ∈ [a, b], HandlerMoved φ code code ins.pc ins.pc offset offset := by
      intro offset hoffset
      by_cases hzero : offset = 0
      · subst hzero
        exact .absent
      · obtain ⟨p, hp, hsame⟩ := htargets offset (List.mem_filter.2 ⟨hoffset, by simpa using hzero⟩)
        exact .present hzero hzero hp hp hsame
    exact ⟨a, b, a, b, hoffsets, hoffsets, hhandler a (by simp), hhandler b (by simp)⟩

/-- Every instruction of a valid script is its own moved form. -/
theorem IsValid.moved_self (h : script.IsValid code) {ins : Instruction}
    (hmem : ins ∈ script.instructions.toList) :
    ins.Moved script.SameBoundary code code ins := by
  refine h.toIsReading.moved_self hmem fun offset hoffset => ?_
  obtain ⟨p, hp, -, hsame⟩ := h.addressFrom_of_leads (h.leads ins hmem offset hoffset)
  exact ⟨p, hp, hsame⟩

/-- A valid script steps like itself, from boundary to boundary. -/
theorem IsValid.stepsAlike (h : script.IsValid code) {p q : Nat} (hpq : script.SamePlace p q) :
    StepsAlike script.SameBoundary script.SamePlace code code p q := by
  obtain ⟨rfl, hboundary | hend⟩ := hpq
  · obtain ⟨ins, hmem, rfl⟩ := h.isBoundary_iff.1 hboundary
    have hlt := h.lt_of_isBoundary hboundary
    have hdecoded := h.decoded ins hmem
    refine .moved hlt hlt hdecoded hdecoded (h.moved_self hmem) ?_
    intro _
    refine ⟨rfl, ?_⟩
    rw [h.length_eq]
    exact h.next_cases hmem
  · rw [h.length_eq] at hend
    exact .finish (Nat.le_of_eq hend.symm) (Nat.le_of_eq hend.symm)

end Script

/-! ## Machines that are related to themselves -/

section SelfRelated

variable {φ : Nat → Nat → Prop}

/-- A value is related to itself if its pointer is. -/
theorem Value.related_self {v : Value} (h : ∀ p, v = .pointer p → φ p p) : Value.Related φ v v := by
  cases v with
  | pointer p => exact .pointer (h p rfl)
  | _ => constructor

theorem ItemsRelated.self {xs : Array Value} (h : ∀ p, Value.pointer p ∈ xs → φ p p) :
    ItemsRelated φ xs xs := by
  intro i
  cases hi : xs[i]? with
  | none => exact .none
  | some v =>
      refine .some (Value.related_self ?_)
      rintro p rfl
      exact h p (Array.mem_of_getElem? hi)

/-- Pointers among items that are related to themselves are so, too. -/
theorem ItemsRelated.pointer {xs : Array Value} (h : ItemsRelated φ xs xs) {p : Nat}
    (hp : Value.pointer p ∈ xs) : φ p p := by
  obtain ⟨i, hi⟩ := Array.getElem?_of_mem hp
  have hat := h i
  rw [hi] at hat
  cases hat with
  | some hv =>
      cases hv with
      | pointer hpp => exact hpp

theorem optionRel_self {α : Type} {R : α → α → Prop} {x : Option α} (h : Option.Rel R x x) {a : α}
    (ha : x = some a) : R a a := by
  subst ha
  cases h with
  | some haa => exact haa

end SelfRelated

namespace Machine

variable {script : Script} {code : Code} {m : Machine}

/-- A machine is well addressed if it is related to itself. -/
theorem WellAddressed.of_related
    (h : Machine.Related script.SameBoundary script.SamePlace script.SamePlace m m) :
    m.WellAddressed script := by
  have hframe : ∀ f ∈ m.frames, Frame.Related script.SameBoundary script.SamePlace f f :=
    fun f hf => List.forall₂_same.1 (Related.forall₂_of_framesRelated h.frames) f hf
  -- Related to itself, every address is a boundary, wherever it is kept.
  refine ⟨fun f hf => (hframe f hf).ip.2, ?_, ?_⟩
  · intro f hf handler hhandler a ha
    have hrelated := List.forall₂_same.1 (hframe f hf).handlers handler hhandler
    rcases ha with ha | ha | ha
    · exact (optionRel_self hrelated.catchAt ha).2
    · exact (optionRel_self hrelated.finallyAt ha).2
    · exact (optionRel_self hrelated.resumeAt ha).2
  · intro p hp
    cases hp with
    | stack hmem => exact (h.stack.pointer hmem).2
    | statics hslots hmem => exact ((optionRel_self h.statics hslots).pointer hmem).2
    | locals hf hslots hmem => exact ((optionRel_self (hframe _ hf).locals hslots).pointer hmem).2
    | arguments hf hslots hmem =>
        exact ((optionRel_self (hframe _ hf).arguments hslots).pointer hmem).2
    | pending hpending =>
        have hvalue := optionRel_self h.pending hpending
        cases hvalue with
        | pointer hpp => exact hpp.2
    | cell hmem => exact ((h.heap.items _).pointer hmem).2

/-- Machines start related if their entries are and no pointer is given to them. -/
theorem start_related {φ ψ : Nat → Nat → Prop} {entry entry' : Nat} (hentry : ψ entry entry')
    {heap : Heap} (hheap : heap.Pointerless) {arguments : List Value}
    (harguments : ∀ p, Value.pointer p ∉ arguments) :
    Machine.Related φ ψ ψ (start heap entry arguments) (start heap entry' arguments) := by
  refine ⟨ItemsRelated.self ?_, .cons ⟨hentry, .none, .none, .nil⟩ .nil, .none, .none, rfl, ?_⟩
  · intro p hp
    exact absurd (by simpa [start] using hp) (harguments p)
  · intro cell
    exact ItemsRelated.self fun p hp => absurd hp (hheap cell p)

/-- A step keeps all addresses of a machine on instructions. -/
theorem step_related_self (hvalid : script.IsValid code)
    (hm : Machine.Related script.SameBoundary script.SamePlace script.SamePlace m m) :
    Result.Related script.SameBoundary
      (Machine.Related script.SameBoundary script.SamePlace script.SamePlace)
      (step code m) (step code m) :=
  hm.step_self (Script.oneToOne_sameBoundary script)
    (fun _ _ h => Script.samePlace_of_sameBoundary h) fun _ h => hvalid.stepsAlike h

/-- So does a whole run. -/
theorem related_of_reaches (hvalid : script.IsValid code)
    (hm : Machine.Related script.SameBoundary script.SamePlace script.SamePlace m m) {m' : Machine}
    (hreaches : Reaches code m m') :
    Machine.Related script.SameBoundary script.SamePlace script.SamePlace m' m' :=
  hm.of_reaches (Script.oneToOne_sameBoundary script)
    (fun _ _ h => Script.samePlace_of_sameBoundary h) (fun _ h => hvalid.stepsAlike h) hreaches

/-- Runs of a validated script never leave its instructions: every address in every machine that a
run reaches is good, and no run ends because of a wrong address. -/
theorem run_wellAddressed (hvalid : validateScript code = .ok script) {entry : Nat}
    (hentry : script.isBoundary entry = true) {heap : Heap} (hheap : heap.Pointerless)
    {arguments : List Value} (harguments : ∀ p, Value.pointer p ∉ arguments) :
    (∀ m, Reaches code (start heap entry arguments) m → m.WellAddressed script) ∧
      ∀ limit : Nat, (∀ e, run code entry heap arguments limit ≠ .fault (.decode e)) ∧
        ∀ target, run code entry heap arguments limit ≠ .fault (.invalidJump target) := by
  have hscript := validateScript_eq_ok_iff.1 hvalid
  have hstart : Machine.Related script.SameBoundary script.SamePlace script.SamePlace
      (start heap entry arguments) (start heap entry arguments) :=
    start_related ⟨rfl, .inl hentry⟩ hheap harguments
  refine ⟨fun m hm => WellAddressed.of_related (related_of_reaches hscript hstart hm), ?_⟩
  intro limit
  -- A fault comes from a step of a machine that is reached, and its kind from the relation.
  have hfault : ∀ f, run code entry heap arguments limit = .fault f →
      f = .stepLimit ∨ Fault.Related script.SameBoundary f f := by
    intro f hf
    rcases runFrom_cases limit (start heap entry arguments) with ⟨_, _, _, hout⟩ |
      ⟨m, g, hreaches, hstep, hout⟩ | hout
    · cases hf.symm.trans hout
    · cases hf.symm.trans hout
      have hresult := step_related_self hscript (related_of_reaches hscript hstart hreaches)
      rw [hstep] at hresult
      cases hresult with
      | error hrelated => exact .inr hrelated
    · cases hf.symm.trans hout
      exact .inl rfl
  constructor
  · intro e he
    rcases hfault _ he with h | h
    · cases h
    · cases h with
      | plain hplain => cases hplain
  · intro target htarget
    rcases hfault _ htarget with h | h
    · cases h
    · cases h with
      | plain hplain => cases hplain

/-- An exception that is raised behind a pointer call comes back to the handler of the caller. -/
theorem run_wellAddressed_throw :
    let code : Code :=
  #[0x3B, 0x0B, 0x00, 0x0A, 0x0B, 0x00, 0x00, 0x00, 0x36, 0x3D, 0x04, 0x45, 0x40,
      0x40, 0x3A]
    ∃ script, validateScript code = .ok script ∧ script.isBoundary 0 = true ∧
      Heap.empty.Pointerless ∧ (∀ p, Value.pointer p ∉ [Value.int 7]) ∧
      (∀ m, Reaches code (start .empty 0 [.int 7]) m → m.WellAddressed script) ∧
      ∀ limit : Nat, (∀ e, run code 0 .empty [.int 7] limit ≠ .fault (.decode e)) ∧
        ∀ target, run code 0 .empty [.int 7] limit ≠ .fault (.invalidJump target) := by
  have hheap : Heap.empty.Pointerless := by
    intro cell p hp
    simp [Heap.empty, Heap.items] at hp
  have harguments : ∀ p, Value.pointer p ∉ [Value.int 7] := by simp
  exact ⟨_, rfl, rfl, hheap, harguments, run_wellAddressed rfl rfl hheap harguments⟩

end Machine

end NeoScript
