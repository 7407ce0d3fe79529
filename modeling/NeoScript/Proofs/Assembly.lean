import NeoScript.Assembly
import NeoScript.Proofs.Relocation.Operands
import NeoScript.Proofs.Script.RoundTrip
import NeoScript.Proofs.Script.Validity

/-!
# Assembly — references lead to their labels

Addresses are counted twice, once to find the labels and once to resolve the references to them.
Both counts take the size of an item from its operation alone, so they are right only if the operand
that is filled in does not change it.  This fails for data pushes, whose operands have any length.

* `Assembly.Labelled`, `Assembly.labelled_of_foldlM` — what the first pass finds;
* `Assembly.Assembled`, `Assembly.Resolution`, `Assembly.resolution_of_foldlM` — what the second
  pass makes of items;
* `Assembly.Resolution.assembled` — the instructions stand where the passes expect them;
* `assemble_resolves` — labels are boundaries and references lead to them, so the script is valid;
* `assemble_misplaces` — but not if a data push refers to a label.
-/

namespace NeoScript

/-! ## Items -/

namespace AsmItem

def isLabel : AsmItem → Bool
  | label _ => true
  | _ => false

def defined : AsmItem → List String
  | label name => [name]
  | _ => []

def references : AsmItem → List String
  | target _ name => [name]
  | handlers _ catchLabel finallyLabel => catchLabel.toList ++ finallyLabel.toList
  | _ => []

def isDataReference : AsmItem → Bool
  | target op _ => op.isDataPush
  | handlers op _ _ => op.isDataPush
  | _ => false

/-- The instruction has the operation of the item, and its operand if the item says it. -/
def Spells : AsmItem → Instruction → Prop
  | plain ins, placed => placed.op = ins.op ∧ placed.operand = ins.operand
  | target op _, placed => placed.op = op
  | handlers op _ _, placed => placed.op = op
  | label _, _ => False

theorem size_of_isLabel {item : AsmItem} (h : item.isLabel = true) : item.size = 0 := by
  cases item with
  | label name => rfl
  | _ => cases h

end AsmItem

/-- The operation alone tells the size, unless it pushes data. -/
theorem Instruction.sizeOf_congr {op : Opcode} (h : op.isDataPush = false)
    (operand operand' : List UInt8) : sizeOf op operand = sizeOf op operand' := by
  -- Only the layout of a slot access depends on more than its constructor.
  cases op with
  | pushData width => cases h
  | load slot index => cases index <;> rfl
  | store slot index => cases index <;> rfl
  | _ => rfl

namespace Assembly

/-! ## Labels -/

/-- A label is recorded at the address so far, and it was not known before. -/
theorem addLabel_eq_ok {pc : Nat} {labels : List (String × Nat)} {item : AsmItem}
    {state : Nat × List (String × Nat)} (h : addLabel (pc, labels) item = .ok state) :
    state = (pc + item.size, labels ++ item.defined.map fun name => (name, pc)) ∧
      ∀ name ∈ item.defined, labels.lookup name = none := by
  cases item with
  | label name =>
      simp only [addLabel] at h
      split at h
      · cases h
      · rename_i hnone
        cases h
        refine ⟨rfl, fun name' hname' => ?_⟩
        rw [List.mem_singleton.1 hname']
        exact Option.not_isSome_iff_eq_none.1 hnone
  | plain ins =>
      cases h
      simp [AsmItem.defined]
  | target op name =>
      cases h
      simp [AsmItem.defined]
  | handlers op catchLabel finallyLabel =>
      cases h
      simp [AsmItem.defined]

theorem eq_label_of_lookup {pc address : Nat} {item : AsmItem} {name : String}
    (h : (item.defined.map fun defined => (defined, pc)).lookup name = some address) :
    item = .label name := by
  cases item with
  | label name' =>
      simp only [AsmItem.defined, List.map_singleton, List.lookup_cons, List.lookup_nil] at h
      split at h
      · rename_i heq
        rw [beq_iff_eq.1 heq]
      · cases h
  | _ => cases h

/-- The labels of items that begin at an address, behind those that are known. -/
structure Labelled (pc : Nat) (items : List AsmItem) (known labels : List (String × Nat)) :
    Prop where
  kept : ∀ {name : String} {address : Nat}, known.lookup name = some address →
    labels.lookup name = some address
  placed : ∀ {before : List AsmItem} {name : String} {after : List AsmItem},
    items = before ++ .label name :: after →
      labels.lookup name = some (pc + (before.map AsmItem.size).sum)
  defined : ∀ {name : String} {address : Nat}, labels.lookup name = some address →
    known.lookup name = some address ∨ .label name ∈ items

/-- The first pass over the items records every label at its address. -/
theorem labelled_of_foldlM {items : List AsmItem} {pc stop : Nat}
    {known labels : List (String × Nat)}
    (h : items.foldlM addLabel (pc, known) = .ok (stop, labels)) :
    Labelled pc items known labels := by
  induction items generalizing pc known with
  | nil =>
      cases h
      refine ⟨id, fun hsplit => ?_, .inl⟩
      simp at hsplit
  | cons item items ih =>
      rw [List.foldlM_cons] at h
      obtain ⟨state, hstate, h⟩ := Sequencing.bind_eq_ok.1 h
      obtain ⟨rfl, hnew⟩ := addLabel_eq_ok hstate
      have hrest := ih h
      refine ⟨fun hknown => hrest.kept ?_, ?_, ?_⟩
      · rw [List.lookup_append, hknown, Option.some_or]
      · intro before name after hsplit
        cases before with
        | nil =>
            -- The label stands here, and it is not known yet.
            obtain ⟨rfl, -⟩ := List.cons.inj hsplit
            refine hrest.kept ?_
            rw [List.lookup_append, hnew name (List.mem_singleton.2 rfl), Option.none_or]
            simp [AsmItem.defined]
        | cons first before =>
            obtain ⟨rfl, htail⟩ := List.cons.inj hsplit
            rw [hrest.placed htail, List.map_cons, List.sum_cons, Nat.add_assoc]
      · intro name address hfound
        rcases hrest.defined hfound with hknown | hmem
        · rw [List.lookup_append] at hknown
          cases hlookup : known.lookup name with
          | some address' =>
              rw [hlookup, Option.some_or] at hknown
              exact .inl hknown
          | none =>
              rw [hlookup, Option.none_or] at hknown
              rw [eq_label_of_lookup hknown]
              exact .inr List.mem_cons_self
        · exact .inr (List.mem_cons_of_mem _ hmem)

/-! ## References -/

/-- The distance from an address to a label; an absent label has distance zero. -/
def IsDistance (labels : List (String × Nat)) (pc : Nat) : Option String → Int → Prop
  | some name, distance =>
      ∃ address, labels.lookup name = some address ∧ distance = (address : Int) - pc
  | none, distance => distance = 0

inductive Assembled (labels : List (String × Nat)) (pc : Nat) : AsmItem → Instruction → Prop where
  | plain {ins placed : Instruction} (htext : placed.text = ins.text) :
      Assembled labels pc (.plain ins) placed
  | target {op : Opcode} {name : String} {address : Nat} {placed : Instruction}
      (hlabel : labels.lookup name = some address)
      (hfits : Bytes.fitsSigned op.reachWidth ((address : Int) - pc) = true)
      (htext : placed.text = (op, Bytes.ofInt op.reachWidth ((address : Int) - pc))) :
      Assembled labels pc (.target op name) placed
  | handlers {op : Opcode} {catchLabel finallyLabel : Option String} {a b : Int}
      {placed : Instruction}
      (ha : IsDistance labels pc catchLabel a) (hb : IsDistance labels pc finallyLabel b)
      (hfits : Bytes.fitsSigned op.reachWidth a = true)
      (hfits' : Bytes.fitsSigned op.reachWidth b = true)
      (htext : placed.text = (op, Bytes.ofInt op.reachWidth a ++ Bytes.ofInt op.reachWidth b)) :
      Assembled labels pc (.handlers op catchLabel finallyLabel) placed

section Items

variable {labels : List (String × Nat)} {pc : Nat} {op : Opcode} {offset : Int} {bytes : List UInt8}

/-- A distance leads from the instruction to the recorded address. -/
theorem offsetTo_eq_ok {name : String} (h : offsetTo labels pc name = .ok offset) :
    ∃ address, labels.lookup name = some address ∧ offset = (address : Int) - pc := by
  unfold offsetTo at h
  split at h
  · rename_i address hlookup
    cases h
    exact ⟨address, hlookup, rfl⟩
  · cases h

/-- Short operands that do not hold the distance are refused. -/
theorem offsetBytes_eq_ok (h : offsetBytes op offset = .ok bytes) :
    Bytes.fitsSigned op.reachWidth offset = true ∧ bytes = Bytes.ofInt op.reachWidth offset := by
  have hlong : (op.isLong = true ∨ op = .pushPointer) ↔ op.isLong = true := by
    refine or_iff_left_of_imp ?_
    rintro rfl
    rfl
  unfold offsetBytes at h
  unfold Opcode.reachWidth
  simp only [hlong] at h
  split at h
  · split at h
    · rename_i hfits
      cases h
      simp_all
    · cases h
  · split at h
    · rename_i hfits
      cases h
      simp_all
    · cases h

/-- The operand of a handler holds its distance, which fits. -/
theorem handlerBytes_eq_ok {label : Option String}
    (h : handlerBytes labels pc op label = .ok bytes) :
    ∃ distance, IsDistance labels pc label distance ∧
      Bytes.fitsSigned op.reachWidth distance = true ∧
      bytes = Bytes.ofInt op.reachWidth distance := by
  cases label with
  | some name =>
      obtain ⟨distance, hdistance, hbytes⟩ := Sequencing.bind_eq_ok.1 h
      exact ⟨distance, offsetTo_eq_ok hdistance, offsetBytes_eq_ok hbytes⟩
  | none => exact ⟨0, rfl, offsetBytes_eq_ok h⟩

/-- A label becomes nothing, every other item becomes its instruction. -/
theorem resolveItem_eq_ok {item : AsmItem} {result : Option Instruction}
    (h : resolveItem labels pc item = .ok result) :
    item.isLabel = true ∧ result = none ∨
      item.isLabel = false ∧ ∃ ins, result = some ins ∧ Assembled labels pc item ins := by
  cases item with
  | label name =>
      cases h
      exact .inl ⟨rfl, rfl⟩
  | plain ins =>
      cases h
      exact .inr ⟨rfl, ins, rfl, .plain rfl⟩
  | target op name =>
      obtain ⟨offset, hoffset, h⟩ := Sequencing.bind_eq_ok.1 h
      obtain ⟨bytes, hbytes, h⟩ := Sequencing.bind_eq_ok.1 h
      cases h
      obtain ⟨address, hlabel, rfl⟩ := offsetTo_eq_ok hoffset
      obtain ⟨hfits, rfl⟩ := offsetBytes_eq_ok hbytes
      exact .inr ⟨rfl, _, rfl, .target hlabel hfits rfl⟩
  | handlers op catchLabel finallyLabel =>
      obtain ⟨first, hfirst, h⟩ := Sequencing.bind_eq_ok.1 h
      obtain ⟨second, hsecond, h⟩ := Sequencing.bind_eq_ok.1 h
      cases h
      obtain ⟨a, ha, hfits, rfl⟩ := handlerBytes_eq_ok hfirst
      obtain ⟨b, hb, hfits', rfl⟩ := handlerBytes_eq_ok hsecond
      exact .inr ⟨rfl, _, rfl, .handlers ha hb hfits hfits' rfl⟩

end Items

namespace Assembled

variable {labels : List (String × Nat)} {pc : Nat} {item : AsmItem} {ins placed : Instruction}

/-- Only the text of the instruction matters, not where it stands. -/
theorem congr (h : Assembled labels pc item ins) (htext : placed.text = ins.text) :
    Assembled labels pc item placed := by
  cases h with
  | plain h => exact .plain (htext.trans h)
  | target hlabel hfits h => exact .target hlabel hfits (htext.trans h)
  | handlers ha hb hfits hfits' h => exact .handlers ha hb hfits hfits' (htext.trans h)

/-- An item is assembled to the operation that it spells. -/
theorem spells (h : Assembled labels pc item ins) : item.Spells ins := by
  cases h with
  | plain h => exact Prod.mk.inj h
  | target _ _ h => exact (Prod.mk.inj h).1
  | handlers _ _ _ _ h => exact (Prod.mk.inj h).1

/-- Unless it is a data push that refers to labels, an item has the size of its instruction. -/
theorem size_eq (h : Assembled labels pc item ins) (hdata : item.isDataReference = false) :
    ins.size = item.size := by
  have hsize : ins.size = Instruction.sizeOf ins.text.1 ins.text.2 := rfl
  cases h with
  | plain h =>
      rw [hsize, h]
      rfl
  | target _ _ h =>
      rw [hsize, h]
      exact Instruction.sizeOf_congr hdata _ _
  | handlers _ _ _ _ h =>
      rw [hsize, h]
      exact Instruction.sizeOf_congr hdata _ _

/-- The operand of a jump, a call or a pointer leads to its label. -/
theorem jumpOffset?_eq {op : Opcode} {name : String} (h : Assembled labels pc (.target op name) ins)
    (hsingle : op.hasSingleTarget = true) :
    ∃ address, labels.lookup name = some address ∧
      ins.jumpOffset? = some ((address : Int) - pc) := by
  cases h with
  | @target _ _ address _ hlabel hfits h =>
      obtain ⟨rfl, hoperand⟩ := Prod.mk.inj h
      exact ⟨address, hlabel, Instruction.jumpOffset?_of_operand hsingle hoperand hfits⟩

/-- The operand of a try leads to its handlers. -/
theorem handlerOffsets?_eq {op : Opcode} {catchLabel finallyLabel : Option String}
    (h : Assembled labels pc (.handlers op catchLabel finallyLabel) ins) (htry : op.isTry = true) :
    ∃ a b, IsDistance labels pc catchLabel a ∧ IsDistance labels pc finallyLabel b ∧
      ins.handlerOffsets? = some (a, b) := by
  cases h with
  | @handlers _ _ _ a b _ ha hb hfits hfits' h =>
      obtain ⟨rfl, hoperand⟩ := Prod.mk.inj h
      exact ⟨a, b, ha, hb, Instruction.handlerOffsets?_of_operand htry hoperand hfits hfits'⟩

/-- One label does not fill the operand of a try. -/
theorem isTry_eq_false {op : Opcode} {name : String} (h : Assembled labels pc (.target op name) ins)
    (hfits : ins.Fits) : op.isTry = false := by
  cases h with
  | target _ _ h =>
      obtain ⟨rfl, hoperand⟩ := Prod.mk.inj h
      change ins.operand = _ at hoperand
      by_contra htry
      rw [Bool.not_eq_false] at htry
      have hpos := ins.op.reachWidth_pos
      rw [Instruction.Fits, Opcode.layout_of_isTry htry, OperandLayout.Fits, hoperand, Bytes.ofInt,
        Bytes.length_ofNat] at hfits
      omega

/-- Two labels do not fit the operand of a jump, a call or a pointer. -/
theorem hasSingleTarget_eq_false {op : Opcode} {catchLabel finallyLabel : Option String}
    (h : Assembled labels pc (.handlers op catchLabel finallyLabel) ins) (hfits : ins.Fits) :
    op.hasSingleTarget = false := by
  cases h with
  | handlers _ _ _ _ h =>
      obtain ⟨rfl, hoperand⟩ := Prod.mk.inj h
      change ins.operand = _ at hoperand
      by_contra hsingle
      rw [Bool.not_eq_false] at hsingle
      have hpos := ins.op.reachWidth_pos
      rw [Instruction.Fits, Opcode.layout_of_hasSingleTarget hsingle, OperandLayout.Fits, hoperand,
        List.length_append, Bytes.ofInt, Bytes.ofInt, Bytes.length_ofNat,
        Bytes.length_ofNat] at hfits
      omega

end Assembled

/-- A handler that is there leads to its label. -/
theorem IsDistance.exists_label {labels : List (String × Nat)} {pc : Nat} {label : Option String}
    {distance : Int} (h : IsDistance labels pc label distance) (hne : distance ≠ 0) :
    ∃ name ∈ label, ∃ address, labels.lookup name = some address ∧
      (pc : Int) + distance = address := by
  cases label with
  | none => exact absurd h hne
  | some name =>
      obtain ⟨address, hlabel, rfl⟩ := h
      exact ⟨name, rfl, address, hlabel, by omega⟩

/-- Every address in the operand of an assembled reference is the one of a label to which it
refers. -/
theorem Assembled.exists_label {labels : List (String × Nat)} {item : AsmItem} {ins : Instruction}
    (h : Assembled labels ins.pc item ins) (hfits : ins.Fits)
    (hplain : ∀ i, item = .plain i → i.op.hasSingleTarget = false ∧ i.op.isTry = false)
    {offset : Int} (hoffset : offset ∈ relativeTargets ins) :
    ∃ name ∈ item.references, ∃ address, labels.lookup name = some address ∧
      (ins.pc : Int) + offset = address := by
  have hop := h.spells
  -- What an item assembles to refers only if the item does, and then through its labels.
  cases item with
  | label name => cases hop
  | plain i =>
      obtain ⟨hsingle, htry⟩ := hplain i rfl
      rw [← hop.1] at hsingle htry
      simp [Instruction.relativeTargets_eq_nil hsingle htry] at hoffset
  | target op name =>
      have htry := h.isTry_eq_false hfits
      cases hsingle : op.hasSingleTarget with
      | true =>
          obtain ⟨address, hlabel, hjump⟩ := h.jumpOffset?_eq hsingle
          rw [Instruction.relativeTargets_of_jumpOffset? hjump, List.mem_singleton] at hoffset
          exact ⟨name, List.mem_singleton.2 rfl, address, hlabel, by omega⟩
      | false =>
          cases hop
          simp [Instruction.relativeTargets_eq_nil hsingle htry] at hoffset
  | handlers op catchLabel finallyLabel =>
      have hsingle := h.hasSingleTarget_eq_false hfits
      cases htry : op.isTry with
      | true =>
          obtain ⟨a, b, ha, hb, hoffsets⟩ := h.handlerOffsets?_eq htry
          cases hop
          rw [Instruction.relativeTargets_of_isTry htry hoffsets, List.mem_filter, List.mem_cons,
            List.mem_singleton, decide_eq_true_eq] at hoffset
          obtain ⟨rfl | rfl, hne⟩ := hoffset
          · obtain ⟨name, hname, hleads⟩ := ha.exists_label hne
            exact ⟨name, List.mem_append_left _ (Option.mem_toList.2 hname), hleads⟩
          · obtain ⟨name, hname, hleads⟩ := hb.exists_label hne
            exact ⟨name, List.mem_append_right _ (Option.mem_toList.2 hname), hleads⟩
      | false =>
          cases hop
          simp [Instruction.relativeTargets_eq_nil hsingle htry] at hoffset

/-! ## The second pass -/

inductive Resolution (labels : List (String × Nat)) :
    Nat → List AsmItem → List Instruction → Prop where
  | nil {pc : Nat} : Resolution labels pc [] []
  | label {pc : Nat} {item : AsmItem} {items : List AsmItem} {xs : List Instruction}
      (hlabel : item.isLabel = true) (hrest : Resolution labels (pc + item.size) items xs) :
      Resolution labels pc (item :: items) xs
  | item {pc : Nat} {item : AsmItem} {ins : Instruction} {items : List AsmItem}
      {xs : List Instruction} (hlabel : item.isLabel = false) (hitem : Assembled labels pc item ins)
      (hrest : Resolution labels (pc + item.size) items xs) :
      Resolution labels pc (item :: items) (ins :: xs)

/-- The second pass over the items resolves all of them, the last one in front. -/
theorem resolution_of_foldlM {labels : List (String × Nat)} {items : List AsmItem} {pc stop : Nat}
    {done out : List Instruction}
    (h : items.foldlM (resolveStep labels) (pc, done) = .ok (stop, out)) :
    ∃ xs, out = xs.reverse ++ done ∧ Resolution labels pc items xs := by
  induction items generalizing pc done with
  | nil =>
      cases h
      exact ⟨[], rfl, .nil⟩
  | cons item items ih =>
      rw [List.foldlM_cons] at h
      obtain ⟨state, hstate, h⟩ := Sequencing.bind_eq_ok.1 h
      obtain ⟨result, hresult, hstate⟩ := Sequencing.bind_eq_ok.1 hstate
      cases hstate
      obtain ⟨xs, rfl, hrest⟩ := ih h
      rcases resolveItem_eq_ok hresult with ⟨hlabel, rfl⟩ | ⟨hlabel, ins, rfl, hitem⟩
      · exact ⟨xs, rfl, .label hlabel hrest⟩
      · exact ⟨ins :: xs, by simp, .item hlabel hitem hrest⟩

namespace Resolution

variable {labels : List (String × Nat)} {pc : Nat} {items : List AsmItem} {xs ys : List Instruction}

/-- There is one instruction for each item that is not a label. -/
theorem spells (h : Resolution labels pc items xs)
    (htext : ys.map Instruction.text = xs.map Instruction.text) :
    List.Forall₂ AsmItem.Spells (items.filter (!·.isLabel)) ys := by
  induction h generalizing ys with
  | nil =>
      cases List.map_eq_nil_iff.1 htext
      exact .nil
  | label hlabel _ ih =>
      rw [List.filter_cons_of_neg (by simp [hlabel])]
      exact ih htext
  | item hlabel hitem _ ih =>
      obtain ⟨y, ys, rfl, hy, hys⟩ := List.map_eq_cons_iff.1 htext
      rw [List.filter_cons_of_pos (by simp [hlabel])]
      exact .cons (hitem.congr hy).spells (ih hys)

/-- Unless a data push refers to a label, the instructions stand where the items were resolved. -/
theorem assembled (h : Resolution labels pc items xs)
    (hdata : ∀ item ∈ items, item.isDataReference = false)
    (hplaced : Placed pc ys) (htext : ys.map Instruction.text = xs.map Instruction.text) :
    List.Forall₂ (fun item ins => Assembled labels ins.pc item ins ∧ ins.size = item.size)
      (items.filter (!·.isLabel)) ys := by
  induction h generalizing ys with
  | nil =>
      cases List.map_eq_nil_iff.1 htext
      exact .nil
  | label hlabel _ ih =>
      rw [List.forall_mem_cons] at hdata
      rw [AsmItem.size_of_isLabel hlabel] at ih
      rw [List.filter_cons_of_neg (by simp [hlabel])]
      exact ih hdata.2 hplaced htext
  | item hlabel hitem _ ih =>
      -- An item is as long as its instruction, so the addresses of the items are those of the
      -- instructions.
      rw [List.forall_mem_cons] at hdata
      obtain ⟨y, ys, rfl, hy, hys⟩ := List.map_eq_cons_iff.1 htext
      obtain ⟨rfl, hplaced⟩ := hplaced
      have hsize := (hitem.congr hy).size_eq hdata.1
      rw [List.filter_cons_of_pos (by simp [hlabel])]
      exact .cons ⟨hitem.congr hy, hsize⟩ (ih hdata.2 (hsize ▸ hplaced) hys)

end Resolution

/-! ## Addresses of labels -/

/-- The instructions take as many bytes as the items, as labels take none. -/
theorem totalSize_of_forall₂ {items : List AsmItem} {ys : List Instruction}
    (h : List.Forall₂ (fun item ins => ins.size = AsmItem.size item)
      (items.filter (!·.isLabel)) ys) :
    totalSize ys = (items.map AsmItem.size).sum := by
  induction items generalizing ys with
  | nil =>
      cases h
      rfl
  | cons item items ih =>
      rw [List.map_cons, List.sum_cons]
      cases hlabel : item.isLabel with
      | true =>
          rw [List.filter_cons_of_neg (by simp [hlabel])] at h
          rw [AsmItem.size_of_isLabel hlabel, Nat.zero_add, ih h]
      | false =>
          rw [List.filter_cons_of_pos (by simp [hlabel])] at h
          obtain ⟨y, ys, hy, hys, rfl⟩ := List.forall₂_cons_left_iff.1 h
          rw [totalSize_cons, hy, ih hys]

section Boundaries

variable {script : Script} {code : Code} {before items after : List AsmItem}

/-- Behind items an instruction begins, or the script ends and no instruction follows. -/
theorem boundary_or_end (hread : script.IsReading code)
    (h : List.Forall₂ (fun item ins => ins.size = AsmItem.size item)
      ((before ++ after).filter (!·.isLabel)) script.instructions.toList) :
    script.isBoundary (before.map AsmItem.size).sum = true ∨
      (before.map AsmItem.size).sum = script.length ∧ ∀ item ∈ after, item.isLabel = true := by
  rw [List.filter_append] at h
  obtain ⟨xs, ys, hsplit, hxs, hys⟩ := Sequencing.exists_append_of_forall₂ h
  have hplaced := hread.placed
  rw [hsplit, Placed.append_iff, Nat.zero_add, totalSize_of_forall₂ hxs] at hplaced
  cases ys with
  | nil =>
      refine .inr ⟨?_, fun item hitem => ?_⟩
      · rw [hread.length_eq, ← hread.size, hsplit, List.append_nil, totalSize_of_forall₂ hxs]
      · have hnone := List.forall₂_nil_right_iff.1 hys
        simpa using List.filter_eq_nil_iff.1 hnone item hitem
  | cons y ys => exact .inl (hread.isBoundary_iff.2 ⟨y, by simp [hsplit], hplaced.2.1⟩)

end Boundaries

end Assembly

/-! ## Assembled scripts -/

open Assembly

/-- The instruction of a reference leads to its labels. -/
def AsmItem.Refers (labels : List (String × Nat)) : AsmItem → Instruction → Prop
  | target op name, ins => op.hasSingleTarget = true → ∃ address offset,
      labels.lookup name = some address ∧ ins.jumpOffset? = some offset ∧
        (ins.pc : Int) + offset = address
  | handlers op catchLabel finallyLabel, ins => op.isTry = true → ∃ a b,
      ins.handlerOffsets? = some (a, b) ∧ IsDistance labels ins.pc catchLabel a ∧
        IsDistance labels ins.pc finallyLabel b
  | _, _ => True

/-- An item that is assembled at the address of its instruction refers from there. -/
theorem Assembly.Assembled.refers {labels : List (String × Nat)} {item : AsmItem}
    {ins : Instruction} (h : Assembled labels ins.pc item ins) : item.Refers labels ins := by
  cases item with
  | label name => trivial
  | plain i => trivial
  | target op name =>
      intro hsingle
      obtain ⟨address, hlabel, hjump⟩ := h.jumpOffset?_eq hsingle
      exact ⟨address, _, hlabel, hjump, by omega⟩
  | handlers op catchLabel finallyLabel =>
      intro htry
      obtain ⟨a, b, ha, hb, hoffsets⟩ := h.handlerOffsets?_eq htry
      exact ⟨a, b, hoffsets, ha, hb⟩

/-- An assembled script has one instruction for each item that is not a label, and each label is
recorded with the size of the items in front of it.  Unless a data push refers to a label, these are
the sizes of the instructions, labels are boundaries or the end of the script, and references lead
to their labels.  If, besides, no other instruction has an address and an instruction follows every
label to which an item refers, the script is valid. -/
theorem assemble_resolves (items : List AsmItem) (program : Program)
    (h : assemble items = .ok program) :
    ∃ script, Script.decode program.script = .ok script ∧
      List.Forall₂ AsmItem.Spells (items.filter (!·.isLabel)) script.instructions.toList ∧
      (∀ before name after, items = before ++ .label name :: after →
        program.labels.lookup name = some (before.map AsmItem.size).sum) ∧
      (∀ name address, program.labels.lookup name = some address → .label name ∈ items) ∧
      ((∀ item ∈ items, item.isDataReference = false) →
        List.Forall₂ (fun item ins => ins.size = item.size ∧ item.Refers program.labels ins)
          (items.filter (!·.isLabel)) script.instructions.toList ∧
        (∀ before name after, items = before ++ .label name :: after →
          isBoundaryOrEnd script (before.map AsmItem.size).sum = true) ∧
        ((∀ ins, .plain ins ∈ items → ins.op.hasSingleTarget = false ∧ ins.op.isTry = false) →
          (∀ item ∈ items, ∀ name ∈ item.references, ∀ before after,
            items = before ++ .label name :: after → ∃ other ∈ after, other.isLabel = false) →
          validateScript program.script = .ok script)) := by
  obtain ⟨⟨_, labels⟩, hlabels, h⟩ := Sequencing.bind_eq_ok.1 h
  obtain ⟨⟨_, out⟩, hout, h⟩ := Sequencing.bind_eq_ok.1 h
  obtain ⟨code, hcode, h⟩ := Sequencing.bind_eq_ok.1 h
  cases h
  have hlabelled := labelled_of_foldlM hlabels
  obtain ⟨xs, rfl, hresolution⟩ := resolution_of_foldlM hout
  rw [Sequencing.mapError_eq_ok, List.append_nil, List.reverse_reverse] at hcode
  obtain ⟨script, hdecode, hplaced, htext⟩ := exists_decode_of_encode hcode
  have hread := Script.decode_eq_ok_iff.1 hdecode
  have hlabel : ∀ before name after, items = before ++ .label name :: after →
      labels.lookup name = some (before.map AsmItem.size).sum := by
    intro before name after hsplit
    rw [hlabelled.placed hsplit, Nat.zero_add]
  have hdefined : ∀ name address, labels.lookup name = some address → .label name ∈ items := by
    intro name address hlookup
    rcases hlabelled.defined hlookup with hnone | hmem
    · cases hnone
    · exact hmem
  refine ⟨script, hdecode, hresolution.spells htext, hlabel, hdefined, fun hdata => ?_⟩
  have hassembled := hresolution.assembled hdata hplaced htext
  have hplace : ∀ before name after, items = before ++ .label name :: after →
      script.isBoundary (before.map AsmItem.size).sum = true ∨
        (before.map AsmItem.size).sum = script.length ∧
          ∀ item ∈ .label name :: after, item.isLabel = true :=
    fun before name after hsplit =>
      boundary_or_end hread (hsplit ▸ hassembled.imp fun _ _ hitem => hitem.2)
  refine ⟨hassembled.imp fun item ins hitem => ⟨hitem.2, hitem.1.refers⟩, ?_, ?_⟩
  · intro before name after hsplit
    rw [isBoundaryOrEnd, Bool.or_eq_true, decide_eq_true_eq]
    exact (hplace before name after hsplit).imp_right And.left
  · intro hplain hfollowed
    refine validateScript_eq_ok_iff.2 ⟨hread, fun ins hins offset hoffset => ?_⟩
    obtain ⟨item, hitem, hassembled, -⟩ := Sequencing.exists_left_of_forall₂ hassembled hins
    have hmem := List.mem_of_mem_filter hitem
    obtain ⟨name, hname, address, hlookup, haddress⟩ :=
      hassembled.exists_label (hread.fits hins) (fun i hi => hplain i (hi ▸ hmem)) hoffset
    obtain ⟨before, after, hsplit⟩ := List.append_of_mem (hdefined name address hlookup)
    -- An instruction follows the label, so its address is not the end.
    obtain ⟨other, hother, hinstruction⟩ := hfollowed item hmem name hname before after hsplit
    have hboundary : script.isBoundary (before.map AsmItem.size).sum = true := by
      rcases hplace before name after hsplit with hboundary | ⟨-, hall⟩
      · exact hboundary
      · rw [hall other (List.mem_cons_of_mem _ hother)] at hinstruction
        cases hinstruction
    rw [hlabel before name after hsplit, Option.some.injEq] at hlookup
    refine hread.leads_of_isBoundary ?_ ?_ <;> rw [haddress, ← hlookup]
    · exact Int.natCast_nonneg _
    · exact hboundary

/-- A try in a loop, with references in both directions and a handler that is absent. -/
def Samples.loopItems : List AsmItem :=
  [.label "top", .handlers (.enterTry .short) (some "caught") none, .target (.call .long) "end",
    .target (.endTry .short) "end", .label "caught", .target (.jump .always .short) "top",
    .label "end", .plain (.simple .ret)]

/-- A loop with a handler: every reference leads to its label and the script is valid. -/
theorem assemble_resolves_loop : ∃ program script, assemble Samples.loopItems = .ok program ∧
    program.script = #[0x3B, 0x0A, 0x00, 0x35, 0x09, 0x00, 0x00, 0x00, 0x3D, 0x04, 0x22,
      0xF6, 0x40] ∧
    program.labels = [("top", 0), ("caught", 10), ("end", 12)] ∧
    (∀ item ∈ Samples.loopItems, item.isDataReference = false) ∧
    Script.decode program.script = .ok script ∧
    List.Forall₂ (fun item ins => ins.size = item.size ∧ item.Refers program.labels ins)
      (Samples.loopItems.filter (!·.isLabel)) script.instructions.toList ∧
    validateScript program.script = .ok script := by
  have hassemble : assemble Samples.loopItems = .ok
      ⟨#[0x3B, 0x0A, 0x00, 0x35, 0x09, 0x00, 0x00, 0x00, 0x3D, 0x04, 0x22, 0xF6, 0x40],
        [("top", 0), ("caught", 10), ("end", 12)]⟩ := by
    decide +kernel
  have hdata : ∀ item ∈ Samples.loopItems, item.isDataReference = false := by decide
  obtain ⟨script, hdecode, -, -, -, hresolved⟩ := assemble_resolves _ _ hassemble
  obtain ⟨hrefers, -, hvalid⟩ := hresolved hdata
  refine ⟨_, script, hassemble, rfl, rfl, hdata, hdecode, hrefers, hvalid ?_ ?_⟩
  · intro ins hins
    have hret : ins = .simple .ret := by simpa [Samples.loopItems] using hins
    subst hret
    exact ⟨rfl, rfl⟩
  · -- The last item is an instruction, so one follows every label.
    intro item _ name _ before after hsplit
    refine ⟨.plain (.simple .ret), ?_, rfl⟩
    have hlast := congrArg List.getLast? hsplit
    rw [List.getLast?_append, List.getLast?_cons] at hlast
    cases after with
    | nil =>
        simp [Samples.loopItems] at hlast
    | cons first after =>
        refine List.mem_of_getLast? ?_
        simpa [Samples.loopItems, List.getLast?_cons] using hlast.symm

/-- A data push takes its size from an operand that is not yet there.  The label behind it is
recorded one byte too early, inside the instruction. -/
theorem assemble_misplaces : ∃ program script,
    assemble [.target (.pushData .w1) "end", .label "end", .plain (.simple .ret)] = .ok program ∧
    Script.decode program.script = .ok script ∧
    script.instructions.toList = [⟨0, .pushData .w1, [0x02]⟩, ⟨3, .ret, []⟩] ∧
    program.labels.lookup "end" = some 2 ∧ isBoundaryOrEnd script 2 = false := by
  exact ⟨⟨#[0x0C, 0x01, 0x02, 0x40], [("end", 2)]⟩,
    .ofInstructions #[⟨0, .pushData .w1, [0x02]⟩, ⟨3, .ret, []⟩], by decide +kernel, rfl,
    rfl, by decide +kernel, by decide +kernel⟩

end NeoScript
