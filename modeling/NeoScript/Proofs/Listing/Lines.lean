import NeoScript.Listing

/-!
# Lines — what may break the line of an instruction

A line is made of digits, mnemonics and comments.  Data that is quoted in a comment has its line
ends escaped, names of the registry are kept as they are, and so are the names of called methods.

* `Text.Unbroken` — a text that stays on one line;
* `Registry.Unbroken` — names that do;
* `Instruction.calledToken?` — the token that an instruction calls;
* `unbroken_comment?_iff` — with such names a comment stays on its line exactly if the name of the
  called method does;
* `unbroken_instructionLine_iff` — and so does the line.
-/

namespace NeoScript

/-! ## Texts on one line -/

namespace Text

def Unbroken (s : String) : Prop := '\n' ∉ s.toList

instance (s : String) : Decidable (Unbroken s) := inferInstanceAs (Decidable ('\n' ∉ s.toList))

@[simp] theorem unbroken_append {s t : String} : Unbroken (s ++ t) ↔ Unbroken s ∧ Unbroken t := by
  simp [Unbroken]

theorem isDigit_newline : '\n'.isDigit = false := by decide

theorem newline_not_mem_toDigits (n : Nat) : '\n' ∉ Nat.toDigits 10 n := by
  intro hmem
  have hdigit := Nat.isDigit_of_mem_toDigits (by decide) (by decide) hmem
  simp [isDigit_newline] at hdigit

@[simp] theorem unbroken_nat (n : Nat) : Unbroken n.repr := by
  simpa [Unbroken] using newline_not_mem_toDigits n

@[simp] theorem unbroken_int (i : Int) : Unbroken i.repr := by
  cases i with
  | ofNat n => exact unbroken_nat n
  | negSucc n => exact unbroken_append.2 ⟨by decide, unbroken_nat (n + 1)⟩

@[simp] theorem unbroken_padded (width n : Nat) : Unbroken (padded width n) := by
  simp [Unbroken, padded, newline_not_mem_toDigits]

end Text

namespace Bytes

@[simp] theorem unbroken_toHex (bytes : List UInt8) : Text.Unbroken (toHex bytes) := by
  have hdigit : ∀ n < 16, hexDigit n ≠ '\n' := by decide
  have hpair (b : UInt8) : '\n' ∉ [hexDigit (b.toNat / 16), hexDigit (b.toNat % 16)] := by
    have hb := b.toNat_lt
    simp only [List.mem_cons, List.not_mem_nil, or_false, not_or]
    exact ⟨(hdigit _ (by omega)).symm, (hdigit _ (by omega)).symm⟩
  simpa [Text.Unbroken, toHex] using fun b _ => hpair b

end Bytes

@[simp] theorem Hash160.unbroken_renderBytes (bytes : List UInt8) :
    Text.Unbroken (renderBytes bytes) := by
  simp +decide [renderBytes]

/-- No name of an item type holds a line break. -/
theorem ItemType.unbroken_name (type : ItemType) : Text.Unbroken type.name := by
  cases type <;> decide

/-! ## Comments -/

def Instruction.calledToken? (tokens : List Token) (ins : Instruction) : Option Token :=
  if ins.op = .callToken then (ins.unsignedAt? 0 2).bind fun index => tokens[index]? else none

theorem Instruction.mem_of_calledToken? {tokens : List Token} (ins : Instruction) {token : Token}
    (h : ins.calledToken? tokens = some token) : token ∈ tokens := by
  unfold calledToken? at h
  split at h
  · obtain ⟨index, -, hindex⟩ := Option.bind_eq_some_iff.1 h
    exact List.mem_of_getElem? hindex
  · cases h

structure Registry.Unbroken (registry : Registry) : Prop where
  syscalls : ∀ entry ∈ registry.syscalls, Text.Unbroken entry.2
  contracts : ∀ entry ∈ registry.contracts, Text.Unbroken entry.2

/-- What is found in a table without line breaks holds none. -/
theorem unbroken_of_lookup {κ : Type} [BEq κ] [LawfulBEq κ] {table : List (κ × String)} {key : κ}
    {name : String}
    (htable : ∀ entry ∈ table, Text.Unbroken entry.2) (h : table.lookup key = some name) :
    Text.Unbroken name := by
  obtain ⟨front, back, rfl, -⟩ := List.lookup_eq_some_iff.1 h
  exact htable (key, name) (by simp)

variable {registry : Registry} {tokens : List Token} {ins : Instruction}

@[simp] theorem unbroken_positionText (pc : Nat) (offset : Int) :
    Text.Unbroken (positionText pc offset) := by
  simp +decide [positionText]

/-- Line ends inside data are escaped. -/
@[simp] theorem unbroken_dataText (data : List UInt8) : Text.Unbroken (dataText data) := by
  simp only [Text.Unbroken, dataText, String.toList_ofList, List.mem_flatMap, not_exists, not_and]
  intro c _ hmem
  by_cases hreturn : c = '\r'
  · exact absurd hmem (by simp +decide [hreturn])
  by_cases hnewline : c = '\n'
  · exact absurd hmem (by simp +decide [hnewline])
  · exact absurd hmem (by simpa [hreturn, hnewline] using Ne.symm hnewline)

/-- Data cannot break a line, since line ends are written in quotes. -/
theorem unbroken_dataComment (data : List UInt8) : Text.Unbroken (dataComment data) := by
  unfold dataComment
  split <;> simp +decide

/-- The comment of a try consists of numbers and fixed words. -/
theorem unbroken_handlersComment (pc : Nat) (catchOffset finallyOffset : Int) :
    Text.Unbroken (handlersComment pc catchOffset finallyOffset) := by
  unfold handlersComment
  by_cases hcatch : catchOffset = 0 <;> by_cases hfinally : finallyOffset = 0 <;>
    simp +decide [hcatch, hfinally]

/-- The comment of a service call is the name of the service. -/
theorem unbroken_syscallComment (hnames : registry.Unbroken) (hash : Nat) :
    Text.Unbroken (syscallComment registry hash) := by
  unfold syscallComment
  split
  · rename_i name hname
    exact Text.unbroken_append.2 ⟨unbroken_of_lookup hnames.syscalls hname, by decide⟩
  · simp +decide

theorem unbroken_typeComment (byte : Nat) : Text.Unbroken (typeComment byte) := by
  unfold typeComment
  split
  · exact Text.unbroken_append.2 ⟨ItemType.unbroken_name _, by decide⟩
  · simp +decide

/-- The comment of a token breaks a line exactly if the name of the method does. -/
theorem unbroken_tokenComment_iff (hnames : registry.Unbroken) (index : Nat) :
    Text.Unbroken (tokenComment tokens registry index) ↔
      ∀ token, tokens[index]? = some token → Text.Unbroken token.method := by
  unfold tokenComment
  cases htoken : tokens[index]? with
  | none => simp +decide
  | some token =>
      have hcontract :
          Text.Unbroken ((registry.contractName? token.hash).getD token.hash.render) := by
        cases hname : registry.contractName? token.hash with
        | none => exact Hash160.unbroken_renderBytes _
        | some name => exact unbroken_of_lookup hnames.contracts hname
      simp +decide [hcontract]

theorem unbroken_of_map {α : Type} {x : Option α} {f : α → String} {text : String}
    (hf : ∀ a, Text.Unbroken (f a)) (h : x.map f = some text) : Text.Unbroken text := by
  obtain ⟨a, -, rfl⟩ := Option.map_eq_some_iff.1 h
  exact hf a

/-- Among the comments only that of a call through a token can break its line. -/
theorem unbroken_comment?_of_ne (hnames : registry.Unbroken) (hop : ins.op ≠ .callToken)
    {text : String} (h : comment? tokens registry ins = some text) : Text.Unbroken text := by
  -- The cases stand in the order in which the comments are defined.
  unfold comment? at h
  split at h
  case h_1 | h_2 | h_3 =>
    split at h
    · cases h
    · exact unbroken_of_map Text.unbroken_int h
  case h_4 => exact unbroken_of_map (fun _ => Text.unbroken_int _) h
  case h_5 =>
    cases h
    exact unbroken_dataComment _
  case h_6 | h_7 | h_8 => exact unbroken_of_map (unbroken_positionText ins.pc) h
  case h_9 hcall => exact absurd hcall hop
  case h_10 => exact unbroken_of_map (fun _ => unbroken_handlersComment _ _ _) h
  case h_11 => exact unbroken_of_map (unbroken_syscallComment hnames) h
  case h_12 => exact unbroken_of_map (by simp +decide) h
  case h_13 =>
    obtain ⟨locals, -, h⟩ := Option.bind_eq_some_iff.1 h
    obtain ⟨arguments, -, h⟩ := Option.bind_eq_some_iff.1 h
    cases h
    simp +decide
  case h_14 | h_15 | h_16 => exact unbroken_of_map unbroken_typeComment h
  case h_17 =>
    split at h
    · exact unbroken_of_map (by simp +decide) h
    · cases h

/-- So of all comments only those of called tokens can break a line. -/
theorem unbroken_comment?_iff (hnames : registry.Unbroken) :
    (∀ text, comment? tokens registry ins = some text → Text.Unbroken text) ↔
      ∀ token, ins.calledToken? tokens = some token → Text.Unbroken token.method := by
  by_cases hop : ins.op = .callToken
  · have hcomment : comment? tokens registry ins =
        (ins.unsignedAt? 0 2).map (tokenComment tokens registry) := by
      simp [comment?, hop]
    rw [hcomment, Instruction.calledToken?, if_pos hop]
    cases hindex : ins.unsignedAt? 0 2 with
    | none => simp
    | some index => simp [unbroken_tokenComment_iff hnames]
  · have hcalled : ins.calledToken? tokens = none := if_neg hop
    simp only [hcalled, reduceCtorEq, false_implies, implies_true, iff_true]
    exact fun text h => unbroken_comment?_of_ne hnames hop h

/-! ## Mnemonics and operands -/

namespace Opcode

theorem mem_all (op : Opcode) : op ∈ all :=
  List.mem_filterMap.2 ⟨op.toByte.toNat, List.mem_range.2 op.toByte.toNat_lt, by simp⟩

/-- A mnemonic is one word on one line. -/
theorem mnemonic_word (op : Opcode) : ' ' ∉ op.mnemonic.toList ∧ Text.Unbroken op.mnemonic := by
  have hall : ∀ op ∈ all, ' ' ∉ op.mnemonic.toList ∧ Text.Unbroken op.mnemonic := by decide +kernel
  exact hall op op.mem_all

/-- No two operations have the same mnemonic. -/
theorem ofMnemonicExact?_mnemonic (op : Opcode) : ofMnemonicExact? op.mnemonic = some op := by
  -- Were two mnemonics the same, the later operation would not be found.
  have hall : ∀ op ∈ all, ofMnemonicExact? op.mnemonic = some op := by decide +kernel
  exact hall op op.mem_all

end Opcode

namespace Bytes

def upperPair (b : UInt8) : List Char :=
  [(hexDigit (b.toNat / 16)).toUpper, (hexDigit (b.toNat % 16)).toUpper]

def readPair? : List Char → Option UInt8
  | [high, low] => do
      let high ← hexValue? high
      let low ← hexValue? low
      return UInt8.ofNat (16 * high + low)
  | _ => none

theorem toList_toDashedHex (bytes : List UInt8) :
    (toDashedHex bytes).toList = ['-'].intercalate (bytes.map upperPair) := by
  have hpair : (fun b => ((toHex [b]).map Char.toUpper).toList) = upperPair := by
    funext b
    simp [toHex, upperPair]
  simp only [toDashedHex, String.toList_intercalate, List.map_map, Function.comp_def, hpair]
  rfl

theorem readPair?_upperPair (b : UInt8) : readPair? (upperPair b) = some b := by
  have hdigit : ∀ n < 16, hexValue? (hexDigit n).toUpper = some n := by decide
  have hb := b.toNat_lt
  have hsplit : 16 * (b.toNat / 16) + b.toNat % 16 = b.toNat := Nat.div_add_mod ..
  simp only [readPair?, upperPair, hdigit (b.toNat / 16) (by omega),
    hdigit (b.toNat % 16) (by omega)]
  exact congrArg some (by rw [hsplit, UInt8.ofNat_toNat])

/-- A digit is neither a sign nor a blank. -/
theorem not_mem_of_mem_upperPair {b : UInt8} {c : Char} (h : c ∈ upperPair b) :
    c ∉ ['-', ' ', '#', '\n'] := by
  have hdigit : ∀ n < 16, (hexDigit n).toUpper ∉ ['-', ' ', '#', '\n'] := by decide
  have hb := b.toNat_lt
  simp only [upperPair, List.mem_cons, List.not_mem_nil, or_false] at h
  obtain rfl | rfl := h
  · exact hdigit _ (by omega)
  · exact hdigit _ (by omega)

/-- Between the pairs there are dashes, and nothing else. -/
theorem mem_dashed {pairs : List (List Char)} {c : Char} (h : c ∈ ['-'].intercalate pairs) :
    c = '-' ∨ ∃ pair ∈ pairs, c ∈ pair := by
  induction pairs with
  | nil => simp at h
  | cons pair rest ih =>
      cases rest with
      | nil => exact .inr ⟨pair, by simp, by simpa using h⟩
      | cons next rest =>
          rw [List.intercalate_cons_cons, List.append_assoc, List.mem_append, List.mem_append,
            List.mem_singleton] at h
          obtain h | rfl | h := h
          · exact .inr ⟨pair, by simp, h⟩
          · exact .inl rfl
          · obtain rfl | ⟨found, hmem, hc⟩ := ih h
            · exact .inl rfl
            · exact .inr ⟨found, List.mem_cons_of_mem _ hmem, hc⟩

/-- An operand is one word on one line, and no comment. -/
theorem toDashedHex_word (bytes : List UInt8) :
    ' ' ∉ (toDashedHex bytes).toList ∧ '#' ∉ (toDashedHex bytes).toList ∧
      Text.Unbroken (toDashedHex bytes) := by
  have hmem : ∀ c ∈ [' ', '#', '\n'], c ∉ (toDashedHex bytes).toList := by
    intro c hc h
    rw [toList_toDashedHex] at h
    obtain rfl | ⟨pair, hpair, hmem⟩ := mem_dashed h
    · exact absurd hc (by decide)
    · obtain ⟨b, -, rfl⟩ := List.mem_map.1 hpair
      exact not_mem_of_mem_upperPair hmem (List.mem_cons_of_mem _ hc)
  exact ⟨hmem _ (by decide), hmem _ (by decide), hmem _ (by decide)⟩

end Bytes

/-! ## Lines -/

/-- The line of an instruction stays one exactly if the name of the method that it calls does. -/
theorem unbroken_instructionLine_iff (hnames : registry.Unbroken) (width : Nat) :
    Text.Unbroken (instructionLine width tokens registry ins) ↔
      ∀ token, ins.calledToken? tokens = some token → Text.Unbroken token.method := by
  rw [← unbroken_comment?_iff hnames]
  have hoperand : Text.Unbroken
      (if ins.operand.isEmpty then "" else " " ++ Bytes.toDashedHex ins.operand) := by
    cases ins.operand with
    | nil => decide
    | cons b rest => exact Text.unbroken_append.2 ⟨by decide, (Bytes.toDashedHex_word _).2.2⟩
  unfold instructionLine
  cases comment? tokens registry ins with
  | none => simp +decide [-List.isEmpty_iff, ins.op.mnemonic_word.2, hoperand]
  | some text => simp +decide [-List.isEmpty_iff, ins.op.mnemonic_word.2, hoperand]

end NeoScript
