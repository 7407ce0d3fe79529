import NeoScript.Nef.Parse
import NeoScript.Proofs.Listing.Lines
import NeoScript.Proofs.Script.RoundTrip
import NeoScript.Proofs.Text.Decimal

/-!
# Reading — scripts from their listings

A listing without companions has a line for every instruction, unless the name of a called method
breaks one.  Whoever reads the words of such lines finds the instructions again, and so the script.

* `Listing.Shows`, `Listing.Faithful` — lines that show instructions, and texts made of such lines;
* `Listing.readLine?`, `Listing.readScript?` — the instruction of a line and the script of a text;
* `Listing.Faithful.readScript?_eq` — a faithful text gives its script back;
* `render_faithful_iff` — when the text of a listing is faithful.
-/

namespace NeoScript

/-! ## Words -/

namespace Listing

def operandPart (operand : List UInt8) : List Char :=
  if operand = [] then [] else ' ' :: (Bytes.toDashedHex operand).toList

/-- The line shows the instruction: its address in `width` digits, its mnemonic and its operand, if
there is one, are its words, and what follows is a comment. -/
def Shows (width : Nat) (ins : Instruction) (line : List Char) : Prop :=
  ∃ address comment : List Char,
    line = address ++ ' ' :: (ins.op.mnemonic.toList ++ (operandPart ins.operand ++ comment)) ∧
    address.length = width ∧ Text.digitsValue? address = some ins.pc ∧
    (comment = [] ∨ ∃ text, comment = ' ' :: '#' :: ' ' :: text)

/-- The text has a line for every instruction and no others.  All addresses have the same width,
which is not more than the length of the script needs. -/
def Faithful (text : String) (script : Script) : Prop :=
  ∃ (width : Nat) (lines : List (List Char)),
    text.toList.splitOn '\n' = lines ++ [[]] ∧
    List.Forall₂ (Shows width) script.instructions.toList lines ∧
    width ≤ (Nat.toDigits 10 script.length).length

def readOperand? : List (List Char) → Option (List UInt8)
  | [] => some []
  | word :: _ => if word = ['#'] then some [] else (word.splitOn '-').mapM Bytes.readPair?

def readLine? (line : List Char) : Option Instruction :=
  match line.splitOn ' ' with
  | address :: name :: rest => do
      let pc ← Text.digitsValue? address
      let op ← Opcode.ofMnemonicExact? (String.ofList name)
      let operand ← readOperand? rest
      return ⟨pc, op, operand⟩
  | _ => none

def readScript? (text : String) : Option Code := do
  let instructions ← (text.toList.splitOn '\n').dropLast.mapM readLine?
  (encode instructions).toOption

/-! ## Reading lines -/

theorem mapM_eq_some_of_forall₂ {α β : Type} {f : α → Option β} {xs : List α} {ys : List β}
    (h : List.Forall₂ (fun x y => f x = some y) xs ys) : xs.mapM f = some ys := by
  induction h with
  | nil => rfl
  | cons hx _ ih => simp [List.mapM_cons, hx, ih]

/-- An operand is read back from its dashed digits. -/
theorem readOperand?_toDashedHex {operand : List UInt8} (hne : operand ≠ [])
    (rest : List (List Char)) :
    readOperand? ((Bytes.toDashedHex operand).toList :: rest) = some operand := by
  have hsign : (Bytes.toDashedHex operand).toList ≠ ['#'] := by
    intro heq
    exact (Bytes.toDashedHex_word operand).2.1 (by simp [heq])
  have hpairs : ∀ pair ∈ operand.map Bytes.upperPair, '-' ∉ pair := by
    intro pair hpair hmem
    obtain ⟨b, -, rfl⟩ := List.mem_map.1 hpair
    exact Bytes.not_mem_of_mem_upperPair hmem (by decide)
  rw [readOperand?, if_neg hsign, Bytes.toList_toDashedHex,
    List.splitOn_intercalate '-' hpairs (by simpa using hne)]
  refine mapM_eq_some_of_forall₂ (List.forall₂_map_left_iff.2 (List.forall₂_same.2 ?_))
  exact fun b _ => Bytes.readPair?_upperPair b

/-- The words behind the mnemonic begin with the operand. -/
theorem exists_splitOn_tail (operand : List UInt8) {comment word : List Char} (hword : ' ' ∉ word)
    (hcomment : comment = [] ∨ ∃ text, comment = ' ' :: '#' :: ' ' :: text) :
    ∃ rest, (word ++ (operandPart operand ++ comment)).splitOn ' ' = word :: rest ∧
      readOperand? rest = some operand := by
  have hoperand := (Bytes.toDashedHex_word operand).1
  by_cases hne : operand = []
  · subst hne
    obtain rfl | ⟨text, rfl⟩ := hcomment
    · exact ⟨[], by simpa [operandPart] using List.splitOn_eq_singleton hword, rfl⟩
    · have hsign : ' ' ∉ ['#'] := by decide
      refine ⟨['#'] :: text.splitOn ' ', ?_, rfl⟩
      rw [operandPart, if_pos rfl, List.nil_append, List.splitOn_append_cons_self_of_not_mem hword]
      exact congrArg _ (List.splitOn_append_cons_self_of_not_mem hsign text)
  · rw [operandPart, if_neg hne, List.cons_append, List.splitOn_append_cons_self_of_not_mem hword]
    obtain rfl | ⟨text, rfl⟩ := hcomment
    · rw [List.append_nil, List.splitOn_eq_singleton hoperand]
      exact ⟨_, rfl, readOperand?_toDashedHex hne _⟩
    · rw [List.splitOn_append_cons_self_of_not_mem hoperand]
      exact ⟨_, rfl, readOperand?_toDashedHex hne _⟩

/-- A line that shows an instruction is read as this instruction. -/
theorem Shows.readLine?_eq {width : Nat} {ins : Instruction} {line : List Char}
    (h : Shows width ins line) : readLine? line = some ins := by
  -- Neither the address nor the mnemonic has a blank, so they are the first two words.
  obtain ⟨address, comment, rfl, -, hpc, hcomment⟩ := h
  obtain ⟨rest, hrest, hoperand⟩ :=
    exists_splitOn_tail ins.operand ins.op.mnemonic_word.1 hcomment
  rw [readLine?, List.splitOn_append_cons_self_of_not_mem (Text.blank_not_mem_of_digitsValue? hpc),
    hrest]
  simp [hpc, hoperand, Opcode.ofMnemonicExact?_mnemonic]

/-- A faithful text gives its script back. -/
theorem Faithful.readScript?_eq {text : String} {script : Script} {code : Code}
    (h : Faithful text script) (hread : script.IsReading code) : readScript? text = some code := by
  obtain ⟨width, lines, hlines, hshows, -⟩ := h
  have hinstructions : lines.mapM readLine? = some script.instructions.toList :=
    mapM_eq_some_of_forall₂ (hshows.flip.imp fun _ _ hshow => Shows.readLine?_eq hshow)
  rw [readScript?, hlines, List.dropLast_concat, hinstructions]
  exact congrArg Except.toOption hread.encode_eq

/-! ## Writing lines -/

/-- The line of an instruction shows it, with or without a comment. -/
theorem shows_instructionLine {width : Nat} {ins : Instruction}
    (hwidth : (Nat.toDigits 10 ins.pc).length ≤ width) (tokens : List Token) (registry : Registry) :
    Shows width ins (instructionLine width tokens registry ins).toList := by
  refine ⟨(Text.padded width ins.pc).toList,
    ((comment? tokens registry ins).elim "" (" # " ++ ·)).toList, ?_, Text.length_padded hwidth,
    Text.digitsValue?_padded width ins.pc, ?_⟩
  · cases hoperand : ins.operand <;> cases hcomment : comment? tokens registry ins <;>
      simp [instructionLine, operandPart, hoperand, hcomment]
  · cases comment? tokens registry ins with
    | none => exact .inl rfl
    | some text => exact .inr ⟨text.toList, by simp⟩

/-- Lines that end with a break are the pieces between the breaks, if they have none themselves. -/
theorem splitOn_lines (lines : List (List Char)) :
    (lines.flatMap (· ++ ['\n'])).splitOn '\n' = lines.flatMap (·.splitOn '\n') ++ [[]] := by
  induction lines with
  | nil => rfl
  | cons line rest ih =>
      rw [List.flatMap_cons, List.append_assoc, List.singleton_append,
        List.splitOn_append_cons_self, ih, List.flatMap_cons, List.append_assoc]

/-- A line break makes two lines of one. -/
theorem two_le_length_splitOn {line : List Char} (h : '\n' ∈ line) :
    2 ≤ (line.splitOn '\n').length := by
  obtain ⟨front, back, rfl⟩ := List.append_of_mem h
  have hfront := List.length_pos_iff.2 (List.splitOn_ne_nil '\n' front)
  have hback := List.length_pos_iff.2 (List.splitOn_ne_nil '\n' back)
  rw [List.splitOn_append_cons_self, List.length_append]
  omega

/-- There are as many pieces as lines only if no line is broken. -/
theorem length_pieces (lines : List (List Char)) :
    lines.length ≤ (lines.flatMap (·.splitOn '\n')).length ∧
      ((lines.flatMap (·.splitOn '\n')).length = lines.length → ∀ line ∈ lines, '\n' ∉ line) := by
  induction lines with
  | nil => simp
  | cons line rest ih =>
      have hline := List.length_pos_iff.2 (List.splitOn_ne_nil '\n' line)
      rw [List.flatMap_cons, List.length_append, List.length_cons, List.forall_mem_cons]
      refine ⟨by omega, fun heq => ⟨fun hmem => ?_, ih.2 (by omega)⟩⟩
      have htwo := two_le_length_splitOn hmem
      omega

/-- Lines without line breaks are the lines of the text. -/
theorem pieces_of_unbroken {lines : List (List Char)} (h : ∀ line ∈ lines, '\n' ∉ line) :
    lines.flatMap (·.splitOn '\n') = lines := by
  induction lines with
  | nil => rfl
  | cons line rest ih =>
      rw [List.forall_mem_cons] at h
      rw [List.flatMap_cons, List.splitOn_eq_singleton h.1, ih h.2, List.singleton_append]

end Listing

/-- Every instruction begins inside the script. -/
theorem Script.IsReading.pc_lt_size {script : Script} {code : Code} (h : script.IsReading code)
    {ins : Instruction} (hins : ins ∈ script.instructions.toList) : ins.pc < code.size :=
  h.lt_of_isBoundary (h.isBoundary_iff.2 ⟨ins, hins, rfl⟩)

/-- The listed instructions are those of the script, possibly with a return behind its end, and the
last of them has the highest address. -/
theorem listed_eq_ok {script : Script} {code : Code} (h : script.IsReading code) :
    ∃ tail last, listed code = .ok (script.instructions.toList ++ tail) ∧
      (∀ ins ∈ tail, ins.pc = code.size) ∧
      (script.instructions.toList ++ tail).getLast? = some last ∧ last.pc ≤ code.size ∧
      ∀ ins ∈ script.instructions.toList, ins.pc ≤ last.pc := by
  have hbound : ∀ ins ∈ script.instructions.toList, ins.pc ≤ code.size := fun ins hins =>
    Nat.le_of_lt (h.pc_lt_size hins)
  have hlisted : listed code = if script.instructions.toList.getLast?.map (·.op) = some .ret
      then .ok script.instructions.toList
      else .ok (script.instructions.toList ++ [⟨code.size, .ret, []⟩]) := by
    rw [listed, Script.decode_eq_ok_iff.2 h]
    rfl
  -- A return is listed behind the end unless the script ends with one.
  by_cases hret : script.instructions.toList.getLast?.map (·.op) = some .ret
  · obtain ⟨last, hlast, -⟩ := Option.map_eq_some_iff.1 hret
    rw [hlisted, if_pos hret]
    refine ⟨[], last, by rw [List.append_nil], by simp, by rw [List.append_nil, hlast],
      hbound _ (List.mem_of_getLast? hlast), ?_⟩
    obtain ⟨front, hfront⟩ := List.getLast?_eq_some_iff.1 hlast
    have hpairwise := h.placed.pairwise_pc
    rw [hfront, List.pairwise_append] at hpairwise
    intro ins hins
    rw [hfront, List.mem_append, List.mem_singleton] at hins
    obtain hins | rfl := hins
    · exact Nat.le_of_lt (hpairwise.2.2 ins hins last (by simp))
    · exact Nat.le_refl _
  · rw [hlisted, if_neg hret]
    exact ⟨[⟨code.size, .ret, []⟩], _, rfl, by simp, List.getLast?_concat, Nat.le_refl _, hbound⟩

namespace Listing

/-- Without a manifest and debug information nothing stands between the instructions. -/
theorem annotations_empty (sources : Sources) (pc : Nat) :
    empty.annotations none sources pc = [] := by
  simp [annotations, empty]

/-- Without companions there are the lines of the instructions and no others. -/
theorem lines_eq_ok {nef : Nef} {script : Script} (h : script.IsReading nef.script)
    (registry : Registry) (sources : Sources) :
    ∃ width, lines nef none none registry sources =
        .ok (script.instructions.toList.map (instructionLine width nef.tokens registry)) ∧
      (∀ ins ∈ script.instructions.toList, (Nat.toDigits 10 ins.pc).length ≤ width) ∧
      width ≤ (Nat.toDigits 10 nef.script.size).length := by
  obtain ⟨tail, last, hlisted, htail, hlast, hsize, hle⟩ := listed_eq_ok h
  -- The number of digits grows with the number, so the last address needs the most.
  have hdigits {a b : Nat} (hab : a ≤ b) :
      (Nat.toDigits 10 a).length ≤ (Nat.toDigits 10 b).length :=
    (Nat.length_toDigits_le_iff (by decide) Nat.length_toDigits_pos).2
      (Nat.lt_of_le_of_lt hab ((Nat.length_toDigits_le_iff (by decide) Nat.length_toDigits_pos).1
        (Nat.le_refl _)))
  refine ⟨(Nat.toDigits 10 last.pc).length, ?_, fun ins hins =>
    hdigits (hle ins hins), hdigits hsize⟩
  have hcompanions : ofCompanions none none = empty := rfl
  rw [lines, hlisted, Sequencing.ok_bind]
  simp only [hlast, hcompanions, annotations_empty, List.nil_append]
  refine congrArg Except.ok ?_
  -- The return behind the end has an address but no line.
  rw [List.flatMap_append, List.map_eq_flatMap]
  refine (congrArg₂ _ ?_ ?_).trans (List.append_nil _)
  · exact List.flatMap_congr fun ins hins => if_pos (h.pc_lt_size hins)
  · refine List.flatMap_eq_nil_iff.2 fun ins hins => if_neg ?_
    rw [htail ins hins]
    exact Nat.lt_irrefl _

end Listing

/-- The listing of a readable script without companions.  It shows every instruction on a line of
its own exactly if no name of a called method is broken, and then the script can be read from it. -/
theorem render_faithful_iff {nef : Nef} {script : Script} {registry : Registry}
    (hdecode : Script.decode nef.script = .ok script) (hnames : registry.Unbroken)
    (sources : Sources) :
    ∃ text, Listing.render nef none none registry sources = .ok text ∧
      (Listing.Faithful text script ↔ ∀ ins ∈ script.instructions.toList, ∀ token,
        ins.calledToken? nef.tokens = some token → Text.Unbroken token.method) ∧
      (Listing.Faithful text script → Listing.readScript? text = some nef.script) := by
  have hread := Script.decode_eq_ok_iff.1 hdecode
  obtain ⟨width, hlines, hwidth, hsize⟩ := Listing.lines_eq_ok hread registry sources
  let shown := script.instructions.toList.map fun ins =>
      (instructionLine width nef.tokens registry ins).toList
  have hsplit : (String.join
      ((script.instructions.toList.map (instructionLine width nef.tokens registry)).map
      (· ++ "\n"))).toList.splitOn '\n' = shown.flatMap (·.splitOn '\n') ++ [[]] := by
    rw [← Listing.splitOn_lines]
    simp [shown, String.toList_join, List.flatMap_map]
  have hshown : (∀ line ∈ shown, '\n' ∉ line) ↔ ∀ ins ∈ script.instructions.toList, ∀ token,
      ins.calledToken? nef.tokens = some token → Text.Unbroken token.method := by
    rw [List.forall_mem_map]
    exact forall₂_congr fun ins _ => unbroken_instructionLine_iff hnames width
  refine ⟨_, by rw [Listing.render, hlines]; rfl, ?_, fun h => h.readScript?_eq hread⟩
  rw [← hshown]
  constructor
  · rintro ⟨_, pieces, hpieces, hforall, -⟩
    -- There is one piece for each instruction, and a broken line would add another.
    rw [hsplit, List.append_cancel_right_eq] at hpieces
    refine (Listing.length_pieces shown).2 ?_
    rw [hpieces, ← hforall.length_eq, List.length_map]
  · intro hunbroken
    refine ⟨width, shown, by rw [hsplit, Listing.pieces_of_unbroken hunbroken], ?_,
      hread.length_eq ▸ hsize⟩
    refine List.forall₂_map_right_iff.2 (List.forall₂_same.2 fun ins hins => ?_)
    exact Listing.shows_instructionLine (hwidth ins hins) nef.tokens registry

namespace Samples

def listedToken (method : String) : Token :=
  ⟨⟨List.replicate 20 0, rfl⟩, method, 0, false, 0⟩

def listedNames : Registry where
  syscalls := [(0x9647E7CF, "System.Runtime.Log")]
  contracts := [("0x0000000000000000000000000000000000000000", "s")]

/-- A push of two line ends, a service call and a call through a token. -/
def quotingNef : Nef where
  compiler := ""
  source := ""
  tokens := [listedToken "a"]
  script := #[0x0C, 0x02, 0x0D, 0x0A, 0x41, 0xCF, 0xE7, 0x47, 0x96, 0x37, 0x00, 0x00, 0x40]
  checksum := 0

/-- A call of a method whose name pretends to be another line. -/
def brokenNef : Nef where
  compiler := ""
  source := ""
  tokens := [listedToken "a token call\n3 CALLT 01-00 # s.b"]
  script := #[0x37, 0x00, 0x00]
  checksum := 592318115

def pretendedNef : Nef where
  compiler := ""
  source := ""
  tokens := [listedToken "a", listedToken "b"]
  script := #[0x37, 0x00, 0x00, 0x37, 0x01, 0x00]
  checksum := 2036603166

end Samples

/-- Data with line ends is listed on one line, and the script is read back. -/
theorem render_faithful_iff_quoting :
    Samples.listedNames.Unbroken ∧
    ∃ text script, Script.decode Samples.quotingNef.script = .ok script ∧
      Listing.render Samples.quotingNef none none Samples.listedNames Sources.empty = .ok text ∧
      Listing.Faithful text script ∧ Listing.readScript? text = some Samples.quotingNef.script := by
  have hnames : Samples.listedNames.Unbroken := ⟨by decide, by decide⟩
  have hmethods : ∀ token ∈ Samples.quotingNef.tokens, Text.Unbroken token.method := by decide
  obtain ⟨script, hdecode⟩ : ∃ script, Script.decode Samples.quotingNef.script = .ok script :=
    ⟨_, rfl⟩
  obtain ⟨text, htext, hiff, hread⟩ := render_faithful_iff hdecode hnames Sources.empty
  have hfaithful := hiff.2 fun ins _ token htoken => hmethods token (ins.mem_of_calledToken? htoken)
  exact ⟨hnames, text, script, hdecode, htext, hfaithful, hread hfaithful⟩

/-- Two files are accepted and listed in the same way, but one has a single instruction and the
other has two. -/
theorem render_ambiguous : Samples.listedNames.Unbroken ∧
    (Samples.brokenNef.toBytes >>= Nef.parse) = .ok Samples.brokenNef ∧
    (Samples.pretendedNef.toBytes >>= Nef.parse) = .ok Samples.pretendedNef ∧
    (Script.decode Samples.brokenNef.script).map (·.instructions.size) = .ok 1 ∧
    (Script.decode Samples.pretendedNef.script).map (·.instructions.size) = .ok 2 ∧
    ∃ text, Listing.render Samples.brokenNef none none Samples.listedNames Sources.empty =
      .ok text ∧
      Listing.render Samples.pretendedNef none none Samples.listedNames Sources.empty =
        .ok text := by
  refine ⟨⟨by decide, by decide⟩, by decide +kernel, by decide +kernel, rfl, rfl,
    "0 CALLT 00-00 # s.a token call\n3 CALLT 01-00 # s.b token call\n",
    by decide +kernel, by decide +kernel⟩

end NeoScript
