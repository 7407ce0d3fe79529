import NeoScript.Nef.Basic
import NeoScript.Proofs.Sequencing

/-!
# Spelling — the files that hold a container

A number of variable length has longer forms than it needs, and what stands behind the first zero of
the compiler field has no meaning.  So one container has many files.

* `VarInt.Form` — the forms of a number;
* `Nef.Sealable` — what a container needs besides a script of the right length, and sealing it;
* `Nef.Style` — the choices that a file makes, and `Nef.write` — the file;
* `Nef.toBytes_eq_ok_iff` — writing makes the plain choices, if the container fits;
* `Nef.Style.eq_of_write_eq` — a file tells its choices.
-/

namespace NeoScript

/-! ## Forms of numbers -/

namespace VarInt

/-- A number takes one byte, or two, four or eight bytes behind a mark. -/
inductive Form where
  | one
  | two
  | four
  | eight
  deriving DecidableEq, Repr

namespace Form

def limit : Form → Nat
  | one => 0xFD
  | two => 0x10000
  | four => 0x100000000
  | eight => 0x10000000000000000

def write : Form → Nat → List UInt8
  | one, n => Bytes.ofNat 1 n
  | two, n => 0xFD :: Bytes.ofNat 2 n
  | four, n => 0xFE :: Bytes.ofNat 4 n
  | eight, n => 0xFF :: Bytes.ofNat 8 n

def writeText (form : Form) (s : String) : List UInt8 :=
  form.write (Utf8.length s) ++ Utf8.encode s

def shortest (n : Nat) : Form :=
  if n < 0xFD then one
  else if n < 0x10000 then two
  else if n < 0x100000000 then four
  else eight

variable {n : Nat}

/-- Numbers are written in their shortest form. -/
theorem encode_eq_write (n : Nat) : encode n = (shortest n).write n := by
  unfold encode shortest
  split
  · rfl
  split
  · rfl
  split
  · rfl
  · rfl

theorem encodeBytes_eq_write (bytes : List UInt8) :
    encodeBytes bytes = (shortest bytes.length).write bytes.length ++ bytes := by
  rw [encodeBytes, encode_eq_write]

/-- Texts are written behind their length in its shortest form. -/
theorem encodeBytes_encode (s : String) :
    encodeBytes (Utf8.encode s) = (shortest (Utf8.length s)).writeText s := by
  rw [encodeBytes_eq_write]
  rfl

/-- The shortest form of a number is wide enough for it. -/
theorem lt_limit_shortest (h : n < 0x10000000000000000) : n < (shortest n).limit := by
  unfold shortest
  split
  · assumption
  split
  · assumption
  split
  · assumption
  · exact h

def lead : Form → Nat → Nat
  | one, n => n
  | two, _ => 0xFD
  | four, _ => 0xFE
  | eight, _ => 0xFF

/-- A form begins with a byte that tells which one it is. -/
theorem exists_write_eq (form : Form) (n : Nat) :
    ∃ tail, form.write n = UInt8.ofNat (form.lead n) :: tail := by
  cases form <;> exact ⟨_, rfl⟩

theorem lead_lt {form : Form} (h : n < form.limit) : form.lead n < 256 := by
  revert h
  cases form <;> simp only [limit, lead] <;> omega

/-- No two forms of a number begin with the same byte. -/
theorem eq_of_lead_eq {form form' : Form} (hform : n < form.limit) (hform' : n < form'.limit)
    (h : form.lead n = form'.lead n) : form = form' := by
  -- A number of one byte stays below the marks.
  revert hform hform' h
  cases form <;> cases form' <;> simp only [limit, lead, reduceCtorEq, implies_true] <;> omega

/-- The first byte tells the form. -/
theorem eq_of_write_append {form form' : Form} (hform : n < form.limit) (hform' : n < form'.limit)
    {xs ys : List UInt8} (h : form.write n ++ xs = form'.write n ++ ys) :
    form = form' ∧ xs = ys := by
  obtain ⟨tail, htail⟩ := form.exists_write_eq n
  obtain ⟨tail', htail'⟩ := form'.exists_write_eq n
  have hlead : UInt8.ofNat (form.lead n) = UInt8.ofNat (form'.lead n) := by
    rw [htail, htail'] at h
    exact (List.cons.inj h).1
  have hnat := congrArg UInt8.toNat hlead
  rw [UInt8.toNat_ofNat_of_lt' (lead_lt hform), UInt8.toNat_ofNat_of_lt' (lead_lt hform')] at hnat
  obtain rfl := eq_of_lead_eq hform hform' hnat
  exact ⟨rfl, List.append_cancel_left h⟩

end Form

end VarInt

/-! ## Sealing -/

namespace Nef

/-- What a container needs besides a script of the right length. -/
structure Sealable (nef : Nef) : Prop where
  compiler : Utf8.length nef.compiler ≤ compilerLength
  source : Utf8.length nef.source ≤ maxSourceLength
  tokens : nef.tokens.length ≤ maxTokens
  methods : ∀ token ∈ nef.tokens, ∃ bytes, tokenBytes token = .ok bytes

/-- A container can be written if it can be sealed and its script has a length that is allowed. -/
theorem exists_body_iff {nef : Nef} : (∃ bytes, nef.body = .ok bytes) ↔
    nef.Sealable ∧ nef.script.size ≠ 0 ∧ nef.script.size ≤ maxScriptLength := by
  constructor
  · rintro ⟨bytes, h⟩
    unfold body at h
    split_ifs at h with hcompiler hsource htokens hscript
    obtain ⟨parts, hparts, -⟩ := Sequencing.bind_eq_ok.1 h
    refine ⟨⟨Nat.le_of_not_lt hcompiler, Nat.le_of_not_lt hsource, Nat.le_of_not_lt htokens, ?_⟩,
      ?_⟩
    · intro token htoken
      obtain ⟨part, -, hpart⟩ :=
        Sequencing.exists_right_of_forall₂ (Sequencing.mapM_eq_ok.1 hparts) htoken
      exact ⟨part, hpart⟩
    · rw [not_or, Nat.not_lt] at hscript
      exact hscript
  · rintro ⟨h, hne, hsize⟩
    obtain ⟨parts, hparts⟩ := Sequencing.exists_mapM_eq_ok h.methods
    unfold body
    rw [if_neg (Nat.not_lt.2 h.compiler), if_neg (Nat.not_lt.2 h.source),
      if_neg (Nat.not_lt.2 h.tokens), if_neg (not_or.2 ⟨hne, Nat.not_lt.2 hsize⟩)]
    exact ⟨_, Sequencing.bind_eq_ok.2 ⟨parts, hparts, rfl⟩⟩

/-- Whoever can compute a checksum has written everything in front of it. -/
theorem sealable_of_computeChecksum {nef : Nef} {checksum : UInt32}
    (h : nef.computeChecksum = .ok checksum) : nef.Sealable := by
  obtain ⟨body, hbody, -⟩ := Sequencing.map_eq_ok.1 h
  exact (exists_body_iff.1 ⟨body, hbody⟩).1

/-- A container that can be sealed can be sealed around every script of the right length. -/
theorem Sealable.exists_withScript {nef : Nef} (h : nef.Sealable) (code : Code)
    (hne : code.size ≠ 0) (hsize : code.size ≤ maxScriptLength) :
    ∃ nef', nef.withScript code = .ok nef' ∧ nef'.script = code ∧
      nef'.computeChecksum = .ok nef'.checksum := by
  have hsealed : ∀ checksum, Sealable ⟨nef.compiler, nef.source, nef.tokens, code, checksum⟩ :=
    fun _ => ⟨h.compiler, h.source, h.tokens, h.methods⟩
  obtain ⟨bytes, hbytes⟩ := exists_body_iff.2 ⟨hsealed 0, hne, hsize⟩
  -- The checksum is not part of what is sealed.
  obtain ⟨checksum, hchecksum⟩ : ∃ checksum, ∀ old,
      computeChecksum ⟨nef.compiler, nef.source, nef.tokens, code, old⟩ = .ok checksum :=
    ⟨checksumOf bytes, fun _ => Sequencing.map_eq_ok.2 ⟨bytes, hbytes, rfl⟩⟩
  refine ⟨⟨nef.compiler, nef.source, nef.tokens, code, checksum⟩, ?_, rfl, hchecksum checksum⟩
  exact Sequencing.bind_eq_ok.2 ⟨checksum, hchecksum 0, rfl⟩

/-- The length of the script is the only obstacle. -/
theorem Sealable.withScript_of_lt {nef : Nef} (h : nef.Sealable) {code : Code}
    (hsize : maxScriptLength < code.size) :
    nef.withScript code = .error (.invalidNef (.scriptLength code.size)) := by
  have hbody : body ⟨nef.compiler, nef.source, nef.tokens, code, 0⟩ =
      .error (.invalidNef (.scriptLength code.size)) := by
    unfold body
    rw [if_neg (Nat.not_lt.2 h.compiler), if_neg (Nat.not_lt.2 h.source),
      if_neg (Nat.not_lt.2 h.tokens), if_pos (.inr hsize)]
  simp only [withScript, make, computeChecksum, hbody]
  rfl

end Nef

/-! ## Files -/

def Token.write (token : Token) (method : VarInt.Form) : List UInt8 :=
  token.hash.bytes ++ (method.writeText token.method ++
    (Bytes.ofNat 2 token.parameters.toNat ++ [if token.returns then 1 else 0, token.callFlags]))

namespace Nef

/-- What a file may choose: what fills up the compiler field, and the form of every number. -/
structure Style where
  padding : List UInt8
  source : VarInt.Form
  count : VarInt.Form
  methods : List VarInt.Form
  script : VarInt.Form
  deriving DecidableEq, Repr

def writeTokens (tokens : List Token) (methods : List VarInt.Form) : List UInt8 :=
  (List.zipWith Token.write tokens methods).flatten

def writeBody (nef : Nef) (style : Style) : List UInt8 :=
  Bytes.ofNat 4 magic ++ ((Utf8.encode nef.compiler ++ style.padding) ++
    (style.source.writeText nef.source ++ ([0] ++ (style.count.write nef.tokens.length ++
      (writeTokens nef.tokens style.methods ++ ([0, 0] ++
        (style.script.write nef.script.size ++ nef.script.toList)))))))

def write (nef : Nef) (style : Style) : List UInt8 :=
  nef.writeBody style ++ Bytes.ofNat 4 nef.checksum.toNat

/-- The choices fit a container: the compiler field has its length and ends at the first zero, and
every form holds its number. -/
structure Style.Suits (style : Style) (nef : Nef) : Prop where
  compiler : Utf8.length nef.compiler + style.padding.length = compilerLength
  padding : ∀ b ∈ style.padding.head?, b = 0
  source : Utf8.length nef.source < style.source.limit
  count : nef.tokens.length < style.count.limit
  methods : List.Forall₂ (fun token form =>
    Utf8.length token.method < form.limit) nef.tokens style.methods
  script : nef.script.size < style.script.limit

def plainStyle (nef : Nef) : Style where
  padding := List.replicate (compilerLength - Utf8.length nef.compiler) 0
  source := .shortest (Utf8.length nef.source)
  count := .shortest nef.tokens.length
  methods := nef.tokens.map fun token => .shortest (Utf8.length token.method)
  script := .shortest nef.script.size

/-- What a container needs to be written. -/
structure Fits (nef : Nef) : Prop extends nef.Sealable where
  nonempty : nef.script.size ≠ 0
  script : nef.script.size ≤ maxScriptLength

/-- A token is written in its shortest form, unless the name of its method is too long. -/
theorem tokenBytes_eq_ok_iff {token : Token} {bytes : List UInt8} :
    tokenBytes token = .ok bytes ↔ Utf8.length token.method ≤ maxMethodLength ∧
      token.write (.shortest (Utf8.length token.method)) = bytes := by
  unfold tokenBytes
  split
  · rename_i hlong
    simp [Nat.not_le.2 hlong]
  · rename_i hshort
    rw [and_iff_right (Nat.le_of_not_lt hshort), Except.ok.injEq, VarInt.Form.encodeBytes_encode]
    simp only [Token.write, List.append_assoc]

theorem exists_tokenBytes_iff {token : Token} :
    (∃ bytes, tokenBytes token = .ok bytes) ↔ Utf8.length token.method ≤ maxMethodLength := by
  simp [tokenBytes_eq_ok_iff]

theorem writeTokens_map (tokens : List Token) (form : Token → VarInt.Form) :
    writeTokens tokens (tokens.map form) = (tokens.map fun token =>
      token.write (form token)).flatten := by
  rw [writeTokens, List.zipWith_map_right, List.zipWith_self]

variable {nef : Nef} {bytes : List UInt8}

/-- A container that fits is written in the plain style. -/
theorem Fits.body_eq (h : nef.Fits) : nef.body = .ok (nef.writeBody nef.plainStyle) := by
  have htokens : nef.tokens.mapM tokenBytes =
      .ok (nef.tokens.map fun token => token.write (.shortest (Utf8.length token.method))) := by
    refine Sequencing.mapM_eq_ok.2 (List.forall₂_map_right_iff.2 (List.forall₂_same.2 ?_))
    intro token hmem
    exact tokenBytes_eq_ok_iff.2 ⟨exists_tokenBytes_iff.1 (h.methods token hmem), rfl⟩
  unfold body
  rw [if_neg (Nat.not_lt.2 h.compiler), if_neg (Nat.not_lt.2 h.source),
    if_neg (Nat.not_lt.2 h.tokens),
    if_neg (not_or.2 ⟨h.nonempty, Nat.not_lt.2 h.script⟩), htokens, Sequencing.ok_bind]
  refine congrArg Except.ok ?_
  simp [writeBody, plainStyle, compilerField, VarInt.Form.encodeBytes_eq_write,
    VarInt.Form.encode_eq_write, VarInt.Form.writeText, Utf8.length, writeTokens_map]

/-- Only the plain style is written. -/
theorem body_eq_ok_iff :
    nef.body = .ok bytes ↔ nef.Fits ∧ nef.writeBody nef.plainStyle = bytes := by
  constructor
  · intro h
    obtain ⟨hsealable, hne, hsize⟩ := exists_body_iff.1 ⟨bytes, h⟩
    have hfits : nef.Fits := ⟨hsealable, hne, hsize⟩
    exact ⟨hfits, Except.ok.inj (hfits.body_eq.symm.trans h)⟩
  · rintro ⟨hfits, rfl⟩
    exact hfits.body_eq

/-- Writing makes the plain choices. -/
theorem toBytes_eq_ok_iff :
    nef.toBytes = .ok bytes ↔ nef.Fits ∧ nef.write nef.plainStyle = bytes := by
  unfold toBytes
  rw [Sequencing.bind_eq_ok]
  constructor
  · rintro ⟨body, hbody, h⟩
    obtain ⟨hfits, rfl⟩ := body_eq_ok_iff.1 hbody
    exact ⟨hfits, Except.ok.inj h⟩
  · rintro ⟨hfits, rfl⟩
    exact ⟨_, hfits.body_eq, rfl⟩

/-- The plain choices suit every container that can be written. -/
theorem Fits.suits_plainStyle (h : nef.Fits) : nef.plainStyle.Suits nef where
  compiler := by
    rw [plainStyle, List.length_replicate]
    exact Nat.add_sub_cancel' h.compiler
  padding := by
    intro b hb
    exact List.eq_of_mem_replicate (List.mem_of_mem_head? hb)
  source := VarInt.Form.lt_limit_shortest (Nat.lt_of_le_of_lt h.source (by decide))
  count := VarInt.Form.lt_limit_shortest (Nat.lt_of_le_of_lt h.tokens (by decide))
  methods := by
    refine List.forall₂_map_right_iff.2 (List.forall₂_same.2 ?_)
    intro token hmem
    have hlength := exists_tokenBytes_iff.1 (h.methods token hmem)
    exact VarInt.Form.lt_limit_shortest (Nat.lt_of_le_of_lt hlength (by decide))
  script := VarInt.Form.lt_limit_shortest (Nat.lt_of_le_of_lt h.script (by decide))

/-! ## Choices told by a file -/

/-- The spelling of tokens can be told from their bytes. -/
theorem eq_of_writeTokens_append {tokens : List Token} {methods methods' : List VarInt.Form}
    (h : List.Forall₂ (fun token form => Utf8.length token.method < form.limit) tokens methods)
    (h' : List.Forall₂ (fun token form => Utf8.length token.method < form.limit) tokens methods')
    {xs ys : List UInt8} (heq : writeTokens tokens methods ++ xs =
      writeTokens tokens methods' ++ ys) :
    methods = methods' ∧ xs = ys := by
  induction h generalizing methods' with
  | nil =>
      cases h'
      exact ⟨rfl, heq⟩
  | @cons token form tokens methods hform hforms ih =>
      cases h' with
      | @cons _ form' _ methods' hform' hforms' =>
          simp only [writeTokens, List.zipWith_cons_cons, List.flatten_cons, Token.write,
            VarInt.Form.writeText, List.append_assoc] at heq
          obtain ⟨rfl, heq⟩ :=
            VarInt.Form.eq_of_write_append hform hform' (List.append_cancel_left heq)
          simp only [List.append_cancel_left_eq] at heq
          obtain ⟨rfl, rfl⟩ := ih hforms' heq
          exact ⟨rfl, rfl⟩

/-- A file tells its choices. -/
theorem Style.eq_of_write_eq {style style' : Style} (h : style.Suits nef) (h' : style'.Suits nef)
    (heq : nef.write style = nef.write style') : style = style' := by
  -- Part by part from the front: each choice is told by the length or by the first byte of its
  -- part.
  simp only [write, writeBody, VarInt.Form.writeText, List.append_assoc,
    List.append_cancel_left_eq] at heq
  have hlength : style.padding.length = style'.padding.length :=
    Nat.add_left_cancel (h.compiler.trans h'.compiler.symm)
  obtain ⟨hpadding, heq⟩ := List.append_inj heq hlength
  obtain ⟨hsource, heq⟩ := VarInt.Form.eq_of_write_append h.source h'.source heq
  simp only [List.append_cancel_left_eq] at heq
  obtain ⟨hcount, heq⟩ := VarInt.Form.eq_of_write_append h.count h'.count heq
  obtain ⟨hmethods, heq⟩ := eq_of_writeTokens_append h.methods h'.methods heq
  simp only [List.append_cancel_left_eq] at heq
  obtain ⟨hscript, -⟩ := VarInt.Form.eq_of_write_append h.script h'.script heq
  obtain ⟨padding, source, count, methods, script⟩ := style
  obtain ⟨padding', source', count', methods', script'⟩ := style'
  simp_all

end Nef

end NeoScript
