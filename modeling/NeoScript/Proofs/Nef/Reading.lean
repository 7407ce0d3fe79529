import Mathlib.Data.List.TakeWhile
import NeoScript.Nef.Parse
import NeoScript.Proofs.Nef.Spelling
import NeoScript.Proofs.Script.Codec
import NeoScript.Proofs.Text.Utf8

/-!
# Reading — the files that are accepted

* `Nef.Reader.Reads` — a reader takes the spellings of its values from the front, and nothing else;
* `Nef.Readable` — what a container needs to be read;
* `Nef.parseUnchecked_eq_ok_iff` — a file is read as a container exactly if it holds it in some
  style.
-/

namespace NeoScript

/-! ## Containers that can be read -/

structure Token.Readable (token : Token) : Prop where
  length : Utf8.length token.method ≤ Nef.maxMethodLength
  shown : token.method.toList.head? ≠ some '_'
  flags : token.callFlags.toNat ≤ Nef.allCallFlags

structure Nef.Readable (nef : Nef) : Prop extends nef.Fits where
  noZero : '\x00' ∉ nef.compiler.toList
  readable : ∀ token ∈ nef.tokens, token.Readable

namespace Nef.Reader

/-! ## Readers and spellings -/

/-- A reader takes a spelling of its value from the front, whatever follows, and nothing else. -/
def Reads {α : Type} (r : Reader α) (Spells : α → List UInt8 → Prop) : Prop :=
  ∀ offset bytes a cursor, r ⟨offset, bytes⟩ = .ok (a, cursor) ↔
    ∃ front, Spells a front ∧ front ++ cursor.rest = bytes ∧ offset + front.length = cursor.offset

namespace Reads

variable {α β : Type} {r r' : Reader α} {S S' : α → List UInt8 → Prop}

theorem congr (h : Reads r S) (hiff : ∀ a front, S a front ↔ S' a front) : Reads r S' := by
  intro offset bytes a cursor
  rw [h offset bytes a cursor]
  simp only [hiff]

theorem pure (value : α) : Reads (pure value) fun a front => a = value ∧ front = [] := by
  intro offset bytes a cursor
  constructor
  · intro h
    cases h
    exact ⟨[], ⟨rfl, rfl⟩, rfl, rfl⟩
  · rintro ⟨front, ⟨rfl, rfl⟩, rfl, hoffset⟩
    obtain ⟨_, rest⟩ := cursor
    cases hoffset
    rfl

theorem fail (fault : NefFault) : Reads (Reader.fail fault : Reader α) fun _ _ => False := by
  intro offset bytes a cursor
  constructor
  · intro h
    cases h
  · rintro ⟨_, ⟨⟩, _⟩

/-- A sequence reads what its parts read, one behind the other. -/
theorem bind {f : α → Reader β} {T : α → β → List UInt8 → Prop} (hr : Reads r S)
    (hf : ∀ a, Reads (f a) (T a)) :
    Reads (r >>= f) fun b front => ∃ a x y, x ++ y = front ∧ S a x ∧ T a b y := by
  intro offset bytes b cursor
  have hbind : (r >>= f) ⟨offset, bytes⟩ = r ⟨offset, bytes⟩ >>= fun entry => f entry.1 entry.2 :=
    rfl
  rw [hbind, Sequencing.bind_eq_ok]
  constructor
  · rintro ⟨⟨a, ⟨middle, rest⟩⟩, ha, hb⟩
    obtain ⟨x, hx, rfl, hmiddle⟩ := (hr ..).1 ha
    obtain ⟨y, hy, hrest, hoffset⟩ := (hf ..).1 hb
    refine ⟨x ++ y, ⟨a, x, y, rfl, hx, hy⟩, ?_, ?_⟩
    · rw [List.append_assoc, hrest]
    · rw [List.length_append, ← Nat.add_assoc, hmiddle, hoffset]
  · rintro ⟨_, ⟨a, x, y, rfl, hx, hy⟩, rfl, hoffset⟩
    rw [List.length_append, ← Nat.add_assoc] at hoffset
    refine ⟨(a, ⟨offset + x.length, y ++ cursor.rest⟩), (hr ..).2 ⟨x, hx, ?_, rfl⟩,
      (hf ..).2 ⟨y, hy, rfl, hoffset⟩⟩
    rw [List.append_assoc]

theorem ite {p : Prop} [Decidable p] (h : Reads r S) (h' : Reads r' S') :
    Reads (if p then r else r') fun a front => (p ∧ S a front) ∨ (¬ p ∧ S' a front) := by
  by_cases hp : p
  · rw [if_pos hp]
    exact h.congr fun a front => by simp [hp]
  · rw [if_neg hp]
    exact h'.congr fun a front => by simp [hp]

/-- A reader that refuses some of what it could read. -/
theorem guarded {p : Prop} [Decidable p] (fault : NefFault) (h : Reads r S) :
    Reads (if p then Reader.fail fault else r) fun a front => ¬ p ∧ S a front :=
  (ite (fail fault) h).congr fun a front => by simp

/-- A reader that gives back what was found before. -/
theorem option {x : Option α} (hsome : ∀ a, x = some a → r = Pure.pure a)
    (hnone : x = none → ∃ fault, r = Reader.fail fault) :
    Reads r fun a front => x = some a ∧ front = [] := by
  cases x with
  | none =>
      obtain ⟨fault, rfl⟩ := hnone rfl
      exact (fail fault).congr fun a front => by simp
  | some value =>
      rw [hsome value rfl]
      exact (pure value).congr fun a front => by simp [eq_comm]

/-- Where the reader stands matters for errors only. -/
theorem get_bind {f : Cursor → Reader β} {T : β → List UInt8 → Prop}
    (h : ∀ cursor, Reads (f cursor) T) :
    Reads (get >>= f) T := fun offset bytes => h ⟨offset, bytes⟩ offset bytes

end Reads

/-! ## Fields -/

/-- Any bytes are read, as many as are asked for. -/
theorem reads_bytes (n : Nat) : Reads (bytes n) fun a front => a = front ∧ front.length = n := by
  intro offset bs a cursor
  unfold bytes
  dsimp only
  constructor
  · intro h
    split at h
    · rename_i hlength
      cases h
      exact ⟨bs.take n, ⟨rfl, hlength⟩, List.take_append_drop n bs, by rw [hlength]⟩
    · cases h
  · rintro ⟨front, ⟨rfl, rfl⟩, rfl, hoffset⟩
    rw [List.take_left, if_pos rfl, List.drop_left, hoffset]

/-- A number is read from its bytes, and from no others. -/
theorem reads_number (n : Nat) :
    Reads (number n) fun a front => a < Nat.pow 256 n ∧ Bytes.ofNat n a = front := by
  refine ((reads_bytes n).bind fun bs => Reads.pure (Bytes.toNat bs)).congr fun a front => ?_
  constructor
  · rintro ⟨_, x, _, rfl, ⟨rfl, rfl⟩, rfl, rfl⟩
    exact ⟨Bytes.toNat_lt _, by rw [Bytes.ofNat_toNat, List.append_nil]⟩
  · rintro ⟨hlt, rfl⟩
    refine ⟨_, _, [], List.append_nil _, ⟨rfl, Bytes.length_ofNat n a⟩, ?_, rfl⟩
    rw [Bytes.toNat_ofNat, Nat.mod_eq_of_lt hlt]

theorem reads_byte : Reads byte fun b front => [b] = front := by
  refine ((reads_number 1).bind fun n => Reads.pure (UInt8.ofNat n)).congr fun b front => ?_
  constructor
  · rintro ⟨n, x, _, rfl, ⟨-, rfl⟩, rfl, rfl⟩
    rfl
  · rintro rfl
    refine ⟨b.toNat, _, [], ?_, ⟨b.toNat_lt, rfl⟩, UInt8.ofNat_toNat.symm, rfl⟩
    simp [Bytes.ofNat]

/-- A number may be read from any form that is wide enough for it. -/
theorem reads_varInt :
    Reads varInt fun n front => ∃ form : VarInt.Form, n < form.limit ∧ form.write n = front := by
  refine ((reads_number 1).bind fun first => Reads.ite (reads_number 2) (Reads.ite (reads_number 4)
    (Reads.ite (reads_number 8) (Reads.pure first)))).congr fun n front => ?_
  constructor
  · rintro ⟨first, _, y, rfl, ⟨hlt, rfl⟩, hform⟩
    rcases hform with ⟨rfl, hn, rfl⟩ | ⟨h₁, ⟨rfl, hn, rfl⟩ | ⟨h₂, ⟨rfl, hn, rfl⟩ | ⟨h₃, rfl, rfl⟩⟩⟩
    · exact ⟨.two, hn, rfl⟩
    · exact ⟨.four, hn, rfl⟩
    · exact ⟨.eight, hn, rfl⟩
    · -- No mark was found, so the byte is the number.
      have hlt : n < 256 := hlt
      exact ⟨.one, by show n < 0xFD; omega, rfl⟩
  · rintro ⟨form, hlimit, rfl⟩
    cases form with
    | one =>
        have hlimit : n < 0xFD := hlimit
        refine ⟨n, _, [], List.append_nil _, ⟨by show n < 256; omega, rfl⟩, ?_⟩
        exact .inr ⟨by omega, .inr ⟨by omega, .inr ⟨by omega, rfl, rfl⟩⟩⟩
    | two => exact ⟨0xFD, _, _, rfl, ⟨by decide, rfl⟩, .inl ⟨rfl, hlimit, rfl⟩⟩
    | four => exact ⟨0xFE, _, _, rfl, ⟨by decide, rfl⟩, .inr ⟨by decide, .inl ⟨rfl, hlimit, rfl⟩⟩⟩
    | eight =>
        exact ⟨0xFF, _, _, rfl, ⟨by decide, rfl⟩,
          .inr ⟨by decide, .inr ⟨by decide, .inl ⟨rfl, hlimit, rfl⟩⟩⟩⟩

/-- A text is read from its own bytes only. -/
theorem reads_text (field : NefField) (bs : List UInt8) :
    Reads (text field bs) fun s front => Utf8.encode s = bs ∧ front = [] := by
  refine (Reads.option (x := Utf8.decode? bs) ?_ ?_).congr fun s front => by
    rw [Utf8.decode?_eq_some_iff]
  · intro s hs
    simp only [text, hs]
  · intro hs
    exact ⟨.notUtf8 field, by simp only [text, hs]⟩

/-- A text stands behind the number of its bytes, in any form that is wide enough. -/
theorem reads_varText (limit : Nat) (field : NefField) :
    Reads (varText limit field) fun s front => Utf8.length s ≤ limit ∧
      ∃ form : VarInt.Form, Utf8.length s < form.limit ∧ form.writeText s = front := by
  refine (reads_varInt.bind fun length => Reads.guarded _ ((reads_bytes length).bind fun bs =>
    reads_text field bs)).congr fun s front => ?_
  constructor
  · rintro ⟨_, _, _, rfl, ⟨form, hlimit, rfl⟩, hle, _, _, _, rfl, ⟨rfl, rfl⟩, rfl, rfl⟩
    exact ⟨Nat.le_of_not_lt hle, form, hlimit, by rw [List.append_nil]; rfl⟩
  · rintro ⟨hle, form, hlimit, rfl⟩
    exact ⟨_, _, _, rfl, ⟨form, hlimit, rfl⟩, Nat.not_lt.2 hle, _, _, [], List.append_nil _,
      ⟨rfl, rfl⟩, rfl, rfl⟩

/-! ## Parts -/

theorem ofBytes?_eq_some_iff {bs : List UInt8} {hash : Hash160} :
    Hash160.ofBytes? bs = some hash ↔ hash.bytes = bs := by
  unfold Hash160.ofBytes?
  constructor
  · intro h
    split at h
    · cases h
      rfl
    · cases h
  · rintro rfl
    rw [dif_pos hash.length_bytes]

theorem reads_hash : Reads hash fun hash front => hash.bytes = front := by
  refine Reads.get_bind fun cursor => ((reads_bytes 20).bind fun bs =>
    Reads.option (x := Hash160.ofBytes? bs) ?_ ?_).congr fun hash front => ?_
  · intro hash hhash
    simp only [hhash]
  · intro hhash
    exact ⟨.unexpectedEnd cursor.offset 20, by simp only [hhash]⟩
  constructor
  · rintro ⟨bs, _, _, rfl, ⟨rfl, -⟩, hbytes, rfl⟩
    rw [List.append_nil, ofBytes?_eq_some_iff.1 hbytes]
  · rintro rfl
    exact ⟨_, _, [], List.append_nil _, ⟨rfl, hash.length_bytes⟩, ofBytes?_eq_some_iff.2 rfl, rfl⟩

theorem reads_boolean : Reads boolean fun b front => [if b then 1 else 0] = front := by
  refine (reads_byte.bind fun b => Reads.ite (Reads.pure false) (Reads.ite (Reads.pure true)
    (Reads.fail _))).congr fun b front => ?_
  constructor
  · rintro ⟨first, _, _, rfl, rfl, ⟨rfl, rfl, rfl⟩ | ⟨-, ⟨rfl, rfl, rfl⟩ | ⟨-, ⟨⟩⟩⟩⟩
    · rfl
    · rfl
  · rintro rfl
    cases b with
    | false => exact ⟨0, _, [], rfl, rfl, .inl ⟨rfl, rfl, rfl⟩⟩
    | true => exact ⟨1, _, [], rfl, rfl, .inr ⟨by decide, .inl ⟨rfl, rfl, rfl⟩⟩⟩

/-- A token is read from any of its spellings, and from nothing else. -/
theorem reads_token : Reads token fun token front => token.Readable ∧
    ∃ form : VarInt.Form, Utf8.length token.method < form.limit ∧ token.write form = front := by
  refine (reads_hash.bind fun hash =>
    (reads_varText maxMethodLength .tokenMethod).bind fun method =>
    Reads.guarded _ ((reads_number 2).bind fun parameters => reads_boolean.bind fun returns =>
      reads_byte.bind fun callFlags => Reads.guarded _ (Reads.pure
        (⟨hash, method, UInt16.ofNat parameters, returns, callFlags⟩ : Token)))).congr
    fun token front => ?_
  constructor
  · rintro ⟨hash, _, _, rfl, rfl, method, _, _, rfl, ⟨hlength, form, hlimit, rfl⟩, hshown,
      parameters, _, _, rfl, ⟨hparameters, rfl⟩, returns, _, _, rfl, rfl, callFlags, _, _, rfl,
      rfl, hflags, rfl, rfl⟩
    refine ⟨⟨hlength, hshown, Nat.le_of_not_lt hflags⟩, form, hlimit, ?_⟩
    have hnumber : (UInt16.ofNat parameters).toNat = parameters :=
      UInt16.toNat_ofNat_of_lt' hparameters
    simp [Token.write, hnumber]
  · rintro ⟨hreadable, form, hlimit, rfl⟩
    refine ⟨token.hash, _, _, ?_, rfl, token.method, _, _, rfl,
      ⟨hreadable.length, form, hlimit, rfl⟩,
      hreadable.shown, token.parameters.toNat, _, _, rfl, ⟨token.parameters.toNat_lt, rfl⟩,
      token.returns, _, _, rfl, rfl, token.callFlags, _, [], rfl, rfl,
      Nat.not_lt.2 hreadable.flags, ?_, rfl⟩
    · simp [Token.write]
    · rw [UInt16.ofNat_toNat]

/-- So are tokens, each in a spelling of its own. -/
theorem reads_tokens (count : Nat) :
    Reads (tokens count) fun tokens front => tokens.length = count ∧
    (∀ token ∈ tokens, token.Readable) ∧ ∃ methods : List VarInt.Form,
      List.Forall₂ (fun token form => Utf8.length token.method < form.limit) tokens methods ∧
        writeTokens tokens methods = front := by
  induction count with
  | zero =>
      refine (Reads.pure ([] : List Token)).congr fun tokens front => ?_
      constructor
      · rintro ⟨rfl, rfl⟩
        exact ⟨rfl, by simp, [], .nil, rfl⟩
      · rintro ⟨hlength, -, methods, -, rfl⟩
        cases List.eq_nil_of_length_eq_zero hlength
        exact ⟨rfl, rfl⟩
  | succ count ih =>
      refine (reads_token.bind fun first => ih.bind fun rest => Reads.pure (first :: rest)).congr
        fun tokens front => ?_
      constructor
      · rintro ⟨first, _, _, rfl, ⟨hfirst, form, hform, rfl⟩, rest, _, _, rfl,
          ⟨rfl, hrest, methods, hmethods, rfl⟩, rfl, rfl⟩
        refine ⟨rfl, List.forall_mem_cons.2 ⟨hfirst, hrest⟩, form :: methods,
          .cons hform hmethods, ?_⟩
        simp [writeTokens]
      · rintro ⟨hlength, hreadable, methods, hmethods, rfl⟩
        cases hmethods with
        | nil => cases hlength
        | @cons first form rest methods hform hmethods =>
            obtain ⟨hfirst, hrest⟩ := List.forall_mem_cons.1 hreadable
            exact ⟨first, _, _, rfl, ⟨hfirst, form, hform, rfl⟩, rest, _, [], List.append_nil _,
              ⟨Nat.succ.inj hlength, hrest, methods, hmethods, rfl⟩, rfl, rfl⟩

/-- The compiler field ends at its first zero. -/
theorem reads_compiler : Reads compiler fun s front => '\x00' ∉ s.toList ∧ ∃ padding : List UInt8,
    Utf8.length s + padding.length = compilerLength ∧ (∀ b ∈ padding.head?, b = 0) ∧
      Utf8.encode s ++ padding = front := by
  refine ((reads_bytes compilerLength).bind fun field =>
    reads_text .compiler _).congr fun s front => ?_
  constructor
  · rintro ⟨field, _, _, rfl, ⟨rfl, hlength⟩, hencode, rfl⟩
    have hsplit := List.takeWhile_append_dropWhile (p := (· ≠ 0)) (l := field)
    refine ⟨?_, field.dropWhile (· ≠ 0), ?_, ?_, ?_⟩
    · rw [← Utf8.zero_mem_encode_iff, hencode]
      intro hmem
      simpa using List.mem_takeWhile_imp hmem
    · rw [Utf8.length, hencode, ← List.length_append, hsplit, hlength]
    · intro b hb
      have hhead := List.head?_dropWhile_not (· ≠ 0) field
      rw [Option.mem_def.1 hb] at hhead
      simpa using hhead
    · rw [hencode, hsplit, List.append_nil]
  · rintro ⟨hzero, padding, hlength, hpadding, rfl⟩
    refine ⟨_, _, [], List.append_nil _, ⟨rfl, ?_⟩, ?_, rfl⟩
    · rw [List.length_append, ← hlength, Utf8.length]
    · -- The field is cut where the padding begins.
      rw [← Utf8.zero_mem_encode_iff] at hzero
      have hfront : ∀ b ∈ Utf8.encode s, decide (b ≠ 0) = true := by
        intro b hb
        exact decide_eq_true fun hb' => hzero (hb' ▸ hb)
      have hback : padding.takeWhile (· ≠ 0) = [] := by
        cases padding with
        | nil => rfl
        | cons b padding =>
            cases hpadding b rfl
            rfl
      rw [List.takeWhile_append_of_pos hfront, hback, List.append_nil]

/-- A container is read from its files. -/
theorem reads_nef : Reads nef fun nef front => nef.Readable ∧
    ∃ style : Style, style.Suits nef ∧ nef.write style = front := by
  refine ((reads_number 4).bind fun magicNumber =>
    Reads.guarded _ (reads_compiler.bind fun compiler =>
    (reads_varText maxSourceLength .source).bind fun source => reads_byte.bind fun reserved =>
    Reads.guarded _ (reads_varInt.bind fun count =>
      Reads.guarded _ ((reads_tokens count).bind fun tokens =>
    (reads_number 2).bind fun reservedField => Reads.guarded _ (reads_varInt.bind fun size =>
    Reads.guarded _ ((reads_bytes size).bind fun script => (reads_number 4).bind fun checksum =>
    Reads.pure (⟨compiler, source, tokens, script.toArray, UInt32.ofNat checksum⟩ : Nef))))))).congr
    fun nef front => ?_
  -- On the left stands one value for each reader, with the bytes that it takes and those that
  -- follow.
  constructor
  · rintro ⟨_, _, _, rfl, ⟨-, rfl⟩, hmagic,
      compiler, _, _, rfl, ⟨hzero, padding, hlength, hpadding, rfl⟩,
      source, _, _, rfl, ⟨hsource, sourceForm, hsourceForm, rfl⟩, _, _, _, rfl, rfl, hreserved,
      count, _, _, rfl, ⟨countForm, hcountForm, rfl⟩, hcount,
      tokens, _, _, rfl, ⟨rfl, htokens, methods, hmethods, rfl⟩, _, _, _, rfl, ⟨-, rfl⟩, hreserved',
      size, _, _, rfl, ⟨scriptForm, hscriptForm, rfl⟩, hsize, _, _, _, rfl, ⟨rfl, rfl⟩,
      checksum, _, _, rfl, ⟨hchecksum, rfl⟩, rfl, rfl⟩
    obtain rfl := not_not.1 hmagic
    obtain rfl := not_not.1 hreserved
    obtain rfl := not_not.1 hreserved'
    obtain ⟨hne, hmax⟩ := not_or.1 hsize
    have hnumber : (UInt32.ofNat checksum).toNat = checksum := UInt32.toNat_ofNat_of_lt' hchecksum
    refine ⟨⟨⟨⟨?_, hsource, Nat.le_of_not_lt hcount, ?_⟩, hne, Nat.le_of_not_lt hmax⟩,
      hzero, htokens⟩, ⟨padding, sourceForm, countForm, methods, scriptForm⟩,
      ⟨hlength, hpadding, hsourceForm, hcountForm, hmethods, hscriptForm⟩, ?_⟩
    · exact Nat.le.intro hlength
    · intro token hmem
      exact exists_tokenBytes_iff.2 (htokens token hmem).length
    · have hreserved : Bytes.ofNat 2 0 = [0, 0] := rfl
      simp [write, writeBody, hnumber, hreserved]
  · rintro ⟨hreadable, style, hsuits, rfl⟩
    have hsize := not_or.2 ⟨hreadable.nonempty, Nat.not_lt.2 hreadable.script⟩
    refine ⟨magic, _, _, ?_, ⟨by decide, rfl⟩, not_not.2 rfl,
      nef.compiler, _, _, rfl, ⟨hreadable.noZero, style.padding, hsuits.compiler,
        hsuits.padding, rfl⟩,
      nef.source, _, _, rfl, ⟨hreadable.source, style.source, hsuits.source, rfl⟩,
      0, _, _, rfl, rfl, not_not.2 rfl,
      nef.tokens.length, _, _, rfl, ⟨style.count, hsuits.count, rfl⟩, Nat.not_lt.2 hreadable.tokens,
      nef.tokens, _, _, rfl, ⟨rfl, hreadable.readable, style.methods, hsuits.methods, rfl⟩,
      0, _, _, rfl, ⟨by decide, rfl⟩, not_not.2 rfl,
      nef.script.size, _, _, rfl, ⟨style.script, hsuits.script, rfl⟩, hsize,
      nef.script.toList, _, _, rfl, ⟨rfl, rfl⟩,
      nef.checksum.toNat, _, [], rfl, ⟨nef.checksum.toNat_lt, rfl⟩, ?_, rfl⟩
    · have hreserved : Bytes.ofNat 2 0 = [0, 0] := rfl
      simp [write, writeBody, hreserved]
    · rw [UInt32.ofNat_toNat]

end Nef.Reader

namespace Nef

/-- A file is read as a container exactly if it holds it in some style. -/
theorem parseUnchecked_eq_ok_iff {bytes : List UInt8} {nef : Nef} :
    parseUnchecked bytes = .ok nef ↔
      nef.Readable ∧ ∃ style : Style, style.Suits nef ∧ nef.write style = bytes := by
  unfold parseUnchecked
  rw [Sequencing.bind_eq_ok]
  constructor
  · rintro ⟨⟨found, cursor⟩, hread, h⟩
    obtain ⟨front, hspelled, hbytes, -⟩ := (Reader.reads_nef ..).1 hread
    dsimp only at h
    split at h
    · rename_i hempty
      cases h
      rw [List.isEmpty_iff.1 hempty, List.append_nil] at hbytes
      rwa [← hbytes]
    · cases h
  · intro h
    refine ⟨(nef, ⟨bytes.length, []⟩), (Reader.reads_nef ..).2 ⟨bytes, h, ?_, ?_⟩, rfl⟩
    · exact List.append_nil bytes
    · exact Nat.zero_add _

end Nef

end NeoScript
