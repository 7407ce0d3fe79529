import NeoScript.DebugInfo.Archive
import NeoScript.Proofs.Archive.Single
import NeoScript.Proofs.DebugInfo.Address
import NeoScript.Proofs.Json.Writing
import NeoScript.Proofs.Text.Utf8

/-!
# Writing — debug information is read back from its text

* `DebugInfo.Writable` — what debug information is like that was read from a text;
* `DebugInfo.writable_of_parse` — and so it is;
* `DebugInfo.parse_render` — the text of such information is read as this information, up to doubles
  in the members that are carried along.
-/

namespace NeoScript

open Json Json.Reader

/-! ## Carried members -/

/-- Members that were carried along beside members of known names. -/
structure CarriedMembers (known : List String) (depth : Nat) (extra : Members) : Prop
    extends FitMembers depth extra where
  fresh : ∀ name ∈ names extra, name ∉ known

namespace CarriedMembers

variable {known : List String} {depth : Nat} {extra : Members}

theorem nil (known : List String) (depth : Nat) : CarriedMembers known depth [] where
  toFitMembers := .nil depth
  fresh _ h := nomatch h

/-- One more member of another name. -/
theorem gives_carried (h : CarriedMembers known depth extra) {name : String}
    (hname : name ∉ known) : Gives (CarriedMembers known depth) (carried depth name extra) := by
  refine .bind_any fun _ => (gives_value depth).bind fun v hv => .pure ⟨h.toFitMembers.put hv, ?_⟩
  intro other hother
  rcases mem_names_put.1 hother with rfl | hother
  · exact hname
  · exact h.fresh other hother

end CarriedMembers

variable {f : Float → Float}

/-- A member that is carried along is added behind those before it. -/
theorem reads_carried {depth : Nat} {name : String} {extra : Members} {v : Json}
    (hname : name ∉ names extra)
    (hfits : Fits depth v) (hdoubles : ∀ x ∈ v.doubles, ReadsDouble x (f x)) :
    Reads (carried depth name extra) (':' :: v.compact.toList)
      (extra ++ [(name, v.mapDoubles f)]) := by
  intro rest hrest
  refine (bind_of_ok (colon_cons _) _).trans ?_
  refine (bind_of_ok (reads_value hfits hdoubles rest hrest) _).trans ?_
  rw [put_of_not_mem hname]
  rfl

/-- Where all other members are carried along, the texts of such members are read into the state one
behind the other. -/
theorem collects_carried {σ : Type} {member : String → σ → Json.Reader σ} {known : List String}
    {depth : Nat} {store : Members → σ} (hmember : ∀ name extra, name ∉ known →
      member name (store extra) = (carried depth name extra >>= fun extra => pure (store extra)))
    {extra : Members} (hfresh : ∀ m ∈ extra, m.1 ∉ known) (hfits : ∀ m ∈ extra, Fits depth m.2)
    (hdoubles : ∀ x ∈ memberDoubles extra, ReadsDouble x (f x)) (out : Members)
    (hunique : (names (out ++ extra)).Nodup) :
    Collects member (store out) (memberTexts extra) (store (out ++ mapDoublesMembers f extra)) := by
  induction extra generalizing out with
  | nil =>
      rw [mapDoublesMembers, List.append_nil]
      exact .nil
  | cons m extra ih =>
      rw [List.forall_mem_cons] at hfresh hfits
      rw [memberDoubles, List.forall_mem_append] at hdoubles
      have hname : m.1 ∉ names out := by
        rw [names, List.map_append, List.map_cons, List.nodup_append] at hunique
        exact fun hmem => hunique.2.2 _ hmem _ List.mem_cons_self rfl
      have hhead : Reads (member m.1 (store out)) (':' :: m.2.compact.toList)
          (store (out ++ [(m.1, m.2.mapDoubles f)])) := by
        rw [hmember _ _ hfresh.1]
        exact (reads_carried hname hfits.1 hdoubles.1).map fun _ => rfl
      have htail : (names ((out ++ [(m.1, m.2.mapDoubles f)]) ++ extra)).Nodup := by
        simpa [names] using hunique
      rw [mapDoublesMembers, List.append_cons]
      exact .cons hhead (ih hfresh.2 hfits.2 hdoubles.2 _ htail)

/-- All members that are carried along are collected, in their order. -/
theorem CarriedMembers.collects {σ : Type} {known : List String} {depth : Nat} {extra : Members}
    (h : CarriedMembers known depth extra)
    (hdoubles : ∀ x ∈ memberDoubles extra, ReadsDouble x (f x))
    (member : String → σ → Json.Reader σ) (store : Members → σ)
    (hmember : ∀ name extra, name ∉ known →
      member name (store extra) = (carried depth name extra >>= fun extra => pure (store extra))) :
    Collects member (store []) (memberTexts extra) (store (mapDoublesMembers f extra)) :=
  collects_carried hmember (fun m hm => h.fresh m.1 (List.mem_map_of_mem hm)) h.fits hdoubles
    [] h.unique

/-- Nothing changes if each double is read back as itself. -/
theorem CarriedMembers.mapDoubles_eq_self {known : List String} {depth : Nat} {extra : Members}
    (h : CarriedMembers known depth extra) (hf : ∀ x ∈ memberDoubles extra, f x = x) :
    mapDoublesMembers f extra = extra :=
  mapDoublesMembers_eq_self fun m hm =>
    Json.mapDoubles_eq_self (h.fits m hm) fun x hx => hf x (mem_memberDoubles.2 ⟨m, hm, hx⟩)

/-! ## Methods -/

/-- What holds of every text that can be taken apart holds of what is read. -/
theorem gives_parsed {α : Type} {P : α → Prop} {parse : String → Except AddressFault α}
    (h : ∀ text a, parse text = .ok a → P a) : Gives P (parsed parse) := by
  refine .bind_any fun text => ?_
  split
  · rename_i a ha
    exact .pure (h text a ha)
  · exact .of_refuses (.fail _)

/-- A text that can be taken apart is read from its string. -/
theorem reads_parsed {α : Type} {parse : String → Except AddressFault α} {text : String} {a : α}
    (h : parse text = .ok a) : Reads (parsed parse) (Json.string text).compact.toList a := by
  refine (reads_text_compact text).map fun rest => ?_
  rw [h]
  rfl

namespace DebugMethod

def knownNames : List String :=
  ["id", "name", "range", "sequence-points"]

/-- All numbers of the address texts are words. -/
structure IsWord (m : DebugMethod) : Prop where
  range : m.range.IsWord
  points : ∀ p ∈ m.points, p.IsWord

/-- The address texts of the method are read back. -/
structure Rereads (m : DebugMethod) : Prop where
  range : AddressRange.parse m.range.render = .ok m.range
  points : ∀ p ∈ m.points, SequencePoint.parse p.render = .ok p

/-- Texts of words are read back. -/
theorem IsWord.rereads {m : DebugMethod} (h : m.IsWord) : m.Rereads :=
  ⟨AddressRange.parse_render h.range, fun p hp => SequencePoint.parse_render (h.points p hp)⟩

structure Writable (depth : Nat) (m : DebugMethod) : Prop where
  word : m.IsWord
  extra : CarriedMembers knownNames depth m.extra

structure Draft.Writable (depth : Nat) (d : Draft) : Prop where
  range : ∀ r ∈ d.range, r.IsWord
  points : ∀ ps ∈ d.points, ∀ p ∈ ps, p.IsWord
  extra : CarriedMembers knownNames depth d.extra

/-- A name that is not known is carried along. -/
theorem member_other {depth : Nat} {name : String} (h : name ∉ knownNames) (d : Draft) :
    member depth name d = (carried depth name d.extra >>= fun extra => pure { d with extra }) := by
  simp only [knownNames, List.mem_cons, List.not_mem_nil, or_false, not_or] at h
  unfold member
  split
  · exact absurd rfl h.1
  · exact absurd rfl h.2.1
  · exact absurd rfl h.2.2.1
  · exact absurd rfl h.2.2.2
  · rfl

/-- Reading one more member keeps the draft writable. -/
theorem gives_member (depth : Nat) (name : String) (d : Draft) (h : d.Writable depth) :
    Gives (Draft.Writable depth) (member depth name d) := by
  unfold member
  split
  · exact .bind_any fun id => .pure ⟨h.range, h.points, h.extra⟩
  · exact .bind_any fun name => .pure ⟨h.range, h.points, h.extra⟩
  · refine (gives_once (gives_parsed fun _ _ => AddressRange.isWord_of_parse) _).bind ?_
    intro range hrange
    exact .pure ⟨hrange, h.points, h.extra⟩
  · refine (gives_once (gives_array fun _ _ => gives_parsed fun _ _ =>
      SequencePoint.isWord_of_parse) _).bind ?_
    intro points hpoints
    exact .pure ⟨h.range, hpoints, h.extra⟩
  · rename_i hid hname hrange hpoints
    have hother : name ∉ knownNames := by
      simp only [knownNames, List.mem_cons, List.not_mem_nil, or_false, not_or]
      exact ⟨hid, hname, hrange, hpoints⟩
    exact (h.extra.gives_carried hother).bind fun extra hextra => .pure ⟨h.range, h.points, hextra⟩

/-- A finished method can be written and read at the same level. -/
theorem gives_finish {depth : Nat} (d : Draft) (h : d.Writable depth) :
    Gives (Writable depth) d.finish := by
  refine .bind_any fun id => .bind_any fun name => ?_
  refine (gives_required h.range).bind fun range hrange => .pure ⟨⟨hrange, ?_⟩, h.extra⟩
  intro p hp
  cases hpoints : d.points with
  | none => simp [hpoints] at hp
  | some ps => exact h.points ps hpoints p (by simpa [hpoints] using hp)

theorem gives_read (depth : Nat) : Gives (Writable depth) (read (depth + 1)) := by
  refine gives_object (I := Draft.Writable depth) ⟨by simp, by simp, .nil _ _⟩ ?_ gives_finish
  rintro inner hinner
  cases hinner
  exact gives_member depth

/-- The doubles in the members that are carried along are replaced. -/
def mapDoubles (f : Float → Float) (m : DebugMethod) : DebugMethod :=
  { m with extra := mapDoublesMembers f m.extra }

/-- The points of a method are read back from their texts. -/
theorem reads_points (depth : Nat) {m : DebugMethod} (h : m.IsWord) :
    Reads (array (depth + 1) fun _ => parsed SequencePoint.parse)
      (Json.array (m.points.map fun p => .string p.render)).compact.toList m.points := by
  rw [toList_compact_array]
  refine reads_array ?_
  rw [List.map_map, List.forall₂_map_left_iff]
  refine List.forall₂_same.2 fun p hp => ⟨starts_string _, ?_⟩
  exact reads_parsed (SequencePoint.parse_render (h.points p hp))

/-- The four members that are told apart come first, each into its place. -/
theorem collects_known (depth : Nat) {m : DebugMethod} (h : m.IsWord) :
    Collects (member (depth + 1)) (Draft.mk none none none none [])
      (memberTexts [("id", .string m.id), ("name", .string m.name),
        ("range", .string m.range.render),
        ("sequence-points", .array (m.points.map fun p => .string p.render))])
      (Draft.mk (some m.id) (some m.name) (some m.range) (some m.points) []) := by
  have hid : Collects (member (depth + 1)) (Draft.mk none none none none [])
      [("id", (Json.string m.id).compact.toList)] (Draft.mk (some m.id) none none none []) :=
    .single ((reads_once (reads_text_compact m.id)).map fun _ => rfl)
  have hname : Collects (member (depth + 1)) (Draft.mk (some m.id) none none none [])
      [("name", (Json.string m.name).compact.toList)]
      (Draft.mk (some m.id) (some m.name) none none []) :=
    .single ((reads_once (reads_text_compact m.name)).map fun _ => rfl)
  have hrange : Collects (member (depth + 1)) (Draft.mk (some m.id) (some m.name) none none [])
      [("range", (Json.string m.range.render).compact.toList)]
      (Draft.mk (some m.id) (some m.name) (some m.range) none []) :=
    .single ((reads_once (reads_parsed (AddressRange.parse_render h.range))).map fun _ => rfl)
  have hpoints : Collects (member (depth + 1))
      (Draft.mk (some m.id) (some m.name) (some m.range) none [])
      [("sequence-points", (Json.array (m.points.map fun p => .string p.render)).compact.toList)]
      (Draft.mk (some m.id) (some m.name) (some m.range) (some m.points) []) :=
    .single ((reads_once (reads_points depth h)).map fun _ => rfl)
  simp only [memberTexts, List.map_cons, List.map_nil]
  exact hid.append (hname.append (hrange.append hpoints))

/-- A method is read back from its text, up to doubles. -/
theorem reads_toJson {depth : Nat} {m : DebugMethod} (h : m.Writable (depth + 1))
    (hdoubles : ∀ x ∈ memberDoubles m.extra, ReadsDouble x (f x)) :
    Reads (read (depth + 2)) m.toJson.compact.toList (m.mapDoubles f) := by
  have hextra := h.extra.collects hdoubles (member (depth + 1))
    (Draft.mk (some m.id) (some m.name) (some m.range) (some m.points))
    fun name extra hname => member_other hname _
  rw [toJson, toList_compact_object, memberTexts, List.map_append]
  exact reads_object ((collects_known depth h.word).append hextra) fun _ => rfl

end DebugMethod

namespace DebugInfo

/-! ## Debug information -/

def knownNames : List String :=
  ["documents", "document-root", "methods"]

/-- Debug information as it is read from a whole text. -/
structure Writable (info : DebugInfo) : Prop where
  methods : ∀ m ∈ info.methods, m.Writable 124
  extra : CarriedMembers knownNames 126 info.extra

structure Draft.Writable (d : Draft) : Prop where
  methods : ∀ ms ∈ d.methods, ∀ m ∈ ms, m.Writable 124
  extra : CarriedMembers knownNames 126 d.extra

theorem member_other {depth : Nat} {name : String} (h : name ∉ knownNames) (d : Draft) :
    member depth name d = (carried depth name d.extra >>= fun extra => pure { d with extra }) := by
  simp only [knownNames, List.mem_cons, List.not_mem_nil, or_false, not_or] at h
  unfold member
  split
  · exact absurd rfl h.1
  · exact absurd rfl h.2.1
  · exact absurd rfl h.2.2
  · rfl

/-- Reading one more member keeps the draft writable. -/
theorem gives_member (name : String) (d : Draft) (h : d.Writable) :
    Gives Draft.Writable (member 126 name d) := by
  unfold member
  split
  · exact .bind_any fun documents => .pure ⟨h.methods, h.extra⟩
  · exact .bind_any fun root => .pure ⟨h.methods, h.extra⟩
  · have hmethods : Gives (∀ m ∈ ·, m.Writable 124) (array 126 DebugMethod.read) := by
      refine gives_array ?_
      rintro inner hinner
      cases hinner
      exact DebugMethod.gives_read 124
    exact (gives_once hmethods _).bind fun methods hmethods => .pure ⟨hmethods, h.extra⟩
  · rename_i hdocuments hroot hmethods
    have hother : name ∉ knownNames := by
      simp only [knownNames, List.mem_cons, List.not_mem_nil, or_false, not_or]
      exact ⟨hdocuments, hroot, hmethods⟩
    exact (h.extra.gives_carried hother).bind fun extra hextra => .pure ⟨h.methods, hextra⟩

/-- Finished debug information can be written. -/
theorem gives_finish (d : Draft) (h : d.Writable) : Gives Writable d.finish := by
  refine .pure ⟨fun m hm => ?_, h.extra⟩
  cases hmethods : d.methods with
  | none => simp [hmethods] at hm
  | some ms => exact h.methods ms hmethods m (by simpa [hmethods] using hm)

/-- Whatever text debug information was read from, it can be written. -/
theorem writable_of_parse {source : String} {info : DebugInfo} (h : parse source = .ok info) :
    info.Writable := by
  obtain ⟨rest, hread⟩ := run_eq_ok (Sequencing.mapError_eq_ok.1 h)
  refine gives_object (I := Draft.Writable) ⟨by simp, .nil _ _⟩ ?_ gives_finish _ _ _ hread
  rintro inner hinner
  cases hinner
  exact gives_member

/-- The doubles in all members that are carried along are replaced. -/
def mapDoubles (f : Float → Float) (info : DebugInfo) : DebugInfo :=
  { info with
    methods := info.methods.map (DebugMethod.mapDoubles f)
    extra := mapDoublesMembers f info.extra }

def doubles (info : DebugInfo) : List Float :=
  info.methods.flatMap (fun m => memberDoubles m.extra) ++ memberDoubles info.extra

/-- The doubles are those carried by the methods and those carried by the whole. -/
theorem forall_mem_doubles {info : DebugInfo} {P : Float → Prop} :
    (∀ x ∈ info.doubles, P x) ↔
      (∀ m ∈ info.methods, ∀ x ∈ memberDoubles m.extra, P x) ∧
        ∀ x ∈ memberDoubles info.extra, P x := by
  rw [doubles, List.forall_mem_append]
  refine and_congr_left' ⟨fun h m hm x hx => h x (List.mem_flatMap_of_mem hm hx), ?_⟩
  intro h x hx
  obtain ⟨m, hm, hx⟩ := List.mem_flatMap.1 hx
  exact h m hm x hx

/-- Where all doubles stay, debug information stays. -/
theorem mapDoubles_eq_self {info : DebugInfo} (h : info.Writable)
    (hf : ∀ x ∈ info.doubles, f x = x) : info.mapDoubles f = info := by
  rw [forall_mem_doubles] at hf
  have hmethods : info.methods.map (DebugMethod.mapDoubles f) = info.methods.map id := by
    refine List.map_congr_left fun m hm => ?_
    rw [DebugMethod.mapDoubles, (h.methods m hm).extra.mapDoubles_eq_self (hf.1 m hm), id]
  rw [mapDoubles, hmethods, List.map_id, h.extra.mapDoubles_eq_self hf.2]

/-- All methods are read back, with the doubles that their texts are read as. -/
theorem reads_methods {info : DebugInfo} (h : info.Writable)
    (hdoubles : ∀ x ∈ info.doubles, ReadsDouble x (f x)) :
    Reads (array 126 DebugMethod.read)
      (Json.array (info.methods.map DebugMethod.toJson)).compact.toList
      (info.methods.map (DebugMethod.mapDoubles f)) := by
  rw [toList_compact_array]
  refine reads_array ?_
  rw [List.map_map, List.forall₂_map_left_iff, List.forall₂_map_right_iff]
  refine List.forall₂_same.2 fun m hm => ⟨?_, ?_⟩
  · exact starts_object _
  · exact DebugMethod.reads_toJson (h.methods m hm) ((forall_mem_doubles.1 hdoubles).1 m hm)

theorem reads_documents (depth : Nat) (documents : List String) :
    Reads (array (depth + 1) fun _ => text) (Json.strings documents).compact.toList documents := by
  rw [Json.strings, toList_compact_array]
  refine reads_array ?_
  rw [List.map_map, List.forall₂_map_left_iff]
  exact List.forall₂_same.2 fun document _ => ⟨starts_string _, reads_text_compact document⟩

theorem reads_optional (s : String) :
    Reads (optional text) (Json.string s).compact.toList (some s) := by
  intro rest hrest
  have htext := reads_text s rest hrest
  rw [compact]
  rw [toList_quote, List.cons_append] at htext ⊢
  refine (bind_of_ok (peek?_cons (by decide) _) _).trans ?_
  rw [if_neg (by decide)]
  exact bind_of_ok htext _

/-- The known members are collected in the order in which they are written. -/
theorem collects_known {info : DebugInfo} (h : info.Writable)
    (hdoubles : ∀ x ∈ info.doubles, ReadsDouble x (f x)) :
    Collects (member 126) (Draft.mk none none none [])
      (memberTexts ([("documents", Json.strings info.documents)] ++
        (info.documentRoot.map fun root => ("document-root", Json.string root)).toList ++
        [("methods", .array (info.methods.map DebugMethod.toJson))]))
      (Draft.mk (some info.documents) (info.documentRoot.map some)
        (some (info.methods.map (DebugMethod.mapDoubles f))) []) := by
  have hdocuments : Collects (member 126) (Draft.mk none none none [])
      [("documents", (Json.strings info.documents).compact.toList)]
      (Draft.mk (some info.documents) none none []) :=
    .single ((reads_once (reads_documents _ _)).map fun _ => rfl)
  have hmethods : ∀ root, Collects (member 126) (Draft.mk (some info.documents) root none [])
      [("methods", (Json.array (info.methods.map DebugMethod.toJson)).compact.toList)]
      (Draft.mk (some info.documents) root (some (info.methods.map (DebugMethod.mapDoubles f)))
        []) :=
    fun root => .single ((reads_once (reads_methods h hdoubles)).map fun _ => rfl)
  simp only [memberTexts, List.map_cons, List.map_nil, List.map_append]
  refine (hdocuments.append ?_).append (hmethods _)
  cases info.documentRoot with
  | none => exact .nil
  | some root => exact .single ((reads_once (reads_optional root)).map fun _ => rfl)

/-- Debug information that was read is read back from the text that is written, up to doubles. -/
theorem parse_render {info : DebugInfo} (h : info.Writable)
    (hdoubles : ∀ x ∈ info.doubles, ReadsDouble x (f x)) :
    parse info.render = .ok (info.mapDoubles f) := by
  have hextra := h.extra.collects (forall_mem_doubles.1 hdoubles).2 (member 126)
    (Draft.mk (some info.documents) (info.documentRoot.map some)
      (some (info.methods.map (DebugMethod.mapDoubles f))))
    fun name extra hname => member_other hname _
  have hread : Reads (read maxDepth) info.toJson.compact.toList (info.mapDoubles f) := by
    rw [toJson, toList_compact_object, memberTexts, List.map_append]
    refine reads_object ((collects_known h hdoubles).append hextra) fun rest => ?_
    cases hroot : info.documentRoot with
    | none => simp [Draft.finish, mapDoubles, hroot]; rfl
    | some root => simp [Draft.finish, mapDoubles, hroot]; rfl
  exact Sequencing.mapError_eq_ok.2 (run_of_reads hread)

/-! ## Archives -/

/-- A name and a text that are not too long leave room for all records of an archive. -/
theorem fits_of_length {name data : List UInt8} (hname : name.length < 2 ^ 16)
    (hdata : data.length < 2 ^ 31) : Zip.Fits name data := by
  have hdeflate := length_deflate_le data
  have hlocal := Zip.length_localRecord name data
  have hdiv := Nat.div_le_self data.length Deflate.maxBlock
  refine ⟨hname, Nat.lt_of_lt_of_le hdata (by decide), ?_⟩
  rw [Deflate.maxBlock] at hdeflate
  omega

/-- An archive begins with the mark by which archives are told from texts. -/
theorem isPrefixOf_toArchive (info : DebugInfo) (name : String) :
    archiveMagic.isPrefixOf (info.toArchive name) = true := by
  have hmagic : archiveMagic = Bytes.ofNat 4 Zip.localSignature := by decide
  rw [List.isPrefixOf_iff_prefix, hmagic, toArchive, Zip.single, Zip.localRecord]
  simp only [List.append_assoc]
  exact List.prefix_append ..

/-- The text is found in the archive. -/
theorem archiveText_toArchive {info : DebugInfo} {name : String}
    (hname : (Utf8.encode name).length < 2 ^ 16)
    (htext : (Utf8.encode info.render).length < 2 ^ 31) :
    archiveText (info.toArchive name) = .ok info.render := by
  have hfits := fits_of_length hname htext
  rw [archiveText, toArchive, Zip.entries?_single hfits]
  dsimp only
  rw [Zip.data?_single hfits]
  dsimp only
  rw [Zip.unpack?_writtenEntry, Option.bind_some, Utf8.decode?_eq_some_iff.2 rfl]

/-- An archive leads to the text that was packed into it. -/
theorem load_toArchive {info : DebugInfo} {name : String}
    (hname : (Utf8.encode name).length < 2 ^ 16)
    (htext : (Utf8.encode info.render).length < 2 ^ 31) :
    load (info.toArchive name) = parse info.render := by
  rw [load, if_pos (isPrefixOf_toArchive ..), ofArchive, archiveText_toArchive hname htext]
  rfl

end DebugInfo

end NeoScript
