import NeoScript.Proofs.Relocation.Validity
import NeoScript.Proofs.Table

/-!
# AddressMap — where recorded addresses go

* `AddressMap.Follows` — a map holds the landings of links and the end;
* `Rewrites.follows` — the map of a relocated revision is such a map;
* `AddressMap.Follows.resolve_of_mem`, `AddressMap.Follows.exists_resolve` — where a link began it
  begins now, and every address up to the end has a place: that of a link, or the new end;
* `AddressMap.target`, `AddressMap.Follows.target_mono`, `AddressMap.Follows.lt_target` — addresses
  stay in order, and behind where a link begins no address goes there.
-/

namespace NeoScript

open Std (TreeMap)

/-! ## Origins -/

/-- The addresses for which the new instructions of a segment stand. -/
def Segment.origins : Segment → List (Option Nat)
  | .kept entry => [some entry.2.pc]
  | .replaced head _ _ others => some head.2.pc :: others.map fun _ => none

section Origins

variable {g : FlowGraph} {script : Script} {starts : List Nat}
  {groups : List (List (Instruction × Nat))} {parts : List (List Segment)} {r : Revision}

/-- A piece has the origin of the instruction that it keeps or replaces. -/
theorem Rewrites.origin?_of_zip (h : Rewrites g script starts groups parts r) {piece : Piece}
    {id : InstrId} (hmem : (piece, id) ∈ (parts.flatten.flatMap Segment.pieces).zip r.order) :
    r.arena.origin? id = piece.id?.bind fun k => (script.instructions[k]?).map (·.pc) := by
  have hknown : ∀ id ∈ g.order, id < (Revision.identity g).arena.size := by
    intro id hid
    rw [h.graph.order_eq, List.mem_range] at hid
    change id < g.arena.size
    rw [h.graph.arena]
    simpa [Arena.size, Arena.ofInstructions] using hid
  -- A fresh piece has no origin.  A kept one has its own, a stand-in that of the one it replaces.
  cases hid : piece.id? with
  | none =>
      cases List.forall₂_zip h.edited.placed hmem with
      | keep => cases hid
      | standIn _ _ => cases hid
      | fresh _ hentry => simp [Arena.origin?, hentry]
  | some old =>
      rw [h.edited.origin?_eq hknown hmem hid]
      change g.arena.origin? old = _
      rw [h.graph.arena]
      cases hins : script.instructions[old]? with
      | none => simp [Arena.origin?, Arena.ofInstructions, hins]
      | some ins => simpa [hins] using Arena.origin?_ofInstructions hins

/-- The origins of a revision, in the order of its segments. -/
theorem Rewrites.map_origin (h : Rewrites g script starts groups parts r) :
    r.order.map r.arena.origin? = parts.flatten.flatMap Segment.origins := by
  have horigin : List.Forall₂ (fun piece id =>
      (piece.id?.bind fun k => (script.instructions[k]?).map (·.pc)) = r.arena.origin? id)
      (parts.flatten.flatMap Segment.pieces) r.order := by
    rw [List.forall₂_iff_zip]
    exact ⟨h.edited.placed.length_eq, fun hmem => (h.origin?_of_zip hmem).symm⟩
  rw [← Sequencing.map_eq_of_forall₂ horigin, List.map_flatMap]
  refine List.flatMap_congr fun s hs => ?_
  have hhead := fun entry hentry => h.getElem?_of_mem_olds entry
    (List.mem_flatMap.2 ⟨s, hs, hentry⟩)
  cases s with
  | kept entry =>
      have hentry := hhead entry (List.mem_singleton.2 rfl)
      simp [Segment.pieces, Segment.origins, Piece.id?, hentry]
  | replaced head rest first others =>
      have hentry := hhead head (List.mem_cons_self ..)
      have hfresh : ∀ ins ∈ others, ((Piece.fresh ins).id?.bind fun k =>
          (script.instructions[k]?).map (·.pc)) = none := fun _ _ => rfl
      simp only [Segment.pieces, Segment.origins, List.map_cons, List.map_map, Piece.id?,
        Option.bind_some, hentry, Option.map_some]
      exact congrArg _ (List.map_congr_left hfresh)

end Origins

/-! ## Entries -/

/-- An address with the origin of its instruction, if it has one. -/
def entryOf (entry : Option Nat × Nat) : Option (Nat × Nat) :=
  entry.1.map fun origin => (origin, entry.2)

theorem filterMap_entryOf_none (pcs : List Nat) (others : List Instruction) :
    ((others.map fun _ => (none : Option Nat)).zip pcs).filterMap entryOf = [] := by
  rw [List.filterMap_eq_nil_iff]
  rintro ⟨origin, pc⟩ hmem
  obtain ⟨ins, -, rfl⟩ := List.mem_map.1 (List.of_mem_zip hmem).1
  rfl

section Landings

variable {φ : Nat → Nat → Prop} {links : List Link} {p q : Nat}

/-- A link gives one entry: where it began and where it begins now. -/
theorem Linked.filterMap_entryOf {l : Link} (h : Linked φ l) (holds : Placed p l.olds)
    (hnews : Placed q l.news) :
    (l.1.origins.zip (l.news.map (·.pc))).filterMap entryOf = [(p, q)] := by
  cases h with
  | kept h =>
      have hp := holds.1
      have hq := hnews.1
      simp_all [Segment.origins, Link.news, entryOf]
  | replaced h =>
      cases h with
      | cons _ hothers =>
          have hp := holds.1
          have hq := hnews.1
          simp only [Segment.origins, Link.news, List.map_cons, List.zip_cons_cons,
            List.filterMap_cons, filterMap_entryOf_none]
          simp [entryOf, hp, hq]

theorem Linked.length_origins {l : Link} (h : Linked φ l) : l.1.origins.length = l.news.length := by
  cases h with
  | kept => rfl
  | replaced h => simpa [Segment.origins, Link.news] using h.length_eq

/-- The entries of all links are their landings. -/
theorem filterMap_entryOf (hlinked : ∀ l ∈ links, Linked φ l)
    (holds : Placed p (links.flatMap Link.olds)) (hnews : Placed q (links.flatMap Link.news)) :
    ((links.flatMap (·.1.origins)).zip ((links.flatMap Link.news).map (·.pc))).filterMap entryOf =
      landings p q links := by
  induction links generalizing p q with
  | nil => rfl
  | cons l links ih =>
      rw [List.forall_mem_cons] at hlinked
      rw [List.flatMap_cons, Placed.append_iff] at holds hnews
      rw [List.flatMap_cons, List.flatMap_cons, List.map_append,
        List.zip_append (by simpa using hlinked.1.length_origins), List.filterMap_append,
        hlinked.1.filterMap_entryOf holds.1 hnews.1, ih hlinked.2 holds.2 hnews.2]
      rfl

end Landings

/-- A map that sends the beginnings of links to one another and the old end to the new one. -/
structure AddressMap.Follows (m : AddressMap) (links : List Link) : Prop where
  entries : m.entries = landings 0 0 links ++
    [(totalSize (links.flatMap Link.olds), totalSize (links.flatMap Link.news))]
  news : ∀ l ∈ links, l.news ≠ []

/-- Landings and the end are in ascending order. -/
theorem pairwise_entries {links : List Link} (hnews : ∀ l ∈ links, l.news ≠ []) (newLength : Nat) :
    (landings 0 0 links ++ [(totalSize (links.flatMap Link.olds), newLength)]).Pairwise
      fun a b => a.1 < b.1 := by
  obtain ⟨hsorted, hbounds⟩ := pairwise_landings (p := 0) (q := 0) hnews
  refine List.pairwise_append.2 ⟨hsorted.imp And.left, List.pairwise_singleton .., ?_⟩
  intro a ha b hb
  rw [List.mem_singleton.1 hb]
  simpa using (hbounds a ha).2.2

/-- Landings come in ascending order, so the table keeps all of them. -/
theorem toList_landings {links : List Link} (hnews : ∀ l ∈ links, l.news ≠ []) (newLength : Nat) :
    (((landings 0 0 links).foldl (fun t entry => t.insertIfNew entry.1 entry.2)
      (∅ : TreeMap Nat Nat)).insert
      (totalSize (links.flatMap Link.olds)) newLength).toList =
      landings 0 0 links ++ [(totalSize (links.flatMap Link.olds), newLength)] := by
  have hsorted := pairwise_entries hnews newLength
  have hpairs := List.pairwise_append.1 hsorted
  have hnodup : ((landings 0 0 links).map (·.1)).Nodup :=
    List.pairwise_map.2 (hpairs.1.imp fun hlt => Nat.ne_of_lt hlt)
  refine Table.toList_eq_of_pairwise hsorted fun k v => ?_
  rw [TreeMap.getElem?_insert, List.mem_append, List.mem_singleton, Prod.mk.injEq]
  split
  · -- The entry of the end is inserted last, and no link lands there.
    rename_i hk
    cases Nat.compare_eq_eq.1 hk
    have hnot : ¬ (totalSize (links.flatMap Link.olds), v) ∈ landings 0 0 links := by
      intro hmem
      have hlt := hpairs.2.2 _ hmem (_, newLength) (List.mem_singleton.2 rfl)
      exact Nat.lt_irrefl _ hlt
    simp [hnot, eq_comm]
  · rename_i hk
    rw [Nat.compare_eq_eq] at hk
    rw [Table.getElem?_insertNew hnodup ∅ (by simp)]
    simp [Ne.symm hk]

section Map

variable {g : FlowGraph} {script : Script} {code : Code} {starts : List Nat}
  {groups : List (List (Instruction × Nat))} {parts : List (List Segment)} {r : Revision}
  {links : List Link} {xs : List Instruction}

/-- The instructions that have an origin are those with which links begin. -/
theorem Rewrites.filterMap_origin (h : Rewrites g script starts groups parts r)
    (htransfer : Transferred script links xs) (hparts : links.map Prod.fst = parts.flatten)
    (hread : script.IsReading code) :
    (r.order.zip (xs.map (·.pc))).filterMap (fun entry =>
      entryOf (r.arena.origin? entry.1, entry.2)) =
      landings 0 0 links := by
  have holds : Placed 0 (links.flatMap Link.olds) := by
    rw [htransfer.olds]
    exact hread.placed
  have hnews : Placed 0 (links.flatMap Link.news) := by
    rw [htransfer.news]
    exact htransfer.placed
  have horigins : r.order.map r.arena.origin? = links.flatMap (·.1.origins) := by
    rw [h.map_origin, ← hparts, List.flatMap_map]
  rw [← filterMap_entryOf htransfer.linked holds hnews, ← horigins, htransfer.news,
    List.zip_map_left, List.filterMap_map]
  rfl

/-- The old instructions fill the old script. -/
theorem Rewrites.scriptLength_eq (h : Rewrites g script starts groups parts r)
    (htransfer : Transferred script links xs) (hread : script.IsReading code) :
    r.scriptLength = totalSize (links.flatMap Link.olds) := by
  calc r.scriptLength = g.scriptLength := h.edited.scriptLength
    _ = script.length := h.graph.scriptLength
    _ = code.size := hread.length_eq
    _ = totalSize (links.flatMap Link.olds) := by rw [htransfer.olds, hread.size]

/-- The map of a relocated revision. -/
theorem Rewrites.follows (h : Rewrites g script starts groups parts r)
    (htransfer : Transferred script links xs) (hparts : links.map Prod.fst = parts.flatten)
    (hread : script.IsReading code) :
    (Relocation.mapOf r (xs.map (·.pc)).toArray (totalSize xs)).Follows links := by
  refine ⟨?_, htransfer.news_ne_nil⟩
  rw [← toList_landings htransfer.news_ne_nil, htransfer.news,
    ← h.filterMap_origin htransfer hparts hread, List.foldl_filterMap,
    ← h.scriptLength_eq htransfer hread]
  unfold Relocation.mapOf
  simp only
  congr 3
  funext table entry
  cases r.arena.origin? entry.1 <;> rfl

end Map

/-! ## Resolution -/

namespace AddressMap

variable {m : AddressMap} {links : List Link} {p q : Nat}

/-- In an ascending list the first key that is not below another is this other one. -/
theorem find?_of_pairwise {entries : List (Nat × Nat)}
    (hsorted : entries.Pairwise fun a b => a.1 < b.1)
    (hmem : (p, q) ∈ entries) : entries.find? (fun entry => p ≤ entry.1) = some (p, q) := by
  induction entries with
  | nil => cases hmem
  | cons entry entries ih =>
      rw [List.pairwise_cons] at hsorted
      rcases List.mem_cons.1 hmem with rfl | hrest
      · simp
      · have hlt : entry.1 < p := hsorted.1 _ hrest
        rw [List.find?_cons_of_neg (by simpa using hlt)]
        exact ih hsorted.2 hrest

/-- In an ascending list the first key that is not below a number is the least such key. -/
theorem le_of_find? {entries : List (Nat × Nat)} (hsorted : entries.Pairwise fun a b => a.1 < b.1)
    {found : Nat × Nat} (h : entries.find? (fun entry => p ≤ entry.1) = some found) :
    ∀ entry ∈ entries, p ≤ entry.1 → found.1 ≤ entry.1 := by
  induction entries with
  | nil => cases h
  | cons first entries ih =>
      rw [List.pairwise_cons] at hsorted
      by_cases hfirst : p ≤ first.1
      · rw [List.find?_cons_of_pos (by simpa using hfirst), Option.some.injEq] at h
        subst h
        exact List.forall_mem_cons.2
          ⟨fun _ => Nat.le_refl _, fun entry hentry _ => Nat.le_of_lt (hsorted.1 entry hentry)⟩
      · rw [List.find?_cons_of_neg (by simpa using hfirst)] at h
        exact List.forall_mem_cons.2 ⟨fun hle => absurd hle hfirst, ih hsorted.2 h⟩

/-- Old addresses come in ascending order. -/
theorem Follows.pairwise (h : m.Follows links) : m.entries.Pairwise fun a b => a.1 < b.1 := by
  rw [h.entries]
  exact pairwise_entries h.news _

/-- The map has an entry where a link begins, one at the end, and no others. -/
theorem Follows.mem_iff (h : m.Follows links) : (p, q) ∈ m.entries ↔
    Lands links p q ∨ p = totalSize (links.flatMap Link.olds) ∧
      q = totalSize (links.flatMap Link.news) := by
  rw [h.entries, List.mem_append, List.mem_singleton, Prod.mk.injEq]
  rfl

/-- An address with an entry is resolved by it. -/
theorem Follows.resolve_of_mem (h : m.Follows links) (hmem : (p, q) ∈ m.entries) :
    m.resolve p = .ok q := by
  simp only [resolve, find?_of_pairwise h.pairwise hmem]

/-- The new address of an instruction that is left is the one of its entry. -/
theorem Follows.newAddress?_eq_some_iff (h : m.Follows links) :
    m.newAddress? p = some q ↔ (p, q) ∈ m.entries := by
  have hsorted := h.pairwise
  unfold newAddress?
  generalize m.entries = entries at hsorted
  induction entries with
  | nil => simp
  | cons entry entries ih =>
      rw [List.pairwise_cons] at hsorted
      rw [List.lookup_cons, List.mem_cons]
      by_cases hkey : p = entry.1
      · -- The keys ascend, so an entry with this key is not found again behind it.
        subst hkey
        have hnot : (entry.1, q) ∉ entries := fun hmem => Nat.lt_irrefl _ (hsorted.1 (_, q) hmem)
        simp [hnot, Prod.ext_iff, eq_comm]
      · have hne : (p, q) ≠ entry := by
          rintro rfl
          exact hkey rfl
        simp [beq_false_of_ne hkey, hne, ih hsorted.2]

/-- Every address up to the end goes to where a link begins, or to the end. -/
theorem Follows.exists_resolve (h : m.Follows links)
    (hp : p ≤ totalSize (links.flatMap Link.olds)) :
    ∃ q, m.resolve p = .ok q ∧
      ((∃ p', Lands links p' q) ∨ q = totalSize (links.flatMap Link.news)) := by
  have hfound : (m.entries.find? fun entry => p ≤ entry.1).isSome := by
    rw [List.find?_isSome]
    exact ⟨_, h.mem_iff.2 (.inr ⟨rfl, rfl⟩), by simpa using hp⟩
  obtain ⟨entry, hentry⟩ := Option.isSome_iff_exists.1 hfound
  refine ⟨entry.2, by simp only [resolve, hentry], ?_⟩
  have hmem : (entry.1, entry.2) ∈ m.entries := List.mem_of_find?_eq_some hentry
  rcases h.mem_iff.1 hmem with hlands | ⟨-, hend⟩
  · exact .inl ⟨_, hlands⟩
  · exact .inr hend

/-- An address goes where the first entry that is not in front of it goes. -/
theorem Follows.exists_least (h : m.Follows links) (hresolve : m.resolve p = .ok q) :
    ∃ p', (p', q) ∈ m.entries ∧ p ≤ p' ∧ ∀ entry ∈ m.entries, p ≤ entry.1 → p' ≤ entry.1 := by
  unfold resolve at hresolve
  split at hresolve
  · rename_i found hfind
    cases hresolve
    have hle := List.find?_some hfind
    exact ⟨found.1, List.mem_of_find?_eq_some hfind, by simpa using hle,
      le_of_find? h.pairwise hfind⟩
  · cases hresolve

theorem Follows.lt_end (h : m.Follows links) (hlands : Lands links p q) :
    p < totalSize (links.flatMap Link.olds) := by
  simpa using ((pairwise_landings (p := 0) (q := 0) h.news).2 (p, q) hlands).2.2

/-- Exactly the addresses up to the end go somewhere. -/
theorem Follows.exists_resolve_iff (h : m.Follows links) :
    (∃ q, m.resolve p = .ok q) ↔ p ≤ totalSize (links.flatMap Link.olds) := by
  constructor
  · rintro ⟨q, hq⟩
    obtain ⟨p', hmem, hle, -⟩ := h.exists_least hq
    rcases h.mem_iff.1 hmem with hlands | ⟨rfl, -⟩
    · exact Nat.le_trans hle (Nat.le_of_lt (h.lt_end hlands))
    · exact hle
  · intro hle
    obtain ⟨q, hq, -⟩ := h.exists_resolve hle
    exact ⟨q, hq⟩

/-- An address without an entry goes to the next link, or to the end if there is none. -/
theorem Follows.next_of_newAddress? (h : m.Follows links) (hnone : m.newAddress? p = none)
    (hresolve : m.resolve p = .ok q) :
    (∃ p', p < p' ∧ Lands links p' q ∧ ∀ p'' q'', Lands links p'' q'' → p < p'' → p' ≤ p'') ∨
      (∀ p' q', Lands links p' q' → p' < p) ∧ q = totalSize (links.flatMap Link.news) := by
  obtain ⟨p', hmem, hle, hleast⟩ := h.exists_least hresolve
  have hne : ∀ {q' : Nat}, (p, q') ∉ m.entries := by
    intro q' hentry
    rw [h.newAddress?_eq_some_iff.2 hentry] at hnone
    cases hnone
  have hlt : p < p' := Nat.lt_of_le_of_ne hle (by rintro rfl; exact hne hmem)
  have hnext : ∀ p'' q'', Lands links p'' q'' → p < p'' → p' ≤ p'' := fun p'' q'' hlands hlater =>
    hleast (p'', q'') (h.mem_iff.2 (.inl hlands)) (Nat.le_of_lt hlater)
  rcases h.mem_iff.1 hmem with hlands | ⟨rfl, rfl⟩
  · exact .inl ⟨p', hlt, hlands, hnext⟩
  · -- What is left lies in front of the end, so it lies in front of the address.
    refine .inr ⟨fun p'' q'' hlands => ?_, rfl⟩
    have hend := h.lt_end hlands
    have hsame : p'' ≠ p := by
      rintro rfl
      exact hne (h.mem_iff.2 (.inl hlands))
    by_contra hge
    have := hnext p'' q'' hlands (by omega)
    omega

/-- The list of moved addresses gives the new address of every entry. -/
theorem Follows.lookup_moved (h : m.Follows links) (hmem : (p, q) ∈ m.entries) :
    (m.moved.lookup p).getD p = q := by
  have hsorted := h.pairwise
  unfold moved
  generalize m.entries = entries at hmem hsorted
  induction entries with
  | nil => cases hmem
  | cons entry entries ih =>
      rw [List.pairwise_cons] at hsorted
      rcases List.mem_cons.1 hmem with rfl | hrest
      · -- An entry that stays is not listed, and no later one has its key.
        by_cases heq : p = q
        · have hnone : (entries.filter fun entry => entry.1 ≠ entry.2).lookup p = none := by
            rw [List.lookup_eq_none_iff]
            intro later hlater
            have hlt := hsorted.1 later (List.mem_of_mem_filter hlater)
            simpa using Nat.ne_of_lt hlt
          rw [List.filter_cons_of_neg (by simpa using heq), hnone]
          exact heq
        · simp [heq]
      · have hlt : entry.1 < p := hsorted.1 _ hrest
        have hskip : (p == entry.1) = false := beq_false_of_ne (Nat.ne_of_gt hlt)
        rw [List.filter_cons]
        split
        · rw [List.lookup_cons, hskip]
          exact ih hrest hsorted.2
        · exact ih hrest hsorted.2

/-! ## Order -/

/-- Where entries send an address: to the first one that is not in front of it, else to the last. -/
def send : List (Nat × Nat) → Nat → Nat
  | [], _ => 0
  | [last], _ => last.2
  | entry :: next :: rest, old => if old ≤ entry.1 then entry.2 else send (next :: rest) old

/-- Where a map sends an address; all that is behind the old end goes to the new one. -/
def target (m : AddressMap) (old : Nat) : Nat :=
  send m.entries old

/-- An address goes where the next entry goes. -/
theorem send_of_find? {entries : List (Nat × Nat)} {old : Nat} {found : Nat × Nat}
    (h : entries.find? (fun entry => old ≤ entry.1) = some found) : send entries old = found.2 := by
  fun_induction send entries old with
  | case1 => cases h
  | case2 last old =>
      rw [List.find?_singleton] at h
      split at h
      · rw [Option.some.inj h]
      · cases h
  | case3 entry next rest old hle =>
      rw [List.find?_cons_of_pos (by simpa using hle)] at h
      rw [Option.some.inj h]
  | case4 entry next rest old hle ih =>
      rw [List.find?_cons_of_neg (by simpa using hle)] at h
      exact ih h

theorem target_of_resolve (h : m.resolve p = .ok q) : m.target p = q := by
  unfold resolve at h
  split at h
  · rename_i entry hfind
    rw [target, send_of_find? hfind]
    exact Except.ok.inj h
  · cases h

/-- No address is sent in front of all entries. -/
theorem le_send {entries : List (Nat × Nat)} {bound : Nat} (hne : entries ≠ [])
    (hbound : ∀ entry ∈ entries, bound ≤ entry.2) (old : Nat) : bound ≤ send entries old := by
  fun_induction send entries old with
  | case1 => exact absurd rfl hne
  | case2 last old => exact hbound last (List.mem_singleton.2 rfl)
  | case3 entry next rest old hle => exact hbound entry (List.mem_cons_self ..)
  | case4 entry next rest old hle ih =>
      exact ih (List.cons_ne_nil _ _) fun other hother =>
        hbound other (List.mem_cons_of_mem _ hother)

/-- Ascending entries keep addresses in order. -/
theorem send_mono {entries : List (Nat × Nat)}
    (hsorted : entries.Pairwise fun a b => a.1 < b.1 ∧ a.2 < b.2)
    (hle : p ≤ q) : send entries p ≤ send entries q := by
  fun_induction send entries p with
  | case1 => exact Nat.zero_le _
  | case2 last p => exact Nat.le_refl _
  | case3 entry next rest p hp =>
      -- `p` goes to the new address of the first entry, which is the lowest.
      rw [List.pairwise_cons] at hsorted
      unfold send
      split
      · exact Nat.le_refl _
      · exact le_send (List.cons_ne_nil _ _)
          (fun other hother => Nat.le_of_lt (hsorted.1 other hother).2) q
  | case4 entry next rest p hp ih =>
      rw [List.pairwise_cons] at hsorted
      have hq : ¬ q ≤ entry.1 := by omega
      rw [send, if_neg hq]
      exact ih hsorted.2 hle

/-- Behind the old address of an entry, addresses are sent behind its new one. -/
theorem lt_send_of_mem {entries : List (Nat × Nat)}
    (hsorted : entries.Pairwise fun a b => a.1 < b.1 ∧ a.2 < b.2) {p' : Nat}
    (hmem : (p, q) ∈ entries)
    (hlast : entries.getLast? ≠ some (p, q)) (hlt : p < p') : q < send entries p' := by
  fun_induction send entries p' with
  | case1 => cases hmem
  | case2 last p' =>
      cases List.mem_singleton.1 hmem
      exact absurd rfl hlast
  | case3 entry next rest p' hp =>
      rw [List.pairwise_cons] at hsorted
      -- `p'` is not behind the first entry, so it is behind none.
      rcases List.mem_cons.1 hmem with rfl | hrest
      · simp only at hp
        omega
      · have := hsorted.1 _ hrest
        simp only at this
        omega
  | case4 entry next rest p' hp ih =>
      rw [List.pairwise_cons] at hsorted
      rw [List.getLast?_cons_cons] at hlast
      rcases List.mem_cons.1 hmem with rfl | hrest
      · exact le_send (List.cons_ne_nil _ _) (fun other hother => (hsorted.1 other hother).2) p'
      · exact ih hsorted.2 hrest hlast hlt

/-- Entries are in ascending order on both sides. -/
theorem Follows.pairwise_lt (h : m.Follows links) :
    m.entries.Pairwise fun a b => a.1 < b.1 ∧ a.2 < b.2 := by
  rw [h.entries]
  obtain ⟨hsorted, hbounds⟩ := pairwise_landings (p := 0) (q := 0) h.news
  refine List.pairwise_append.2 ⟨hsorted, List.pairwise_singleton .., ?_⟩
  intro a ha b hb
  rw [List.mem_singleton.1 hb]
  refine ⟨by simpa using (hbounds a ha).2.2, ?_⟩
  obtain ⟨before, l, after, rfl, -, hq⟩ := mem_landings_iff.1 ha
  have hpos := totalSize_pos (h.news l (by simp))
  simp only [List.flatMap_append, List.flatMap_cons, totalSize_append]
  omega

/-- Entries are in the same order on both sides. -/
theorem Follows.lt_iff (h : m.Follows links) {p' q' : Nat} (hmem : (p, q) ∈ m.entries)
    (hmem' : (p', q') ∈ m.entries) : p < p' ↔ q < q' :=
  lt_iff_of_pairwise h.pairwise_lt hmem hmem'

/-- Addresses stay in order. -/
theorem Follows.target_mono (h : m.Follows links) (hle : p ≤ q) : m.target p ≤ m.target q :=
  send_mono h.pairwise_lt hle

/-- The beginning of a link goes to its new beginning. -/
theorem Follows.target_of_lands (h : m.Follows links) (hlands : Lands links p q) : m.target p = q :=
  target_of_resolve (h.resolve_of_mem (h.mem_iff.2 (.inl hlands)))

/-- Behind where a link begins, addresses go behind where it begins now. -/
theorem Follows.lt_target (h : m.Follows links) (hlands : Lands links p q) {p' : Nat}
    (hlt : p < p') : q < m.target p' := by
  refine lt_send_of_mem h.pairwise_lt (h.mem_iff.2 (.inl hlands)) ?_ hlt
  have hbound := ((pairwise_landings (p := 0) (q := 0) h.news).2 (p, q) hlands).2.2
  rw [h.entries, List.getLast?_concat]
  intro heq
  cases heq
  omega

end AddressMap

end NeoScript
