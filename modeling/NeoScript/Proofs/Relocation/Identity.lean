import NeoScript.Proofs.Relocation.AddressMap
import NeoScript.Proofs.Relocation.Contraction
import NeoScript.Proofs.Script.RoundTrip

/-!
# Identity — a program that nobody revised

A graph that is laid out as it was built gives back the script that it was built from.  Operands are
computed anew from the targets, so this says that nothing is lost between the bytes of an operand,
the instruction that it names, and the distance to it.

* `Rewrites.identity` — the identity keeps every instruction of the graph;
* `Instruction.Carried.eq_of_same` — an instruction that is carried to where it was does not change;
* `FlowGraph.Describes.exists_relocate_identity` — the instructions, and the map of addresses;
* `relocate_identity_reproduces` — the script.
-/

namespace NeoScript

/-! ## Keeping everything -/

def keptParts (groups : List (List (Instruction × Nat))) : List (List Segment) :=
  groups.map fun group => group.map fun entry => .kept entry.swap

theorem flatten_keptParts (groups : List (List (Instruction × Nat))) :
    (keptParts groups).flatten = groups.flatten.map fun entry => .kept entry.swap := by
  rw [keptParts, List.map_flatten]

theorem flatMap_news_keptParts (groups : List (List (Instruction × Nat))) :
    (keptParts groups).flatten.flatMap Segment.news = groups.flatten.map (·.1) := by
  rw [flatten_keptParts, List.flatMap_map]
  exact List.flatMap_pure_eq_map ..

/-- The identity keeps every instruction of its graph. -/
theorem Rewrites.identity {g : FlowGraph} {script : Script} {starts : List Nat}
    {groups : List (List (Instruction × Nat))} (h : g.Describes script starts groups) :
    Rewrites g script starts groups (keptParts groups) (.identity g) := by
  have hpieces : (keptParts groups).flatten.flatMap Segment.pieces = g.order.map Piece.keep := by
    rw [flatten_keptParts, List.flatMap_map, h.cut.flatten, h.order_eq]
    calc
      script.instructions.toList.zipIdx.flatMap (fun entry => (Segment.kept entry.swap).pieces)
          = script.instructions.toList.zipIdx.map (fun entry => Piece.keep entry.2) :=
            List.flatMap_pure_eq_map ..
      _ = (script.instructions.toList.zipIdx.map (·.2)).map Piece.keep := by rw [List.map_map]; rfl
      _ = (List.range script.instructions.size).map Piece.keep := by simp [List.range_eq_range']
  refine ⟨h, ?_, ?_, ?_⟩
  · rw [keptParts, List.forall₂_map_right_iff, List.forall₂_same]
    intro group _
    rw [List.flatMap_map]
    exact List.flatMap_pure_eq_map ..
  · intro s hs
    rw [flatten_keptParts] at hs
    obtain ⟨entry, -, rfl⟩ := List.mem_map.1 hs
    exact .kept _
  · rw [hpieces]
    exact .keepAll h.references.exact (by rw [h.order_eq]; exact List.nodup_range)

/-! ## Operands -/

/-- Bytes are told by their number and the signed number that they spell. -/
theorem Bytes.toInt_inj {xs ys : List UInt8} (hlength : xs.length = ys.length)
    (h : toInt xs = toInt ys) : xs = ys := by
  have hx := toNat_lt xs
  have hy := toNat_lt ys
  have hnat : toNat xs = toNat ys := by
    unfold toInt at h
    rw [hlength] at h hx
    generalize Nat.pow 256 ys.length = range at h hx hy
    simp only at h
    split at h <;> split at h <;> omega
  rw [← ofNat_toNat xs, ← ofNat_toNat ys, hnat, hlength]

namespace Instruction

variable {i j : Instruction}

/-- Bytes of one length that are read as the same number are the same. -/
theorem slice_eq_of_signedAt? {start width : Nat} (hwidth : start + width ≤ i.operand.length)
    (hlength : i.operand.length = j.operand.length)
    (h : i.signedAt? start width = j.signedAt? start width) :
    (i.operand.drop start).take width = (j.operand.drop start).take width := by
  simp only [signedAt?, operandSlice?, ← hlength, if_pos hwidth, Option.map_some,
    Option.some.injEq] at h
  refine Bytes.toInt_inj ?_ h
  simp only [List.length_take, List.length_drop, hlength]

/-- The operand of a single target is known by its offset. -/
theorem operand_eq_of_jumpOffset? (hi : i.Fits) (hj : j.Fits) (hop : i.op = j.op)
    (hsingle : i.op.hasSingleTarget = true) (h : i.jumpOffset? = j.jumpOffset?) :
    i.operand = j.operand := by
  have hlength : ∀ {x : Instruction}, x.op = i.op → x.Fits →
      x.operand.length = i.op.reachWidth := by
    intro x hx hfits
    rw [Fits, hx, Opcode.layout_of_hasSingleTarget hsingle] at hfits
    exact hfits
  have hi' := hlength rfl hi
  have hj' := hlength hop.symm hj
  rw [jumpOffset?_eq hsingle, jumpOffset?_eq (hop ▸ hsingle), ← hop] at h
  have hslice := slice_eq_of_signedAt? (by omega) (hi'.trans hj'.symm) h
  rwa [List.drop_zero, List.drop_zero, List.take_of_length_le (by omega),
    List.take_of_length_le (by omega)] at hslice

/-- The operand of a try is known by its offsets. -/
theorem operand_eq_of_handlerOffsets? (hi : i.Fits) (hj : j.Fits) (hop : i.op = j.op)
    (htry : i.op.isTry = true) {a b : Int} (hi' : i.handlerOffsets? = some (a, b))
    (hj' : j.handlerOffsets? = some (a, b)) : i.operand = j.operand := by
  have hlength : ∀ {x : Instruction}, x.op = i.op → x.Fits →
      x.operand.length = 2 * i.op.reachWidth := by
    intro x hx hfits
    rw [Fits, hx, Opcode.layout_of_isTry htry] at hfits
    exact hfits
  have hiLength := hlength rfl hi
  have hjLength := hlength hop.symm hj
  obtain ⟨hia, hib⟩ := signedAt?_of_handlerOffsets? htry hi'
  obtain ⟨hja, hjb⟩ := signedAt?_of_handlerOffsets? (hop ▸ htry) hj'
  rw [← hop] at hja hjb
  have hfirst :=
    slice_eq_of_signedAt? (by omega) (hiLength.trans hjLength.symm) (hia.trans hja.symm)
  have hsecond :=
    slice_eq_of_signedAt? (by omega) (hiLength.trans hjLength.symm) (hib.trans hjb.symm)
  -- The operand is its two offsets, one after the other.
  have hsplit : ∀ {x : Instruction}, x.operand.length = 2 * i.op.reachWidth →
      x.operand = (x.operand.drop 0).take i.op.reachWidth ++
        (x.operand.drop i.op.reachWidth).take i.op.reachWidth := by
    intro x hx
    rw [List.drop_zero, List.take_of_length_le (l := x.operand.drop _)]
    · exact (List.take_append_drop ..).symm
    · rw [List.length_drop]
      omega
  rw [hsplit hiLength, hfirst, hsecond, ← hsplit hjLength]

/-- An instruction that is carried to where it was does not change. -/
theorem Carried.eq_of_same {φ : Nat → Nat → Prop} (h : i.Carried φ j) (hfits : i.Fits)
    (hop : i.op = j.op) (hpc : i.pc = j.pc) (hφ : ∀ {p q : Nat}, φ p q → p = q) : i = j := by
  have hmoved : ∀ {a b : Int}, OffsetMoved φ i.pc j.pc a b → a = b := by
    rintro a b ⟨p, q, hpq, hp, hq⟩
    have := hφ hpq
    omega
  have hhandler : ∀ {a b : Int}, HandlerCarried φ i.pc j.pc a b → a = b := by
    intro a b hcarried
    cases hcarried with
    | absent => rfl
    | present _ _ h => exact hmoved h
  -- An operand that refers is determined by its offsets, and every other one is kept.
  have hoperand : i.operand = j.operand := by
    rcases i.op.refers_cases with hsingle | htry | ⟨hsingle, htry⟩
    · obtain ⟨a, b, ha, hb, hab⟩ := h.target hsingle
      refine operand_eq_of_jumpOffset? hfits h.fits hop hsingle ?_
      rw [ha, hb, hmoved hab]
    · obtain ⟨a, b, a', b', hab, hab', ha, hb⟩ := h.handlers htry
      rw [← hhandler ha, ← hhandler hb] at hab'
      exact operand_eq_of_handlerOffsets? hfits h.fits hop htry hab hab'
    · exact h.operand hsingle htry
  cases i
  cases j
  simp only at hpc hop hoperand
  rw [hpc, hop, hoperand]

end Instruction

/-! ## Kept links -/

section Links

variable {φ : Nat → Nat → Prop} {links : List Link}

/-- The link of a kept instruction carries it. -/
theorem Linked.exists_of_isKept {l : Link} (h : Linked φ l) (hkept : l.1.isKept = true) :
    ∃ entry ins, l = (.kept entry, [ins]) ∧ entry.2.Carried φ ins := by
  cases h with
  | kept hcarried => exact ⟨_, _, rfl, hcarried⟩
  | replaced => cases hkept

/-- Where every instruction is kept, they are carried one by one. -/
theorem forall₂_carried_of_isKept (hlinked : ∀ l ∈ links, Linked φ l)
    (hkept : ∀ l ∈ links, l.1.isKept = true) :
    List.Forall₂ (Instruction.Carried φ) (links.flatMap Link.olds) (links.flatMap Link.news) := by
  induction links with
  | nil => exact .nil
  | cons l links ih =>
      rw [List.forall_mem_cons] at hlinked hkept
      obtain ⟨entry, ins, rfl, hcarried⟩ := hlinked.1.exists_of_isKept hkept.1
      exact .cons hcarried (ih hlinked.2 hkept.2)

/-- Instructions that are carried to where they were do not change. -/
theorem eq_of_forall₂_carried {xs ys : List Instruction} (hφ : ∀ {p q : Nat}, φ p q → p = q)
    (h : List.Forall₂ (Instruction.Carried φ) xs ys) (hfits : ∀ ins ∈ xs, ins.Fits)
    (hops : xs.map (·.op) = ys.map (·.op)) (hpcs : xs.map (·.pc) = ys.map (·.pc)) : xs = ys := by
  induction h with
  | nil => rfl
  | cons hcarried _ ih =>
      rw [List.forall_mem_cons] at hfits
      simp only [List.map_cons, List.cons.injEq] at hops hpcs
      rw [hcarried.eq_of_same hfits.1 hops.1 hpcs.1 hφ, ih hfits.2 hops.2 hpcs.2]

/-- Kept instructions that stay where they were land there. -/
theorem landings_of_isKept (hlinked : ∀ l ∈ links, Linked φ l)
    (hkept : ∀ l ∈ links, l.1.isKept = true)
    {p q : Nat} (holds : Placed p (links.flatMap Link.olds))
    (hnews : Placed q (links.flatMap Link.news))
    (hpcs : (links.flatMap Link.olds).map (·.pc) = (links.flatMap Link.news).map (·.pc)) :
    landings p q links = (links.flatMap Link.olds).map fun ins => (ins.pc, ins.pc) := by
  induction links generalizing p q with
  | nil => rfl
  | cons l links ih =>
      rw [List.forall_mem_cons] at hlinked hkept
      obtain ⟨entry, ins, rfl, -⟩ := hlinked.1.exists_of_isKept hkept.1
      simp only [List.flatMap_cons, Link.olds, Segment.olds, Link.news, List.map_cons, List.map_nil,
        List.singleton_append, Placed.cons_iff, List.cons.injEq] at holds hnews hpcs ⊢
      rw [landings, List.cons.injEq, Prod.mk.injEq]
      refine ⟨⟨holds.1.symm, ?_⟩, ?_⟩
      · exact hnews.1.symm.trans hpcs.1.symm
      · refine ih hlinked.2 hkept.2 ?_ ?_ hpcs.2
        · simpa [Link.olds, Segment.olds] using holds.2
        · simpa [Link.news] using hnews.2

end Links

/-! ## The script again -/

section Script

variable {g : FlowGraph} {script : Script} {code : Code} {starts : List Nat}
  {groups : List (List (Instruction × Nat))}

/-- The identity is laid out as the script is, and every address stays what it was. -/
theorem FlowGraph.Describes.exists_relocate_identity (h : g.Describes script starts groups)
    (hvalid : script.IsValid code) (hsize : code.size < 0x80000000) :
    ∃ result, relocate (.identity g) = .ok result ∧
      result.instructions = script.instructions.toList ∧
      result.upgraded = 0 ∧ result.addressMap.entries =
        (script.instructions.toList.map fun ins => (ins.pc, ins.pc)) ++ [(code.size, code.size)] ∧
      ∀ p q, result.addressMap.newAddress? p = some q ↔ (p, q) ∈ result.addressMap.entries := by
  have hrewrites := Rewrites.identity h
  have hnews : (keptParts groups).flatten.flatMap Segment.news = script.instructions.toList := by
    rw [flatMap_news_keptParts, h.cut.flatten]
    exact List.zipIdx_map_fst 0 _
  have hparts : ∀ s ∈ (keptParts groups).flatten, s.isKept = true ∧ s.Shrinks := by
    intro s hs
    rw [flatten_keptParts] at hs
    obtain ⟨entry, -, rfl⟩ := List.mem_map.1 hs
    exact ⟨rfl, Segment.shrinks_kept _⟩
  obtain ⟨links, xs, hrelocate, htransfer, hlinks, hlength, hpcs, hops⟩ :=
    hrewrites.exists_contracted hvalid (fun s hs => (hparts s hs).2) hsize
  rw [hnews] at hlength hpcs hops
  rw [← Relocation.placed_iff_addressesFrom.1 hvalid.placed] at hpcs
  have hkept : ∀ l ∈ links, l.1.isKept = true := fun l hl =>
    (hparts l.1 (hlinks ▸ List.mem_map_of_mem hl)).1
  -- Every instruction is its own segment and has the address it had, so it lands where it was.
  have hlandings : landings 0 0 links = script.instructions.toList.map fun ins =>
      (ins.pc, ins.pc) := by
    rw [← htransfer.olds]
    refine landings_of_isKept htransfer.linked hkept ?_ ?_ ?_
    · rw [htransfer.olds]
      exact hvalid.placed
    · rw [htransfer.news]
      exact htransfer.placed
    · rw [htransfer.olds, htransfer.news, hpcs]
  have hcarried := forall₂_carried_of_isKept htransfer.linked hkept
  rw [htransfer.olds, htransfer.news] at hcarried
  have hstays : ∀ {p q : Nat}, Lands links p q → p = q := by
    intro p q hlands
    rw [Lands, hlandings] at hlands
    obtain ⟨ins, -, heq⟩ := List.mem_map.1 hlands
    cases heq
    rfl
  have hsame : script.instructions.toList = xs :=
    eq_of_forall₂_carried hstays hcarried (fun ins hins => hvalid.fits hins) hops.symm hpcs.symm
  have hfollows := hrewrites.follows htransfer hlinks hvalid.toIsReading
  refine ⟨_, hrelocate, hsame.symm, rfl, ?_, fun p q => hfollows.newAddress?_eq_some_iff⟩
  rw [hfollows.entries, hlandings, htransfer.olds, htransfer.news, hlength, hvalid.size]

end Script

/-- A script that is taken apart and laid out again without a change is the same script: nothing
becomes long, and no address moves. -/
theorem relocate_identity_reproduces (code : Code) (script : Script) (starts : List Nat)
    (hvalid : validateScript code = .ok script)
    (hstarts : ∀ pc ∈ starts, script.isBoundary pc = true) (hsize : code.size < 0x80000000) :
    ∃ g result, Script.decode code = .ok script ∧ FlowGraph.build script starts = .ok g ∧
      relocate (.identity g) = .ok result ∧ encode result.instructions = .ok code ∧
      result.upgraded = 0 ∧ result.addressMap.moved = [] ∧
      ∀ p q, result.addressMap.newAddress? p = some q ↔
        q = p ∧ (script.isBoundary p = true ∨ p = code.size) := by
  have hscript := validateScript_eq_ok_iff.1 hvalid
  obtain ⟨g, groups, hbuild, hdescribes⟩ := FlowGraph.build_of_isValid hscript hstarts
  obtain ⟨result, hrelocate, hinstructions, hupgraded, hentries, hlookup⟩ :=
    hdescribes.exists_relocate_identity hscript hsize
  refine ⟨g, result, Script.decode_eq_ok_iff.2 hscript.toIsReading, hbuild, hrelocate, ?_,
    hupgraded, ?_, ?_⟩
  · rw [hinstructions]
    exact hscript.toIsReading.encode_eq
  · rw [AddressMap.moved, hentries, List.filter_eq_nil_iff]
    intro entry hentry
    rcases List.mem_append.1 hentry with hins | hend
    · obtain ⟨ins, -, rfl⟩ := List.mem_map.1 hins
      simp
    · rw [List.mem_singleton.1 hend]
      simp
  · intro p q
    rw [hlookup, hentries, hscript.toIsReading.isBoundary_iff]
    simp only [List.mem_append, List.mem_map, List.mem_singleton, Prod.mk.injEq]
    constructor
    · rintro (⟨ins, hins, rfl, rfl⟩ | ⟨rfl, rfl⟩)
      · exact ⟨rfl, .inl ⟨ins, hins, rfl⟩⟩
      · exact ⟨rfl, .inr rfl⟩
    · rintro ⟨rfl, ⟨ins, hins, rfl⟩ | rfl⟩
      · exact .inl ⟨ins, hins, rfl, rfl⟩
      · exact .inr ⟨rfl, rfl⟩

/-- A try body whose handler jumps back to the try with a long jump. -/
def Samples.retryScript : Code :=
  #[0x3B, 0x06, 0x00, 0x11, 0x3D, 0x08, 0x12, 0x23, 0xF9, 0xFF, 0xFF, 0xFF, 0x40]

/-- A handler, a distance to the front and a long distance are written as they were read. -/
theorem relocate_identity_reproduces_retry :
    ∃ script g result, validateScript Samples.retryScript = .ok script ∧
      (∀ pc ∈ [0, 12], script.isBoundary pc = true) ∧ Samples.retryScript.size < 0x80000000 ∧
      FlowGraph.build script [0, 12] = .ok g ∧ relocate (.identity g) = .ok result ∧
      encode result.instructions = .ok Samples.retryScript ∧ result.upgraded = 0 ∧
      result.addressMap.moved = [] ∧ result.addressMap.newAddress? 7 = some 7 ∧
      result.addressMap.newAddress? 13 = some 13 ∧ result.addressMap.newAddress? 8 = none := by
  have hread : (validateScript Samples.retryScript).map
      (fun script => [0, 12, 7, 8].map script.isBoundary) = .ok [true, true, true, false] := by
    decide +kernel
  obtain ⟨script, hscript, hboundaries⟩ := Sequencing.map_eq_ok.1 hread
  simp only [List.map_cons, List.map_nil, List.cons.injEq, and_true] at hboundaries
  obtain ⟨hzero, htwelve, hseven, height⟩ := hboundaries
  have hstarts : ∀ pc ∈ [0, 12], script.isBoundary pc = true := by
    simp [hzero, htwelve]
  have hsize : Samples.retryScript.size < 0x80000000 := by decide
  obtain ⟨g, result, -, hbuild, hrelocate, hencode, hupgraded, hmoved, haddress⟩ :=
    relocate_identity_reproduces Samples.retryScript script [0, 12] hscript hstarts hsize
  refine ⟨script, g, result, hscript, hstarts, hsize, hbuild, hrelocate, hencode, hupgraded, hmoved,
    ?_, ?_, ?_⟩
  · exact (haddress 7 7).2 ⟨rfl, .inl hseven⟩
  · exact (haddress 13 13).2 ⟨rfl, .inr rfl⟩
  · rw [Option.eq_none_iff_forall_not_mem]
    intro q hq
    obtain ⟨-, hbegins | hends⟩ := (haddress 8 q).1 hq
    · rw [height] at hbegins
      cases hbegins
    · exact absurd hends (by decide)

end NeoScript
