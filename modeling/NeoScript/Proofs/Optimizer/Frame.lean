import NeoScript.Proofs.Optimizer.Cost
import NeoScript.Proofs.Pass.Order

/-!
# Frame — an optimization changes addresses only

* `Optimizer.moved_of_optimize` — a result is the given contract, up to its checksum, or one with
  moved addresses;
* `optimize_moves_addresses` — all that a contract holds beside its script stays, but for addresses;
* `optimize_keeps_range_order` — of two methods, the end of the first one never passes the start of
  the second;
* `optimize_adjoining_meet` — but the two can meet.
-/

namespace NeoScript

namespace Optimizer

/-- Accepting a contract changes its checksum at most. -/
theorem exists_checksum_of_accept {config : Config} {c c₀ : Contract}
    (h : accept config c = .ok c₀) :
    ∃ checksum, c₀ = { c with nef := { c.nef with checksum } } := by
  obtain ⟨computed, -, h⟩ := Sequencing.bind_eq_ok.1 h
  split_ifs at h
  · cases h
    exact ⟨c.nef.checksum, rfl⟩
  · cases h
    exact ⟨computed, rfl⟩

/-- A result is the given contract, up to its checksum, or one with moved addresses. -/
theorem moved_of_optimize {config : Config} {c : Contract} {result : Optimization}
    (h : optimize config c = .ok result) :
    ∃ script, Script.decode c.nef.script = .ok script ∧
      ((result.report.runs = [] ∧ ∃ checksum,
        result.contract = { c with nef := { c.nef with checksum } }) ∨
        result.report.runs ≠ [] ∧ ∃ move script', c.Moved move result.contract ∧
          Ordered move script script') := by
  obtain ⟨c₀, done, haccept, haddresses, hpasses, -, hreturns⟩ := optimize_eq_ok h
  obtain ⟨script, hchecked⟩ := checked_of_accept haccept haddresses
  obtain ⟨script', -, hmoved⟩ := (reaches_of_passes hchecked hpasses).moved hchecked
  obtain ⟨checksum, rfl⟩ := exists_checksum_of_accept haccept
  rw [hreturns.contract, hreturns.runs]
  refine ⟨script, Script.decode_eq_ok_iff.2 hchecked.valid.toIsReading, ?_⟩
  rcases hmoved with ⟨hruns, hsame, -⟩ | ⟨hruns, move, hmoved, hordered⟩
  · exact .inl ⟨hruns, checksum, hsame⟩
  · -- The checksum is no part of what a move keeps.
    exact .inr ⟨hruns, move, script', ⟨hmoved.compiler, hmoved.source, hmoved.tokens,
      hmoved.manifest, hmoved.debug⟩, hordered⟩

end Optimizer

open Optimizer

/-! ## Companions -/

/-- An optimization keeps what a contract holds beside its script, but for addresses.  These are all
moved by one function; points that become equal stay once.  If no strategy changed the program,
nothing is moved. -/
theorem optimize_moves_addresses (config : Config) (c : Contract) (result : Optimization)
    (h : optimize config c = .ok result) :
    result.contract.nef.compiler = c.nef.compiler ∧ result.contract.nef.source = c.nef.source ∧
    result.contract.nef.tokens = c.nef.tokens ∧
    (result.report.runs = [] → result.contract.manifest = c.manifest ∧
      result.contract.debug = c.debug) ∧
    (result.report.runs ≠ [] → ∃ move, result.contract.manifest = c.manifest.moved move ∧
      result.contract.debug = c.debug.map (DebugInfo.moved move)) := by
  obtain ⟨script, -, ⟨hruns, checksum, hsame⟩ | ⟨hruns, move, -, hmoved, -⟩⟩ := moved_of_optimize h
  · rw [hsame]
    exact ⟨rfl, rfl, rfl, fun _ => ⟨rfl, rfl⟩, fun hchanged => absurd hruns hchanged⟩
  · exact ⟨hmoved.compiler, hmoved.source, hmoved.tokens, fun hsame => absurd hsame hruns,
      fun _ => ⟨move, hmoved.manifest, hmoved.debug⟩⟩

namespace Samples

def storesMethod : DebugMethod :=
  ⟨"Stores.main", "Stores,main", ⟨0, 17⟩,
    [0, 2, 3, 5, 9, 17].map fun address => ⟨address, 0, 7, 1, 7, 9⟩, debugMembers "Any" []⟩

/-- An array whose elements are stored by one line of source. -/
def stores : Except Error Contract := do
  let nef ← Nef.make compiler "stores" [] storesScript
  return ⟨nef, manifest "Stores" [("main", 0)], some ⟨["Stores.cs"], none, [storesMethod], []⟩⟩

end Samples

def DebugInfo.pointAddresses (info : DebugInfo) : List (List Nat) :=
  info.methods.map fun m => m.points.map (·.address)

/-- Folding the sum makes two points equal, and packing the array three others. -/
theorem optimize_stores_moves_addresses : ∃ c result, Samples.stores = .ok c ∧
    optimize .default c = .ok result ∧ result.report.runs.length = 2 ∧
    result.contract.debug.map DebugInfo.pointAddresses = some [[0, 1, 6]] ∧
    ∃ move, result.contract.manifest = c.manifest.moved move ∧
      result.contract.debug = c.debug.map (DebugInfo.moved move) := by
  have hcompute : (do
      let c ← Samples.stores
      let result ← optimize .default c
      return (result.report.runs.length, result.contract.debug.map DebugInfo.pointAddresses)) =
        .ok (2, some [[0, 1, 6]]) := by
    decide +kernel
  obtain ⟨c, hc, hcompute⟩ := Sequencing.bind_eq_ok.1 hcompute
  obtain ⟨result, hresult, hcompute⟩ := Sequencing.bind_eq_ok.1 hcompute
  obtain ⟨hruns, hpoints⟩ := Prod.mk.inj (Except.ok.inj hcompute)
  have hchanged : result.report.runs ≠ [] := by
    intro hnone
    rw [hnone] at hruns
    cases hruns
  obtain ⟨-, -, -, -, hmoved⟩ := optimize_moves_addresses .default c result hresult
  exact ⟨c, result, hc, hresult, hruns, hpoints, hmoved hchanged⟩

/-! ## Ranges -/

/-- Of two methods where one ends before the other begins, the end of the first one never passes the
start of the second.  The two stay apart if nothing is changed, or if an instruction between them
transfers control. -/
theorem optimize_keeps_range_order (config : Config) (c : Contract) (result : Optimization)
    (info : DebugInfo) (h : optimize config c = .ok result) (hinfo : c.debug = some info) :
    ∃ script info', Script.decode c.nef.script = .ok script ∧ result.contract.debug = some info' ∧
      info'.methods.length = info.methods.length ∧
      ∀ (i j : Nat) (a b : DebugMethod), info.methods[i]? = some a → info.methods[j]? = some b →
        a.range.last < b.range.first →
        ∃ a' b', info'.methods[i]? = some a' ∧ info'.methods[j]? = some b' ∧
          a'.range.last ≤ b'.range.first ∧
          ((result.report.runs = [] ∨ ∃ ins ∈ script.instructions.toList,
            ins.op.isBlockEnding = true ∧
            a.range.last ≤ ins.pc ∧ ins.pc < b.range.first) → a'.range.last < b'.range.first) := by
  obtain ⟨script, hscript, ⟨-, checksum, hsame⟩ | ⟨hruns, move, script', hmoved, hordered⟩⟩ :=
    moved_of_optimize h
  · refine ⟨script, info, hscript, by rw [hsame, hinfo], rfl, ?_⟩
    intro i j a b ha hb hlt
    exact ⟨a, b, ha, hb, Nat.le_of_lt hlt, fun _ => hlt⟩
  · refine ⟨script, info.moved move, hscript, by rw [hmoved.debug, hinfo, Option.map_some],
      List.length_map _, ?_⟩
    intro i j a b ha hb hlt
    refine ⟨a.moved move, b.moved move, ?_, ?_, hordered.mono (Nat.le_of_lt hlt), ?_⟩
    · rw [DebugInfo.moved, List.getElem?_map, ha, Option.map_some]
    · rw [DebugInfo.moved, List.getElem?_map, hb, Option.map_some]
    · rintro (hnone | ⟨ins, hins, hends, hle, hbefore⟩)
      · exact absurd hnone hruns
      · calc move a.range.last ≤ move ins.pc := hordered.mono hle
          _ < move b.range.first := hordered.apart ins hins hends hbefore

/-- The first method returns at its end, so the second one still begins behind it. -/
theorem optimize_counter_keeps_range_order :
    ∃ c result info info' a b a' b', Samples.counter = .ok c ∧
    optimize .default c = .ok result ∧ result.report.runs.length = 1 ∧
    c.debug = some info ∧ info.methods[0]? = some a ∧ info.methods[1]? = some b ∧
    a.range = ⟨0, 14⟩ ∧ b.range = ⟨15, 18⟩ ∧
    result.contract.debug = some info' ∧ info'.methods[0]? = some a' ∧ info'.methods[1]? = some b' ∧
    a'.range.last < b'.range.first := by
  have hcompute : (do
      let c ← Samples.counter
      let result ← optimize .default c
      let script ← Script.decode c.nef.script
      return (result.report.runs.length, script.instructions.toList.any fun ins =>
        ins.op.isBlockEnding && ins.pc == 14)) = .ok (1, true) := by
    decide +kernel
  obtain ⟨c, hc, hcompute⟩ := Sequencing.bind_eq_ok.1 hcompute
  obtain ⟨result, hresult, hcompute⟩ := Sequencing.bind_eq_ok.1 hcompute
  obtain ⟨nef, hcounter, -, -⟩ := Samples.exists_counter
  cases Except.ok.inj (hc.symm.trans hcounter)
  obtain ⟨script, info', hscript, hinfo', -, hranges⟩ :=
    optimize_keeps_range_order .default _ result Samples.counterDebugInfo hresult rfl
  obtain ⟨a', b', ha', hb', -, hapart⟩ := hranges 0 1 _ _ rfl rfl (by decide)
  simp only [hscript, Sequencing.ok_bind] at hcompute
  obtain ⟨hruns, hreturns⟩ := Prod.mk.inj (Except.ok.inj hcompute)
  obtain ⟨ins, hins, hat⟩ := List.any_eq_true.1 hreturns
  rw [Bool.and_eq_true, beq_iff_eq] at hat
  refine ⟨_, result, _, info', _, _, a', b', hc, hresult, hruns, rfl, rfl, rfl, rfl, rfl,
    hinfo', ha', hb', hapart (.inr ⟨ins, hins, hat.1, ?_, ?_⟩)⟩
  · exact Nat.le_of_eq hat.2.symm
  · exact Nat.lt_of_le_of_lt (Nat.le_of_eq hat.2) (by decide)

/-- A sum at the end of a method, and a method behind it. -/
def Samples.adjoiningScript : Code :=
  #[0x11, 0x12, 0x9E, 0x13, 0x40]

def DebugInfo.ranges (info : DebugInfo) : List AddressRange :=
  info.methods.map (·.range)

/-- The sum is folded.  The end of the first method then leads to what follows, which is the start
of the second. -/
theorem optimize_adjoining_meet : ∃ c result a b a' b',
    Samples.contract Samples.adjoiningScript [("first", ⟨0, 2⟩), ("second", ⟨3, 4⟩)] = .ok c ∧
    optimize .default c = .ok result ∧
    c.debug.map DebugInfo.ranges = some [a, b] ∧ a.last < b.first ∧
    result.contract.debug.map DebugInfo.ranges = some [a', b'] ∧ ¬ a'.last < b'.first := by
  have hcompute : (do
      let c ← Samples.contract Samples.adjoiningScript [("first", ⟨0, 2⟩), ("second", ⟨3, 4⟩)]
      let result ← optimize .default c
      return (c.debug.map DebugInfo.ranges, result.contract.debug.map DebugInfo.ranges)) =
        .ok (some [⟨0, 2⟩, ⟨3, 4⟩], some [⟨0, 1⟩, ⟨1, 2⟩]) := by
    decide +kernel
  obtain ⟨c, hc, hcompute⟩ := Sequencing.bind_eq_ok.1 hcompute
  obtain ⟨result, hresult, hcompute⟩ := Sequencing.bind_eq_ok.1 hcompute
  obtain ⟨hbefore, hafter⟩ := Prod.mk.inj (Except.ok.inj hcompute)
  exact ⟨c, result, _, _, _, _, hc, hresult, hbefore, by decide, hafter, by decide⟩

end NeoScript
