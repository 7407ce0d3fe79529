import NeoScript.Contract
import NeoScript.Proofs.FlowGraph.Build
import NeoScript.Proofs.Nef.Spelling

/-!
# Checks — contracts that pass the checks

* `DebugMethod.Leads`, `Contract.Addressed` — every recorded address leads to an instruction of a
  script;
* `Contract.Checked` — and the checksum fits;
* `Contract.verify_eq_ok_iff` — verification accepts these contracts, and only these;
* `Contract.Checked.exists_graph` — such a contract has a block graph, and it can be measured.
-/

namespace NeoScript

/-! ## Addresses -/

/-- The addresses of a method lead to instructions; its end and its points may be the end of the
script. -/
structure DebugMethod.Leads (script : Script) (m : DebugMethod) : Prop where
  first : script.isBoundary m.range.first = true
  last : isBoundaryOrEnd script m.range.last = true
  points : ∀ p ∈ m.points, isBoundaryOrEnd script p.address = true

theorem checkEntry_eq_ok_iff {script : Script} {pc : Nat} :
    checkEntry script pc = .ok () ↔ script.isBoundary pc = true := by
  unfold checkEntry
  split <;> simp_all

/-- A method of debug information is accepted if its addresses lead to instructions. -/
theorem checkDebugMethod_eq_ok_iff {script : Script} {m : DebugMethod} :
    checkDebugMethod script m = .ok () ↔ m.Leads script := by
  unfold checkDebugMethod
  rw [Sequencing.bind_eq_ok]
  constructor
  · rintro ⟨_, hfirst, h⟩
    split at h
    · rename_i hlast
      split at h
      · cases h
      · rename_i hpoints
        refine ⟨checkEntry_eq_ok_iff.1 hfirst, hlast, fun p hp => ?_⟩
        simpa using List.find?_eq_none.1 hpoints p hp
    · cases h
  · intro h
    refine ⟨(), checkEntry_eq_ok_iff.2 h.first, ?_⟩
    have hpoints : m.points.find? (fun p => !isBoundaryOrEnd script p.address) = none :=
      List.find?_eq_none.2 fun p hp => by simp [h.points p hp]
    rw [if_pos h.last, hpoints]
    rfl

namespace Manifest

/-- The offsets of a manifest are those of its methods. -/
theorem mem_offsets {m : Manifest} {pc : Nat} :
    pc ∈ m.offsets ↔ ∃ e ∈ m.abi.methods, e.offset = pc := by
  unfold offsets
  rw [Std.TreeSet.mem_toList, Std.TreeSet.mem_ofList]
  simp

end Manifest

namespace DebugInfo

theorem mem_starts {info : DebugInfo} {pc : Nat} :
    pc ∈ info.starts ↔ ∃ m ∈ info.methods, m.range.first = pc := by
  unfold starts
  rw [Std.TreeSet.mem_toList, Std.TreeSet.mem_ofList]
  simp

end DebugInfo

namespace Contract

variable {c : Contract} {script : Script}

/-- Every operand and every recorded address leads to an instruction of the script. -/
structure Addressed (c : Contract) (script : Script) : Prop where
  valid : script.IsValid c.nef.script
  methods : ∀ m ∈ c.manifest.abi.methods, script.isBoundary m.offset = true
  debug : ∀ info ∈ c.debug, ∀ m ∈ info.methods, m.Leads script

/-- The check of addresses passes if and only if some reading of the script has them all. -/
theorem checkAddresses_eq_ok_iff : c.checkAddresses = .ok () ↔ ∃ script, c.Addressed script := by
  unfold checkAddresses
  rw [Sequencing.bind_eq_ok]
  refine exists_congr fun script => ?_
  have hmanifest : checkManifest script (some c.manifest) = .ok () ↔
      ∀ m ∈ c.manifest.abi.methods, script.isBoundary m.offset = true := by
    unfold checkManifest
    rw [Sequencing.forM_eq_ok]
    simp only [Manifest.mem_offsets, checkEntry_eq_ok_iff]
    grind
  have hdebug : checkDebugInfo script c.debug = .ok () ↔
      ∀ info ∈ c.debug, ∀ m ∈ info.methods, m.Leads script := by
    cases c.debug with
    | none => simp [checkDebugInfo]
    | some info =>
        unfold checkDebugInfo
        rw [Sequencing.forM_eq_ok]
        simp [checkDebugMethod_eq_ok_iff]
  unfold validateAddresses
  rw [validateScript_eq_ok_iff, Sequencing.bind_eq_ok]
  constructor
  · rintro ⟨hvalid, _, hoffsets, hmethods⟩
    exact ⟨hvalid, hmanifest.1 hoffsets, hdebug.1 hmethods⟩
  · rintro ⟨hvalid, hoffsets, hmethods⟩
    exact ⟨hvalid, (), hmanifest.2 hoffsets, hdebug.2 hmethods⟩

/-- The contract passes all checks. -/
structure Checked (c : Contract) (script : Script) : Prop extends c.Addressed script where
  checksum : c.nef.computeChecksum = .ok c.nef.checksum

/-- The checksum is accepted if it can be computed and is the one that is held. -/
theorem checkChecksum_eq_ok_iff {nef : Nef} :
    checkChecksum nef = .ok () ↔ nef.computeChecksum = .ok nef.checksum := by
  unfold checkChecksum
  rw [Sequencing.bind_eq_ok]
  constructor
  · rintro ⟨computed, hcomputed, h⟩
    split at h
    · rename_i heq
      rw [hcomputed, heq]
    · cases h
  · intro h
    exact ⟨nef.checksum, h, by simp; rfl⟩

/-- Verification accepts the contracts that pass all checks, and only these. -/
theorem verify_eq_ok_iff : c.verify = .ok () ↔ ∃ script, c.Checked script := by
  unfold verify
  rw [Sequencing.bind_eq_ok]
  constructor
  · rintro ⟨_, hchecksum, haddresses⟩
    obtain ⟨script, hscript⟩ := checkAddresses_eq_ok_iff.1 haddresses
    exact ⟨script, hscript, checkChecksum_eq_ok_iff.1 hchecksum⟩
  · rintro ⟨script, hscript, hchecksum⟩
    exact ⟨(), checkChecksum_eq_ok_iff.2 hchecksum, checkAddresses_eq_ok_iff.2 ⟨script, hscript⟩⟩

/-! ## Views -/

/-- Methods begin where the manifest or debug information says so. -/
theorem mem_entryPoints {pc : Nat} : pc ∈ c.entryPoints ↔
    (∃ m ∈ c.manifest.abi.methods, m.offset = pc) ∨
      ∃ info ∈ c.debug, ∃ m ∈ info.methods, m.range.first = pc := by
  unfold entryPoints
  simp only
  rw [Std.TreeSet.mem_toList, Std.TreeSet.mem_ofList]
  cases c.debug with
  | none => simp [Manifest.mem_offsets]
  | some info => simp [Manifest.mem_offsets, DebugInfo.mem_starts]

/-- Entry points are listed in ascending order. -/
theorem pairwise_entryPoints (c : Contract) : c.entryPoints.Pairwise (· < ·) :=
  Std.TreeSet.ordered_toList.imp Nat.compare_eq_lt.1

/-- Every method begins with an instruction. -/
theorem Addressed.isBoundary_entryPoints (h : c.Addressed script) :
    ∀ pc ∈ c.entryPoints, script.isBoundary pc = true := by
  intro pc hpc
  rcases mem_entryPoints.1 hpc with ⟨m, hm, rfl⟩ | ⟨info, hinfo, m, hm, rfl⟩
  · exact h.methods m hm
  · exact (h.debug info hinfo m hm).first

/-- A checked contract has a script, which is not too long. -/
theorem Checked.size (h : c.Checked script) :
    c.nef.script.size ≠ 0 ∧ c.nef.script.size ≤ Nef.maxScriptLength := by
  obtain ⟨body, hbody, -⟩ := Sequencing.map_eq_ok.1 h.checksum
  exact (Nef.exists_body_iff.1 ⟨body, hbody⟩).2

theorem Checked.instructions_ne_nil (h : c.Checked script) : script.instructions.toList ≠ [] := by
  intro hnil
  have hsize := h.valid.size
  rw [hnil] at hsize
  exact h.size.1 hsize.symm

/-- A contract that passes the checks has a block graph. -/
theorem Checked.exists_graph (h : c.Checked script) :
    ∃ g groups, c.graph = .ok g ∧ g.Describes script c.entryPoints groups := by
  obtain ⟨g, groups, hg, hdescribes⟩ := FlowGraph.build_of_isValid h.valid h.isBoundary_entryPoints
  refine ⟨g, groups, ?_, hdescribes⟩
  exact Sequencing.bind_eq_ok.2 ⟨script, Script.decode_eq_ok_iff.2 h.valid.toIsReading, hg⟩

/-- Metrics can be taken of a checked contract. -/
theorem Checked.exists_metrics (h : c.Checked script) : ∃ m, c.metrics = .ok m := by
  obtain ⟨g, groups, hg, hdescribes⟩ := h.exists_graph
  exact ⟨_, Sequencing.bind_eq_ok.2 ⟨g, hg, hdescribes.metrics_eq h.instructions_ne_nil⟩⟩

end Contract

end NeoScript
