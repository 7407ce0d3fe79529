import NeoScript.Pass
import NeoScript.Proofs.Contract.Moving
import NeoScript.Proofs.Contract.Rebuild
import NeoScript.Proofs.Revision.Strategy

/-!
# Step — one strategy on a checked contract

* `Contract.Checked.exists_rebuilt` — what a strategy rebuilds is the old contract, link by link;
* `Pass.Stepped` — what a strategy can do: nothing, rebuild the contract, or fail because the new
  script is too long;
* `Pass.step_stepped` — and nothing else happens.
-/

namespace NeoScript

/-- A strategy makes a script of a contract longer than a container can hold. -/
def Contract.Outgrows (c : Contract) (s : Strategy) (size : Nat) : Prop :=
  ∃ g relocation code, c.graph = .ok g ∧ relocate (s.apply g) = .ok relocation ∧
    encode relocation.instructions = .ok code ∧ code.size = size ∧ Nef.maxScriptLength < size ∧
    c.nef.withScript code = .error (.invalidNef (.scriptLength size))

/-- What a strategy rebuilds consists of links, and the address map tells where these begin. -/
theorem Contract.Checked.exists_rebuilt {c c' : Contract} {script : Script} (h : c.Checked script)
    {s : Strategy} {g : FlowGraph} {relocation : Relocation} (hg : c.graph = .ok g)
    (hrelocate : relocate (s.apply g) = .ok relocation) (hrebuild : c.rebuild relocation = .ok c') :
    ∃ links, c.Rebuilt c' script links relocation.instructions ∧
      relocation.addressMap.Follows links := by
  obtain ⟨g', groups, hg', hdescribes⟩ := h.exists_graph
  cases Except.ok.inj (hg.symm.trans hg')
  obtain ⟨parts, counts, hrewrites, -, -⟩ := s.rewrites hdescribes h.valid.toIsReading
  obtain ⟨relocation', hrelocate', hcases⟩ := h.rebuild hrewrites
  cases Except.ok.inj (hrelocate.symm.trans hrelocate')
  rcases hcases with ⟨code, -, -, -, hfails⟩ | ⟨c'', links, hrebuild', hrebuilt, hmap, -⟩
  · cases hrebuild.symm.trans hfails
  · cases Except.ok.inj (hrebuild.symm.trans hrebuild')
    exact ⟨links, hrebuilt, hmap⟩

namespace Pass

def maps (trace : List TraceEvent) : List (List (Nat × Nat)) :=
  trace.filterMap (·.moved)

theorem maps_append (trace events : List TraceEvent) :
    maps (trace ++ events) = maps trace ++ maps events :=
  List.filterMap_append ..

/-- What a strategy can do to a contract whose blocks it divides into segments. -/
inductive Stepped (p : Pass) (s : Strategy) (script : Script) (parts : List (List Segment))
    (counts : List Nat) : Except Error Pass → Prop where
  | unchanged {events : List TraceEvent} (hcounts : counts.sum = 0) (hmaps : maps events = []) :
      Stepped p s script parts counts (.ok { p with trace := p.trace ++ events })
  | rebuilt {c' : Contract} {links : List Link} {xs : List Instruction} {m : AddressMap}
      {run : StrategyRun} {events : List TraceEvent} (hcounts : 0 < counts.sum)
      (hrebuilt : p.contract.Rebuilt c' script links xs)
      (hparts : links.map Prod.fst = parts.flatten) (hmap : m.Follows links)
      (hmaps : maps events = [m.moved]) (hmoved : p.contract.Moved m.target c') :
      Stepped p s script parts counts (.ok ⟨c', p.runs ++ [run], p.trace ++ events⟩)
  | tooLong {n : Nat} (hcounts : 0 < counts.sum) (hn : p.contract.Outgrows s n) :
      Stepped p s script parts counts (.error (.invalidNef (.scriptLength n)))

/-- A strategy does one of these things to a checked contract. -/
theorem step_stepped {p : Pass} {script : Script} (h : p.contract.Checked script) (s : Strategy) :
    ∃ g groups parts counts, Rewrites g script p.contract.entryPoints groups parts (s.apply g) ∧
      List.Forall₂ s.Allows parts counts ∧ Stepped p s script parts counts (p.step s) := by
  obtain ⟨g, groups, hg, hdescribes⟩ := h.exists_graph
  have hbefore := hdescribes.metrics_eq h.instructions_ne_nil
  obtain ⟨parts, counts, hrewrites, hallows, hchanged⟩ := s.rewrites hdescribes h.valid.toIsReading
  refine ⟨g, groups, parts, counts, hrewrites, hallows, ?_⟩
  -- What the revision says of itself is whether a block counts a change.
  have hdecide : (s.apply g).changed = true ↔ 0 < counts.sum := by simp [hchanged]
  simp only [step, hg, hbefore, Sequencing.ok_bind, hdecide]
  split
  · rename_i hsum
    obtain ⟨relocation, hrelocate, ⟨code, hcode, hlong, hsealing, hfails⟩ |
      ⟨c', links, hrebuild, hrebuilt, hmap, hparts⟩⟩ := h.rebuild hrewrites
    · simp only [hrelocate, hfails, Sequencing.ok_bind, Sequencing.error_bind]
      exact .tooLong hsum ⟨g, relocation, code, hg, hrelocate, hcode, rfl, hlong, hsealing⟩
    · obtain ⟨after, hafter⟩ := hrebuilt.checked.exists_metrics
      simp only [hrelocate, hrebuild, hafter, Sequencing.ok_bind, List.append_assoc]
      exact .rebuilt hsum hrebuilt hparts hmap rfl (Contract.moved_of_rebuild hrebuild)
  · rename_i hsum
    exact .unchanged (Nat.eq_zero_of_not_pos hsum) rfl

end Pass

end NeoScript
