import NeoScript.Contract
import NeoScript.Revision.Strategy
import NeoScript.Trace

/-!
# Pass — strategies applied one after the other

Each strategy makes a full round: block graph, revision, relocation and rebuilt contract.  The next
one starts from the rebuilt contract.

* `StrategyRun` — what a strategy changed;
* `Pass.step` — one strategy, and `Pass.run` — a list of them.
-/

namespace NeoScript

/-- A strategy that changed the program, and by how much. -/
structure StrategyRun where
  strategy : String
  /-- In bytes. -/
  sizeChange : Int
  /-- In percent. -/
  feeChange : Float
  upgraded : Nat
  deriving Repr

/-- A contract and what was done to it. -/
structure Pass where
  contract : Contract
  runs : List StrategyRun
  trace : List TraceEvent
  deriving Repr

namespace Pass

def start (c : Contract) : Pass := ⟨c, [], []⟩

def changed (p : Pass) : Bool :=
  !p.runs.isEmpty

def step (p : Pass) (s : Strategy) : Except Error Pass := do
  let graph ← p.contract.graph
  let before ← graph.metrics
  let revision := s.apply graph
  let trace := p.trace ++ [graph.built, ⟨.revise s.name revision.changed, none⟩]
  if revision.changed then
    let relocation ← relocate revision
    let event := ⟨.relocate relocation.upgraded, some relocation.addressMap.moved⟩
    let contract ← p.contract.rebuild relocation
    let after ← contract.metrics
    let run := ⟨s.name, before.sizeChange after, before.feeChange after, relocation.upgraded⟩
    return ⟨contract, p.runs ++ [run], trace ++ [event]⟩
  else return { p with trace }

def run (c : Contract) (strategies : List Strategy) : Except Error Pass :=
  strategies.foldlM step (start c)

end Pass

end NeoScript
