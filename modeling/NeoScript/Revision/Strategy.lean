import NeoScript.Revision.Folding
import NeoScript.Revision.Fusion

/-!
# Strategy — the changes that keep the meaning of a program
-/

namespace NeoScript

inductive Strategy where
  | folding (policy : ArithmeticPolicy)
  /-- A threshold below the least one is raised to it. -/
  | fusion (threshold : Nat)
  deriving DecidableEq, Repr

namespace Strategy

def name : Strategy → String
  | folding _ => "ConstantFold"
  | fusion _ => "CollectionFusion"

def apply (g : FlowGraph) : Strategy → Revision
  | folding policy => reviseBlocks g (foldBlock policy)
  | fusion threshold => reviseBlocks g (fuseBlock (max threshold Fusion.leastThreshold))

end Strategy

end NeoScript
