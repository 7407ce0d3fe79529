import NeoScript.FlowGraph.Basic

/-!
# Trace — what happened to a program
-/

namespace NeoScript

inductive Operation where
  | build (blocks arcs : Nat)
  | revise (strategy : String) (changed : Bool)
  | relocate (upgraded : Nat)
  deriving DecidableEq, Repr

/-- An operation with the addresses that it moved. -/
structure TraceEvent where
  operation : Operation
  moved : Option (List (Nat × Nat))
  deriving DecidableEq, Repr

def FlowGraph.built (g : FlowGraph) : TraceEvent :=
  ⟨.build g.blocks.length g.arcs.length, none⟩

end NeoScript
