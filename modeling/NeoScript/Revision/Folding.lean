import NeoScript.Arithmetic
import NeoScript.Revision.Basic

/-!
# Folding — evaluating operations on constants

Two constant pushes and an operation become one push of the result, if the machine would compute
exactly that result.  The new push may be an operand of a later operation of the block.

* `foldTriple?` — the push that replaces three instructions;
* `Folding.reduce` — replaces the last three instructions as long as it can;
* `Folding.step` — takes in one instruction;
* `foldBlock` — all instructions of a block, with the number of replacements.
-/

namespace NeoScript

/-- The push that has the effect of two pushes and an operation; none if the first two are not
integer pushes or the machine would not compute a result. -/
def foldTriple? (policy : ArithmeticPolicy) (a b op : Instruction) : Option Instruction := do
  let x ← a.pushedInteger?
  let y ← b.pushedInteger?
  let value ← policy.evaluate op.op x y
  Instruction.smallestPush? value

/-- The state while a block is folded: the instructions so far with the last one first, the number
of replacements, and the program. -/
structure Folding where
  output : List Numbered
  folds : Nat
  program : Revision

namespace Folding

/-- The loop behind an instruction that was taken in: as long as the last three instructions are two
pushes and an operation, one push takes their place. -/
def reduce (policy : ArithmeticPolicy) : Numbered → List Numbered → Nat → Revision → Folding
  | op, b :: a :: rest, folds, program =>
      match foldTriple? policy a.2 b.2 op.2 with
      | some push =>
          let (id, program) := program.standIn push a.1
          reduce policy (id, push) rest (folds + 1) program
      | none => ⟨op :: b :: a :: rest, folds, program⟩
  | last, output, folds, program => ⟨last :: output, folds, program⟩

def step (policy : ArithmeticPolicy) (s : Folding) (entry : Numbered) : Folding :=
  reduce policy entry s.output s.folds s.program

end Folding

def foldBlock (policy : ArithmeticPolicy) (r : Revision) (ids : List InstrId) :
    List InstrId × Nat × Revision :=
  let done := (r.numbered ids).foldl (Folding.step policy) ⟨[], 0, r⟩
  ((done.output.map (·.1)).reverse, done.folds, done.program)

end NeoScript
