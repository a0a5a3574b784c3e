import EgLang.Compiler.Instruction

/-!
# Elimination

`Instruction::eliminate` and `Instruction::secondStageElimination`: the alternatives of an
elimination or a prune group are tried, the failed ones are deleted and the successful ones are
spliced into the tree.
-/

namespace EgLang.Compiler

set_option autoImplicit false

/-- `Instruction::Elimination`. -/
inductive Elimination
  | eSuccess
  | eFailure
  | eAmbiguous
deriving DecidableEq, Repr

/-- `VERIFY_RTE` and `THROW_RTE( "Unreachable" )`. -/
inductive EliminationFault
  | verify
  | unreachable
deriving DecidableEq, Repr

namespace Elimination

/-- The failure of one child, unless another is ambiguous already. -/
def fail (e : Elimination) : Elimination :=
  if e ≠ .eAmbiguous then .eFailure else e

/-- The outcome of an ordinary child is merged into that of its parent. -/
def merge (e : Elimination) : Elimination → Elimination
  | .eSuccess => e
  | .eFailure => e.fail
  | .eAmbiguous => .eAmbiguous

end Elimination

namespace Instruction
variable {ε ι : Type}

/-- The nested instructions with one outcome, in their order. -/
def withOutcome (o : Elimination) (nested : List (Elimination × Instruction ε ι)) :
    List (Instruction ε ι) :=
  (nested.filter fun r => r.1 = o).map Prod.snd

/-- What becomes of an elimination group whose alternatives have been tried. -/
def eliminateGroup (e : Elimination) (nested : List (Elimination × Instruction ε ι)) :
    Elimination × Instruction ε ι :=
  let success := withOutcome .eSuccess nested
  let ambiguous := withOutcome .eAmbiguous nested
  if ambiguous ≠ [] ∨ success.length > 1 then
    (.eAmbiguous, .node .elimination (ambiguous ++ success))
  else
    match success with
    | [] => (e.fail, .node .elimination [])
    | pSuccess :: _ => (e, pSuccess)

/-- What becomes of a prune group whose alternatives have been tried, `size` being the number of its
parent's children: it is replaced by its successful alternatives, or it stays, empty. -/
def pruneGroup (size : ℕ) (e : Elimination) (nested : List (Elimination × Instruction ε ι)) :
    Except EliminationFault (Elimination × List (Instruction ε ι)) :=
  match withOutcome .eSuccess nested with
  | [] => .ok (.eFailure, [.node .prune []])
  | success => if size = 1 then .ok (e, success) else .error .verify

section Passes
variable (rejects : Operation ε ι → Bool)

/-- An operation that the pass fails at once. -/
def rejected : Head ε ι → Bool
  | .operation op => rejects op
  | _ => false

mutual

/-- One pass over a tree: its outcome and the tree that remains. -/
def eliminateWith : Instruction ε ι → Except EliminationFault (Elimination × Instruction ε ι)
  | .node head children =>
    if rejected rejects head then .ok (.eFailure, .node head children)
    else
      (eliminateChildren children.length .eSuccess children).map fun r => (r.1, .node head r.2)

/-- The loop over `m_children`, of which there were `size` at its start. -/
def eliminateChildren (size : ℕ) (e : Elimination) : List (Instruction ε ι) →
    Except EliminationFault (Elimination × List (Instruction ε ι))
  | [] => .ok (e, [])
  | .node head children :: rest =>
    if head.isElimination then do
      let nested ← eliminateNested false children
      let (e', child) := eliminateGroup e nested
      let (e'', rest') ← eliminateChildren size e' rest
      .ok (e'', child :: rest')
    else if head.isFailure then do
      let (e', rest') ← eliminateChildren size e.fail rest
      .ok (e', .node head children :: rest')
    else if head.isPrune then do
      let nested ← eliminateNested true children
      let (e', spliced) ← pruneGroup size e nested
      -- the source breaks where the group succeeds: there it was the only child
      let (e'', rest') ← eliminateChildren size e' rest
      .ok (e'', spliced ++ rest')
    else do
      let (nestedResult, child) ← eliminateWith (.node head children)
      let (e', rest') ← eliminateChildren size (e.merge nestedResult) rest
      .ok (e', child :: rest')

/-- The alternatives of an elimination or a prune group are tried in turn. None may be a group of the
same kind, and none of a prune group may be ambiguous. -/
def eliminateNested (pruning : Bool) : List (Instruction ε ι) →
    Except EliminationFault (List (Elimination × Instruction ε ι))
  | [] => .ok []
  | .node head children :: rest =>
    if (if pruning then head.isPrune else head.isElimination) then .error .verify
    else do
      let nestedResult ← eliminateWith (.node head children)
      if pruning ∧ nestedResult.1 = .eAmbiguous then .error .unreachable
      else do
        let rest' ← eliminateNested pruning rest
        .ok (nestedResult :: rest')

end

end Passes

/-- `Instruction::eliminate`. -/
def eliminate : Instruction ε ι → Except EliminationFault (Elimination × Instruction ε ι) :=
  eliminateWith fun _ => false

/-- `Instruction::secondStageElimination`: operations that are no candidates fail. -/
def secondStageElimination [DecidableEq ε] [DecidableEq ι]
    (candidateOperations : List (Operation ε ι)) :
    Instruction ε ι → Except EliminationFault (Elimination × Instruction ε ι) :=
  eliminateWith fun op => op ∉ candidateOperations

end Instruction
end EgLang.Compiler
