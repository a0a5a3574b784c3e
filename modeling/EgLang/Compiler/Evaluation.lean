import EgLang.Compiler.Route
import EgLang.Compiler.Solution

/-!
# Evaluating a tree

`Instruction::evaluate`, for a `RuntimeEvaluator` of which `dereferenceDimension` is a parameter, and
what a well typed tree evaluates to.
-/

namespace EgLang.Compiler

open EgLang.Library

set_option autoImplicit false

/-- What evaluation throws. -/
inductive EvaluationFault
  /-- `VERIFY_RTE` of the variables. -/
  | verify
  /-- `THROW_RTE( "Unreachable" )` -/
  | unreachable
  /-- "Error handling needed here..." -/
  | noCase
  /-- "TODO WriteLinkOperation emulation" -/
  | todo
  /-- "Unknown range type" -/
  | unknownRange
  /-- A pointer that leads nowhere. -/
  | undefined
deriving DecidableEq, Repr

/-- `RangeDescription::SubRange`. -/
structure SubRange where
  runtimeType : ℤ
  first : ℕ
  last : ℕ
deriving DecidableEq, Repr

/-- `RangeDescription`. -/
structure RangeDescription where
  ranges : List SubRange
  raw : Bool
deriving DecidableEq, Repr

/-- What an evaluator is told to do: an operation on a reference, with a type for some of them, or a
range. -/
inductive Effect
  | operation (type : OperationType) (ref : Reference) (target : Option ℤ)
  | range (description : RangeDescription)
deriving DecidableEq, Repr

namespace Evaluation
variable {ι κ : Type} (session : Session ι κ)

/-! ## Variables -/

/-- `VariableValueMap`. -/
abbrev Variables := ℕ → Option Reference

/-- `getVarValue`. -/
def getVarValue (m_variables : Variables) (pVariable : ℕ) : Except EvaluationFault Reference :=
  match m_variables pVariable with
  | some value => .ok value
  | none => .error .verify

/-- `setVarValue`. -/
def setVarValue (m_variables : Variables) (pVariable : ℕ) (value : Reference) :
    Except EvaluationFault Variables :=
  match m_variables pVariable with
  | some _ => .error .verify
  | none => .ok (Function.update m_variables pVariable (some value))

/-- An element that is looked at. -/
def pointee (e : Option κ) : Except EvaluationFault κ :=
  match e with
  | some e => .ok e
  | none => .error .undefined

/-! ## Operations -/

/-- `Operation::evaluate`, once the variable of the instance has been looked up. -/
def performWith (op : Operation (Option κ) (Option ι)) (value : Except EvaluationFault Reference) :
    Except EvaluationFault Effect :=
  let doDimension := do
    let ref ← value
    let pTarget ← pointee op.concreteType
    return .operation op.type ref (some (session.getIndex pTarget))
  let doAction := do
    let ref ← value
    return .operation op.type ref none
  match op.type with
  | .call => doDimension
  | .start => doDimension
  | .stop => doAction
  | .pause => doAction
  | .resume => doAction
  | .done => doAction
  | .waitAction => doAction
  | .waitDimension => doDimension
  | .getAction => doAction
  | .getDimension => doDimension
  | .read => doDimension
  | .write => doDimension
  | .writeLink => .error .todo
  | .range _ => .error .unreachable

/-- `Operation::evaluate` on a reference. -/
def perform (op : Operation (Option κ) (Option ι)) (ref : Reference) :
    Except EvaluationFault Effect :=
  performWith session op (.ok ref)

/-- Whether the evaluator is told the index of the target of an operation. -/
def tellsTarget : OperationType → Bool
  | .call => true
  | .start => true
  | .waitDimension => true
  | .getDimension => true
  | .read => true
  | .write => true
  | _ => false

/-- What an operation on a target tells the evaluator to do, at an instance. -/
def effectOf (type : OperationType) (pTarget : κ) (ref : Reference) : Effect :=
  .operation type ref (if tellsTarget type then some (session.getIndex pTarget) else none)

/-- An operation is done, unless it is a range or the write of a link, which has no emulation. -/
theorem perform_eq {op : Operation (Option κ) (Option ι)} {e : κ} (he : op.concreteType = some e)
    (hlink : op.type ≠ .writeLink) (hrange : ∀ rangeType, op.type ≠ .range rangeType)
    (ref : Reference) : perform session op ref = .ok (effectOf session op.type e ref) := by
  obtain ⟨address, type, pInstance, interfaceType, concreteType⟩ := op
  obtain rfl : concreteType = some e := he
  cases type with
  | writeLink => exact absurd rfl hlink
  | range rangeType => exact absurd rfl (hrange rangeType)
  | _ => rfl

/-! ## Enumerations -/

section Enumeration
variable [DecidableEq κ]

/-- The product of the local domain sizes from a target up to below the action of an enumeration. -/
def domainMultiplier (pEnumerationAction pTarget : κ) : Except EvaluationFault ℕ :=
  if pEnumerationAction ∈ session.tree.wayUp pTarget then
    .ok ((session.tree.below pEnumerationAction pTarget).map session.getLocalDomainSize).prod
  else .error .undefined

/-- The type of a range operation. -/
def rangeType (op : Operation (Option κ) (Option ι)) : Except EvaluationFault RangeType :=
  match op.type with
  | .range rangeType => .ok rangeType
  | _ => .error .undefined

/-- The type of the first operation; without operations it is raw. -/
def isRaw : List (Operation (Option κ) (Option ι)) → Except EvaluationFault Bool
  | [] => .ok true
  | op :: _ => (rangeType op).map fun rangeType => rangeType = .eRaw

/-- The range of one operation. -/
def subRange (pEnumerationAction : κ) (instance' : ℕ) (op : Operation (Option κ) (Option ι)) :
    Except EvaluationFault SubRange := do
  let pTarget ← pointee op.concreteType
  let szDomainMultiplier ← domainMultiplier session pEnumerationAction pTarget
  return ⟨session.getIndex pTarget, instance' * szDomainMultiplier,
    (instance' + 1) * szDomainMultiplier⟩

/-- `EnumerationInstruction::evaluate`. -/
def enumerate (m_variables : Variables) (pContext : Variable κ)
    (operations : List (Operation (Option κ) (Option ι))) : Except EvaluationFault Effect := do
  let raw ← isRaw operations
  let ranges ← operations.mapM fun op => do
    let pEnumerationAction ← pointee pContext.concreteType
    let value ← getVarValue m_variables pContext.address
    subRange session pEnumerationAction value.inst op
  return .range ⟨ranges, raw⟩

/-! ## Trees -/

variable (dereferenceDimension : Reference → ℤ → Reference)

mutual

/-- `Instruction::evaluate`. -/
def evaluate : Tree ι κ → Variables → Except EvaluationFault Effect
  | .node head children, m_variables =>
    match head with
    | .root _ => evaluateFront children m_variables
    | .parentDerivation pFrom pTo => do
      let fromRef ← getVarValue m_variables pFrom.address
      let fromType ← pointee pFrom.concreteType
      let toType ← pointee pTo.concreteType
      let toRef : Reference := ⟨fromRef.inst / session.getLocalDomainSize fromType,
        session.getIndex toType, fromRef.timestamp⟩
      let m_variables ← setVarValue m_variables pTo.address toRef
      evaluateFront children m_variables
    | .childDerivation pFrom pTo => do
      let fromRef ← getVarValue m_variables pFrom.address
      let toType ← pointee pTo.concreteType
      let toRef : Reference := ⟨fromRef.inst, session.getIndex toType, fromRef.timestamp⟩
      let m_variables ← setVarValue m_variables pTo.address toRef
      evaluateFront children m_variables
    | .enumDerivation _ _ => .error .unreachable
    | .enumeration pContext _ _ =>
      enumerate session m_variables pContext (Instruction.operationsOf children)
    | .failure => .error .unreachable
    | .elimination => .error .unreachable
    | .prune => .error .unreachable
    | .dimensionReferenceRead pInstance pReference pDimension => do
      let actionRef ← getVarValue m_variables pInstance.address
      let pDimension ← pointee pDimension
      let deref := dereferenceDimension actionRef (session.getIndex pDimension)
      let m_variables ← setVarValue m_variables pReference.address deref
      evaluateFront children m_variables
    | .monoReference pFrom pInstance => do
      let ref ← getVarValue m_variables pFrom.address
      let m_variables ← setVarValue m_variables pInstance.address ref
      evaluateFront children m_variables
    | .polyReference pFrom => do
      let ref ← getVarValue m_variables pFrom.address
      evaluateBranch ref children m_variables
    | .polyCase pReference pTo => do
      let ref ← getVarValue m_variables pReference.address
      let m_variables ← setVarValue m_variables pTo.address ref
      evaluateFront children m_variables
    | .operation op => performWith session op (getVarValue m_variables op.pInstance.address)

/-- `m_children.front()->evaluate`. -/
def evaluateFront : List (Tree ι κ) → Variables → Except EvaluationFault Effect
  | [], _ => .error .undefined
  | pChild :: _, m_variables => evaluate pChild m_variables

/-- The loop over the cases of a polymorphic reference. -/
def evaluateBranch (ref : Reference) :
    List (Tree ι κ) → Variables → Except EvaluationFault Effect
  | [], _ => .error .noCase
  | pChild :: children, m_variables =>
    match pChild.head with
    | .polyCase _ pTo => do
      let type ← pointee pTo.concreteType
      if session.getIndex type = ref.type then evaluate pChild m_variables
      else evaluateBranch ref children m_variables
    | _ => .error .undefined

end

/-- `InvocationSolution::evaluate`. -/
def evaluateSolution (solution : InvocationSolution ι κ) (context : Reference) :
    Except EvaluationFault Effect :=
  match solution.m_pRoot.head with
  | .root pContext => do
    let m_variables ← setVarValue (fun _ => none) pContext.address context
    evaluate session dereferenceDimension solution.m_pRoot m_variables
  | _ => .error .undefined

end Enumeration
end Evaluation
end EgLang.Compiler
