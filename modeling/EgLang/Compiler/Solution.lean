import EgLang.Compiler.Invocation

/-!
# Solutions

`EnumerationOperationVisitor`, and what `InvocationSolution::build` makes of the tree that a visitor has
built: it is eliminated, a second time with the explicitly named targets where the first time is
ambiguous, and its operations are analysed.
-/

namespace EgLang.Compiler

open EgLang.Library

set_option autoImplicit false

namespace Instruction
variable {ε ι : Type}

/-- Each of the instructions is the only child of the one before; the trees are the children of the
last, or stand alone. -/
def nestAll (heads : List (Head ε ι)) (ts : List (Instruction ε ι)) : List (Instruction ε ι) :=
  heads.foldr (fun head ts => [.node head ts]) ts

mutual

/-- `Instruction::getOperations`. -/
def getOperations : Instruction ε ι → List (Operation ε ι)
  | .node _ children => operationsOf children

def operationsOf : List (Instruction ε ι) → List (Operation ε ι)
  | [] => []
  | .node head children :: rest =>
    match head with
    | .operation op => op :: operationsOf rest
    | _ => getOperations (.node head children) ++ operationsOf rest

end

mutual

/-- `Instruction::setReturnTypes`: the largest number of operations of an enumeration. -/
def maxOperations : Instruction ε ι → ℕ
  | .node head children =>
    match head with
    | .enumeration .. => (operationsOf children).length
    | _ => maxOperationsOf children

def maxOperationsOf : List (Instruction ε ι) → ℕ
  | [] => 1
  | c :: cs => max (maxOperations c) (maxOperationsOf cs)

end

mutual

/-- `Instruction::setReturnTypes` and `Instruction::setMaxRanges`, on the enumerations. -/
def setRanges (returnTypes : List ι) (iMaxRanges : ℕ) : Instruction ε ι → Instruction ε ι
  | .node head children =>
    match head with
    | .enumeration pContext _ _ => .node (.enumeration pContext returnTypes iMaxRanges) children
    | _ => .node head (setRangesOf returnTypes iMaxRanges children)

def setRangesOf (returnTypes : List ι) (iMaxRanges : ℕ) :
    List (Instruction ε ι) → List (Instruction ε ι)
  | [] => []
  | c :: cs => setRanges returnTypes iMaxRanges c :: setRangesOf returnTypes iMaxRanges cs

end

end Instruction

/-- `ExplicitOperationID`. -/
inductive ExplicitOperationID
  | id_exp_Read
  | id_exp_Write
  | id_exp_Call
  | id_exp_Start
  | id_exp_Stop
  | id_exp_Pause
  | id_exp_Resume
  | id_exp_WaitAction
  | id_exp_WaitDimension
  | id_exp_GetAction
  | id_exp_GetDimension
  | id_exp_Done
  | id_exp_Range
  | id_exp_Raw
deriving DecidableEq, Repr

/-- `Operation::getExplicitOperationType`. -/
def OperationType.explicit : OperationType → ExplicitOperationID
  | .call => .id_exp_Call
  | .start => .id_exp_Start
  | .stop => .id_exp_Stop
  | .pause => .id_exp_Pause
  | .resume => .id_exp_Resume
  | .done => .id_exp_Done
  | .waitAction => .id_exp_WaitAction
  | .waitDimension => .id_exp_WaitDimension
  | .getAction => .id_exp_GetAction
  | .getDimension => .id_exp_GetDimension
  | .read => .id_exp_Read
  | .write => .id_exp_Write
  | .writeLink => .id_exp_Write
  | .range .eRaw => .id_exp_Raw
  | .range .eRange => .id_exp_Range

/-- `InvocationSolution`, as far as `build` sets it. -/
structure InvocationSolution (ι κ : Type) where
  m_pRoot : Tree ι κ
  m_returnTypes : List (Option ι)
  m_parameterTypes : List (Option ι)
  m_bDimensions : Bool
  m_explicitOperation : Option ExplicitOperationID

namespace Invocation
variable {ι κ : Type} (session : Session ι κ)

/-! ## Enumerations -/

section Enumeration
variable [DecidableEq κ] (operation : OperationID) (nodes : NameResolution.Nodes ι κ)

/-- A variable is derived for every action of a path. -/
def deriveEnum : List κ → Variable κ → ℕ →
    Option (List (Head (Option κ) (Option ι)) × Variable κ × ℕ)
  | [], pVariable, n => some ([], pVariable, n)
  | pIter :: path, pVariable, n =>
    if (session.kind pIter).isAction then
      let pInstanceVariable : Variable κ := ⟨n, some pIter⟩
      (deriveEnum path pInstanceVariable (n + 1)).map fun (heads, rest) =>
        (.enumDerivation pVariable pInstanceVariable :: heads, rest)
    else none

/-- `targetDerivation`; `none` is `false`. -/
def targetDerivation (pContext : Option κ) (pTarget : κ) (pVariable : Variable κ) (n : ℕ) :
    Option (List (Head (Option κ) (Option ι)) × Variable κ × ℕ) :=
  if pContext.all fun c => c ∈ session.tree.wayUp pTarget then
    deriveEnum session (pathTo session pContext (some pTarget)).reverse pVariable n
  else none

/-- `EnumerationOperationVisitor::buildOperation`. -/
def buildRange (current : Name ι κ) (pAction : κ) (pVariable : Variable κ) (n : ℕ) :
    Except InvocationFault (Tree ι κ × ℕ) := do
  let rangeType ←
    match operation with
    | .id_Raw => .ok RangeType.eRaw
    | .id_Range => .ok RangeType.eRange
    | _ => .error InvocationFault.unreachable
  let op : Operation (Option κ) (Option ι) :=
    ⟨n, .range rangeType, pVariable, session.asContext current.element.first, some pAction⟩
  return (.node (.operation op) [], n + 1)

/-- The loop over the children of a node, each of which may append several instructions. -/
def buildRanges (build : Name ι κ → ℕ → Except InvocationFault (List (Tree ι κ) × ℕ)) :
    List ℕ → ℕ → Except InvocationFault (List (Tree ι κ) × ℕ)
  | [], n => .ok ([], n)
  | index :: children, n =>
    match nodes[index]? with
    | none => .error .undefined
    | some next => do
      let (ts, n) ← build next n
      let (us, n) ← buildRanges build children n
      return (ts ++ us, n)

/-- `EnumerationOperationVisitor::buildEnum`, down to a depth. -/
def buildEnum : ℕ → Name ι κ → Name ι κ → Variable κ → ℕ →
    Except InvocationFault (List (Tree ι κ) × ℕ)
  | 0, _, _, _, _ => .error .undefined
  | depth + 1, prev, current, pVariable, n =>
    if current.isReference then .error .referenceInRange
    else
      match asAction session current.element.second with
      | none => .error .invalidTarget
      | some pAction =>
        match targetDerivation session prev.element.second pAction pVariable n with
        | none => .error .noEnumeration
        | some (heads, pVariable, n) =>
          if current.children = [] then do
            let (t, n) ← buildRange session operation current pAction pVariable n
            return (Instruction.nestAll heads [t], n)
          else do
            let (ts, n) ← buildRanges nodes
              (fun next n => buildEnum depth current next pVariable n) current.children n
            return (Instruction.nestAll heads ts, n)

/-- What `buildPolymorphicCase` and `buildMonoDereference` of an enumeration have in common. -/
def buildEnumeration
    (head : ReferenceVariable (Option κ) → Variable κ → Head (Option κ) (Option ι))
    (pVariable : ReferenceVariable (Option κ)) (current : Name ι κ) (n : ℕ) :
    Except InvocationFault (Tree ι κ × ℕ) := do
  let pInstance : Variable κ := ⟨n, asAction session current.element.second⟩
  let (ts, n) ← buildRanges nodes
    (fun next n => buildEnum session operation nodes nodes.length current next pInstance n)
    current.children (n + 1)
  return (.node (head pVariable pInstance)
    [.node (.enumeration pInstance [] 1) [.node .prune ts]], n)

/-- `EnumerationOperationVisitor::operator()`: the children of the root instruction. -/
def buildRangeRoot (pVariable : ReferenceVariable (Option κ)) (n : ℕ) :
    Except InvocationFault (List (Tree ι κ) × ℕ) :=
  match nodes[0]? with
  | none => .error .undefined
  | some current =>
    if pVariable.types.length > 1 then do
      let (cases, n) ← buildEach nodes
        (buildEnumeration session operation nodes .polyCase pVariable) current.children n
      return ([.node (.polyReference pVariable) cases], n)
    else
      buildEach nodes (buildEnumeration session operation nodes .monoReference pVariable)
        current.children n

end Enumeration

/-! ## The operations of a tree -/

/-- The context of an action. -/
def getContext : Option κ → Option ι
  | some e =>
    match session.kind e with
    | .action context => some context
    | _ => none
  | none => none

/-- `Operation::getReturnTypes`. -/
def returnType (op : Operation (Option κ) (Option ι)) : Option ι :=
  match op.type with
  | .write => getContext session op.pInstance.concreteType
  | .writeLink => getContext session op.pInstance.concreteType
  | _ => op.interfaceType

/-- `Operation::getParameterTypes`. -/
def parameterTypes (op : Operation (Option κ) (Option ι)) : List (Option ι) :=
  match op.type with
  | .write => [op.interfaceType]
  | .writeLink => [op.interfaceType]
  | _ => []

/-- `isOperationEnumeration`. -/
def isOperationEnumeration : OperationID → Bool
  | .id_Range => true
  | .id_Raw => true
  | _ => false

section Build
variable [DecidableEq ι] [DecidableEq κ] (operation : OperationID)

/-- `InvocationSolution::analyseReturnTypes`; the explicit operation is set afterwards. -/
def analyseReturnTypes (root : Tree ι κ) : Except InvocationFault (InvocationSolution ι κ) :=
  let operations := root.getOperations
  let returnTypes := (operations.map (returnType session)).eraseDups
  let parameterTypes := (operations.flatMap parameterTypes).eraseDups
  let root :=
    if isOperationEnumeration operation then root.setRanges returnTypes root.maxOperations else root
  let dimensions := returnTypes.filterMap (asDimension session)
  let actions := returnTypes.filterMap session.asContext
  if dimensions ≠ [] ∧ actions ≠ [] then .error .mixedReturnTypes
  else if dimensions ≠ [] then .ok ⟨root, returnTypes, parameterTypes, true, none⟩
  else if actions ≠ [] then .ok ⟨root, returnTypes, parameterTypes, false, none⟩
  else .error .noTargetTypes

/-- The elements of the last path element that are concrete: their interface type is the context of
their action. -/
def concreteTargets (last : List (ElementPair ι κ)) : List (ElementPair ι κ) :=
  last.filter fun element =>
    match session.asContext element.first with
    | some pInterfaceContext => getContext session element.second = some pInterfaceContext
    | none => false

/-- The calls and starts of the concrete targets. -/
def candidateOperations (targets : List (ElementPair ι κ))
    (operations : List (Operation (Option κ) (Option ι))) : List (Operation (Option κ) (Option ι)) :=
  operations.filter fun op =>
    (op.type = .call ∨ op.type = .start) ∧
      ∃ element ∈ targets, element.first = op.interfaceType ∧ element.second = op.concreteType

/-- What elimination has thrown. -/
def eliminated {α : Type} (r : Except EliminationFault α) : Except InvocationFault α :=
  r.mapError .elimination

/-- The second stage, for a tree that is ambiguous. -/
def disambiguate (typePath : List (List (ElementPair ι κ))) (root : Tree ι κ) :
    Except InvocationFault (InvocationSolution ι κ) :=
  let operations := root.getOperations
  let dimensions := (operations.map (returnType session)).filterMap (asDimension session)
  if dimensions ≠ [] then .error .ambiguous
  else
    match typePath.getLast? with
    | none => .error .undefined
    | some last =>
      let candidates := candidateOperations (concreteTargets session last) operations
      if candidates = [] then .error .ambiguous
      else do
        let (elimination, root) ← eliminated (root.secondStageElimination candidates)
        match elimination with
        | .eSuccess => analyseReturnTypes session operation root
        | .eFailure => .error .noDerivation
        | .eAmbiguous => .error .ambiguous

/-- The explicit operation of some operations. -/
def explicitOperation : List (Operation (Option κ) (Option ι)) → Option ExplicitOperationID →
    Except InvocationFault (Option ExplicitOperationID)
  | [], m_explicitOperation => .ok m_explicitOperation
  | op :: operations, none => explicitOperation operations (some op.type.explicit)
  | op :: operations, some opType =>
    if op.type.explicit ≠ opType then .error .conflictingOperations
    else explicitOperation operations (some opType)

/-- The tree that the visitor of an operation builds. -/
def visit (nodes : NameResolution.Nodes ι κ) (pContextVariable : ReferenceVariable (Option κ)) (n : ℕ) :
    Except InvocationFault (List (Tree ι κ)) :=
  match operation with
  | .id_Raw => (buildRangeRoot session operation nodes pContextVariable n).map Prod.fst
  | .id_Range => (buildRangeRoot session operation nodes pContextVariable n).map Prod.fst
  | .HIGHEST_OPERATION_TYPE => .ok []
  | _ => (buildGeneric session operation nodes pContextVariable n).map Prod.fst

/-- The context variable, of address 0. -/
def contextVariable (context : List (ElementPair ι κ)) : ReferenceVariable (Option κ) :=
  ⟨0, context.map ElementPair.second⟩

/-- `InvocationSolution::build`. -/
def build (context : List (ElementPair ι κ)) (typePath : List (List (ElementPair ι κ)))
    (nodes : NameResolution.Nodes ι κ) : Except InvocationFault (InvocationSolution ι κ) := do
  let pContextVariable := contextVariable context
  let children ← visit session operation nodes pContextVariable 1
  let (elimination, root) ←
    eliminated (Instruction.eliminate (.node (.root pContextVariable) children))
  let solution ←
    match elimination with
    | .eSuccess => analyseReturnTypes session operation root
    | .eFailure => .error .noDerivation
    | .eAmbiguous => disambiguate session operation typePath root
  let explicit ← explicitOperation solution.m_pRoot.getOperations none
  return { solution with m_explicitOperation := explicit }

end Build
end Invocation
end EgLang.Compiler
