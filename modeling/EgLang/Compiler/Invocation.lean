import EgLang.Compiler.Elimination
import EgLang.Compiler.NameResolution
import EgLang.Compiler.Session

/-!
# Building an invocation

`InvocationSolution::build`: the instruction tree for the nodes a type path has resolved to. The
visitors give every variable and operation they make an address of its own; a null element is `none`.
-/

namespace EgLang.Compiler

open EgLang.Library

set_option autoImplicit false

/-- What building an invocation throws. -/
inductive InvocationFault
  /-- "Invalid invocation operation on dimension: " -/
  | invalidOperation
  /-- "Invalid invocation target: " -/
  | invalidTarget
  /-- "Cannot have reference in range invocation type path: " -/
  | referenceInRange
  /-- "Enumeration has no derivation: " -/
  | noEnumeration
  /-- "No possible derivation for: " -/
  | noDerivation
  /-- "Ambiguous derivation for: " -/
  | ambiguous
  /-- "Mixed dimension and action invocation return types: " -/
  | mixedReturnTypes
  /-- "Invocation could not resolve target types: " -/
  | noTargetTypes
  /-- "Conflicting operation types: " -/
  | conflictingOperations
  /-- `THROW_RTE( "Unreachable" )` -/
  | unreachable
  /-- What elimination throws. -/
  | elimination (e : EliminationFault)
  /-- An index or a pointer that leads nowhere. -/
  | undefined
deriving DecidableEq, Repr

/-- Instance variables of a program. -/
abbrev Variable (κ : Type) := InstanceVariable (Option κ)

/-- Instruction trees of a program. -/
abbrev Tree (ι κ : Type) := Instruction (Option κ) (Option ι)

/-- Each of the instructions is the only child of the one before; the tree is that of the last. -/
def Instruction.nest {ε ι : Type} (heads : List (Head ε ι)) (t : Instruction ε ι) :
    Instruction ε ι :=
  heads.foldr (fun head t => .node head [t]) t

namespace Invocation
variable {ι κ : Type} (session : Session ι κ)

/-! ## Derivations -/

/-- One derivation: of the parent, of a child whose local domain size is one, or none. -/
inductive Step (κ : Type)
  | parent (pParent : Option κ)
  | child (pAction : κ)
  | failure
deriving DecidableEq, Repr

section Derivation
variable [DecidableEq κ]

/-- `findCommonRoot`. -/
def findCommonRoot (pLeft pRight : Option κ) : Option κ :=
  if pLeft = pRight then pLeft
  else
    let left := (pLeft.map session.tree.path).getD []
    let right := (pRight.map session.tree.path).getD []
    Hierarchy.lastCommon left right

/-- From an element up to below the common root, or up to the root, if there is none. -/
def pathTo (pCommon : Option κ) (pElement : Option κ) : List κ :=
  ((pElement.map session.tree.wayUp).getD []).takeWhile fun e => some e ≠ pCommon

/-- The steps down a path: they end at an action whose local domain size is not one. -/
def childSteps : List κ → Except InvocationFault (List (Step κ))
  | [] => .ok []
  | pIter :: path =>
    match session.kind pIter with
    | .action _ =>
      if session.getLocalDomainSize pIter ≠ 1 then .ok [.failure]
      else (childSteps path).map (Step.child pIter :: ·)
    -- the variable of the parent is the one that is wanted
    | .userDimension _ => childSteps path
    | .generatedDimension => .error .unreachable

/-- The steps of `commonRootDerivation`. -/
def commonRootSteps (pFrom pTo : Option κ) : Except InvocationFault (List (Step κ)) :=
  if pFrom ≠ none ∧ pFrom ≠ pTo then
    let pCommon := findCommonRoot session pFrom pTo
    let parents := (pathTo session pCommon pFrom).map fun e => Step.parent (session.getParent e)
    (childSteps session (pathTo session pCommon pTo).reverse).map (parents ++ ·)
  else .ok []

/-- The instructions of some steps, each of which makes a variable, from the address `n` on. -/
def derive : List (Step κ) → Variable κ → ℕ → List (Head (Option κ) (Option ι)) × Variable κ × ℕ
  | [], pVariable, n => ([], pVariable, n)
  | .parent pParent :: steps, pVariable, n =>
    let pInstanceVariable : Variable κ := ⟨n, pParent⟩
    let (heads, rest) := derive steps pInstanceVariable (n + 1)
    (.parentDerivation pVariable pInstanceVariable :: heads, rest)
  | .child pAction :: steps, pVariable, n =>
    let pInstanceVariable : Variable κ := ⟨n, some pAction⟩
    let (heads, rest) := derive steps pInstanceVariable (n + 1)
    (.childDerivation pVariable pInstanceVariable :: heads, rest)
  | .failure :: _, pVariable, n => ([.failure], pVariable, n)

/-- `commonRootDerivation`: the instructions, the last variable and the next address. -/
def commonRootDerivation (pFrom pTo : Option κ) (pVariable : Variable κ) (n : ℕ) :
    Except InvocationFault (List (Head (Option κ) (Option ι)) × Variable κ × ℕ) :=
  (commonRootSteps session pFrom pTo).map fun steps => derive steps pVariable n

end Derivation

/-! ## Operations -/

/-- A pointer to a dimension of the interface. -/
def asDimension (e : Option ι) : Option ι := e.filter session.isDimension

/-- The operation on an action, and whether it is applied to its parent. -/
def actionOperation : OperationID → Except InvocationFault (OperationType × Bool)
  | .id_Imp_NoParams => .ok (.call, true)
  | .id_Imp_Params => .ok (.call, true)
  | .id_Start => .ok (.start, true)
  | .id_Stop => .ok (.stop, false)
  | .id_Pause => .ok (.pause, false)
  | .id_Resume => .ok (.resume, false)
  | .id_Wait => .ok (.waitAction, false)
  | .id_Get => .ok (.getAction, false)
  | .id_Done => .ok (.done, false)
  | _ => .error .unreachable

/-- The operation on a dimension. -/
def dimensionOperation (pUserDimension : κ) : OperationID → Except InvocationFault OperationType
  | .id_Imp_NoParams => .ok .read
  | .id_Imp_Params => .ok (if session.hasLinkGroup pUserDimension then .writeLink else .write)
  | .id_Get => .ok .getDimension
  | .id_Wait => .ok .waitDimension
  | .id_Start => .error .invalidOperation
  | .id_Stop => .error .invalidOperation
  | .id_Pause => .error .invalidOperation
  | .id_Resume => .error .invalidOperation
  | .id_Done => .error .invalidOperation
  | _ => .error .unreachable

section Builders
variable [DecidableEq κ] (operation : OperationID)

/-- `GenericOperationVisitor::buildOperation`. -/
def buildOperation (prev current : Name ι κ) (pInstanceVariable : Variable κ) (n : ℕ) :
    Except InvocationFault (Tree ι κ × ℕ) :=
  match current.element.second with
  | none => .error .invalidTarget
  | some pElement =>
    match session.kind pElement with
    | .action _ => do
      let (type, onParent) ← actionOperation operation
      let pTo := if onParent then session.getParent pElement else some pElement
      let (heads, pInstanceVariable, n) ←
        commonRootDerivation session prev.element.second pTo pInstanceVariable n
      let pInterfaceAction := session.asContext current.element.first
      let op : Operation (Option κ) (Option ι) :=
        ⟨n, type, pInstanceVariable, pInterfaceAction, some pElement⟩
      return (.nest heads (.node (.operation op) []), n + 1)
    | .userDimension _ => do
      let (heads, pInstanceVariable, n) ←
        commonRootDerivation session prev.element.second (some pElement) pInstanceVariable n
      let pInterfaceDimension := asDimension session current.element.first
      let type ← dimensionOperation session pElement operation
      let op : Operation (Option κ) (Option ι) :=
        ⟨n, type, pInstanceVariable, pInterfaceDimension, some pElement⟩
      return (.nest heads (.node (.operation op) []), n + 1)
    | .generatedDimension => .error .invalidTarget

/-! ## The builders -/

variable (nodes : NameResolution.Nodes ι κ)

/-- The loop over the children of a node. -/
def buildEach (build : Name ι κ → ℕ → Except InvocationFault (Tree ι κ × ℕ)) :
    List ℕ → ℕ → Except InvocationFault (List (Tree ι κ) × ℕ)
  | [], n => .ok ([], n)
  | index :: children, n =>
    match nodes[index]? with
    | none => .error .undefined
    | some next => do
      let (t, n) ← build next n
      let (ts, n) ← buildEach build children n
      return (t :: ts, n)

/-- The loop over the children of a node, in an elimination group if there are several. -/
def buildAlternatives (build : Name ι κ → ℕ → Except InvocationFault (Tree ι κ × ℕ))
    (current : Name ι κ) (n : ℕ) : Except InvocationFault (List (Tree ι κ) × ℕ) := do
  let (ts, n) ← buildEach nodes build current.children n
  if current.children.length > 1 then return ([.node .elimination ts], n) else return (ts, n)

/-- `dynamic_cast< const concrete::Action* >`. -/
def asAction (e : Option κ) : Option κ := e.filter fun a => (session.kind a).isAction

/-- `dynamic_cast< const concrete::Dimension* >`. -/
def asDimensionElement (e : Option κ) : Option κ := e.filter fun a => !(session.kind a).isAction

section Dereference
variable (build : Name ι κ → Name ι κ → Variable κ → ℕ → Except InvocationFault (Tree ι κ × ℕ))

/-- What `buildPolymorphicCase` and `buildMonoDereference` have in common: `build` is
`buildGenerateName`. -/
def buildDereference
    (head : ReferenceVariable (Option κ) → Variable κ → Head (Option κ) (Option ι))
    (pVariable : ReferenceVariable (Option κ)) (prev current : Name ι κ) (n : ℕ) :
    Except InvocationFault (Tree ι κ × ℕ) := do
  let pInstance : Variable κ := ⟨n, asAction session current.element.second⟩
  if current.children = [] then
    let (t, n) ← buildOperation session operation prev current pInstance (n + 1)
    return (.node (head pVariable pInstance) [t], n)
  else
    let (ts, n) ←
      buildAlternatives nodes (fun next n => build current next pInstance n) current (n + 1)
    return (.node (head pVariable pInstance) ts, n)

/-- `GenericOperationVisitor::buildPolymorphicCase`. -/
def buildPolymorphicCase := buildDereference session operation nodes build .polyCase

/-- `GenericOperationVisitor::buildMonoDereference`. -/
def buildMonoDereference := buildDereference session operation nodes build .monoReference

/-- `GenericOperationVisitor::buildDimensionReference`. -/
def buildDimensionReference (current : Name ι κ) (pVariable : Variable κ) (n : ℕ) :
    Except InvocationFault (Tree ι κ × ℕ) := do
  let types := current.children.map fun index => nodes[index]?.bind fun next => next.element.second
  let pReferenceVariable : ReferenceVariable (Option κ) := ⟨n, types⟩
  let pDimension := asDimensionElement session current.element.second
  let read := Head.dimensionReferenceRead pVariable pReferenceVariable pDimension
  if types.length > 1 then
    let (cases, n) ← buildEach nodes
      (buildPolymorphicCase session operation nodes build pReferenceVariable current)
      current.children (n + 1)
    return (.node read [.node (.polyReference pReferenceVariable) cases], n)
  else
    let (ts, n) ← buildEach nodes
      (buildMonoDereference session operation nodes build pReferenceVariable current)
      current.children (n + 1)
    return (.node read ts, n)

end Dereference

/-- `GenericOperationVisitor::buildGenerateName`, down to a depth. -/
def buildGenerateName : ℕ → Name ι κ → Name ι κ → Variable κ → ℕ →
    Except InvocationFault (Tree ι κ × ℕ)
  | 0, _, _, _, _ => .error .undefined
  | depth + 1, prev, current, pVariable, n =>
    if current.children = [] then buildOperation session operation prev current pVariable n
    else do
      let (heads, pVariable, n) ←
        commonRootDerivation session prev.element.second current.element.second pVariable n
      if current.isReference then
        let (t, n) ←
          buildDimensionReference session operation nodes (buildGenerateName depth) current pVariable n
        return (.nest heads t, n)
      else
        -- the instructions below are appended to the last one of the derivation
        let (ts, n) ← buildAlternatives nodes
          (fun next n => buildGenerateName depth current next pVariable n) current n
        match ts with
        | [t] => return (.nest heads t, n)
        | _ => .error .undefined

/-- `GenericOperationVisitor::operator()`: the children of the root instruction. -/
def buildGeneric (pVariable : ReferenceVariable (Option κ)) (n : ℕ) :
    Except InvocationFault (List (Tree ι κ) × ℕ) :=
  let build := buildGenerateName session operation nodes nodes.length
  match nodes[0]? with
  | none => .error .undefined
  | some current =>
    if pVariable.types.length > 1 then do
      let (cases, n) ← buildEach nodes
        (buildPolymorphicCase session operation nodes build pVariable current) current.children n
      return ([.node (.polyReference pVariable) cases], n)
    else
      buildEach nodes (buildMonoDereference session operation nodes build pVariable current)
        current.children n

end Builders
end Invocation
end EgLang.Compiler
