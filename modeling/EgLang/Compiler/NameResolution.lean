import EgLang.Compiler.Derivation

/-!
# Name resolution

`NameResolution`: the nodes that the elements of a context and of a type path resolve to. All nodes
stand in one vector and know their children by index; the passes go over the vector, pruning goes
down from node 0.
-/

namespace EgLang.Compiler

set_option autoImplicit false

/-- `OperationID`. -/
inductive OperationID
  | id_Imp_NoParams
  | id_Imp_Params
  | id_Start
  | id_Stop
  | id_Pause
  | id_Resume
  | id_Wait
  | id_Get
  | id_Done
  | id_Range
  | id_Raw
  | HIGHEST_OPERATION_TYPE
deriving DecidableEq, Repr

/-- `Name`. -/
structure Name (ι κ : Type) where
  element : ElementPair ι κ
  isMember : Bool
  isReference : Bool
  children : List ℕ
deriving DecidableEq, Repr

/-- What name resolution throws. -/
inductive ResolutionFault
  /-- "no invocation context. " -/
  | noContext
  /-- "Cannot resolve futher element in type path after a dimension. " -/
  | afterDimension
  /-- "Invalid operation type" -/
  | invalidOperation
deriving DecidableEq, Repr

namespace NameResolution
variable {ι κ : Type}

/-- `m_nodes`. -/
abbrev Nodes (ι κ : Type) := List (Name ι κ)

def setReference (nodes : Nodes ι κ) (i : ℕ) : Nodes ι κ :=
  nodes.modify i fun node => { node with isReference := true }

def setMember (nodes : Nodes ι κ) (i : ℕ) : Nodes ι κ :=
  nodes.modify i fun node => { node with isMember := true }

def setChildren (nodes : Nodes ι κ) (i : ℕ) (children : List ℕ) : Nodes ι κ :=
  nodes.modify i fun node => { node with children := children }

/-- The membership flag of a node. -/
def memberAt (nodes : Nodes ι κ) (i : ℕ) : Bool :=
  nodes[i]?.any Name.isMember

/-- `NameResolution::add`. -/
def add (nodes : Nodes ι κ) (iParent : ℕ) (element : ElementPair ι κ)
    (bIsMember bIsReference : Bool) : Nodes ι κ :=
  let newNode : Name ι κ := ⟨element, bIsMember, bIsReference, []⟩
  (nodes ++ [newNode]).modify iParent fun node =>
    { node with children := node.children ++ [nodes.length] }

/-- One child is added for each of the elements. -/
def addAll (nodes : Nodes ι κ) (iParent : ℕ) (elements : List (ElementPair ι κ))
    (bIsMember : Bool) : Nodes ι κ :=
  elements.foldl (fun nodes element => add nodes iParent element bIsMember false) nodes

section Analysis
variable [LinearOrder ι] [LinearOrder κ] (analysis : DerivationAnalysis ι κ)

/-! ## Reference expansion -/

/-- A leaf that is a reference dimension. -/
def isOpen (node : Name ι κ) : Bool :=
  node.children = [] && analysis.isEGType node.element.second

/-- One node of a pass of `expandReferences`: a leaf that is a reference dimension gets the instances
of its context types as children, and `bContinue` is set. -/
def expandNode (s : Nodes ι κ × Bool) (iNodeID : ℕ) : Nodes ι κ × Bool :=
  match s.1[iNodeID]? with
  | some node =>
    if isOpen analysis node then
      let elements := analysis.getElementVector (analysis.getContextTypes node.element.second) true
      (addAll (setReference s.1 iNodeID) iNodeID elements false, true)
    else s
  | none => s

/-- One pass over the vector, as long as it was at its start. -/
def expandPass (nodes : Nodes ι κ) : Nodes ι κ × Bool :=
  (List.range nodes.length).foldl (expandNode analysis) (nodes, false)

/-- `NameResolution::expandReferences`: passes are made until one does not set `bContinue`. -/
def expandReferences : ℕ → Nodes ι κ → Option (Nodes ι κ)
  | 0, _ => none
  | fuel + 1, nodes =>
    let (nodes', bContinue) := expandPass analysis nodes
    if bContinue then expandReferences fuel nodes' else some nodes'

/-! ## A path element -/

/-- The children that a leaf gets for a path element: the members of its action, or, where there are
none, all of them as non-members. -/
def addMatches (pathElement : List (ElementPair ι κ)) (nodes : Nodes ι κ) (iNodeID : ℕ)
    (pAction : Option κ) : Nodes ι κ :=
  let results := ElementPair.toSet (pathElement.filter fun element =>
    analysis.isMember pAction element.second)
  if results ≠ [] then addAll nodes iNodeID results true
  else addAll nodes iNodeID pathElement false

/-- One node of `addType`. -/
def addTypeNode (pathElement : List (ElementPair ι κ)) (nodes : Nodes ι κ) (iNodeID : ℕ) :
    Except ResolutionFault (Nodes ι κ) :=
  match nodes[iNodeID]? with
  | some node =>
    if node.children = [] then
      if analysis.isAction node.element.second then
        .ok (addMatches analysis pathElement nodes iNodeID node.element.second)
      else .error .afterDimension
    else .ok nodes
  | none => .ok nodes

/-- `NameResolution::addType`. -/
def addType (pathElement : List (ElementPair ι κ)) (nodes : Nodes ι κ) :
    Except ResolutionFault (Nodes ι κ) :=
  (List.range nodes.length).foldlM (addTypeNode analysis pathElement) nodes

end Analysis

/-! ## Pruning -/

/-- A child of a reference node has been pruned: its parent is a member if it is one. -/
def noteMember (i : ℕ) (nodes : Nodes ι κ) (index : ℕ) : Nodes ι κ :=
  if memberAt nodes index then setMember nodes i else nodes

/-- A child of a node that is no reference has been pruned: it is one of the best, or it is to be
removed. -/
def noteBest (s : Nodes ι κ × List ℕ × Bool) (index : ℕ) : Nodes ι κ × List ℕ × Bool :=
  if memberAt s.1 index then (s.1, s.2.1 ++ [index], s.2.2) else (s.1, s.2.1, true)

/-- A node that is no reference keeps its best children, if there are any. -/
def keepBest (i : ℕ) (s : Nodes ι κ × List ℕ × Bool) : Nodes ι κ :=
  if s.2.1 ≠ [] then
    let nodes := setMember s.1 i
    if s.2.2 then setChildren nodes i s.2.1 else nodes
  else s.1

/-- `NameResolution::pruneBranches`, down to a depth. -/
def pruneBranches : ℕ → Nodes ι κ → ℕ → Nodes ι κ
  | 0, nodes, _ => nodes
  | depth + 1, nodes, i =>
    match nodes[i]? with
    | none => nodes
    | some node =>
      if node.children = [] then nodes
      else if node.isReference then
        if node.isMember then nodes
        else
          node.children.foldl (fun nodes index =>
            noteMember i (pruneBranches depth nodes index) index) nodes
      else
        keepBest i (node.children.foldl (fun s index =>
          noteBest (pruneBranches depth s.1 index, s.2) index) (nodes, [], false))

/-- `pruneBranches( &m_nodes[ 0 ] )`: no way down is longer than the vector. -/
def pruneRoot (nodes : Nodes ι κ) : Nodes ι κ :=
  pruneBranches nodes.length nodes 0

/-! ## Resolution -/

section Resolve
variable [LinearOrder ι] [LinearOrder κ] (analysis : DerivationAnalysis ι κ) (fuel : ℕ)

/-- The nodes that resolution starts from. -/
def start (context : List (ElementPair ι κ)) : Nodes ι κ :=
  addAll [⟨⟨none, none⟩, false, true, []⟩] 0 context false

/-- The loop over the type path; `none` is the loop of `expandReferences` not having ended. -/
def resolvePath : List (List (ElementPair ι κ)) → Nodes ι κ →
    Option (Except ResolutionFault (Nodes ι κ))
  | [], nodes => some (.ok nodes)
  | pathElement :: typePath, nodes =>
    match expandReferences analysis fuel nodes with
    | none => none
    | some nodes =>
      match addType analysis pathElement nodes with
      | .error e => some (.error e)
      | .ok nodes => resolvePath typePath (pruneRoot nodes)

/-- What follows the type path. -/
def resolveFinal (bExpandFinalReferences : Bool) (nodes : Nodes ι κ) :
    Option (Except ResolutionFault (Nodes ι κ)) :=
  if bExpandFinalReferences then
    (expandReferences analysis fuel nodes).map fun nodes => .ok (pruneRoot nodes)
  else some (.ok nodes)

/-- `NameResolution::resolve`. -/
def resolve (context : List (ElementPair ι κ)) (typePath : List (List (ElementPair ι κ)))
    (bExpandFinalReferences : Bool) : Option (Except ResolutionFault (Nodes ι κ)) :=
  match resolvePath analysis fuel typePath (start context) with
  | some (.ok nodes) => resolveFinal analysis fuel bExpandFinalReferences nodes
  | stopped => stopped

/-- The constructor of `NameResolution`. -/
def nameResolution (operation : OperationID) (context : List (ElementPair ι κ))
    (typePath : List (List (ElementPair ι κ))) : Option (Except ResolutionFault (Nodes ι κ)) :=
  if context = [] then some (.error .noContext)
  else
    match operation with
    | .HIGHEST_OPERATION_TYPE => some (.error .invalidOperation)
    | .id_Done => resolve analysis fuel context typePath true
    | _ => resolve analysis fuel context typePath false

end Resolve
end NameResolution
end EgLang.Compiler
