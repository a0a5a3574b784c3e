import EgLang.Compiler.Interface
import EgLang.Library.Unfolding

/-!
# Instance analysis

`InterfaceSession::instanceAnalysis` as far as it builds the concrete tree: every concrete action gets
the tree of the contexts that its context inherits, and one child for each identifier that is declared
in it; an inheritance node leads from the members of its own context to these children.
-/

namespace EgLang.Compiler

open Library

set_option autoImplicit false

/-- What the analysis stops with; the first when the recursion has no fuel left. -/
inductive InstanceFault
  | unfinished
  | linkInherited
  | constructedTwice
  | notConstructed
deriving DecidableEq, Repr

/-- `concrete::Inheritance_Node`, with the places of its members among the children of the concrete
action. -/
structure InheritanceNode (ι : Type) where
  context : ι
  actions : List ℕ
  dimensions : List ℕ

/-- Of which class a concrete element is; there is a map from identifiers to children for each. -/
inductive MemberKind
  | action
  | dimension
deriving DecidableEq, Repr

/-- The places of the members of one kind. -/
def InheritanceNode.places {ι : Type} (node : InheritanceNode ι) : MemberKind → List ℕ
  | .action => node.actions
  | .dimension => node.dimensions

/-- `concrete::Element`, without its children. -/
inductive Concrete (ι : Type)
  | action (context : ι) (inheritance : RoseTree (InheritanceNode ι))
  | dimension (element : ι)

namespace Concrete
variable {ι : Type}

/-- `concrete::Element::getAbstractElement`. -/
def element : Concrete ι → ι
  | action c _ => c
  | dimension e => e

def kind : Concrete ι → MemberKind
  | action _ _ => .action
  | dimension _ => .dimension

end Concrete

abbrev ConcreteTree (ι : Type) := RoseTree (Concrete ι)

namespace ElementType

/-- The elements that `collateChildren` takes for actions; an object is none. -/
def isMemberAction : ElementType → Bool
  | eAbstractAbstract | eAbstractEvent | eAbstractFunction | eAbstractAction | eAbstractLink
  | eAbstractRoot _ => true
  | _ => false

/-- The roots that the objects below them are hoisted to. -/
def isObjectRoot : ElementType → Bool
  | eAbstractRoot .eFileRoot | eAbstractRoot .eProjectName => true
  | _ => false

theorem isContext_of_isMemberAction {t : ElementType} (h : t.isMemberAction = true) :
    t.isContext = true := by
  cases t <;> first | rfl | cases h

end ElementType

/-- What one call of `constructInstance` keeps while it collates the overrides: the elements that a
child has been made from, the maps `ActionOverrideMap` and `DimensionOverrideMap` from an identifier to
the place of its child, and the objects of which there is a concrete action already. -/
structure Overrides (ι : Type) where
  children : List ι
  instances : MemberKind → String → Option ℕ
  constructedObjects : List ι

namespace Interface
variable {ι : Type} (I : Interface ι)

/-! ## Inheritance trees -/

/-- `constructInheritanceTree`. -/
def constructInheritanceTree : ℕ → ι → Except InstanceFault (RoseTree ι)
  | 0, _ => .error .unfinished
  | fuel + 1, pAbstractAction =>
    if (I.getType pAbstractAction).isLink || (I.getType pAbstractAction).isFunction then
      return .node pAbstractAction []
    else do
      let children ← (I.getBaseContexts pAbstractAction).mapM fun pBaseAbstractAction =>
        if (I.getType pBaseAbstractAction).isLink then .error .linkInherited
        else constructInheritanceTree fuel pBaseAbstractAction
      return .node pAbstractAction children

/-! ## Members -/

/-- The actions that `collateChildren` yields. -/
def collateActions (pAction : ι) : List ι :=
  (I.getChildren pAction).filter fun e => (I.getType e).isMemberAction

/-- The dimensions that `collateChildren` yields. -/
def collateDimensions (pAction : ι) : List ι :=
  (I.getChildren pAction).filter fun e => I.getType e = .eAbstractDimension

/-- The members that become children, those of one kind. -/
def members : MemberKind → ι → List ι
  | .action, pAction => (I.collateActions pAction).filter fun e => !(I.getType e).isAbstract
  | .dimension, pAction => I.collateDimensions pAction

/-- The contexts around an element, the element first. -/
def enclosing : ℕ → ι → List ι
  | 0, e => [e]
  | n + 1, e =>
    match I.getParent e with
    | none => [e]
    | some p => if (I.getType p).isContext then e :: enclosing n p else [e]

variable [DecidableEq ι]

/-- The list `objects` of the analysis. -/
def allObjects (pActionRoot : ι) : List ι :=
  I.objects.filter fun e =>
    (I.getType e).isObject && decide (e ≠ pActionRoot) && !(I.getType e).isRoot

/-- The objects that get a concrete action below one of the context. -/
def hoisted (objects : List ι) (pRoot : ι) : List ι :=
  if (I.getType pRoot).isObjectRoot then
    objects.filter fun pObject => pRoot ∈ I.enclosing (I.depth pObject) pObject
  else []

/-! ## Overrides -/

/-- A child is made from an element; an entry that its identifier has already stays. -/
def makeChild (kind : MemberKind) (st : Overrides ι) (e : ι) : Overrides ι :=
  { st with
    children := st.children ++ [e]
    instances := fun k s =>
      if k = kind ∧ s = I.getIdentifier e ∧ st.instances k s = none then some st.children.length
      else st.instances k s }

def constructObject (st : Overrides ι) (pObject : ι) : Except InstanceFault (Overrides ι × ℕ) :=
  if pObject ∈ st.constructedObjects then .error .constructedTwice
  else
    .ok ({ I.makeChild .action st pObject with
      constructedObjects := pObject :: st.constructedObjects }, st.children.length)

def constructMember (kind : MemberKind) (st : Overrides ι) (e : ι) :
    Except InstanceFault (Overrides ι × ℕ) :=
  match st.instances kind (I.getIdentifier e) with
  | some i => .ok (st, i)
  | none => .ok (I.makeChild kind st e, st.children.length)

/-- `collateOverrides` at one inheritance node; the objects are those hoisted to the context of the
instance. -/
def collateNode (objects : List ι) (st : Overrides ι) (pContext : ι) :
    Except InstanceFault (Overrides ι × InheritanceNode ι) := do
  let hoisted ← threadM I.constructObject objects st
  let actions ← threadM (I.constructMember .action) (I.members .action pContext) hoisted.1
  let dimensions ← threadM (I.constructMember .dimension) (I.members .dimension pContext) actions.1
  return (dimensions.1, ⟨pContext, hoisted.2 ++ actions.2, dimensions.2⟩)

/-- `collateOverrides`. -/
def collateOverrides (objects : List ι) :
    RoseTree ι → Overrides ι → Except InstanceFault (Overrides ι × RoseTree (InheritanceNode ι)) :=
  RoseTree.fold fun pContext children st => do
    let node ← I.collateNode objects st pContext
    let nodes ← threadM (fun st collate => collate st) children node.1
    return (nodes.1, .node node.2 nodes.2)

/-! ## Instances -/

/-- A child of an instance: an action is constructed in turn. -/
def constructChild (construct : List ι → ι → Except InstanceFault (List ι × ConcreteTree ι))
    (constructedObjects : List ι) (e : ι) : Except InstanceFault (List ι × ConcreteTree ι) :=
  if (I.getType e).isContext then construct constructedObjects e
  else .ok (constructedObjects, .node (.dimension e) [])

/-- `constructInstance`, which threads the set of constructed objects through. -/
def constructInstance (objects : List ι) :
    ℕ → List ι → ι → Except InstanceFault (List ι × ConcreteTree ι)
  | 0, _, _ => .error .unfinished
  | fuel + 1, constructedObjects, pContext => do
    let inheritance ← I.constructInheritanceTree (fuel + 1) pContext
    let overrides ← I.collateOverrides (I.hoisted objects pContext) inheritance
      ⟨[], fun _ _ => none, constructedObjects⟩
    let children ← threadM (I.constructChild (constructInstance objects fuel))
      overrides.1.children overrides.1.constructedObjects
    return (children.1, .node (.action pContext overrides.2) children.2)

/-- `instanceAnalysis`, as far as the concrete tree. -/
def instanceAnalysis (pActionRoot : ι) (fuel : ℕ) : Except InstanceFault (ConcreteTree ι) := do
  let instances ← I.constructInstance (I.allObjects pActionRoot) fuel [] pActionRoot
  if (I.allObjects pActionRoot).length = instances.1.length then return instances.2
  else .error .notConstructed

end Interface
end EgLang.Compiler
