import EgLang.Compiler.ConcreteTree
import EgLang.Compiler.LinkGroups
import EgLang.Library.TreePaths

/-!
# Compatibility

The maps that `DerivationAnalysis` keeps of a concrete tree, the static and the dynamic types that a
context is compatible with, and what the link analysis adds to them. A concrete element is known by its
place in the tree.
-/

namespace EgLang.Compiler

open Library

set_option autoImplicit false

/-- A `concrete::Inheritance_Node`: the concrete action that the inheritance tree is for, the contexts of
the nodes above, and the tree below it. -/
structure InheritanceView (ι : Type) where
  rootConcreteAction : List ℕ
  above : List ι
  below : RoseTree ι

def InheritanceView.abstractAction {ι : Type} (node : InheritanceView ι) : ι := node.below.label

/-- `DerivationAnalysis::Compatibility`. -/
structure Compatibility (ι : Type) where
  staticCompatibleTypes : Finset ι
  staticLinkCompatibleTypes : Finset ι
  dynamicCompatibleTypes : Finset (List ℕ)
  dynamicCompatibleFromLinkTypes : Finset (List ℕ)
  dynamicCompatibleToLinkTypes : Finset (List ℕ)

abbrev CompatibilityMap (ι : Type) := ι → Option (Compatibility ι)

/-- What the analysis of a session stops with, once the concrete tree has been built. -/
inductive SessionFault
  | links (fault : LinkFault)
  | noCompatibility
  | noLinkBaseDimension
  | severalLinkBaseDimensions
  | noLinkGroup
  | noDimension
deriving DecidableEq, Repr

/-! ## The maps of a tree -/

namespace ConcreteTree
variable {ι : Type} (t : ConcreteTree ι)

/-- The inheritance nodes of all concrete actions. -/
def inheritanceNodes : List (InheritanceView ι) :=
  t.located.flatMap fun e =>
    match e.2.label with
    | .action _ inheritance =>
      ((inheritance.map InheritanceNode.context).ways []).map fun w => ⟨e.1, w.1, w.2⟩
    | .dimension _ => []

/-- `m_inheritanceMap`, each node with its concrete action. -/
def inheritanceMap : List (ι × List ℕ) :=
  (inheritanceNodes t).map fun node => (node.abstractAction, node.rootConcreteAction)

/-- `m_instanceMap`. -/
def instanceMap : List (ι × List ℕ) := t.located.map fun e => (e.2.label.element, e.1)

end ConcreteTree

section Compatibility
variable {ι : Type} [DecidableEq ι]

/-! ## Compatibility without links -/

/-- What `analyseCompatibility` takes from one inheritance node. -/
def addNode (pInterfaceAction : ι) (compatibility : Compatibility ι) (pINode : InheritanceView ι) :
    Compatibility ι :=
  if pINode.abstractAction = pInterfaceAction then
    { compatibility with
      staticCompatibleTypes := compatibility.staticCompatibleTypes ∪
        (pINode.abstractAction :: pINode.above).toFinset ∪ pINode.below.labels.toFinset
      dynamicCompatibleTypes := insert pINode.rootConcreteAction compatibility.dynamicCompatibleTypes }
  else compatibility

/-- `analyseCompatibility`. -/
def analyseCompatibility (interfaceActions : List ι) (inheritanceNodes : List (InheritanceView ι)) :
    CompatibilityMap ι := fun pInterfaceAction =>
  if pInterfaceAction ∈ interfaceActions then
    some (inheritanceNodes.foldl (addNode pInterfaceAction) ⟨∅, ∅, ∅, ∅, ∅⟩)
  else none

/-- `getCompatibility`. -/
def CompatibilityMap.getCompatibility (m : CompatibilityMap ι) (pAction : ι) : Except SessionFault (Compatibility ι) :=
  match m pAction with
  | some compatibility => .ok compatibility
  | none => .error .noCompatibility

/-- A link takes over the compatibility of its target. -/
def Compatibility.addTarget (link target : Compatibility ι) : Compatibility ι :=
  { link with
    staticLinkCompatibleTypes := link.staticLinkCompatibleTypes ∪ target.staticCompatibleTypes
    dynamicCompatibleToLinkTypes :=
      link.dynamicCompatibleToLinkTypes ∪ target.dynamicCompatibleTypes }

/-- A type that the target of a link is compatible with takes the link. -/
def Compatibility.addLink (c : Compatibility ι) (pLink : ι) (link : Compatibility ι) :
    Compatibility ι :=
  { c with
    staticLinkCompatibleTypes := insert pLink c.staticLinkCompatibleTypes
    dynamicCompatibleFromLinkTypes :=
      c.dynamicCompatibleFromLinkTypes ∪ link.dynamicCompatibleTypes }

end Compatibility

namespace Interface
variable {ι : Type} [DecidableEq ι] (I : Interface ι) (t : ConcreteTree ι)

/-- `DerivationAnalysis::getInstances`. -/
def getInstances (pElement : ι) (bDeriving : Bool) : List (List ℕ) :=
  if bDeriving && (I.getType pElement).isContext then
    (t.inheritanceMap.filter fun p => p.1 = pElement).map Prod.snd
  else
    (t.instanceMap.filter fun p => p.1 = pElement).map Prod.snd

/-! ## Compatibility with links -/

/-- What `analyseLinkCompatibility` does for one link. -/
def linkCompatibility (m : CompatibilityMap ι) (pLink : ι) :
    Except SessionFault (CompatibilityMap ι) := do
  let link ← m.getCompatibility pLink
  let pLinkTarget ← (LinkAnalysis.getLinkTarget I pLink).mapError .links
  let target ← m.getCompatibility pLinkTarget
  let m := Function.update m pLink (some (link.addTarget target))
  if ∀ pCompatibleType ∈ target.staticCompatibleTypes, (m pCompatibleType).isSome then
    return fun pCompatibleType =>
      if pCompatibleType ∈ target.staticCompatibleTypes then
        (m pCompatibleType).map fun c => c.addLink pLink link
      else m pCompatibleType
  else throw .noCompatibility

/-- `analyseLinkCompatibility`. -/
def analyseLinkCompatibility (linkGroups : List (LinkGroup ι (List ℕ))) (m : CompatibilityMap ι) :
    Except SessionFault (CompatibilityMap ι) := do
  let m ← (linkGroups.flatMap LinkGroup.links).foldlM I.linkCompatibility m
  return fun pAction => (m pAction).map fun c =>
    { c with staticLinkCompatibleTypes := c.staticLinkCompatibleTypes ∪ c.staticCompatibleTypes }

/-! ## Link analysis -/

/-- `EG_LINK_DIMENSION`. -/
def linkDimension : String := "base"

/-- `interface::Context::getLinkBaseDimension`, and the verification that there is one. -/
def getLinkBaseDimension (pContext : ι) : Except SessionFault ι :=
  match (I.collateDimensions pContext).filter fun d => I.getIdentifier d = linkDimension with
  | [] => .error .noLinkBaseDimension
  | [pDimension] => .ok pDimension
  | _ => .error .severalLinkBaseDimensions

/-- What the link analysis leaves in a session: the link groups, the user dimensions that know a link
group, and the compatibility map. -/
structure Linked (ι : Type) where
  groups : List (LinkGroup ι (List ℕ))
  linkBaseDimensions : List (List ℕ)
  compatibility : CompatibilityMap ι

/-- `InterfaceSession::linkAnalysis`. -/
def linkAnalysis : Except SessionFault (Linked ι) := do
  let groups ← (LinkAnalysis.calculateGroups I (fun c => I.getInstances t c true)
    (LinkAnalysis.calculateSets I I.contexts) I.contexts).mapError .links
  let dimensions ← (groups.flatMap LinkGroup.links).mapM I.getLinkBaseDimension
  let compatibility ← I.analyseLinkCompatibility groups
    (analyseCompatibility I.contexts t.inheritanceNodes)
  return ⟨groups, dimensions.flatMap fun d => I.getInstances t d false, compatibility⟩

end Interface
end EgLang.Compiler
