import EgLang.Library.StepSystem
import EgLang.Library.TreePaths
import EgLang.Runtime.Program

/-! # The layout of the buffers

The concrete tree with its dimensions, and the analysis that places a data member for each of them in a
buffer of its action. An element is known by its place in the tree, and a buffer by its action and by
whether its data members are simple.
-/

namespace EgLang.Runtime
open Library
set_option autoImplicit false

/-- `Dimension_Generated::DimensionType`, that of an allocator with the identifier of the allocated action,
if there is one that has an allocator, and that of a link reference with the name of its group. -/
inductive DimensionType
  | eActionStopCycle
  | eActionReference
  | eActionState
  | eActionAllocator (pAction : Option String)
  | eLinkReference (pLinkGroup : Option String)
  | eLinkReferenceCount
deriving DecidableEq, Repr

/-- `concrete::Element`. -/
inductive Element
  | action (identifier : String) (context : ContextType) (size : ℕ)
  | dimensionUser (identifier : String) (simple : Bool)
  | dimensionGenerated (type : DimensionType)
deriving DecidableEq, Repr

namespace Element

def isAction : Element → Bool
  | action .. => true
  | _ => false

/-- `getLocalDomainSize`. -/
def size : Element → ℕ
  | action _ _ size => size
  | _ => 0

/-- The roots that may not have data members. -/
def isUpperRoot : Element → Bool
  | action _ (.root .megaRoot) _ | action _ (.root .coordinator) _ | action _ (.root .hostName) _
  | action _ (.root .subFolder) _ => true
  | _ => false

/-- `Dimension::isSimple`. -/
def isSimple : Element → Bool
  | dimensionUser _ simple => simple
  | dimensionGenerated .eActionState => false
  | _ => true

end Element

abbrev ElementTree := RoseTree Element

structure DataMember where
  dimension : List ℕ
  name : String
  simple : Bool
deriving DecidableEq, Repr

structure Buffer where
  context : List ℕ
  name : String
  variableName : String
  simple : Bool
  size : ℕ
  dataMembers : List DataMember
deriving DecidableEq, Repr

structure Layout where
  buffers : List Buffer
  dimensionMap : List (List ℕ × DataMember)
deriving DecidableEq, Repr

inductive LayoutFault
  | noAllocator
  | noLinkGroup
  | noLinkName
  /-- `Root has datamembers with root type` -/
  | rootDataMembers (names : List String)
deriving DecidableEq, Repr

/-! ## The analysis -/

/-- `generateName`, of the identifiers on a path. -/
def generateName (c : Char) (path : List String) : String :=
  String.singleton c ++ String.join (path.map ("_" ++ ·))

/-- The name of the data member of a dimension, with the base name of its action. -/
def dataMemberName (strBaseVariable : String) : Element → Except LayoutFault String
  | .action .. => .ok ""
  | .dimensionUser identifier _ => .ok (generateName 'm' [identifier])
  | .dimensionGenerated type =>
    match type with
    | .eActionStopCycle => .ok (strBaseVariable ++ "_cycle")
    | .eActionReference => .ok (strBaseVariable ++ "_reference")
    | .eActionState => .ok (strBaseVariable ++ "_state")
    | .eActionAllocator none => .error .noAllocator
    | .eActionAllocator (some identifier) =>
      .ok (strBaseVariable ++ "_" ++ identifier ++ "_allocator")
    | .eLinkReference none => .error .noLinkGroup
    | .eLinkReference (some name) =>
      if name = "" then .error .noLinkName else .ok (strBaseVariable ++ "_link_" ++ name)
    | .eLinkReferenceCount => .ok (strBaseVariable ++ "_link_ref_count")

/-- The dimensions among the children of an action, with their places. -/
def dimensionsFrom (pAction : List ℕ) (i : ℕ) : List ElementTree → List (List ℕ × Element)
  | [] => []
  | t :: ts =>
    if t.label.isAction then dimensionsFrom pAction (i + 1) ts
    else (pAction ++ [i], t.label) :: dimensionsFrom pAction (i + 1) ts

def makeDataMember (strBaseVariable : String) (pDimension : List ℕ × Element) :
    Except LayoutFault DataMember := do
  let name ← dataMemberName strBaseVariable pDimension.2
  return ⟨pDimension.1, name, pDimension.2.isSimple⟩

/-- The buffer of an action for one kind of data members, before it has any. -/
def newBuffer (pAction : List ℕ) (path : List String) (size : ℕ) (simple : Bool) : Buffer :=
  let suffix := if simple then "" else "_complex"
  ⟨pAction, generateName 'b' path ++ suffix, generateName 'g' path ++ suffix, simple, size, []⟩

def Buffer.push (b : Buffer) (pDataMember : DataMember) : Buffer :=
  { b with dataMembers := b.dataMembers ++ [pDataMember] }

/-- A data member goes into the buffer of its kind, which is made when there is none. -/
def addDataMember (new : Bool → Buffer) (buffers : List Buffer) (pDataMember : DataMember) :
    List Buffer :=
  if ∃ b ∈ buffers, b.simple = pDataMember.simple then
    buffers.map fun b => if b.simple = pDataMember.simple then b.push pDataMember else b
  else buffers ++ [(new pDataMember.simple).push pDataMember]

/-- What an action adds to the layout. -/
def layoutAction (pAction : List ℕ) (path : List String) (szSize : ℕ) (label : Element)
    (children : List ElementTree) (layout : Layout) : Except LayoutFault Layout := do
  let dataMembers ← (dimensionsFrom pAction 0 children).mapM (makeDataMember (generateName 'g' path))
  if dataMembers ≠ [] ∧ label.isUpperRoot = true then
    throw (.rootDataMembers (dataMembers.map DataMember.name))
  let buffers := dataMembers.foldl (addDataMember (newBuffer pAction path (szSize * label.size))) []
  return ⟨layout.buffers ++ buffers,
    layout.dimensionMap ++ dataMembers.map fun pDataMember => (pDataMember.dimension, pDataMember)⟩

mutual

/-- `recurseInstances`, of an action. -/
def recurseInstances (pAction : List ℕ) (path : List String) (szSize : ℕ) :
    ElementTree → Layout → Except LayoutFault Layout
  | .node label children, layout => do
    let layout ← layoutAction pAction path szSize label children layout
    recurseChildren pAction path (szSize * label.size) 0 children layout

def recurseChildren (pAction : List ℕ) (path : List String) (szSize : ℕ) (i : ℕ) :
    List ElementTree → Layout → Except LayoutFault Layout
  | [], layout => .ok layout
  | pChild :: children, layout => do
    let layout ← match pChild.label with
      | .action identifier _ _ =>
        recurseInstances (pAction ++ [i]) (path ++ [identifier]) szSize pChild layout
      | _ => .ok layout
    recurseChildren pAction path szSize (i + 1) children layout

end

/-- The concrete tree of a program: below a root that is an action stand actions, of positive sizes, and
dimensions, which have no children; what a generated dimension belongs to is there. -/
structure InstanceTree where
  root : ElementTree
  root_action : root.label.isAction = true
  dimension_leaf : ∀ s ∈ root.subtrees, s.label.isAction = false → s.children = []
  size_pos : ∀ s ∈ root.subtrees, s.label.isAction = true → 0 < s.label.size
  generated_ok : ∀ s ∈ root.subtrees, ∀ strBaseVariable,
    ∃ name, dataMemberName strBaseVariable s.label = .ok name

namespace InstanceTree
variable (p : InstanceTree)

/-- `getLocalDomainSize`, of the action at a place. -/
def getLocalDomainSize (pAction : List ℕ) : ℕ :=
  ((p.root.get? pAction).map fun s => s.label.size).getD 0

/-- `getTotalDomainSize`, with the place given from the action up to the root. -/
def totalDomainSizeUp : List ℕ → ℕ
  | [] => p.getLocalDomainSize []
  | i :: up => totalDomainSizeUp up * p.getLocalDomainSize (i :: up).reverse

/-- `getTotalDomainSize`. -/
def getTotalDomainSize (pAction : List ℕ) : ℕ := p.totalDomainSizeUp pAction.reverse

/-- `fullProgramAnalysis`. -/
def fullProgramAnalysis : Except LayoutFault Layout :=
  recurseInstances [] [] 1 p.root ⟨[], []⟩

end InstanceTree

/-- `getDataMember`. -/
def Layout.getDataMember (layout : Layout) (pDimension : List ℕ) : Option DataMember :=
  (layout.dimensionMap.find? fun e => e.1 = pDimension).map Prod.snd

end EgLang.Runtime
