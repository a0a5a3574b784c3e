import EgLang.Sessions.Values

/-!
# Objects of the concrete tree

The classes of the concrete actions and dimensions, of the allocators, and of what has been found out
about the program: identifiers, derivation, links, translation units and the layout of its buffers.
-/

namespace EgLang.Sessions

open EgLang.Compiler.Archive EgLang.Library

set_option autoImplicit false

namespace Concrete
open Archived

structure Inheritance_Node where
  m_pRootConcreteAction : Option IndexedObject := none
  m_pContext : Option IndexedObject := none
  m_pParent : Option IndexedObject := none
  m_children : List (Option IndexedObject) := []
  m_actions : List (Option IndexedObject) := []
  m_dimensions : List (Option IndexedObject) := []

namespace Inheritance_Node

def rootConcreteAction : Member Inheritance_Node :=
  ⟨objectRef .concreteAction,
    .of m_pRootConcreteAction fun c a => { c with m_pRootConcreteAction := a }⟩

def context : Member Inheritance_Node :=
  ⟨objectRef .interfaceContext, .of m_pContext fun c a => { c with m_pContext := a }⟩

def parent : Member Inheritance_Node :=
  ⟨objectRef .inheritanceNode, .of m_pParent fun c a => { c with m_pParent := a }⟩

def children : Member Inheritance_Node :=
  ⟨objectVector .inheritanceNode, .of m_children fun c a => { c with m_children := a }⟩

def actions : Member Inheritance_Node :=
  ⟨objectVector .concreteAction, .of m_actions fun c a => { c with m_actions := a }⟩

def dimensions : Member Inheritance_Node :=
  ⟨objectVector .concreteDimension, .of m_dimensions fun c a => { c with m_dimensions := a }⟩

def load : Loads Inheritance_Node :=
  [.field rootConcreteAction, .field context, .field parent, .field children, .field actions,
    .field dimensions]

def store : Stores Inheritance_Node :=
  [rootConcreteAction, context, parent, children, actions, dimensions]

end Inheritance_Node

structure Element where
  m_pParent : Option IndexedObject := none
  m_pElement : Option IndexedObject := none
  m_children : List (Option IndexedObject) := []

namespace Element

def parent : Member Element :=
  ⟨objectRef .concreteElement, .of m_pParent fun c a => { c with m_pParent := a }⟩

def element : Member Element :=
  ⟨objectRef .interfaceElement, .of m_pElement fun c a => { c with m_pElement := a }⟩

def children : Member Element :=
  ⟨objectVector .concreteElement, .of m_children fun c a => { c with m_children := a }⟩

def load : Loads Element := [.field parent, .field element, .field children]

def store : Stores Element := [parent, element, children]

@[simp] theorem rebuild_load (c d : Element) : Record.rebuild load c d = c := rfl

end Element

structure Dimension extends Element

namespace Dimension

def element : Part Dimension Element := .of toElement fun c b => { c with toElement := b }

def load : Loads Dimension := element.load Element.load

def store : Stores Dimension := element.store Element.store

@[simp] theorem rebuild_load (c d : Dimension) : Record.rebuild load c d = c := by
  simp only [load, Record.rebuild_part, Element.rebuild_load]
  rfl

end Dimension

structure Dimension_User extends Dimension where
  m_pLinkGroup : Option IndexedObject := none

namespace Dimension_User

def dimension : Part Dimension_User Dimension :=
  .of toDimension fun c b => { c with toDimension := b }

def linkGroup : Member Dimension_User :=
  ⟨objectRef .linkGroup, .of m_pLinkGroup fun c a => { c with m_pLinkGroup := a }⟩

def load : Loads Dimension_User := dimension.load Dimension.load ++ [.field linkGroup]

def store : Stores Dimension_User := dimension.store Dimension.store ++ [linkGroup]

end Dimension_User

/-- `Dimension_Generated::DimensionType`. -/
inductive DimensionType
  | eActionStopCycle
  | eActionReference
  | eActionState
  | eActionAllocator
  | eLinkReference
  | eLinkReferenceCount
deriving DecidableEq, Repr

def dimensionType : Archived DimensionType :=
  .enumeration [.eActionStopCycle, .eActionReference, .eActionState, .eActionAllocator,
    .eLinkReference, .eLinkReferenceCount] fun e => by cases e <;> decide

/-- The constructor leaves `m_type` as it is. -/
structure Dimension_Generated extends Dimension where
  m_type : DimensionType := .eActionStopCycle
  m_pContext : Option IndexedObject := none
  m_pLinkGroup : Option IndexedObject := none

namespace Dimension_Generated

def dimension : Part Dimension_Generated Dimension :=
  .of toDimension fun c b => { c with toDimension := b }

def type : Member Dimension_Generated :=
  ⟨dimensionType, .of m_type fun c a => { c with m_type := a }⟩

def context : Member Dimension_Generated :=
  ⟨objectRef .concreteAction, .of m_pContext fun c a => { c with m_pContext := a }⟩

def linkGroup : Member Dimension_Generated :=
  ⟨objectRef .linkGroup, .of m_pLinkGroup fun c a => { c with m_pLinkGroup := a }⟩

def load : Loads Dimension_Generated :=
  dimension.load Dimension.load ++ [.field type, .field context, .field linkGroup]

def store : Stores Dimension_Generated :=
  dimension.store Dimension.store ++ [type, context, linkGroup]

end Dimension_Generated

structure Action extends Element where
  m_pObject : Option IndexedObject := none
  m_inheritance : Option IndexedObject := none
  m_pAllocator : Option IndexedObject := none
  m_strName : String := ""
  m_totalDomainSize : ℤ := 0
  m_pStopCycle : Option IndexedObject := none
  m_pState : Option IndexedObject := none
  m_pReference : Option IndexedObject := none
  m_pLinkRefCount : Option IndexedObject := none
  m_allocators : List (Option IndexedObject × Option IndexedObject) := []
  m_links : List (String × Option IndexedObject) := []

namespace Action

def element : Part Action Element := .of toElement fun c b => { c with toElement := b }

def object : Member Action :=
  ⟨objectRef .concreteAction, .of m_pObject fun c a => { c with m_pObject := a }⟩

def inheritance : Member Action :=
  ⟨objectRef .inheritanceNode, .of m_inheritance fun c a => { c with m_inheritance := a }⟩

def allocator : Member Action :=
  ⟨objectRef .allocator, .of m_pAllocator fun c a => { c with m_pAllocator := a }⟩

def name : Member Action := ⟨string, .of m_strName fun c a => { c with m_strName := a }⟩

def totalDomainSize : Member Action :=
  ⟨int, .of m_totalDomainSize fun c a => { c with m_totalDomainSize := a }⟩

def stopCycle : Member Action :=
  ⟨objectRef .concreteDimensionGenerated, .of m_pStopCycle fun c a => { c with m_pStopCycle := a }⟩

def state : Member Action :=
  ⟨objectRef .concreteDimensionGenerated, .of m_pState fun c a => { c with m_pState := a }⟩

def reference : Member Action :=
  ⟨objectRef .concreteDimensionGenerated, .of m_pReference fun c a => { c with m_pReference := a }⟩

def linkRefCount : Member Action :=
  ⟨objectRef .concreteDimensionGenerated,
    .of m_pLinkRefCount fun c a => { c with m_pLinkRefCount := a }⟩

def allocators : Member Action :=
  ⟨objectMap .concreteAction .allocator, .of m_allocators fun c a => { c with m_allocators := a }⟩

def links : Member Action :=
  ⟨keyObjectMap .concreteDimensionGenerated, .of m_links fun c a => { c with m_links := a }⟩

def load : Loads Action :=
  element.load Element.load ++ [.field object, .field inheritance, .field allocator, .field name,
    .field totalDomainSize, .field stopCycle, .field state, .field reference, .field linkRefCount,
    .field allocators, .field links]

def store : Stores Action :=
  element.store Element.store ++ [object, inheritance, allocator, name, totalDomainSize, stopCycle,
    state, reference, linkRefCount, allocators, links]

end Action

/-! ## Allocators -/

structure Allocator where
  m_pContext_Allocated : Option IndexedObject := none
  m_pContext_Allocating : Option IndexedObject := none

namespace Allocator

def allocated : Member Allocator :=
  ⟨objectRef .concreteAction,
    .of m_pContext_Allocated fun c a => { c with m_pContext_Allocated := a }⟩

def allocating : Member Allocator :=
  ⟨objectRef .concreteAction,
    .of m_pContext_Allocating fun c a => { c with m_pContext_Allocating := a }⟩

def load : Loads Allocator := [.field allocated, .field allocating]

def store : Stores Allocator := [allocated, allocating]

@[simp] theorem rebuild_load (c d : Allocator) : Record.rebuild load c d = c := rfl

end Allocator

structure NothingAllocator extends Allocator

namespace NothingAllocator

def allocator : Part NothingAllocator Allocator :=
  .of toAllocator fun c b => { c with toAllocator := b }

def load : Loads NothingAllocator := allocator.load Allocator.load

def store : Stores NothingAllocator := allocator.store Allocator.store

end NothingAllocator

structure SingletonAllocator extends Allocator

namespace SingletonAllocator

def allocator : Part SingletonAllocator Allocator :=
  .of toAllocator fun c b => { c with toAllocator := b }

def load : Loads SingletonAllocator := allocator.load Allocator.load

def store : Stores SingletonAllocator := allocator.store Allocator.store

end SingletonAllocator

structure RangeAllocator extends Allocator where
  m_pAllocatorData : Option IndexedObject := none

namespace RangeAllocator

def allocator : Part RangeAllocator Allocator :=
  .of toAllocator fun c b => { c with toAllocator := b }

def allocatorData : Member RangeAllocator :=
  ⟨objectRef .concreteDimensionGenerated,
    .of m_pAllocatorData fun c a => { c with m_pAllocatorData := a }⟩

def load : Loads RangeAllocator := allocator.load Allocator.load ++ [.field allocatorData]

def store : Stores RangeAllocator := allocator.store Allocator.store ++ [allocatorData]

end RangeAllocator

/-! ## Classes -/

def Inheritance_Node.archived : Class Inheritance_Node :=
  .ofMembers {} Inheritance_Node.store Inheritance_Node.load rfl fun _ => rfl

def Dimension_User.archived : Class Dimension_User :=
  .ofMembers {} Dimension_User.store Dimension_User.load rfl fun c => by
    simp only [load, Record.rebuild_append, Record.rebuild_part, Dimension.rebuild_load]
    rfl

def Dimension_Generated.archived : Class Dimension_Generated :=
  .ofMembers {} Dimension_Generated.store Dimension_Generated.load rfl fun c => by
    simp only [load, Record.rebuild_append, Record.rebuild_part, Dimension.rebuild_load]
    rfl

def Action.archived : Class Action := .ofMembers {} Action.store Action.load rfl fun c => by
  simp only [load, Record.rebuild_append, Record.rebuild_part, Element.rebuild_load,
    Record.rebuild_cons_field, Record.rebuild_nil, element, object, inheritance, allocator, name,
    totalDomainSize, stopCycle, state, reference, linkRefCount, allocators, links, Part.of]

def NothingAllocator.archived : Class NothingAllocator :=
  .ofMembers {} NothingAllocator.store NothingAllocator.load rfl fun _ => rfl

def SingletonAllocator.archived : Class SingletonAllocator :=
  .ofMembers {} SingletonAllocator.store SingletonAllocator.load rfl fun _ => rfl

def RangeAllocator.archived : Class RangeAllocator :=
  .ofMembers {} RangeAllocator.store RangeAllocator.load rfl fun _ => rfl

end Concrete
end EgLang.Sessions
