import EgLang.Sessions.InputObjects

/-!
# Objects of the interface tree

The classes of the interface tree. Every element points to the input element that it was made for; a
class that keeps this pointer once more, with the class of that element, casts it when it is loaded, and
the pointer is not a member of its own here.
-/

namespace EgLang.Sessions

open EgLang.Compiler EgLang.Compiler.Archive EgLang.Library

set_option autoImplicit false

namespace Interface
open Archived

structure Element where
  m_pElement : Option IndexedObject := none
  m_pParent : Option IndexedObject := none
  m_visibility : VisibilityType := .TOTAL_VISIBILITY_TYPES
  pIncludeIdentifier : Option IndexedObject := none
  m_children : List (Option IndexedObject) := []

namespace Element

def element : Member Element :=
  ⟨objectRef .inputElement, .of m_pElement fun c a => { c with m_pElement := a }⟩

def parent : Member Element :=
  ⟨objectRef .interfaceElement, .of m_pParent fun c a => { c with m_pParent := a }⟩

def visibility : Member Element :=
  ⟨visibilityType, .of m_visibility fun c a => { c with m_visibility := a }⟩

def includeIdentifier : Member Element :=
  ⟨objectRef .inputInclude, .of pIncludeIdentifier fun c a => { c with pIncludeIdentifier := a }⟩

def children : Member Element :=
  ⟨objectVector .interfaceElement, .of m_children fun c a => { c with m_children := a }⟩

def load : Loads Element :=
  [.field element, .field parent, .field visibility, .field includeIdentifier, .field children]

def store : Stores Element := [element, parent, visibility, includeIdentifier, children]

@[simp] theorem rebuild_load (c d : Element) : Record.rebuild load c d = c := rfl

end Element

structure Opaque extends Element

namespace Opaque

def element : Part Opaque Element := .of toElement fun c b => { c with toElement := b }

def load : Loads Opaque := element.load Element.load ++ [verifyCast (·.m_pElement) .inputOpaque]

def store : Stores Opaque := element.store Element.store

end Opaque

/-- `SIZE_NOT_SET`. -/
def SIZE_NOT_SET : ℕ := 2 ^ 64 - 1

structure Dimension extends Element where
  m_contextTypes : List (Option IndexedObject) := []
  m_canonicalType : String := ""
  m_size : ℕ := SIZE_NOT_SET
  m_simple : ℕ := SIZE_NOT_SET

namespace Dimension

def element : Part Dimension Element := .of toElement fun c b => { c with toElement := b }

def contextTypes : Member Dimension :=
  ⟨objectVector .interfaceContext, .of m_contextTypes fun c a => { c with m_contextTypes := a }⟩

def canonicalType : Member Dimension :=
  ⟨string, .of m_canonicalType fun c a => { c with m_canonicalType := a }⟩

def size : Member Dimension := ⟨Archived.size, .of m_size fun c a => { c with m_size := a }⟩

def simple : Member Dimension := ⟨Archived.size, .of m_simple fun c a => { c with m_simple := a }⟩

def load : Loads Dimension :=
  element.load Element.load ++ [verifyCast (·.m_pElement) .inputDimension, .field contextTypes,
    .field canonicalType, .field size, .field simple]

def store : Stores Dimension :=
  element.store Element.store ++ [contextTypes, canonicalType, size, simple]

end Dimension

structure Using extends Element where
  m_canonicalType : String := ""

namespace Using

def element : Part Using Element := .of toElement fun c b => { c with toElement := b }

def canonicalType : Member Using :=
  ⟨string, .of m_canonicalType fun c a => { c with m_canonicalType := a }⟩

def load : Loads Using :=
  element.load Element.load ++ [verifyCast (·.m_pElement) .inputUsing, .field canonicalType]

def store : Stores Using := element.store Element.store ++ [canonicalType]

end Using

structure Export extends Element

namespace Export

def element : Part Export Element := .of toElement fun c b => { c with toElement := b }

def load : Loads Export := element.load Element.load ++ [verifyCast (·.m_pElement) .inputExport]

def store : Stores Export := element.store Element.store

end Export

structure Include extends Element

namespace Include

def element : Part Include Element := .of toElement fun c b => { c with toElement := b }

def load : Loads Include := element.load Element.load ++ [verifyCast (·.m_pElement) .inputInclude]

def store : Stores Include := element.store Element.store

end Include

structure Context extends Element where
  m_baseContexts : List (Option IndexedObject) := []
  m_parameterTypes : List String := []
  m_size : ℕ := 1
  m_definitionFile : Option String := none
  m_bIndirectlyAbstract : Option Bool := none

namespace Context

def element : Part Context Element := .of toElement fun c b => { c with toElement := b }

def baseContexts : Member Context :=
  ⟨objectVector .interfaceContext, .of m_baseContexts fun c a => { c with m_baseContexts := a }⟩

def parameterTypes : Member Context :=
  ⟨strings, .of m_parameterTypes fun c a => { c with m_parameterTypes := a }⟩

def size : Member Context := ⟨Archived.size, .of m_size fun c a => { c with m_size := a }⟩

def definitionFile : Member Context :=
  ⟨optional string, .of m_definitionFile fun c a => { c with m_definitionFile := a }⟩

def indirectlyAbstract : Member Context :=
  ⟨optional bool, .of m_bIndirectlyAbstract fun c a => { c with m_bIndirectlyAbstract := a }⟩

def load : Loads Context :=
  element.load Element.load ++ [verifyCast (·.m_pElement) .inputContext, .field baseContexts,
    .field parameterTypes, .field size, .field definitionFile, .field indirectlyAbstract]

def store : Stores Context :=
  element.store Element.store ++
    [baseContexts, parameterTypes, size, definitionFile, indirectlyAbstract]

@[simp] theorem rebuild_load (c d : Context) : Record.rebuild load c d = c := by
  simp only [load, Record.rebuild_append, Record.rebuild_part, Element.rebuild_load]
  rfl

end Context

structure Abstract extends Context

namespace Abstract

def context : Part Abstract Context := .of toContext fun c b => { c with toContext := b }

def load : Loads Abstract := context.load Context.load

def store : Stores Abstract := context.store Context.store

end Abstract

structure Event extends Context

namespace Event

def context : Part Event Context := .of toContext fun c b => { c with toContext := b }

def load : Loads Event := context.load Context.load

def store : Stores Event := context.store Context.store

end Event

structure Function extends Context where
  m_strReturnType : String := ""

namespace Function

def context : Part Function Context := .of toContext fun c b => { c with toContext := b }

def returnType : Member Function :=
  ⟨string, .of m_strReturnType fun c a => { c with m_strReturnType := a }⟩

def load : Loads Function := context.load Context.load ++ [.field returnType]

def store : Stores Function := context.store Context.store ++ [returnType]

end Function

structure Action extends Context

namespace Action

def context : Part Action Context := .of toContext fun c b => { c with toContext := b }

def load : Loads Action := context.load Context.load

def store : Stores Action := context.store Context.store

end Action

structure Object extends Context

namespace Object

def context : Part Object Context := .of toContext fun c b => { c with toContext := b }

def load : Loads Object := context.load Context.load

def store : Stores Object := context.store Context.store

end Object

structure Link extends Context

namespace Link

def context : Part Link Context := .of toContext fun c b => { c with toContext := b }

def load : Loads Link := context.load Context.load

def store : Stores Link := context.store Context.store

end Link

structure Root extends Object where
  m_rootType : RootType := .eInterfaceRoot

namespace Root

def object : Part Root Object := .of toObject fun c b => { c with toObject := b }

def type : Member Root := ⟨rootType, .of m_rootType fun c a => { c with m_rootType := a }⟩

def load : Loads Root :=
  object.load Object.load ++ [verifyCast (·.m_pElement) .inputRoot, .field type]

def store : Stores Root := object.store Object.store ++ [type]

end Root

/-! ## Classes -/

def Opaque.archived : Class Opaque := .ofMembers {} Opaque.store Opaque.load rfl fun c => by
  simp only [load, Record.rebuild_append, Record.rebuild_part, Element.rebuild_load]
  rfl

def Dimension.archived : Class Dimension := .ofMembers {} Dimension.store Dimension.load rfl fun c => by
  simp only [load, Record.rebuild_append, Record.rebuild_part, Element.rebuild_load]
  rfl

def Using.archived : Class Using := .ofMembers {} Using.store Using.load rfl fun c => by
  simp only [load, Record.rebuild_append, Record.rebuild_part, Element.rebuild_load]
  rfl

def Export.archived : Class Export := .ofMembers {} Export.store Export.load rfl fun c => by
  simp only [load, Record.rebuild_append, Record.rebuild_part, Element.rebuild_load]
  rfl

def Include.archived : Class Include := .ofMembers {} Include.store Include.load rfl fun c => by
  simp only [load, Record.rebuild_append, Record.rebuild_part, Element.rebuild_load]
  rfl

def Abstract.archived : Class Abstract := .ofMembers {} Abstract.store Abstract.load rfl fun c => by
  simp only [load, Record.rebuild_part, Context.rebuild_load]
  rfl

def Event.archived : Class Event := .ofMembers {} Event.store Event.load rfl fun c => by
  simp only [load, Record.rebuild_part, Context.rebuild_load]
  rfl

def Function.archived : Class Function := .ofMembers {} Function.store Function.load rfl fun c => by
  simp only [load, Record.rebuild_append, Record.rebuild_part, Context.rebuild_load]
  rfl

def Action.archived : Class Action := .ofMembers {} Action.store Action.load rfl fun c => by
  simp only [load, Record.rebuild_part, Context.rebuild_load]
  rfl

def Object.archived : Class Object := .ofMembers {} Object.store Object.load rfl fun c => by
  simp only [load, Record.rebuild_part, Context.rebuild_load]
  rfl

def Link.archived : Class Link := .ofMembers {} Link.store Link.load rfl fun c => by
  simp only [load, Record.rebuild_part, Context.rebuild_load]
  rfl

def Root.archived : Class Root := .ofMembers {} Root.store Root.load rfl fun c => by
  simp only [load, Object.load, Record.rebuild_append, Record.rebuild_part, Context.rebuild_load]
  rfl

end Interface
end EgLang.Sessions
