import EgLang.Compiler.Interface
import EgLang.Sessions.Values

/-!
# Objects of the input tree

What the parser makes: for each class its members, and what `load` and `store` of the class do, in the
order in which they do it. An object is created with the values that its constructor gives the members.
-/

namespace EgLang.Sessions

open EgLang.Compiler EgLang.Compiler.Archive EgLang.Library

set_option autoImplicit false

/-! ## Enumerations -/

inductive VisibilityType
  | eVisPublic
  | eVisPrivate
  | TOTAL_VISIBILITY_TYPES
deriving DecidableEq, Repr

/-- `Context::ContextType`. -/
inductive ContextType
  | eUnknown
  | eAbstract
  | eEvent
  | eFunction
  | eAction
  | eLink
  | eObject
deriving DecidableEq, Repr

namespace Archived

def visibilityType : Archived VisibilityType :=
  .enumeration [.eVisPublic, .eVisPrivate, .TOTAL_VISIBILITY_TYPES] fun e => by cases e <;> decide

def contextType : Archived ContextType :=
  .enumeration [.eUnknown, .eAbstract, .eEvent, .eFunction, .eAction, .eLink, .eObject] fun e => by
    cases e <;> decide

def rootType : Archived RootType :=
  .enumeration [.eInterfaceRoot, .eFile, .eFileRoot, .eMegaRoot, .eCoordinator, .eHostName,
    .eProjectName, .eSubFolder] fun e => by cases e <;> decide

end Archived

namespace Input
open Archived

/-! ## Utility classes -/

structure HasIdentifier where
  m_strIdentifier : String := ""

namespace HasIdentifier

def identifier : Member HasIdentifier := ⟨string, .of m_strIdentifier fun _ a => ⟨a⟩⟩

def load : Loads HasIdentifier := [.field identifier]

def store : Stores HasIdentifier := [identifier]

@[simp] theorem rebuild_load (c d : HasIdentifier) : Record.rebuild load c d = c := rfl

end HasIdentifier

structure HasConst where
  m_bIsConst : Bool := false

namespace HasConst

def isConst : Member HasConst := ⟨bool, .of m_bIsConst fun _ a => ⟨a⟩⟩

def load : Loads HasConst := [.field isConst]

def store : Stores HasConst := [isConst]

@[simp] theorem rebuild_load (c d : HasConst) : Record.rebuild load c d = c := rfl

end HasConst

structure HasChildren where
  m_elements : List (Option IndexedObject) := []

namespace HasChildren

def elements : Member HasChildren := ⟨objectVector .inputElement, .of m_elements fun _ a => ⟨a⟩⟩

def load : Loads HasChildren := [.field elements]

def store : Stores HasChildren := [elements]

@[simp] theorem rebuild_load (c d : HasChildren) : Record.rebuild load c d = c := rfl

end HasChildren

structure HasDomain where
  m_pSize : Option IndexedObject := none

namespace HasDomain

def size : Member HasDomain := ⟨objectRef .inputOpaque, .of m_pSize fun _ a => ⟨a⟩⟩

def load : Loads HasDomain := [.field size]

def store : Stores HasDomain := [size]

@[simp] theorem rebuild_load (c d : HasDomain) : Record.rebuild load c d = c := rfl

end HasDomain

structure HasParameters where
  m_pReturnType : Option IndexedObject := none
  m_pParams : Option IndexedObject := none

namespace HasParameters

def returnType : Member HasParameters :=
  ⟨objectRef .inputOpaque, .of m_pReturnType fun c a => { c with m_pReturnType := a }⟩

def params : Member HasParameters :=
  ⟨objectRef .inputOpaque, .of m_pParams fun c a => { c with m_pParams := a }⟩

def load : Loads HasParameters := [.field returnType, .field params]

def store : Stores HasParameters := [returnType, params]

@[simp] theorem rebuild_load (c d : HasParameters) : Record.rebuild load c d = c := rfl

end HasParameters

structure HasDefinition where
  m_sourceFile : Option String := none
  m_definitionFile : Option String := none

namespace HasDefinition

def sourceFile : Member HasDefinition :=
  ⟨optional string, .of m_sourceFile fun c a => { c with m_sourceFile := a }⟩

def definitionFile : Member HasDefinition :=
  ⟨optional string, .of m_definitionFile fun c a => { c with m_definitionFile := a }⟩

def load : Loads HasDefinition := [.field sourceFile, .field definitionFile]

def store : Stores HasDefinition := [sourceFile, definitionFile]

@[simp] theorem rebuild_load (c d : HasDefinition) : Record.rebuild load c d = c := rfl

end HasDefinition

structure HasInheritance where
  m_inheritance : List (Option IndexedObject) := []

namespace HasInheritance

def inheritance : Member HasInheritance := ⟨objectVector .inputOpaque, .of m_inheritance fun _ a => ⟨a⟩⟩

def load : Loads HasInheritance := [.field inheritance]

def store : Stores HasInheritance := [inheritance]

@[simp] theorem rebuild_load (c d : HasInheritance) : Record.rebuild load c d = c := rfl

end HasInheritance

structure HasVisibility where
  m_visibility : VisibilityType := .TOTAL_VISIBILITY_TYPES

namespace HasVisibility

def visibility : Member HasVisibility := ⟨visibilityType, .of m_visibility fun _ a => ⟨a⟩⟩

def load : Loads HasVisibility := [.field visibility]

def store : Stores HasVisibility := [visibility]

@[simp] theorem rebuild_load (c d : HasVisibility) : Record.rebuild load c d = c := rfl

end HasVisibility

/-! ## The input tree -/

structure Opaque where
  m_bSemantic : Bool := true
  m_str : String := ""

namespace Opaque

def semantic : Member Opaque := ⟨bool, .of m_bSemantic fun c a => { c with m_bSemantic := a }⟩

def str : Member Opaque := ⟨string, .of m_str fun c a => { c with m_str := a }⟩

def load : Loads Opaque := [.field semantic, .field str]

def store : Stores Opaque := [semantic, str]

end Opaque

structure Dimension extends HasIdentifier, HasConst where
  m_pType : Option IndexedObject := none

namespace Dimension

def hasIdentifier : Part Dimension HasIdentifier :=
  .of toHasIdentifier fun c b => { c with toHasIdentifier := b }

def hasConst : Part Dimension HasConst := .of toHasConst fun c b => { c with toHasConst := b }

def type : Member Dimension := ⟨objectRef .inputOpaque, .of m_pType fun c a => { c with m_pType := a }⟩

def load : Loads Dimension :=
  hasIdentifier.load HasIdentifier.load ++ hasConst.load HasConst.load ++ [.field type]

def store : Stores Dimension :=
  hasIdentifier.store HasIdentifier.store ++ hasConst.store HasConst.store ++ [type]

end Dimension

structure Include extends HasIdentifier where
  m_path : String := ""
  m_bIsEGInclude : Bool := false
  m_bIsSystemInclude : Bool := false

namespace Include

def hasIdentifier : Part Include HasIdentifier :=
  .of toHasIdentifier fun c b => { c with toHasIdentifier := b }

def path : Member Include := ⟨string, .of m_path fun c a => { c with m_path := a }⟩

def isEGInclude : Member Include :=
  ⟨bool, .of m_bIsEGInclude fun c a => { c with m_bIsEGInclude := a }⟩

def isSystemInclude : Member Include :=
  ⟨bool, .of m_bIsSystemInclude fun c a => { c with m_bIsSystemInclude := a }⟩

def load : Loads Include :=
  hasIdentifier.load HasIdentifier.load ++ [.field path, .field isEGInclude, .field isSystemInclude]

def store : Stores Include :=
  hasIdentifier.store HasIdentifier.store ++ [path, isEGInclude, isSystemInclude]

end Include

structure Using extends HasIdentifier where
  m_pType : Option IndexedObject := none

namespace Using

def hasIdentifier : Part Using HasIdentifier :=
  .of toHasIdentifier fun c b => { c with toHasIdentifier := b }

def type : Member Using := ⟨objectRef .inputOpaque, .of m_pType fun c a => { c with m_pType := a }⟩

def load : Loads Using := hasIdentifier.load HasIdentifier.load ++ [.field type]

def store : Stores Using := hasIdentifier.store HasIdentifier.store ++ [type]

end Using

structure Export extends HasIdentifier where
  m_pReturnType : Option IndexedObject := none
  m_pParameters : Option IndexedObject := none

namespace Export

def hasIdentifier : Part Export HasIdentifier :=
  .of toHasIdentifier fun c b => { c with toHasIdentifier := b }

def returnType : Member Export :=
  ⟨objectRef .inputOpaque, .of m_pReturnType fun c a => { c with m_pReturnType := a }⟩

def parameters : Member Export :=
  ⟨objectRef .inputOpaque, .of m_pParameters fun c a => { c with m_pParameters := a }⟩

def load : Loads Export :=
  hasIdentifier.load HasIdentifier.load ++ [.field returnType, .field parameters]

def store : Stores Export := hasIdentifier.store HasIdentifier.store ++ [returnType, parameters]

end Export

structure Visibility extends HasVisibility

namespace Visibility

def hasVisibility : Part Visibility HasVisibility :=
  .of toHasVisibility fun c b => { c with toHasVisibility := b }

def load : Loads Visibility := hasVisibility.load HasVisibility.load

def store : Stores Visibility := hasVisibility.store HasVisibility.store

end Visibility

structure Context extends HasIdentifier, HasChildren, HasDomain, HasDefinition, HasParameters,
    HasInheritance where
  m_contextType : ContextType := .eUnknown

namespace Context

def hasIdentifier : Part Context HasIdentifier :=
  .of toHasIdentifier fun c b => { c with toHasIdentifier := b }

def hasChildren : Part Context HasChildren :=
  .of toHasChildren fun c b => { c with toHasChildren := b }

def hasDomain : Part Context HasDomain := .of toHasDomain fun c b => { c with toHasDomain := b }

def hasDefinition : Part Context HasDefinition :=
  .of toHasDefinition fun c b => { c with toHasDefinition := b }

def hasParameters : Part Context HasParameters :=
  .of toHasParameters fun c b => { c with toHasParameters := b }

def hasInheritance : Part Context HasInheritance :=
  .of toHasInheritance fun c b => { c with toHasInheritance := b }

def type : Member Context := ⟨contextType, .of m_contextType fun c a => { c with m_contextType := a }⟩

def load : Loads Context :=
  hasIdentifier.load HasIdentifier.load ++ hasChildren.load HasChildren.load ++
    hasDomain.load HasDomain.load ++ hasDefinition.load HasDefinition.load ++
    hasParameters.load HasParameters.load ++ hasInheritance.load HasInheritance.load ++ [.field type]

def store : Stores Context :=
  hasIdentifier.store HasIdentifier.store ++ hasChildren.store HasChildren.store ++
    hasDomain.store HasDomain.store ++ hasDefinition.store HasDefinition.store ++
    hasParameters.store HasParameters.store ++ hasInheritance.store HasInheritance.store ++ [type]

theorem rebuild_load (c d : Context) : Record.rebuild load c d = c := by
  simp only [load, Record.rebuild_append, Record.rebuild_part, HasIdentifier.rebuild_load,
    HasChildren.rebuild_load, HasDomain.rebuild_load, HasDefinition.rebuild_load,
    HasParameters.rebuild_load, HasInheritance.rebuild_load, Record.rebuild_cons_field,
    Record.rebuild_nil]
  rfl

end Context

structure Root extends Context where
  m_includePath : Option String := none
  m_rootType : RootType := .eFile

namespace Root

def context : Part Root Context := .of toContext fun c b => { c with toContext := b }

def includePath : Member Root :=
  ⟨optional string, .of m_includePath fun c a => { c with m_includePath := a }⟩

def type : Member Root := ⟨rootType, .of m_rootType fun c a => { c with m_rootType := a }⟩

def load : Loads Root := context.load Context.load ++ [.field includePath, .field type]

def store : Stores Root := context.store Context.store ++ [includePath, type]

theorem rebuild_load (c d : Root) : Record.rebuild load c d = c := by
  simp only [load, Record.rebuild_append, Record.rebuild_part, Context.rebuild_load,
    Record.rebuild_cons_field, Record.rebuild_nil]
  rfl

end Root

/-! ## Classes -/

def Opaque.archived : Class Opaque := .ofMembers {} Opaque.store Opaque.load rfl fun _ => rfl

def Dimension.archived : Class Dimension :=
  .ofMembers {} Dimension.store Dimension.load rfl fun _ => rfl

def Include.archived : Class Include := .ofMembers {} Include.store Include.load rfl fun _ => rfl

def Using.archived : Class Using := .ofMembers {} Using.store Using.load rfl fun _ => rfl

def Export.archived : Class Export := .ofMembers {} Export.store Export.load rfl fun _ => rfl

def Visibility.archived : Class Visibility :=
  .ofMembers {} Visibility.store Visibility.load rfl fun _ => rfl

def Context.archived : Class Context :=
  .ofMembers {} Context.store Context.load rfl fun c => Context.rebuild_load c _

/-- A root is created as an object with the identifier `RootTypeName`. -/
def Root.archived : Class Root :=
  .ofMembers { m_contextType := .eObject, m_strIdentifier := "root" } Root.store Root.load rfl
    fun c => Root.rebuild_load c _

end Input
end EgLang.Sessions
