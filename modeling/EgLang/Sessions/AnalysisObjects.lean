import EgLang.Compiler.SolutionRoundTrip
import EgLang.Sessions.Values

/-!
# Objects of the analyses

What has been found out about a program: identifiers, derivation, links, translation units, the layout of
the buffers, and the solutions of invocations, which hold the instructions.
-/

namespace EgLang.Sessions

open EgLang.Compiler.Archive EgLang.Library

set_option autoImplicit false

open Archived

structure Identifiers where
  m_identifierMap : List (String × Option IndexedObject) := []
  m_identifierGroups : List (Option IndexedObject × Option IndexedObject) := []
  m_identifierGroupsBack : List (Option IndexedObject × Option IndexedObject) := []

namespace Identifiers

def identifiers : Member Identifiers :=
  ⟨keyObjectMap .interfaceElement, .of m_identifierMap fun c a => { c with m_identifierMap := a }⟩

def groups : Member Identifiers :=
  ⟨identifierMap false .interfaceElement .interfaceElement,
    .of m_identifierGroups fun c a => { c with m_identifierGroups := a }⟩

def groupsBack : Member Identifiers :=
  ⟨identifierMap true .interfaceElement .interfaceElement,
    .of m_identifierGroupsBack fun c a => { c with m_identifierGroupsBack := a }⟩

def load : Loads Identifiers := [.field identifiers, .field groups, .field groupsBack]

def store : Stores Identifiers := [identifiers, groups, groupsBack]

end Identifiers

structure Compatibility where
  staticCompatibleTypes : List (Option IndexedObject) := []
  staticLinkCompatibleTypes : List (Option IndexedObject) := []
  dynamicCompatibleTypes : List (Option IndexedObject) := []
  dynamicCompatibleFromLinkTypes : List (Option IndexedObject) := []
  dynamicCompatibleToLinkTypes : List (Option IndexedObject) := []

namespace Compatibility

def static : Member Compatibility :=
  ⟨objectSet .interfaceContext,
    .of staticCompatibleTypes fun c a => { c with staticCompatibleTypes := a }⟩

def staticLink : Member Compatibility :=
  ⟨objectSet .interfaceContext,
    .of staticLinkCompatibleTypes fun c a => { c with staticLinkCompatibleTypes := a }⟩

def dynamic : Member Compatibility :=
  ⟨objectSet .concreteAction,
    .of dynamicCompatibleTypes fun c a => { c with dynamicCompatibleTypes := a }⟩

def dynamicFromLink : Member Compatibility :=
  ⟨objectSet .concreteAction,
    .of dynamicCompatibleFromLinkTypes fun c a => { c with dynamicCompatibleFromLinkTypes := a }⟩

def dynamicToLink : Member Compatibility :=
  ⟨objectSet .concreteAction,
    .of dynamicCompatibleToLinkTypes fun c a => { c with dynamicCompatibleToLinkTypes := a }⟩

/-- The sets, as `DerivationAnalysis` loads and stores them. -/
def archived : Archived Compatibility :=
  .members {} [static, staticLink, dynamic, dynamicFromLink, dynamicToLink] fun _ => rfl

end Compatibility

structure DerivationAnalysis where
  m_instanceMap : List (Option IndexedObject × Option IndexedObject) := []
  m_inheritanceMap : List (Option IndexedObject × Option IndexedObject) := []
  m_compatibility : List (Option IndexedObject × Compatibility) := []

namespace DerivationAnalysis

def instances : Member DerivationAnalysis :=
  ⟨objectMultimap .interfaceElement .concreteElement,
    .of m_instanceMap fun c a => { c with m_instanceMap := a }⟩

def inheritance : Member DerivationAnalysis :=
  ⟨objectMultimap .interfaceContext .inheritanceNode,
    .of m_inheritanceMap fun c a => { c with m_inheritanceMap := a }⟩

def compatibility : Member DerivationAnalysis :=
  ⟨objectKeyMap .interfaceContext Compatibility.archived,
    .of m_compatibility fun c a => { c with m_compatibility := a }⟩

def load : Loads DerivationAnalysis := [.field instances, .field inheritance, .field compatibility]

def store : Stores DerivationAnalysis := [instances, inheritance, compatibility]

end DerivationAnalysis

/-! ## Links -/

structure LinkGroup where
  m_name : String := ""
  m_links : List (Option IndexedObject) := []
  m_interfaceTargets : List (Option IndexedObject) := []
  m_concreteTargets : List (Option IndexedObject) := []
  m_concreteLinks : List (Option IndexedObject) := []
  m_dimensionMap : List (Option IndexedObject × Option IndexedObject) := []

namespace LinkGroup

def name : Member LinkGroup := ⟨string, .of m_name fun c a => { c with m_name := a }⟩

def links : Member LinkGroup :=
  ⟨objectVector .interfaceLink, .of m_links fun c a => { c with m_links := a }⟩

def interfaceTargets : Member LinkGroup :=
  ⟨objectVector .interfaceContext, .of m_interfaceTargets fun c a => { c with m_interfaceTargets := a }⟩

def concreteTargets : Member LinkGroup :=
  ⟨objectVector .concreteAction, .of m_concreteTargets fun c a => { c with m_concreteTargets := a }⟩

def concreteLinks : Member LinkGroup :=
  ⟨objectVector .concreteAction, .of m_concreteLinks fun c a => { c with m_concreteLinks := a }⟩

def dimensions : Member LinkGroup :=
  ⟨objectMap .concreteAction .concreteDimensionGenerated,
    .of m_dimensionMap fun c a => { c with m_dimensionMap := a }⟩

def load : Loads LinkGroup :=
  [.field name, .field links, .field interfaceTargets, .field concreteTargets, .field concreteLinks,
    .field dimensions]

def store : Stores LinkGroup :=
  [name, links, interfaceTargets, concreteTargets, concreteLinks, dimensions]

end LinkGroup

structure LinkAnalysis where
  m_groups : List (Option IndexedObject) := []

namespace LinkAnalysis

def groups : Member LinkAnalysis := ⟨objectVector .linkGroup, .of m_groups fun _ a => ⟨a⟩⟩

def load : Loads LinkAnalysis := [.field groups]

def store : Stores LinkAnalysis := [groups]

end LinkAnalysis

/-! ## Translation units -/

structure CoordinatorHostnameDefinitionFile where
  pCoordinator : Option IndexedObject := none
  pHostName : Option IndexedObject := none
  definitionFile : Option String := none

structure TranslationUnit where
  m_chd : CoordinatorHostnameDefinitionFile := {}
  m_strName : String := ""
  m_databaseFileID : ℤ := NO_FILE
  m_actions : List (Option IndexedObject) := []

namespace TranslationUnit

def coordinator : Member TranslationUnit :=
  ⟨objectRef .interfaceRoot,
    .of (·.m_chd.pCoordinator) fun c a => { c with m_chd.pCoordinator := a }⟩

def hostName : Member TranslationUnit :=
  ⟨objectRef .interfaceRoot, .of (·.m_chd.pHostName) fun c a => { c with m_chd.pHostName := a }⟩

def definitionFile : Member TranslationUnit :=
  ⟨optional string,
    .of (·.m_chd.definitionFile) fun c a => { c with m_chd.definitionFile := a }⟩

def name : Member TranslationUnit := ⟨string, .of m_strName fun c a => { c with m_strName := a }⟩

def databaseFileID : Member TranslationUnit :=
  ⟨int, .of m_databaseFileID fun c a => { c with m_databaseFileID := a }⟩

def actions : Member TranslationUnit :=
  ⟨objectSet .interfaceContext, .of m_actions fun c a => { c with m_actions := a }⟩

def load : Loads TranslationUnit :=
  [.field coordinator, .field hostName, .field definitionFile, .field name, .field databaseFileID,
    .field actions]

def store : Stores TranslationUnit :=
  [coordinator, hostName, definitionFile, name, databaseFileID, actions]

end TranslationUnit

structure TranslationUnitAnalysis where
  m_translationUnits : List (Option IndexedObject) := []
  m_actionTUMap : List (Option IndexedObject × Option IndexedObject) := []

namespace TranslationUnitAnalysis

def translationUnits : Member TranslationUnitAnalysis :=
  ⟨objectVector .translationUnit,
    .of m_translationUnits fun c a => { c with m_translationUnits := a }⟩

def actionTUMap : Member TranslationUnitAnalysis :=
  ⟨objectMap .interfaceContext .translationUnit,
    .of m_actionTUMap fun c a => { c with m_actionTUMap := a }⟩

def load : Loads TranslationUnitAnalysis := [.field translationUnits, .field actionTUMap]

def store : Stores TranslationUnitAnalysis := [translationUnits, actionTUMap]

end TranslationUnitAnalysis

/-! ## Layout -/

structure DataMember where
  m_pDimension : Option IndexedObject := none
  m_name : String := ""
  m_pBuffer : Option IndexedObject := none

namespace DataMember

def dimension : Member DataMember :=
  ⟨objectRef .concreteDimension, .of m_pDimension fun c a => { c with m_pDimension := a }⟩

def name : Member DataMember := ⟨string, .of m_name fun c a => { c with m_name := a }⟩

def buffer : Member DataMember :=
  ⟨objectRef .buffer, .of m_pBuffer fun c a => { c with m_pBuffer := a }⟩

def load : Loads DataMember := [.field dimension, .field name, .field buffer]

def store : Stores DataMember := [dimension, name, buffer]

end DataMember

structure Buffer where
  m_size : ℕ := 0
  m_name : String := ""
  m_variable : String := ""
  m_simple : Bool := false
  m_pContext : Option IndexedObject := none
  m_dataMembers : List (Option IndexedObject) := []

namespace Buffer

def size : Member Buffer := ⟨Archived.size, .of m_size fun c a => { c with m_size := a }⟩

def name : Member Buffer := ⟨string, .of m_name fun c a => { c with m_name := a }⟩

def variableName : Member Buffer := ⟨string, .of m_variable fun c a => { c with m_variable := a }⟩

def simple : Member Buffer := ⟨bool, .of m_simple fun c a => { c with m_simple := a }⟩

def context : Member Buffer :=
  ⟨objectRef .concreteAction, .of m_pContext fun c a => { c with m_pContext := a }⟩

def dataMembers : Member Buffer :=
  ⟨objectVector .dataMember, .of m_dataMembers fun c a => { c with m_dataMembers := a }⟩

def load : Loads Buffer :=
  [.field context, .field size, .field name, .field variableName, .field simple, .field dataMembers]

def store : Stores Buffer := [context, size, name, variableName, simple, dataMembers]

end Buffer

structure Layout where
  m_buffers : List (Option IndexedObject) := []
  m_dimensionMap : List (Option IndexedObject × Option IndexedObject) := []

namespace Layout

def buffers : Member Layout :=
  ⟨objectVector .buffer, .of m_buffers fun c a => { c with m_buffers := a }⟩

def dimensions : Member Layout :=
  ⟨objectMap .concreteDimension .dataMember,
    .of m_dimensionMap fun c a => { c with m_dimensionMap := a }⟩

def load : Loads Layout := [.field buffers, .field dimensions]

def store : Stores Layout := [buffers, dimensions]

end Layout

/-! ## Classes -/

def Identifiers.archived : Class Identifiers :=
  .ofMembers {} Identifiers.store Identifiers.load rfl fun _ => rfl

def DerivationAnalysis.archived : Class DerivationAnalysis :=
  .ofMembers {} DerivationAnalysis.store DerivationAnalysis.load rfl fun _ => rfl

def LinkGroup.archived : Class LinkGroup :=
  .ofMembers {} LinkGroup.store LinkGroup.load rfl fun _ => rfl

def LinkAnalysis.archived : Class LinkAnalysis :=
  .ofMembers {} LinkAnalysis.store LinkAnalysis.load rfl fun _ => rfl

def TranslationUnit.archived : Class TranslationUnit :=
  .ofMembers {} TranslationUnit.store TranslationUnit.load rfl fun _ => rfl

def TranslationUnitAnalysis.archived : Class TranslationUnitAnalysis :=
  .ofMembers {} TranslationUnitAnalysis.store TranslationUnitAnalysis.load rfl fun _ => rfl

def DataMember.archived : Class DataMember :=
  .ofMembers {} DataMember.store DataMember.load rfl fun _ => rfl

def Buffer.archived : Class Buffer := .ofMembers {} Buffer.store Buffer.load rfl fun _ => rfl

def Layout.archived : Class Layout := .ofMembers {} Layout.store Layout.load rfl fun _ => rfl

end EgLang.Sessions
