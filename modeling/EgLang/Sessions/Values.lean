import Mathlib.Data.Prod.Lex
import Mathlib.Data.String.Basic
import EgLang.Compiler.ObjectArchive
import EgLang.Library.Codecs

/-!
# Members of session objects

What `Loader` and `Storer` do with the members of the objects of a session: values, optional values,
pointers to objects, and the vectors, sets and maps of them. A pointer is found among the objects that
the loader has created; sets and maps are in the order of `CompareIndexedObjects`.
-/

namespace EgLang.Sessions

open EgLang.Library EgLang.Compiler.Archive

set_option autoImplicit false

/-! ## Objects -/

/-- `ObjectType`. -/
inductive ObjectType
  | eInputOpaque
  | eInputDimension
  | eInputInclude
  | eInputUsing
  | eInputExport
  | eInputVisibility
  | eInputContext
  | eInputRoot
  | eAbstractOpaque
  | eAbstractDimension
  | eAbstractInclude
  | eAbstractUsing
  | eAbstractExport
  | eAbstractAbstract
  | eAbstractEvent
  | eAbstractFunction
  | eAbstractAction
  | eAbstractObject
  | eAbstractLink
  | eAbstractRoot
  | eInheritanceNode
  | eConcreteAction
  | eConcreteDimensionUser
  | eConcreteDimensionGenerated
  | eConcreteAllocator_Nothing
  | eConcreteAllocator_Singleton
  | eConcreteAllocator_Range
  | eIdentifiers
  | eDerivationAnalysis
  | eLinkGroup
  | eLinkAnalysis
  | eTranslationUnit
  | eTranslationUnitAnalysis
  | eInvocationSolution
  | eDataMember
  | eBuffer
  | eLayout
deriving DecidableEq, Repr

/-- The object types in the order of their numbers. -/
def ObjectType.all : List ObjectType :=
  [.eInputOpaque, .eInputDimension, .eInputInclude, .eInputUsing, .eInputExport, .eInputVisibility,
    .eInputContext, .eInputRoot, .eAbstractOpaque, .eAbstractDimension, .eAbstractInclude,
    .eAbstractUsing, .eAbstractExport, .eAbstractAbstract, .eAbstractEvent, .eAbstractFunction,
    .eAbstractAction, .eAbstractObject, .eAbstractLink, .eAbstractRoot, .eInheritanceNode,
    .eConcreteAction, .eConcreteDimensionUser, .eConcreteDimensionGenerated,
    .eConcreteAllocator_Nothing, .eConcreteAllocator_Singleton, .eConcreteAllocator_Range,
    .eIdentifiers, .eDerivationAnalysis, .eLinkGroup, .eLinkAnalysis, .eTranslationUnit,
    .eTranslationUnitAnalysis, .eInvocationSolution, .eDataMember, .eBuffer, .eLayout]

theorem ObjectType.mem_all (type : ObjectType) : type ∈ ObjectType.all := by
  cases type <;> decide

/-- The classes that pointers in archived objects are declared with. -/
inductive PointerClass
  | inputElement
  | inputOpaque
  | inputDimension
  | inputInclude
  | inputUsing
  | inputExport
  | inputContext
  | inputRoot
  | interfaceElement
  | interfaceDimension
  | interfaceContext
  | interfaceLink
  | interfaceRoot
  | inheritanceNode
  | concreteElement
  | concreteDimension
  | concreteDimensionUser
  | concreteDimensionGenerated
  | concreteAction
  | allocator
  | linkGroup
  | translationUnit
  | dataMember
  | buffer
deriving DecidableEq, Repr

open ObjectType in
/-- The types of the objects that a `dynamic_cast` to the class lets through. -/
def PointerClass.types : PointerClass → List ObjectType
  | inputElement => [eInputOpaque, eInputDimension, eInputInclude, eInputUsing, eInputExport,
      eInputVisibility, eInputContext, eInputRoot]
  | inputOpaque => [eInputOpaque]
  | inputDimension => [eInputDimension]
  | inputInclude => [eInputInclude]
  | inputUsing => [eInputUsing]
  | inputExport => [eInputExport]
  | inputContext => [eInputContext, eInputRoot]
  | inputRoot => [eInputRoot]
  | interfaceElement => [eAbstractOpaque, eAbstractDimension, eAbstractInclude, eAbstractUsing,
      eAbstractExport, eAbstractAbstract, eAbstractEvent, eAbstractFunction, eAbstractAction,
      eAbstractObject, eAbstractLink, eAbstractRoot]
  | interfaceDimension => [eAbstractDimension]
  | interfaceContext => [eAbstractAbstract, eAbstractEvent, eAbstractFunction, eAbstractAction,
      eAbstractObject, eAbstractLink, eAbstractRoot]
  | interfaceLink => [eAbstractLink]
  | interfaceRoot => [eAbstractRoot]
  | inheritanceNode => [eInheritanceNode]
  | concreteElement => [eConcreteAction, eConcreteDimensionUser, eConcreteDimensionGenerated]
  | concreteDimension => [eConcreteDimensionUser, eConcreteDimensionGenerated]
  | concreteDimensionUser => [eConcreteDimensionUser]
  | concreteDimensionGenerated => [eConcreteDimensionGenerated]
  | concreteAction => [eConcreteAction]
  | allocator => [eConcreteAllocator_Nothing, eConcreteAllocator_Singleton, eConcreteAllocator_Range]
  | linkGroup => [eLinkGroup]
  | translationUnit => [eTranslationUnit]
  | dataMember => [eDataMember]
  | buffer => [eBuffer]

/-- A `dynamic_cast` to the class is not null. -/
def ObjectType.isA (type : ObjectType) (T : PointerClass) : Bool := type ∈ T.types

/-- The classes of the pointers in instructions. -/
def PointerClass.ofObjectClass : ObjectClass → PointerClass
  | .interfaceElement => interfaceElement
  | .interfaceContext => interfaceContext
  | .interfaceDimension => interfaceDimension
  | .concreteElement => concreteElement
  | .concreteAction => concreteAction
  | .concreteDimension => concreteDimension
  | .concreteDimensionUser => concreteDimensionUser
  | .linkGroup => linkGroup

/-- What storing and loading a session throw. -/
inductive SessionFault
  /-- What storing and loading pointers and instructions throw. -/
  | archive (fault : ArchiveFault)
  /-- `VERIFY_RTE( pLeft && pRight )` -/
  | comparedNull
  /-- `THROW_RTE( "Invalid attempt to obtain visibility identifier" )` -/
  | visibilityIdentifier
  /-- `THROW_RTE( "Unsupported type" )` -/
  | unsupportedType
  /-- `VERIFY_RTE` of the result of a `dynamic_cast`. -/
  | castFailed
  /-- `VERIFY_RTE( m_fileMap.size() == 1U )` -/
  | notOneFile
  /-- The file cannot be opened. -/
  | notOpened
  /-- "File corruption detected. File ID does not match for: " -/
  | corrupted
  /-- `VERIFY_RTE( pObject )` -/
  | nullObject
  /-- `VERIFY_RTE( !pObject )` -/
  | createdTwice
  /-- `THROW_RTE( "Unknown object type" )` -/
  | unknownObjectType
deriving DecidableEq, Repr

/-- A value in the archive of a session. -/
inductive Value
  | ast (v : Compiler.Archive.Value)
  | string (s : String)
  | strings (ss : List String)
deriving DecidableEq

namespace Value

def bool? : Value → Option Bool
  | .ast v => v.bool?
  | _ => none

def size? : Value → Option ℕ
  | .ast v => v.size?
  | _ => none

def int? : Value → Option ℤ
  | .ast v => v.int?
  | _ => none

def string? : Value → Option String
  | .string s => some s
  | _ => none

def strings? : Value → Option (List String)
  | .strings ss => some ss
  | _ => none

end Value

/-! ## What a loader knows -/

/-- The types of the objects that have been created, by file and by index, and what `getIdentifier` of
an interface element returns for what has been loaded of it so far. -/
structure Loaded where
  m_files : ℤ → Option (List (Option ObjectType))
  getIdentifier : IndexedObject → Except SessionFault String

namespace Loaded

/-- Files are created, objects are added to files, and identifiers get known. -/
instance : Preorder Loaded where
  le w w' := (∀ fileID m_objects, w.m_files fileID = some m_objects →
      ∃ m_objects', w'.m_files fileID = some m_objects' ∧ m_objects <+: m_objects') ∧
    ∀ o s, w.getIdentifier o = .ok s → w'.getIdentifier o = .ok s
  le_refl w := ⟨fun _ m_objects h => ⟨m_objects, h, List.prefix_rfl⟩, fun _ _ h => h⟩
  le_trans w₁ w₂ w₃ h₁₂ h₂₃ := by
    refine ⟨fun fileID m_objects h => ?_, fun o s h => h₂₃.2 o s (h₁₂.2 o s h)⟩
    obtain ⟨m_objects₂, h₂, hprefix⟩ := h₁₂.1 fileID m_objects h
    obtain ⟨m_objects₃, h₃, hprefix'⟩ := h₂₃.1 fileID m_objects₂ h₂
    exact ⟨m_objects₃, h₃, hprefix.trans hprefix'⟩

/-- The type of an object that has been created. -/
def typeOf (w : Loaded) (o : IndexedObject) : Option ObjectType := do
  let m_objects ← w.m_files o.m_fileID
  if 0 ≤ o.m_index then m_objects[o.m_index.toNat]?.join else none

theorem typeOf_mono {w w' : Loaded} (hle : w ≤ w') {o : IndexedObject} {type : ObjectType}
    (h : w.typeOf o = some type) : w'.typeOf o = some type := by
  unfold typeOf at h ⊢
  obtain ⟨m_objects, hfile, h⟩ := Option.bind_eq_some_iff.mp h
  obtain ⟨m_objects', hfile', tail, rfl⟩ := hle.1 _ _ hfile
  rw [hfile']
  change (if 0 ≤ o.m_index then (m_objects ++ tail)[o.m_index.toNat]?.join else none) = _
  split at h
  · next hindex =>
    obtain ⟨slot, hslot, hjoin⟩ := Option.bind_eq_some_iff.mp h
    have hlt := (List.getElem?_eq_some_iff.mp hslot).choose
    rw [if_pos hindex, List.getElem?_append_left hlt, hslot]
    exact hjoin
  · cases h

/-- A pointer that is null, or to an object of the class that has been created. -/
def Holds (w : Loaded) (T : PointerClass) (p : Option IndexedObject) : Prop :=
  ∀ o ∈ p, ∃ type, w.typeOf o = some type ∧ type.isA T = true

theorem Holds.mono {w w' : Loaded} (hle : w ≤ w') {T : PointerClass} {p : Option IndexedObject}
    (h : w.Holds T p) : w'.Holds T p := by
  intro o ho
  obtain ⟨type, htype, hisA⟩ := h o ho
  exact ⟨type, typeOf_mono hle htype, hisA⟩

end Loaded

/-! ## Values -/

/-- How a member of a type is archived. -/
abbrev Archived (α : Type) := Codec Value Loaded SessionFault α

/-- A value that is not what the loader reads, or no value. -/
def SessionFault.notRead : SessionFault := .archive .archive

namespace Archived

def bool : Archived Bool := .value .notRead (fun b => .ast (.bool b)) Value.bool? fun _ => rfl

def size : Archived ℕ := .value .notRead (fun n => .ast (.size n)) Value.size? fun _ => rfl

def int : Archived ℤ := .value .notRead (fun i => .ast (.int i)) Value.int? fun _ => rfl

/-- A string, or a path. -/
def string : Archived String := .value .notRead .string Value.string? fun _ => rfl

def strings : Archived (List String) := .value .notRead .strings Value.strings? fun _ => rfl

/-- An enumeration is archived as the number of the enumerator. -/
def enumeration {E : Type} [DecidableEq E] (all : List E) (h : ∀ e, e ∈ all) : Archived E :=
  .value .notRead (fun e => .ast (.size (all.idxOf e))) (fun v => do all[← v.size?]?) fun e =>
    List.getElem?_idxOf (h e)

/-- `Storer::storeOptional` and `Loader::loadOptional`. -/
def optional {α : Type} (present : Archived α) : Archived (Option α) := Codec.optional bool present

/-! ## Pointers -/

/-- `Storer::storeObjectRef`. -/
def storeObjectRef : Option IndexedObject → List Value
  | some pObject => [.ast (.int pObject.m_fileID), .ast (.int pObject.m_index)]
  | none => [.ast (.int NO_FILE)]

/-- `Loader::loadObjectRef< T >`. -/
def loadObjectRef (T : PointerClass) (w : Loaded) :
    Loading Value Unit SessionFault (Option IndexedObject) := do
  let fileID ← int.load w
  if h : fileID ≠ NO_FILE then
    match w.m_files fileID with
    | none => Loading.fail (.archive .noFile)
    | some m_objects =>
      let szIndex ← int.load w
      if 0 ≤ szIndex ∧ szIndex.toNat < m_objects.length then
        match m_objects[szIndex.toNat]?.join with
        | some type =>
          if type.isA T then return some ⟨fileID, szIndex, h⟩
          else Loading.fail (.archive .notAnObject)
        | none => Loading.fail (.archive .notAnObject)
      else Loading.fail (.archive .noObject)
  else return none

theorem reads_objectRef {T : PointerClass} {w : Loaded} {p : Option IndexedObject}
    (h : w.Holds T p) : Reads (loadObjectRef T w) () (storeObjectRef p) p := by
  cases p with
  | none => exact fun _ => rfl
  | some o =>
    obtain ⟨type, htype, hisA⟩ := h o rfl
    obtain ⟨m_objects, hfile, htype⟩ := Option.bind_eq_some_iff.mp htype
    split at htype
    · next hindex =>
      obtain ⟨slot, hslot, hjoin⟩ := Option.bind_eq_some_iff.mp htype
      have hlt := (List.getElem?_eq_some_iff.mp hslot).choose
      have hread (i : ℤ) : Reads (int.load w) () [.ast (.int i)] i := int.reads trivial
      obtain rfl : slot = some type := hjoin
      refine (hread o.m_fileID).bind ?_
      rw [dif_pos o.inFile, hfile]
      refine (hread o.m_index).last ?_
      rw [if_pos ⟨hindex, hlt⟩, hslot]
      change Reads (if type.isA T then _ else _) () [] (some o)
      rw [if_pos hisA]
      exact Reads.pure _
    · cases htype

/-- `storeObjectRef` and `loadObjectRef< T >`. -/
def objectRef (T : PointerClass) : Archived (Option IndexedObject) where
  store := storeObjectRef
  load := loadObjectRef T
  Valid w p := w.Holds T p
  valid_mono hle h := h.mono hle
  reads := reads_objectRef

/-- `storeObjectVector` and `loadObjectVector`. -/
def objectVector (T : PointerClass) : Archived (List (Option IndexedObject)) :=
  .vector size (objectRef T)

/-! ## Sets and maps -/

/-- What `CompareIndexedObjects` compares. -/
def compareIndexedObjects (_ : Loaded) : Option IndexedObject → Except SessionFault (ℤ ×ₗ ℤ)
  | some pObject => .ok (toLex (pObject.m_fileID, pObject.m_index))
  | none => .error .comparedNull

/-- What `Identifiers::CompareIdentifiers` compares. -/
def compareIdentifiers (w : Loaded) : Option IndexedObject → Except SessionFault String
  | some pElement => w.getIdentifier pElement
  | none => .error (.archive .undefined)

theorem compareIdentifiers_mono {w w' : Loaded} (hle : w ≤ w') {p : Option IndexedObject} {s : String}
    (h : compareIdentifiers w p = .ok s) : compareIdentifiers w' p = .ok s := by
  cases p with
  | none => exact h
  | some o => exact hle.2 o s h

/-- `storeObjectSet` and `loadObjectSet`. -/
def objectSet (T : PointerClass) : Archived (List (Option IndexedObject)) :=
  .inOrder size (objectRef T) true compareIndexedObjects fun _ h => h

section Entries
variable {α : Type} (T₁ : PointerClass) (value : Archived α)

/-- The entries of a `std::map` with pointers to objects as keys. -/
def objectKeyMap : Archived (List (Option IndexedObject × α)) :=
  .inOrder size (.pair (objectRef T₁) value) true (fun w p => compareIndexedObjects w p.1) fun _ h => h

/-- The entries of a `std::multimap` with pointers to objects as keys. -/
def objectKeyMultimap : Archived (List (Option IndexedObject × α)) :=
  .inOrder size (.pair (objectRef T₁) value) false (fun w p => compareIndexedObjects w p.1) fun _ h => h

end Entries

/-- `storeObjectMap` and `loadObjectMap` of a `std::map`. -/
def objectMap (T₁ T₂ : PointerClass) : Archived (List (Option IndexedObject × Option IndexedObject)) :=
  objectKeyMap T₁ (objectRef T₂)

/-- `storeObjectMap` and `loadObjectMap` of a `std::multimap`. -/
def objectMultimap (T₁ T₂ : PointerClass) :
    Archived (List (Option IndexedObject × Option IndexedObject)) :=
  objectKeyMultimap T₁ (objectRef T₂)

/-- `storeObjectMap` and `loadObjectMap` of a map or a multimap with `CompareIdentifiers`. -/
def identifierMap (unique : Bool) (T₁ T₂ : PointerClass) :
    Archived (List (Option IndexedObject × Option IndexedObject)) :=
  .inOrder size (.pair (objectRef T₁) (objectRef T₂)) unique (fun w p => compareIdentifiers w p.1)
    fun hle h => compareIdentifiers_mono hle h

/-- `storeKeyObjectMap` and `loadKeyObjectMap`, with strings as keys. -/
def keyObjectMap (T₂ : PointerClass) : Archived (List (String × Option IndexedObject)) :=
  .inOrder size (.pair string (objectRef T₂)) true (fun _ p => .ok p.1) fun _ h => h

end Archived

/-! ## Classes -/

/-- A member of a class, and how it is archived. -/
abbrev Member (C : Type) := Field Value Loaded SessionFault C

/-- What `load` of a class does, in its order. -/
abbrev Loads (C : Type) := List (LoadStep Value Loaded SessionFault C)

/-- What `store` of a class does, in its order. -/
abbrev Stores (C : Type) := List (Member C)

/-- A class of objects. -/
abbrev Class (C : Type) := ArchivedClass Value Loaded SessionFault C

/-- `VERIFY_RTE` of the `dynamic_cast` of a pointer that is not null. -/
def verifyCast {C : Type} (get : C → Option IndexedObject) (T : PointerClass) :
    LoadStep Value Loaded SessionFault C :=
  .check (fun w c => (get c).all fun o => (w.typeOf o).any fun type => type.isA T)
    (by
      intro w w' c hle h
      cases hget : get c with
      | none => rfl
      | some o =>
        rw [hget] at h
        obtain ⟨type, htype, hisA⟩ := (Option.any_eq_true _ _).mp h
        exact (Option.any_eq_true _ _).mpr ⟨type, Loaded.typeOf_mono hle htype, hisA⟩)
    .castFailed

end EgLang.Sessions
