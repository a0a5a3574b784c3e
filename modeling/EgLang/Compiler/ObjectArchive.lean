import EgLang.Compiler.Solution
import EgLang.Library.Archive

/-!
# Storing and loading pointers

`Storer` and `Loader`: an object of a session is written as the identifier of its file and its index
in the file, and found by these among the objects that the loader has created.
-/

namespace EgLang.Compiler.Archive

open EgLang.Library

set_option autoImplicit false

/-- `IndexedObject::NO_FILE`. -/
def NO_FILE : ℤ := -1

/-- An `IndexedObject`, by where it is. -/
structure IndexedObject where
  m_fileID : ℤ
  m_index : ℤ
  inFile : m_fileID ≠ NO_FILE
deriving DecidableEq

/-- The classes that pointers to objects are declared with. -/
inductive ObjectClass
  | interfaceElement
  | interfaceContext
  | interfaceDimension
  | concreteElement
  | concreteAction
  | concreteDimension
  | concreteDimensionUser
  | linkGroup
deriving DecidableEq, Repr

/-- `ASTElementType`. -/
inductive ASTElementType
  | eInstanceVariable
  | eReferenceVariable
  | eDimensionVariable
  | eContextVariable
  | eRootInstruction
  | eParentDerivationInstruction
  | eChildDerivationInstruction
  | eEnumDerivationInstruction
  | eEnumerationInstruction
  | eFailureInstruction
  | eEliminationInstruction
  | ePruneInstruction
  | eDimensionReferenceReadInstruction
  | eMonoReferenceInstruction
  | ePolyReferenceInstruction
  | ePolyCaseInstruction
  | eCallOperation
  | eStartOperation
  | eStopOperation
  | ePauseOperation
  | eResumeOperation
  | eDoneOperation
  | eWaitActionOperation
  | eWaitDimensionOperation
  | eGetActionOperation
  | eGetDimensionOperation
  | eReadOperation
  | eWriteOperation
  | eWriteLinkOperation
  | eRangeOperation
deriving DecidableEq, Repr

/-- A value in an archive. -/
inductive Value
  | bool (b : Bool)
  | size (n : ℕ)
  | int (i : ℤ)
  | ints (is : List ℤ)
  | operationID (id : OperationID)
  | explicitOperationID (id : ExplicitOperationID)
  | elementType (type : ASTElementType)
  | rangeType (type : RangeType)
deriving DecidableEq

namespace Value

def bool? : Value → Option Bool
  | .bool b => some b
  | _ => none

def size? : Value → Option ℕ
  | .size n => some n
  | _ => none

def int? : Value → Option ℤ
  | .int i => some i
  | _ => none

def ints? : Value → Option (List ℤ)
  | .ints is => some is
  | _ => none

def operationID? : Value → Option OperationID
  | .operationID id => some id
  | _ => none

def explicitOperationID? : Value → Option ExplicitOperationID
  | .explicitOperationID id => some id
  | _ => none

def elementType? : Value → Option ASTElementType
  | .elementType type => some type
  | _ => none

def rangeType? : Value → Option RangeType
  | .rangeType type => some type
  | _ => none

end Value

/-- What storing and loading throw. -/
inductive ArchiveFault
  /-- The archive has ended, or has a value of another type. -/
  | archive
  /-- `VERIFY_RTE( pFile )` -/
  | noFile
  /-- `VERIFY_RTE( szIndex < pFile->m_objects.size() )` -/
  | noObject
  /-- "Failed to load indexed object" -/
  | notAnObject
  /-- `VERIFY_RTE( pInstruction )`, and `VERIFY_RTE( pDerived )` -/
  | notAnElement
  /-- `THROW_RTE( "Unreachable" )` -/
  | unreachable
  /-- An address that leads nowhere. -/
  | undefined
deriving DecidableEq, Repr

/-- The classes of the objects that the loader has created, by file and by index. -/
structure ObjectFiles (κ : Type) where
  m_files : ℤ → Option (List (Option κ))
  isA : κ → ObjectClass → Bool

section Storer
variable {σ α : Type}

/-- `Storer::storeObjectRef`. -/
def storeObjectRef : Option IndexedObject → Storing Value σ ArchiveFault Unit
  | some pObject => do
    Storing.write (.int pObject.m_fileID)
    Storing.write (.int pObject.m_index)
  | none => Storing.write (.int NO_FILE)

/-- A size and as many elements. -/
def storeVector (store : α → Storing Value σ ArchiveFault Unit) (as : List α) :
    Storing Value σ ArchiveFault Unit := do
  Storing.write (.size as.length)
  Storing.storeEach store as

/-- `Storer::storeObjectVector`. -/
def storeObjectVector (objects : List (Option IndexedObject)) : Storing Value σ ArchiveFault Unit :=
  storeVector storeObjectRef objects

/-- `Storer::storeObjectVectorVector`. -/
def storeObjectVectorVector (objects : List (List (Option IndexedObject))) :
    Storing Value σ ArchiveFault Unit :=
  storeVector storeObjectVector objects

end Storer

section Loader
variable {κ ρ α : Type} (files : ObjectFiles κ) (T : ObjectClass)

/-- `Loader::load`. -/
def loadValue (take : Value → Option α) : Loading Value ρ ArchiveFault α :=
  Loading.read .archive take

/-- `Loader::loadObjectRef< T >`. -/
def loadObjectRef : Loading Value ρ ArchiveFault (Option IndexedObject) := do
  let fileID ← loadValue Value.int?
  if h : fileID ≠ NO_FILE then
    match files.m_files fileID with
    | none => Loading.fail .noFile
    | some m_objects =>
      let szIndex ← loadValue Value.int?
      if 0 ≤ szIndex ∧ szIndex.toNat < m_objects.length then
        match m_objects[szIndex.toNat]?.join with
        | some pObject =>
          if files.isA pObject T then return some ⟨fileID, szIndex, h⟩
          else Loading.fail .notAnObject
        | none => Loading.fail .notAnObject
      else Loading.fail .noObject
  else return none

/-- A size and as many elements. -/
def loadVector (load : Loading Value ρ ArchiveFault α) : Loading Value ρ ArchiveFault (List α) := do
  let szCount ← loadValue Value.size?
  Loading.loadMany load szCount

/-- `Loader::loadObjectVector`. -/
def loadObjectVector : Loading Value ρ ArchiveFault (List (Option IndexedObject)) :=
  loadVector (loadObjectRef files T)

/-- `Loader::loadObjectVectorVector`. -/
def loadObjectVectorVector : Loading Value ρ ArchiveFault (List (List (Option IndexedObject))) :=
  loadVector (loadObjectVector files T)

end Loader

/-! ## Pointers are read back -/

section ReadsBack
variable {κ : Type} (files : ObjectFiles κ) (T : ObjectClass)

/-- A pointer that is null, or to an object of the class that the loader has created. -/
def ObjectFiles.Holds (p : Option IndexedObject) : Prop :=
  ∀ o ∈ p, ∃ m_objects k, files.m_files o.m_fileID = some m_objects ∧ 0 ≤ o.m_index ∧
    m_objects[o.m_index.toNat]? = some (some k) ∧ files.isA k T = true

variable {σ ρ ω α β : Type} [Preorder ω] {agrees : ω → σ → ρ → Prop} {bound : ℕ} {w : ω}
variable {files T}

theorem readsBack_value {v : Value} {take : Value → Option α} {a : α} (htake : take v = some a) :
    ReadsBack agrees bound w (Storing.write v) (loadValue take) fun _ b => b = a :=
  .write htake rfl

theorem readsBack_objectRef {p : Option IndexedObject} (h : files.Holds T p) :
    ReadsBack agrees bound w (storeObjectRef p) (loadObjectRef files T) fun _ q => q = p := by
  cases p with
  | none =>
    intro vs s s' r hag hend _
    obtain ⟨rfl, rfl⟩ := Storing.ends_write.mp hend
    exact ⟨w, none, r, le_rfl, hag, rfl, fun rest => rfl⟩
  | some o =>
    obtain ⟨m_objects, k, hfile, hindex, hobject, hclass⟩ := h o rfl
    refine ReadsBack.bind (readsBack_value rfl) fun fileID w₁ _ hid => ?_
    subst hid
    rw [dif_pos o.inFile, hfile]
    refine ReadsBack.last (readsBack_value rfl) fun szIndex w₂ _ hszIndex => ?_
    subst hszIndex
    obtain ⟨hlt, -⟩ := List.getElem?_eq_some_iff.mp hobject
    rw [if_pos ⟨hindex, hlt⟩, hobject]
    simp only [Option.join_some, hclass, if_true]
    exact .pure rfl

/-- A vector is read back as elements that are related to its own. -/
theorem readsBack_vector {γ : Type} {store : γ → Storing Value σ ArchiveFault Unit}
    {load : Loading Value ρ ArchiveFault α} {R : ω → γ → α → Prop}
    (hmono : ∀ {w w' c a}, w ≤ w' → R w c a → R w' c a) {cs : List γ}
    (h : ∀ c ∈ cs, ∀ w, ReadsBack agrees bound w (store c) load fun w' a => R w' c a) :
    ReadsBack agrees bound w (storeVector store cs) (loadVector load)
      fun w' as => List.Forall₂ (R w') cs as := by
  refine ReadsBack.bind (readsBack_value rfl) fun szCount w₁ _ hcount => ?_
  subst hcount
  exact ReadsBack.many (R := R) hmono h w₁

/-- A vector of what is read back as it is. -/
theorem readsBack_vector_eq {store : α → Storing Value σ ArchiveFault Unit}
    {load : Loading Value ρ ArchiveFault α} {as : List α}
    (h : ∀ a ∈ as, ∀ w, ReadsBack agrees bound w (store a) load fun _ b => b = a) :
    ReadsBack agrees bound w (storeVector store as) (loadVector load) fun _ bs => bs = as := by
  refine ReadsBack.imp (readsBack_vector (R := fun _ a b => b = a) (fun _ h => h) h) fun w' bs hbs => ?_
  have hflip : (fun a b : α => b = a) = Eq := by
    funext a b
    exact propext eq_comm
  rw [hflip, List.forall₂_eq_eq_eq] at hbs
  exact hbs.symm

theorem readsBack_objectVector {objects : List (Option IndexedObject)}
    (h : ∀ p ∈ objects, files.Holds T p) :
    ReadsBack agrees bound w (storeObjectVector objects) (loadObjectVector files T)
      fun _ ps => ps = objects :=
  readsBack_vector_eq fun p hp _ => readsBack_objectRef (h p hp)

theorem readsBack_objectVectorVector {objects : List (List (Option IndexedObject))}
    (h : ∀ ps ∈ objects, ∀ p ∈ ps, files.Holds T p) :
    ReadsBack agrees bound w (storeObjectVectorVector objects) (loadObjectVectorVector files T)
      fun _ ps => ps = objects :=
  readsBack_vector_eq fun ps hps _ => readsBack_objectVector (h ps hps)

end ReadsBack
end EgLang.Compiler.Archive
