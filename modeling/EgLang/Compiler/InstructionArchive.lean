import EgLang.Compiler.ObjectArchive

/-!
# Storing and loading instructions

`ASTSerialiser`: variables and instructions are elements that point to each other. An element is
written where it is met first, and as its number from then on; a loaded element is created where
its class is read, and its fields are read after that.
-/

namespace EgLang.Compiler.Archive

open EgLang.Library

set_option autoImplicit false

/-! ## Elements -/

/-- Where an `ASTElement` is. -/
abbrev Address := ℕ

/-- The classes with the fields of `ParentDerivationInstruction`. -/
inductive Derivation
  | parent
  | child
  | enum
deriving DecidableEq, Repr

/-- The classes that elimination is to remove. -/
inductive Transient
  | failure
  | elimination
  | prune
deriving DecidableEq, Repr

/-- The operations on an action, all with the fields of `CallOperation`. -/
inductive ActionOperation
  | call
  | start
  | stop
  | pause
  | resume
  | done
  | waitAction
  | getAction
deriving DecidableEq, Repr

/-- The operations on a dimension, all with the fields of `ReadOperation`. -/
inductive DimensionOperation
  | waitDimension
  | getDimension
  | read
  | write
deriving DecidableEq, Repr

/-- The elements that are stored through the serialiser: all but the `RootInstruction`. -/
inductive Element
  | instanceVariable (m_pParent : Option Address) (m_pType : Option IndexedObject)
  | referenceVariable (m_pParent : Option Address) (m_types : List (Option IndexedObject))
  | dimensionReferenceVariable (m_pParent : Option Address) (m_types : List (Option IndexedObject))
  | contextVariable (m_pParent : Option Address) (m_types : List (Option IndexedObject))
  | derivation (kind : Derivation) (m_children : List Address) (m_pFrom m_pTo : Option Address)
  | enumeration (m_children : List Address) (m_pContext : Option Address)
      (m_returnTypes : List (Option IndexedObject)) (m_iMaxRanges : ℤ)
  | transient (kind : Transient) (m_children : List Address)
  | dimensionReferenceRead (m_children : List Address) (m_pInstance m_pReference : Option Address)
      (m_pDimension : Option IndexedObject)
  | monoReference (m_children : List Address) (m_pFrom m_pInstance : Option Address)
  | polyReference (m_children : List Address) (m_pFrom : Option Address)
  | polyCase (m_children : List Address) (m_pReference m_pTo : Option Address)
  | actionOperation (kind : ActionOperation) (m_children : List Address)
      (m_pInstance : Option Address) (m_pInterface m_pTarget : Option IndexedObject)
  | dimensionOperation (kind : DimensionOperation) (m_children : List Address)
      (m_pInstance : Option Address) (m_pInterface m_pTarget : Option IndexedObject)
  | writeLinkOperation (m_children : List Address) (m_pInstance : Option Address)
      (m_pInterface m_pTarget m_pLinkGroup : Option IndexedObject)
  | rangeOperation (m_children : List Address) (m_pInstance : Option Address)
      (m_pInterface m_pTarget : Option IndexedObject) (m_rangeType : RangeType)
deriving DecidableEq

namespace Element

/-- `ASTElement::getType`. -/
def getType : Element → ASTElementType
  | .instanceVariable .. => .eInstanceVariable
  | .referenceVariable .. => .eReferenceVariable
  | .dimensionReferenceVariable .. => .eDimensionVariable
  | .contextVariable .. => .eContextVariable
  | .derivation .parent .. => .eParentDerivationInstruction
  | .derivation .child .. => .eChildDerivationInstruction
  | .derivation .enum .. => .eEnumDerivationInstruction
  | .enumeration .. => .eEnumerationInstruction
  | .transient .failure .. => .eFailureInstruction
  | .transient .elimination .. => .eEliminationInstruction
  | .transient .prune .. => .ePruneInstruction
  | .dimensionReferenceRead .. => .eDimensionReferenceReadInstruction
  | .monoReference .. => .eMonoReferenceInstruction
  | .polyReference .. => .ePolyReferenceInstruction
  | .polyCase .. => .ePolyCaseInstruction
  | .actionOperation .call .. => .eCallOperation
  | .actionOperation .start .. => .eStartOperation
  | .actionOperation .stop .. => .eStopOperation
  | .actionOperation .pause .. => .ePauseOperation
  | .actionOperation .resume .. => .eResumeOperation
  | .actionOperation .done .. => .eDoneOperation
  | .actionOperation .waitAction .. => .eWaitActionOperation
  | .actionOperation .getAction .. => .eGetActionOperation
  | .dimensionOperation .waitDimension .. => .eWaitDimensionOperation
  | .dimensionOperation .getDimension .. => .eGetDimensionOperation
  | .dimensionOperation .read .. => .eReadOperation
  | .dimensionOperation .write .. => .eWriteOperation
  | .writeLinkOperation .. => .eWriteLinkOperation
  | .rangeOperation .. => .eRangeOperation

/-- The element that `ASTSerialiser::load` creates for a class, or none where it throws. -/
def create : ASTElementType → Option Element
  | .eInstanceVariable => some (.instanceVariable none none)
  | .eReferenceVariable => some (.referenceVariable none [])
  | .eDimensionVariable => some (.dimensionReferenceVariable none [])
  | .eContextVariable => some (.contextVariable none [])
  | .eRootInstruction => none
  | .eParentDerivationInstruction => some (.derivation .parent [] none none)
  | .eChildDerivationInstruction => some (.derivation .child [] none none)
  | .eEnumDerivationInstruction => some (.derivation .enum [] none none)
  | .eEnumerationInstruction => some (.enumeration [] none [] 0)
  | .eFailureInstruction => none
  | .eEliminationInstruction => none
  | .ePruneInstruction => none
  | .eDimensionReferenceReadInstruction => some (.dimensionReferenceRead [] none none none)
  | .eMonoReferenceInstruction => some (.monoReference [] none none)
  | .ePolyReferenceInstruction => some (.polyReference [] none)
  | .ePolyCaseInstruction => some (.polyCase [] none none)
  | .eCallOperation => some (.actionOperation .call [] none none none)
  | .eStartOperation => some (.actionOperation .start [] none none none)
  | .eStopOperation => some (.actionOperation .stop [] none none none)
  | .ePauseOperation => some (.actionOperation .pause [] none none none)
  | .eResumeOperation => some (.actionOperation .resume [] none none none)
  | .eDoneOperation => some (.actionOperation .done [] none none none)
  | .eWaitActionOperation => some (.actionOperation .waitAction [] none none none)
  | .eWaitDimensionOperation => some (.dimensionOperation .waitDimension [] none none none)
  | .eGetActionOperation => some (.actionOperation .getAction [] none none none)
  | .eGetDimensionOperation => some (.dimensionOperation .getDimension [] none none none)
  | .eReadOperation => some (.dimensionOperation .read [] none none none)
  | .eWriteOperation => some (.dimensionOperation .write [] none none none)
  | .eWriteLinkOperation => some (.writeLinkOperation [] none none none none)
  | .eRangeOperation => some (.rangeOperation [] none none none .eRaw)

end Element

namespace ASTElementType

/-! What `dynamic_cast` from an element of the class gives. -/

def isInstanceVariable : ASTElementType → Bool
  | .eInstanceVariable => true
  | _ => false

def isReferenceVariable : ASTElementType → Bool
  | .eReferenceVariable | .eDimensionVariable | .eContextVariable => true
  | _ => false

def isDimensionReferenceVariable : ASTElementType → Bool
  | .eDimensionVariable => true
  | _ => false

def isContextVariable : ASTElementType → Bool
  | .eContextVariable => true
  | _ => false

def isVariable (type : ASTElementType) : Bool := type.isInstanceVariable || type.isReferenceVariable

def isInstruction (type : ASTElementType) : Bool := !type.isVariable

end ASTElementType

/-! ## Storing -/

/-- `m_addressMap` and `m_addressMapBack`. -/
structure ASTSerialiser where
  m_addressMap : List (Address × ℕ)
  m_addressMapBack : List (ℕ × Address)

def ASTSerialiser.insert (serialiser : ASTSerialiser) (pElement : Address) (szIndex : ℕ) :
    ASTSerialiser :=
  ⟨serialiser.m_addressMap ++ [(pElement, szIndex)],
    serialiser.m_addressMapBack ++ [(szIndex, pElement)]⟩

abbrev StoringAST := Storing Value ASTSerialiser ArchiveFault

section Store
variable (storePointer : Option Address → StoringAST Unit)

/-- `Instruction::store`. -/
def storeInstruction (m_children : List Address) : StoringAST Unit :=
  storeVector (fun pChild => storePointer (some pChild)) m_children

/-- The virtual `store` of an element; `storePointer` is that of the serialiser. -/
def Element.store : Element → StoringAST Unit
  | .instanceVariable m_pParent m_pType => do
    storePointer m_pParent
    storeObjectRef m_pType
  | .referenceVariable m_pParent m_types => do
    storePointer m_pParent
    storeObjectVector m_types
  | .dimensionReferenceVariable m_pParent _ => storePointer m_pParent
  | .contextVariable m_pParent _ => storePointer m_pParent
  | .derivation _ m_children m_pFrom m_pTo => do
    storeInstruction storePointer m_children
    storePointer m_pFrom
    storePointer m_pTo
  | .enumeration m_children m_pContext m_returnTypes m_iMaxRanges => do
    storeInstruction storePointer m_children
    storePointer m_pContext
    storeObjectVector m_returnTypes
    Storing.write (.int m_iMaxRanges)
  | .transient _ m_children => do
    storeInstruction storePointer m_children
    Storing.fail .unreachable
  | .dimensionReferenceRead m_children m_pInstance m_pReference m_pDimension => do
    storeInstruction storePointer m_children
    storePointer m_pInstance
    storePointer m_pReference
    storeObjectRef m_pDimension
  | .monoReference m_children m_pFrom m_pInstance => do
    storeInstruction storePointer m_children
    storePointer m_pFrom
    storePointer m_pInstance
  | .polyReference m_children m_pFrom => do
    storeInstruction storePointer m_children
    storePointer m_pFrom
  | .polyCase m_children m_pReference m_pTo => do
    storeInstruction storePointer m_children
    storePointer m_pReference
    storePointer m_pTo
  | .actionOperation _ m_children m_pInstance m_pInterface m_pTarget => do
    storeInstruction storePointer m_children
    storePointer m_pInstance
    storeObjectRef m_pInterface
    storeObjectRef m_pTarget
  | .dimensionOperation _ m_children m_pInstance m_pInterface m_pTarget => do
    storeInstruction storePointer m_children
    storePointer m_pInstance
    storeObjectRef m_pInterface
    storeObjectRef m_pTarget
  | .writeLinkOperation m_children m_pInstance m_pInterface m_pTarget m_pLinkGroup => do
    storeInstruction storePointer m_children
    storePointer m_pInstance
    storeObjectRef m_pInterface
    storeObjectRef m_pTarget
    storeObjectRef m_pLinkGroup
  | .rangeOperation m_children m_pInstance m_pInterface m_pTarget m_rangeType => do
    storeInstruction storePointer m_children
    storePointer m_pInstance
    storeObjectRef m_pInterface
    storeObjectRef m_pTarget
    Storing.write (.rangeType m_rangeType)

end Store

/-- The body of `ASTSerialiser::store`, which is `storePointer` for the elements below. -/
def ASTSerialiser.storeElement (elements : List Element) (storePointer : Option Address → StoringAST Unit) :
    Option Address → StoringAST Unit
  | none => Storing.write (.bool true)
  | some pElement => do
    Storing.write (.bool false)
    let serialiser ← get
    match serialiser.m_addressMap.lookup pElement with
    | some szIndex => Storing.write (.size szIndex)
    | none =>
      let szIndex := serialiser.m_addressMap.length
      Storing.write (.size szIndex)
      set (serialiser.insert pElement szIndex)
      match elements[pElement]? with
      | some element => do
        Storing.write (.elementType element.getType)
        element.store storePointer
      | none => Storing.fail .undefined

/-- `ASTSerialiser::store`, down to a depth. -/
def ASTSerialiser.store (elements : List Element) : ℕ → Option Address → StoringAST Unit
  | 0 => fun _ => Storing.fail .undefined
  | depth + 1 => storeElement elements (store elements depth)

/-! ## Loading -/

/-- The serialiser, and the elements that have been created. -/
structure LoadState where
  serialiser : ASTSerialiser
  elements : List Element

abbrev LoadingAST := Loading Value LoadState ArchiveFault

/-- The `load` for a derived class: `is` is the `dynamic_cast`. -/
def loadAs (loadPointer : LoadingAST (Option Address)) (is : ASTElementType → Bool) :
    LoadingAST (Option Address) := do
  match ← loadPointer with
  | none => return none
  | some pElement =>
    let (_, state) ← get
    if (state.elements[pElement]?.map fun e => is e.getType) = some true then return some pElement
    else Loading.fail .notAnElement

section Load
variable {κ : Type} (files : ObjectFiles κ) (loadPointer : LoadingAST (Option Address))

/-- One child of an instruction. -/
def loadChild : LoadingAST Address := do
  match ← loadAs loadPointer ASTElementType.isInstruction with
  | some pInstruction => return pInstruction
  | none => Loading.fail .notAnElement

/-- `Instruction::load`. -/
def loadInstruction (m_children : List Address) : LoadingAST (List Address) := do
  let loaded ← loadVector (loadChild loadPointer)
  return m_children ++ loaded

open ASTElementType in
/-- The virtual `load` of an element that has been created; `loadPointer` is that of the serialiser. -/
def Element.load : Element → LoadingAST Element
  | .instanceVariable .. => do
    let m_pParent ← loadAs loadPointer isVariable
    let m_pType ← loadObjectRef files .concreteAction
    return .instanceVariable m_pParent m_pType
  | .referenceVariable _ m_types => do
    let m_pParent ← loadAs loadPointer isVariable
    let loaded ← loadObjectVector files .concreteElement
    return .referenceVariable m_pParent (m_types ++ loaded)
  | .dimensionReferenceVariable _ m_types => do
    let m_pParent ← loadAs loadPointer isVariable
    return .dimensionReferenceVariable m_pParent m_types
  | .contextVariable _ m_types => do
    let m_pParent ← loadAs loadPointer isVariable
    return .contextVariable m_pParent m_types
  | .derivation kind m_children _ _ => do
    let m_children ← loadInstruction loadPointer m_children
    let m_pFrom ← loadAs loadPointer isInstanceVariable
    let m_pTo ← loadAs loadPointer isInstanceVariable
    return .derivation kind m_children m_pFrom m_pTo
  | .enumeration m_children _ m_returnTypes _ => do
    let m_children ← loadInstruction loadPointer m_children
    let m_pContext ← loadAs loadPointer isInstanceVariable
    let loaded ← loadObjectVector files .interfaceElement
    let m_iMaxRanges ← loadValue Value.int?
    return .enumeration m_children m_pContext (m_returnTypes ++ loaded) m_iMaxRanges
  | .transient _ m_children => do
    let _ ← loadInstruction loadPointer m_children
    Loading.fail .unreachable
  | .dimensionReferenceRead m_children _ _ _ => do
    let m_children ← loadInstruction loadPointer m_children
    let m_pInstance ← loadAs loadPointer isInstanceVariable
    let m_pReference ← loadAs loadPointer isDimensionReferenceVariable
    let m_pDimension ← loadObjectRef files .concreteDimension
    return .dimensionReferenceRead m_children m_pInstance m_pReference m_pDimension
  | .monoReference m_children _ _ => do
    let m_children ← loadInstruction loadPointer m_children
    let m_pFrom ← loadAs loadPointer isReferenceVariable
    let m_pInstance ← loadAs loadPointer isInstanceVariable
    return .monoReference m_children m_pFrom m_pInstance
  | .polyReference m_children _ => do
    let m_children ← loadInstruction loadPointer m_children
    let m_pFrom ← loadAs loadPointer isReferenceVariable
    return .polyReference m_children m_pFrom
  | .polyCase m_children _ _ => do
    let m_children ← loadInstruction loadPointer m_children
    let m_pReference ← loadAs loadPointer isReferenceVariable
    let m_pTo ← loadAs loadPointer isInstanceVariable
    return .polyCase m_children m_pReference m_pTo
  | .actionOperation kind m_children _ _ _ => do
    let m_children ← loadInstruction loadPointer m_children
    let m_pInstance ← loadAs loadPointer isInstanceVariable
    let m_pInterface ← loadObjectRef files .interfaceContext
    let m_pTarget ← loadObjectRef files .concreteAction
    return .actionOperation kind m_children m_pInstance m_pInterface m_pTarget
  | .dimensionOperation kind m_children _ _ _ => do
    let m_children ← loadInstruction loadPointer m_children
    let m_pInstance ← loadAs loadPointer isInstanceVariable
    let m_pInterface ← loadObjectRef files .interfaceDimension
    let m_pTarget ← loadObjectRef files .concreteDimensionUser
    return .dimensionOperation kind m_children m_pInstance m_pInterface m_pTarget
  | .writeLinkOperation m_children _ _ _ _ => do
    let m_children ← loadInstruction loadPointer m_children
    let m_pInstance ← loadAs loadPointer isInstanceVariable
    let m_pInterface ← loadObjectRef files .interfaceDimension
    let m_pTarget ← loadObjectRef files .concreteDimensionUser
    let m_pLinkGroup ← loadObjectRef files .linkGroup
    return .writeLinkOperation m_children m_pInstance m_pInterface m_pTarget m_pLinkGroup
  | .rangeOperation m_children _ _ _ _ => do
    let m_children ← loadInstruction loadPointer m_children
    let m_pInstance ← loadAs loadPointer isInstanceVariable
    let m_pInterface ← loadObjectRef files .interfaceContext
    let m_pTarget ← loadObjectRef files .concreteAction
    let m_rangeType ← loadValue Value.rangeType?
    return .rangeOperation m_children m_pInstance m_pInterface m_pTarget m_rangeType

end Load

def LoadState.insert (state : LoadState) (szIndex : ℕ) (element : Element) : LoadState :=
  ⟨state.serialiser.insert state.elements.length szIndex, state.elements ++ [element]⟩

def LoadState.setElement (state : LoadState) (pElement : Address) (element : Element) : LoadState :=
  { state with elements := state.elements.set pElement element }

section Serialiser
variable {κ : Type} (files : ObjectFiles κ)

/-- The body of `ASTSerialiser::load`, which is `loadPointer` for the elements below. -/
def ASTSerialiser.loadElement (loadPointer : LoadingAST (Option Address)) :
    LoadingAST (Option Address) := do
  let bNull ← loadValue Value.bool?
  if bNull then return none
  else
    let szIndex ← loadValue Value.size?
    let (_, state) ← get
    match state.serialiser.m_addressMapBack.lookup szIndex with
    | some pElement => return some pElement
    | none =>
      let type ← loadValue Value.elementType?
      match Element.create type with
      | none => Loading.fail .unreachable
      | some pNewElement =>
        let pElement := state.elements.length
        modify fun (values, state) => (values, state.insert szIndex pNewElement)
        let element ← pNewElement.load files loadPointer
        modify fun (values, state) => (values, state.setElement pElement element)
        return some pElement

/-- `ASTSerialiser::load`, down to a depth. -/
def ASTSerialiser.load : ℕ → LoadingAST (Option Address)
  | 0 => Loading.fail .undefined
  | depth + 1 => loadElement files (load depth)

end Serialiser

/-! ## Solutions -/

/-- `RootInstruction`. -/
structure RootInstruction where
  m_children : List Address
  m_pContext : Option Address
  m_iMaxRanges : ℤ
deriving DecidableEq

/-- `RootInstruction::store`. -/
def RootInstruction.store (storePointer : Option Address → StoringAST Unit) (root : RootInstruction) :
    StoringAST Unit := do
  storeInstruction storePointer root.m_children
  storePointer root.m_pContext
  Storing.write (.int root.m_iMaxRanges)

/-- `RootInstruction::load`, into a new instruction. -/
def RootInstruction.load (loadPointer : LoadingAST (Option Address)) : LoadingAST RootInstruction := do
  let m_children ← loadInstruction loadPointer []
  let m_pContext ← loadAs loadPointer ASTElementType.isContextVariable
  let m_iMaxRanges ← loadValue Value.int?
  return ⟨m_children, m_pContext, m_iMaxRanges⟩

/-- A pointer to an interface element and one to a concrete element. -/
abbrev ElementPair := Option IndexedObject × Option IndexedObject

/-- The fields of an `InvocationSolution` but for the instructions. -/
structure InvocationFields where
  context : List (Option IndexedObject)
  typePath : List (List (Option IndexedObject))
  operation : OperationID
  m_implicitTypePath : List ℤ
  m_context : List ElementPair
  m_typePath : List (List ElementPair)
  m_returnTypes : List (Option IndexedObject)
  m_parameterTypes : List (Option IndexedObject)
  m_bDimensions : Bool
  m_bHomogeneousDimensions : Bool
  m_explicitOperation : ExplicitOperationID
deriving DecidableEq

/-- `InvocationSolution`: its fields, its root instruction and the elements that it points to. -/
structure InvocationSolution where
  fields : InvocationFields
  m_pRoot : RootInstruction
  elements : List Element
deriving DecidableEq

def storePair (pair : ElementPair) : StoringAST Unit := do
  storeObjectRef pair.1
  storeObjectRef pair.2

def InvocationFields.store (fields : InvocationFields) : StoringAST Unit := do
  storeObjectVector fields.context
  storeObjectVectorVector fields.typePath
  Storing.write (.operationID fields.operation)
  Storing.write (.ints fields.m_implicitTypePath)
  storeVector storePair fields.m_context
  storeVector (storeVector storePair) fields.m_typePath
  storeObjectVector fields.m_returnTypes
  storeObjectVector fields.m_parameterTypes
  Storing.write (.bool fields.m_bDimensions)
  Storing.write (.bool fields.m_bHomogeneousDimensions)
  Storing.write (.explicitOperationID fields.m_explicitOperation)

/-- `InvocationSolution::store`. -/
def InvocationSolution.storing (solution : InvocationSolution) : StoringAST Unit := do
  solution.fields.store
  solution.m_pRoot.store (ASTSerialiser.store solution.elements (solution.elements.length + 1))

/-- What `InvocationSolution::store` writes. -/
def InvocationSolution.store (solution : InvocationSolution) : Except ArchiveFault (List Value) := do
  let (_, archive) ← (solution.storing ⟨[], []⟩).run
  return archive

section LoadSolution
variable {κ : Type} (files : ObjectFiles κ)

def loadPair : LoadingAST ElementPair := do
  let pInterface ← loadObjectRef files .interfaceElement
  let pConcrete ← loadObjectRef files .concreteElement
  return (pInterface, pConcrete)

def InvocationFields.load : LoadingAST InvocationFields := do
  let context ← loadObjectVector files .interfaceElement
  let typePath ← loadObjectVectorVector files .interfaceElement
  let operation ← loadValue Value.operationID?
  let m_implicitTypePath ← loadValue Value.ints?
  let m_context ← loadVector (loadPair files)
  let m_typePath ← loadVector (loadVector (loadPair files))
  let m_returnTypes ← loadObjectVector files .interfaceElement
  let m_parameterTypes ← loadObjectVector files .interfaceElement
  let m_bDimensions ← loadValue Value.bool?
  let m_bHomogeneousDimensions ← loadValue Value.bool?
  let m_explicitOperation ← loadValue Value.explicitOperationID?
  return { context, typePath, operation, m_implicitTypePath, m_context, m_typePath, m_returnTypes,
           m_parameterTypes, m_bDimensions, m_bHomogeneousDimensions, m_explicitOperation }

/-- `InvocationSolution::load`, with pointers down to a depth. -/
def InvocationSolution.loading (depth : ℕ) : LoadingAST (InvocationFields × RootInstruction) := do
  let fields ← InvocationFields.load files
  let m_pRoot ← RootInstruction.load (ASTSerialiser.load files depth)
  return (fields, m_pRoot)

/-- The solution that `InvocationSolution::load` reads, and what it leaves of the archive. -/
def InvocationSolution.load (archive : List Value) :
    Except ArchiveFault (InvocationSolution × List Value) := do
  let ((fields, m_pRoot), rest, state) ← loading files archive.length (archive, ⟨⟨[], []⟩, []⟩)
  return (⟨fields, m_pRoot, state.elements⟩, rest)

end LoadSolution

end EgLang.Compiler.Archive
