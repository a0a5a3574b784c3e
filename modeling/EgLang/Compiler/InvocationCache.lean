import EgLang.Compiler.Interface
import EgLang.Compiler.Solution
import EgLang.Library.MemoTable
import Mathlib.Data.List.ReduceOption

/-!
# The invocation cache

`InvocationSolutionMap` keeps the solutions of a session under keys that are made from the type ids of
an invocation: the ids are turned into groups of interface elements. The wrapper specialisation of a
solution is printed from its key and from the type path of the request it was built for.
-/

namespace EgLang.Compiler

open EgLang.Library

set_option autoImplicit false

/-! ## Identifiers -/

/-- `TypeID`. -/
abbrev TypeID := ℤ

def HIGHEST_OPERATION_TYPE : TypeID := -2147483637

/-- The array of the objects of the master file, with the elements at their indices; `none` is an object
that is no `interface::Element`. -/
structure Objects (ι : Type) where
  objects : List (Option ι)
  getType : ι → ElementType
  getIdentifier : ι → String
  getIndex : ι → ℕ
  index_eq : ∀ {i : ℕ} {e : ι}, objects[i]? = some (some e) → getIndex e = i

namespace ElementType

/-- The types whose elements `Identifiers::populate` takes. -/
def isIdentified : ElementType → Bool
  | eAbstractOpaque | eAbstractInclude | eAbstractUsing | eAbstractExport => false
  | _ => true

/-- The types whose identifiers `printTypePathType` prints. -/
def isPrinted : ElementType → Bool
  | eAbstractOpaque | eAbstractInclude | eAbstractExport => false
  | _ => true

end ElementType

def isOperationType (id : TypeID) : Bool := id < HIGHEST_OPERATION_TYPE

namespace Objects
variable {ι : Type} (O : Objects ι)

/-- `dynamic_cast< const interface::Element* >( objects[ i ] )`, for an index that is in bounds. -/
def element (i : ℕ) : Option ι := O.objects[i]?.join

/-- `forwardDeclMap`, in the order of the objects. -/
def identified : List ι := O.objects.reduceOption.filter fun e => (O.getType e).isIdentified

/-- `pFirst`, of the elements of an identifier. -/
def first (name : String) : Option ι := O.identified.find? fun e => O.getIdentifier e = name

/-- `m_identifierGroups`; the entries of one identifier are in the order of the indices. -/
def m_identifierGroups : List (ι × ι) :=
  O.identified.filterMap fun e => (O.first (O.getIdentifier e)).map fun pFirst => (pFirst, e)

/-- `m_identifierGroupsBack`. -/
def m_identifierGroupsBack : List (ι × ι) :=
  O.identified.filterMap fun e => (O.first (O.getIdentifier e)).map fun pFirst => (e, pFirst)

/-- `Identifiers::getGroup`. -/
def getGroup (pElement : ι) : List ι :=
  (O.m_identifierGroups.filter fun p => O.getIdentifier p.1 = O.getIdentifier pElement).map Prod.snd

/-- `Identifiers::getGroupBack`. -/
def getGroupBack (pElement : ι) : List ι :=
  match O.m_identifierGroupsBack.find? fun p => O.getIdentifier p.1 = O.getIdentifier pElement with
  | some p => O.getGroup p.2
  | none => []

/-- The elements of an identifier. -/
def named (name : String) : List ι := O.identified.filter fun e => O.getIdentifier e = name

variable {O}

theorem mem_identified {e : ι} :
    e ∈ O.identified ↔ some e ∈ O.objects ∧ (O.getType e).isIdentified = true := by
  rw [identified, List.mem_filter, List.reduceOption_mem_iff]

theorem mem_named {e : ι} {name : String} :
    e ∈ O.named name ↔ e ∈ O.identified ∧ O.getIdentifier e = name := by
  rw [named, List.mem_filter, decide_eq_true_eq]

theorem exists_first {e : ι} (he : e ∈ O.identified) :
    ∃ pFirst, O.first (O.getIdentifier e) = some pFirst ∧ pFirst ∈ O.identified ∧
      O.getIdentifier pFirst = O.getIdentifier e := by
  have hsome : (O.first (O.getIdentifier e)).isSome :=
    List.find?_isSome.mpr ⟨e, he, decide_eq_true rfl⟩
  obtain ⟨pFirst, hfirst⟩ := Option.isSome_iff_exists.mp hsome
  have hid := List.find?_some (p := fun e' => decide (O.getIdentifier e' = O.getIdentifier e)) hfirst
  exact ⟨pFirst, hfirst, List.mem_of_find?_eq_some hfirst, of_decide_eq_true hid⟩

theorem getGroup_eq (pElement : ι) : O.getGroup pElement = O.named (O.getIdentifier pElement) := by
  have key : ∀ l : List ι, (∀ e ∈ l, e ∈ O.identified) →
      ((l.filterMap fun e => (O.first (O.getIdentifier e)).map fun pFirst => (pFirst, e)).filter
        fun p => O.getIdentifier p.1 = O.getIdentifier pElement).map Prod.snd =
      l.filter fun e => O.getIdentifier e = O.getIdentifier pElement := by
    intro l hl
    induction l with
    | nil => rfl
    | cons e l ih =>
      rw [List.forall_mem_cons] at hl
      obtain ⟨pFirst, hfirst, -, hid⟩ := exists_first hl.1
      rw [List.filterMap_cons, hfirst]
      simp only [Option.map_some, List.filter_cons, hid]
      split
      · rw [List.map_cons, ih hl.2]
      · exact ih hl.2
  exact key O.identified fun e he => he

theorem getGroupBack_eq (pElement : ι) : O.getGroupBack pElement = O.getGroup pElement := by
  unfold getGroupBack
  cases h : O.m_identifierGroupsBack.find?
    fun p => O.getIdentifier p.1 = O.getIdentifier pElement with
  | some p =>
    have hid : O.getIdentifier p.1 = O.getIdentifier pElement :=
      of_decide_eq_true (List.find?_some (p := fun q : ι × ι =>
        decide (O.getIdentifier q.1 = O.getIdentifier pElement)) h)
    obtain ⟨e, he, hp⟩ := List.mem_filterMap.mp (List.mem_of_find?_eq_some h)
    obtain ⟨pFirst, hfirst, -, hfid⟩ := exists_first he
    rw [hfirst] at hp
    obtain rfl := Option.some.inj hp
    show O.getGroup pFirst = O.getGroup pElement
    rw [getGroup_eq, getGroup_eq, hfid, hid]
  | none =>
    symm
    rw [getGroup_eq]
    refine List.eq_nil_iff_forall_not_mem.mpr fun e he => ?_
    obtain ⟨hmem, hid⟩ := mem_named.mp he
    obtain ⟨pFirst, hfirst, -⟩ := exists_first hmem
    have hentry : (e, pFirst) ∈ O.m_identifierGroupsBack :=
      List.mem_filterMap.mpr ⟨e, hmem, by rw [hfirst]; rfl⟩
    exact (List.find?_eq_none.mp h) _ hentry (decide_eq_true hid)

theorem element_eq_some {i : ℕ} {e : ι} : O.element i = some e ↔ O.objects[i]? = some (some e) := by
  rw [element, Option.join_eq_some_iff]

theorem element_getIndex {e : ι} (he : some e ∈ O.objects) : O.element (O.getIndex e) = some e := by
  obtain ⟨i, hi⟩ := List.mem_iff_getElem?.mp he
  rw [O.index_eq hi, element_eq_some]
  exact hi

theorem mem_objects_of_element {i : ℕ} {e : ι} (h : O.element i = some e) : some e ∈ O.objects :=
  List.mem_of_getElem? (element_eq_some.mp h)

/-! ## Keys -/

variable (O)

/-- `fromEGTypeID`. -/
def fromEGTypeID (typeID : TypeID) (bForceDecl : Bool) : List ι :=
  if isOperationType typeID then []
  else if typeID < 0 then
    match O.element typeID.natAbs with
    | some pElement => O.getGroup pElement
    | none => []
  else if bForceDecl then
    match O.element typeID.natAbs with
    | some pElement => O.getGroupBack pElement
    | none => []
  else (O.element typeID.natAbs).toList

end Objects

/-- `InvocationID`. -/
structure InvocationID (ι : Type) where
  context : List ι
  typePath : List (List ι)
  operation : OperationID
deriving DecidableEq

/-- What an invocation asks for. -/
structure Request where
  contextTypes : List TypeID
  typePathTypes : List TypeID
  operationTypeID : OperationID

namespace Objects
variable {ι : Type} [DecidableEq ι] (O : Objects ι)

/-- The groups of the ids of a type path that have one. -/
def groups (implicitTypePath : List TypeID) : List (List ι) :=
  (implicitTypePath.map fun typeID => O.fromEGTypeID typeID true).filter (· ≠ [])

/-- The elements of the ids of a context. -/
def contextElements (contextTypes : List TypeID) : List ι :=
  uniquify (contextTypes.flatMap fun typeID => O.fromEGTypeID typeID false)

/-- `InvocationSolution::invocationIDFromTypeIDs`. -/
def invocationIDFromTypeIDs (request : Request) : InvocationID ι where
  context := O.contextElements request.contextTypes
  typePath := O.groups request.typePathTypes
  operation := request.operationTypeID

end Objects

/-! ## Solutions -/

/-- What a request throws. -/
inductive RequestFault
  /-- "Invalid context. " -/
  | invalidContext
  /-- "Invalid type path. " -/
  | invalidTypePath
  /-- "Empty type path for implicit invocation. " -/
  | emptyTypePath
  /-- The loop of `expandReferences` has not ended. -/
  | unresolved
  | resolution (e : ResolutionFault)
  | invocation (e : InvocationFault)
deriving DecidableEq, Repr

/-- An `InvocationSolution`, with what `build` sets in it. -/
structure CachedInvocation (ι κ : Type) extends InvocationSolution ι κ where
  m_invocationID : InvocationID ι
  m_implicitTypePath : List TypeID
  m_context : List (ElementPair ι κ)
  m_typePath : List (List (ElementPair ι κ))

/-- `isOperationImplicit`. -/
def isOperationImplicit : OperationID → Bool
  | .id_Imp_NoParams => true
  | .id_Imp_Params => true
  | _ => false

section Solutions
variable {ι κ : Type} [LinearOrder ι] [LinearOrder κ] (session : Session ι κ) (fuel : ℕ)

/-- The elements of the groups of a type path. -/
def typePathElements : List (List ι) → Except RequestFault (List (List (ElementPair ι κ)))
  | [] => .ok []
  | typePathElement :: typePath =>
    let elementVector := session.getElementVector typePathElement true
    if elementVector = [] then .error .invalidTypePath
    else (typePathElements typePath).map (elementVector :: ·)

/-- `InvocationSolutionMap::constructInvocation`: the elements of the context and of the type path. -/
def constructInvocation (invocationID : InvocationID ι) :
    Except RequestFault (List (ElementPair ι κ) × List (List (ElementPair ι κ))) :=
  let context := session.getElementVector invocationID.context true
  if context = [] then .error .invalidContext
  else
    match typePathElements session invocationID.typePath with
    | .error e => .error e
    | .ok typePath =>
      if typePath = [] ∧ isOperationImplicit invocationID.operation = true then .error .emptyTypePath
      else .ok (context, typePath)

/-- What `getInvocation` makes for a key that the map does not have. -/
def newInvocation (invocationID : InvocationID ι) (implicitTypePath : List TypeID) :
    Except RequestFault (CachedInvocation ι κ) :=
  match constructInvocation session invocationID with
  | .error e => .error e
  | .ok (context, typePath) =>
    match NameResolution.nameResolution session.toDerivationAnalysis fuel invocationID.operation
        context typePath with
    | none => .error .unresolved
    | some (.error e) => .error (.resolution e)
    | some (.ok nodes) =>
      match Invocation.build session invocationID.operation context typePath nodes with
      | .error e => .error (.invocation e)
      | .ok solution => .ok ⟨solution, invocationID, implicitTypePath, context, typePath⟩

variable (O : Objects ι)

/-- `InvocationSolutionMap::getInvocation`, for the key of a request. -/
def getInvocation (m_invocations : MemoTable.Table (InvocationID ι) (CachedInvocation ι κ))
    (request : Request) :
    Except RequestFault (ℕ × MemoTable.Table (InvocationID ι) (CachedInvocation ι κ)) :=
  MemoTable.request O.invocationIDFromTypeIDs
    (fun r => newInvocation session fuel (O.invocationIDFromTypeIDs r) r.typePathTypes)
    m_invocations request

/-- The requests of a session, one after another. -/
def getInvocations (requests : List Request) :
    Except RequestFault (List ℕ × MemoTable.Table (InvocationID ι) (CachedInvocation ι κ)) :=
  MemoTable.requests (getInvocation session fuel O) requests []

end Solutions

/-! ## Wrapper specialisations -/

/-- The text of one template argument. -/
inductive TypeName (ι : Type)
  | operation (id : TypeID)
  | identifier (name : String)
  | static (pElement : ι)
  | nothing
deriving DecidableEq

/-- The arguments of a specialisation of `__invoke_impl`, apart from the type it returns; an argument of
an id that leads to no element is `none`. -/
structure Wrapper (ι : Type) where
  contextTypes : List (Option (TypeName ι))
  typePath : List (Option (TypeName ι))
  operation : OperationID
deriving DecidableEq

namespace Objects
variable {ι : Type} (O : Objects ι)

/-- One argument of `printTypePathType`. -/
def printType (id : TypeID) : Option (TypeName ι) :=
  if isOperationType id then some (.operation id)
  else if id < 0 then
    (O.element id.natAbs).map fun pElement =>
      if (O.getType pElement).isPrinted then .identifier (O.getIdentifier pElement) else .nothing
  else (O.element id.natAbs).map .static

/-- The specialisation that the call of a request names. -/
def wrapper (request : Request) : Wrapper ι where
  contextTypes := request.contextTypes.map O.printType
  typePath := request.typePathTypes.map O.printType
  operation := request.operationTypeID

/-- `generateInvocation`: the specialisation that is generated for a solution. -/
def generateInvocation {κ : Type} (invocation : CachedInvocation ι κ) : Wrapper ι where
  contextTypes := invocation.m_invocationID.context.map fun pElement => some (.static pElement)
  typePath := invocation.m_implicitTypePath.map O.printType
  operation := invocation.m_invocationID.operation

end Objects
end EgLang.Compiler
