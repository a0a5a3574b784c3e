import EgLang.Library.StepSystem
import EgLang.Sessions.AnalysisObjects
import EgLang.Sessions.ConcreteObjects
import EgLang.Sessions.InterfaceObjects

/-!
# The classes of objects

For each type of object the class that archives it. All classes but one are archived member by member and
loaded as they were stored; the solution of an invocation holds a tree of instructions, whose archive has
no place for the types of some variables.
-/

namespace EgLang.Sessions

open EgLang.Compiler.Archive EgLang.Library

set_option autoImplicit false

/-! ## Solutions of invocations -/

namespace Loaded

/-- The objects that have been created, as the loading of instructions sees them. -/
def objectFiles (w : Loaded) : ObjectFiles ObjectType where
  m_files := w.m_files
  isA type T := type.isA (.ofObjectClass T)

theorem holds_mono {w w' : Loaded} (hle : w ≤ w') {T : ObjectClass} {p : Option IndexedObject}
    (h : w.objectFiles.Holds T p) : w'.objectFiles.Holds T p := by
  intro o ho
  obtain ⟨m_objects, type, hfile, hindex, hobject, hisA⟩ := h o ho
  obtain ⟨m_objects', hfile', hprefix⟩ := hle.1 _ _ hfile
  exact ⟨m_objects', type, hfile', hindex, getElem?_of_prefix hprefix hobject, hisA⟩

theorem fieldsTyped_mono {w w' : Loaded} (hle : w ≤ w') {fields : InvocationFields}
    (h : fields.Typed w.objectFiles) : fields.Typed w'.objectFiles where
  context p hp := holds_mono hle (h.context p hp)
  typePath ps hps p hp := holds_mono hle (h.typePath ps hps p hp)
  pair pair hpair := ⟨holds_mono hle (h.pair pair hpair).1, holds_mono hle (h.pair pair hpair).2⟩
  pairs pairs hpairs pair hpair := ⟨holds_mono hle (h.pairs pairs hpairs pair hpair).1,
    holds_mono hle (h.pairs pairs hpairs pair hpair).2⟩
  returnTypes p hp := holds_mono hle (h.returnTypes p hp)
  parameterTypes p hp := holds_mono hle (h.parameterTypes p hp)

theorem elementTyped_mono {w w' : Loaded} (hle : w ≤ w') {elements : List Element} {e : Element}
    (h : e.Typed w.objectFiles elements) : e.Typed w'.objectFiles elements := by
  cases e with
  | instanceVariable => exact ⟨h.1, holds_mono hle h.2⟩
  | referenceVariable | dimensionReferenceVariable | contextVariable =>
    exact ⟨h.1, fun p hp => holds_mono hle (h.2 p hp)⟩
  | derivation | transient | monoReference | polyReference | polyCase => exact h
  | enumeration => exact ⟨h.1, h.2.1, fun p hp => holds_mono hle (h.2.2 p hp)⟩
  | dimensionReferenceRead => exact ⟨h.1, h.2.1, h.2.2.1, holds_mono hle h.2.2.2⟩
  | actionOperation | dimensionOperation | rangeOperation =>
    exact ⟨h.1, h.2.1, holds_mono hle h.2.2.1, holds_mono hle h.2.2.2⟩
  | writeLinkOperation =>
    exact ⟨h.1, h.2.1, holds_mono hle h.2.2.1, holds_mono hle h.2.2.2.1, holds_mono hle h.2.2.2.2⟩

theorem solutionTyped_mono {w w' : Loaded} (hle : w ≤ w') {solution : InvocationSolution}
    (h : solution.Typed w.objectFiles) : solution.Typed w'.objectFiles :=
  ⟨fieldsTyped_mono hle h.fields, h.children, h.context,
    fun a e he => elementTyped_mono hle (h.elements a e he)⟩

end Loaded

namespace Solution

/-- What the archive goes on with that instructions are read from. -/
def asts : List Value → List Compiler.Archive.Value
  | .ast v :: vs => v :: asts vs
  | _ => []

/-- What comes after it. -/
def afterAsts : List Value → List Value
  | .ast _ :: vs => afterAsts vs
  | vs => vs

theorem asts_append (as : List Compiler.Archive.Value) (vs : List Value) :
    asts (as.map .ast ++ vs) = as ++ asts vs := by
  induction as with
  | nil => rfl
  | cons a as ih => exact congrArg (a :: ·) ih

theorem afterAsts_append (as : List Compiler.Archive.Value) (vs : List Value) :
    afterAsts (as.map .ast ++ vs) = afterAsts vs := by
  induction as with
  | nil => rfl
  | cons a as ih => exact ih

theorem asts_append_afterAsts (vs : List Value) : (asts vs).map .ast ++ afterAsts vs = vs := by
  induction vs with
  | nil => rfl
  | cons v vs ih =>
    cases v with
    | ast v => exact congrArg (Value.ast v :: ·) ih
    | string s => rfl
    | strings ss => rfl

/-- `InvocationSolution::store`. -/
def store (solution : InvocationSolution) : Except SessionFault (List Value) :=
  match solution.store with
  | .ok archive => .ok (archive.map .ast)
  | .error fault => .error (.archive fault)

/-- `InvocationSolution::load`. -/
def load (w : Loaded) : Loading Value Unit SessionFault InvocationSolution
  | (vs, _) =>
    match InvocationSolution.load w.objectFiles (asts vs) with
    | .ok (solution, rest) => .ok (solution, rest.map .ast ++ afterAsts vs, ())
    | .error fault => .error (.archive fault)

/-- A solution and what is loaded of it: the same fields and instructions, where the context variable and
dimension reference variables have no types. -/
def SameInstructions (solution solution' : InvocationSolution) : Prop :=
  solution'.fields = solution.fields ∧ ∃ φ : Address → Address → Prop,
    InvocationSolution.OneToOne φ ∧ solution.m_pRoot.Same φ solution'.m_pRoot ∧
    ∀ a a', φ a a' → ∃ e e', solution.elements[a]? = some e ∧ e.isTransient = false ∧
      solution'.elements[a']? = some e' ∧ e.archived.Same φ e'

/-- The pointers of a solution are as they are declared, and it leads to no instruction that elimination
was to remove. -/
structure Storable (w : Loaded) (solution : InvocationSolution) : Prop where
  typed : solution.Typed w.objectFiles
  kept : ∀ a e, solution.Leads a → solution.elements[a]? = some e → e.isTransient = false

/-- A solution that has not been loaded. That it has no root instruction and no explicit operation yet is
not seen by anyone. -/
def create : InvocationSolution where
  fields :=
    { context := [], typePath := [], operation := .HIGHEST_OPERATION_TYPE, m_implicitTypePath := [],
      m_context := [], m_typePath := [], m_returnTypes := [], m_parameterTypes := [],
      m_bDimensions := false, m_bHomogeneousDimensions := false, m_explicitOperation := .id_exp_Read }
  m_pRoot := ⟨[], none, 0⟩
  elements := []

/-- The class of solutions. -/
def archived : Class InvocationSolution where
  create := create
  store := store
  load w _ := load w
  Valid := Storable
  Same := SameInstructions
  valid_mono hle h := ⟨Loaded.solutionTyped_mono hle h.typed, h.kept⟩
  reads {w solution} h := by
    obtain ⟨archive, hstore⟩ := h.typed.exists_store h.kept
    refine ⟨archive.map .ast, by rw [store, hstore], fun hle rest => ?_⟩
    obtain ⟨solution', hload, hsame⟩ := InvocationSolution.loaded_of_store
      (Loaded.solutionTyped_mono hle h.typed) hstore (asts rest)
    refine ⟨solution', ?_, hsame⟩
    simp only [load, asts_append, hload, afterAsts_append, asts_append_afterAsts]

end Solution

/-! ## Classes by type -/

/-- The members of an object of a type. -/
def Content : ObjectType → Type
  | .eInputOpaque => Input.Opaque
  | .eInputDimension => Input.Dimension
  | .eInputInclude => Input.Include
  | .eInputUsing => Input.Using
  | .eInputExport => Input.Export
  | .eInputVisibility => Input.Visibility
  | .eInputContext => Input.Context
  | .eInputRoot => Input.Root
  | .eAbstractOpaque => Interface.Opaque
  | .eAbstractDimension => Interface.Dimension
  | .eAbstractInclude => Interface.Include
  | .eAbstractUsing => Interface.Using
  | .eAbstractExport => Interface.Export
  | .eAbstractAbstract => Interface.Abstract
  | .eAbstractEvent => Interface.Event
  | .eAbstractFunction => Interface.Function
  | .eAbstractAction => Interface.Action
  | .eAbstractObject => Interface.Object
  | .eAbstractLink => Interface.Link
  | .eAbstractRoot => Interface.Root
  | .eInheritanceNode => Concrete.Inheritance_Node
  | .eConcreteAction => Concrete.Action
  | .eConcreteDimensionUser => Concrete.Dimension_User
  | .eConcreteDimensionGenerated => Concrete.Dimension_Generated
  | .eConcreteAllocator_Nothing => Concrete.NothingAllocator
  | .eConcreteAllocator_Singleton => Concrete.SingletonAllocator
  | .eConcreteAllocator_Range => Concrete.RangeAllocator
  | .eIdentifiers => Identifiers
  | .eDerivationAnalysis => DerivationAnalysis
  | .eLinkGroup => LinkGroup
  | .eLinkAnalysis => LinkAnalysis
  | .eTranslationUnit => TranslationUnit
  | .eTranslationUnitAnalysis => TranslationUnitAnalysis
  | .eInvocationSolution => InvocationSolution
  | .eDataMember => DataMember
  | .eBuffer => Buffer
  | .eLayout => Layout

/-- The class of the objects of a type: what `ObjectFactoryImpl::create` makes, and `load` and `store`. -/
def classOf : (type : ObjectType) → Class (Content type)
  | .eInputOpaque => Input.Opaque.archived
  | .eInputDimension => Input.Dimension.archived
  | .eInputInclude => Input.Include.archived
  | .eInputUsing => Input.Using.archived
  | .eInputExport => Input.Export.archived
  | .eInputVisibility => Input.Visibility.archived
  | .eInputContext => Input.Context.archived
  | .eInputRoot => Input.Root.archived
  | .eAbstractOpaque => Interface.Opaque.archived
  | .eAbstractDimension => Interface.Dimension.archived
  | .eAbstractInclude => Interface.Include.archived
  | .eAbstractUsing => Interface.Using.archived
  | .eAbstractExport => Interface.Export.archived
  | .eAbstractAbstract => Interface.Abstract.archived
  | .eAbstractEvent => Interface.Event.archived
  | .eAbstractFunction => Interface.Function.archived
  | .eAbstractAction => Interface.Action.archived
  | .eAbstractObject => Interface.Object.archived
  | .eAbstractLink => Interface.Link.archived
  | .eAbstractRoot => Interface.Root.archived
  | .eInheritanceNode => Concrete.Inheritance_Node.archived
  | .eConcreteAction => Concrete.Action.archived
  | .eConcreteDimensionUser => Concrete.Dimension_User.archived
  | .eConcreteDimensionGenerated => Concrete.Dimension_Generated.archived
  | .eConcreteAllocator_Nothing => Concrete.NothingAllocator.archived
  | .eConcreteAllocator_Singleton => Concrete.SingletonAllocator.archived
  | .eConcreteAllocator_Range => Concrete.RangeAllocator.archived
  | .eIdentifiers => Identifiers.archived
  | .eDerivationAnalysis => DerivationAnalysis.archived
  | .eLinkGroup => LinkGroup.archived
  | .eLinkAnalysis => LinkAnalysis.archived
  | .eTranslationUnit => TranslationUnit.archived
  | .eTranslationUnitAnalysis => TranslationUnitAnalysis.archived
  | .eInvocationSolution => Solution.archived
  | .eDataMember => DataMember.archived
  | .eBuffer => Buffer.archived
  | .eLayout => Layout.archived

/-- Only solutions are loaded as something that is not equal. -/
theorem eq_of_same {type : ObjectType} (htype : type ≠ .eInvocationSolution) {c c' : Content type}
    (h : (classOf type).Same c c') : c' = c := by
  cases type
  case eInvocationSolution => exact absurd rfl htype
  all_goals exact Eq.symm h

/-- What there is to an object but for its place. -/
abbrev Members := (type : ObjectType) × Content type

/-! ## Identifiers of interface elements -/

/-- What an interface element has from `interface::Element`. -/
def interfaceElement : Members → Except SessionFault Interface.Element
  | ⟨.eAbstractOpaque, c⟩ => .ok (Interface.Opaque.toElement c)
  | ⟨.eAbstractDimension, c⟩ => .ok (Interface.Dimension.toElement c)
  | ⟨.eAbstractInclude, c⟩ => .ok (Interface.Include.toElement c)
  | ⟨.eAbstractUsing, c⟩ => .ok (Interface.Using.toElement c)
  | ⟨.eAbstractExport, c⟩ => .ok (Interface.Export.toElement c)
  | ⟨.eAbstractAbstract, c⟩ => .ok (Interface.Abstract.toContext c).toElement
  | ⟨.eAbstractEvent, c⟩ => .ok (Interface.Event.toContext c).toElement
  | ⟨.eAbstractFunction, c⟩ => .ok (Interface.Function.toContext c).toElement
  | ⟨.eAbstractAction, c⟩ => .ok (Interface.Action.toContext c).toElement
  | ⟨.eAbstractObject, c⟩ => .ok (Interface.Object.toContext c).toElement
  | ⟨.eAbstractLink, c⟩ => .ok (Interface.Link.toContext c).toElement
  | ⟨.eAbstractRoot, c⟩ => .ok (Interface.Root.toObject c).toContext.toElement
  | _ => .error (.archive .undefined)

def includeIdentifier : Members → Except SessionFault String
  | ⟨.eInputInclude, c⟩ => .ok (Input.Include.toHasIdentifier c).m_strIdentifier
  | _ => .error (.archive .undefined)

/-- The identifier of an input element, as an interface element asks for it. -/
def inputIdentifier : Members → Except SessionFault String
  | ⟨.eInputDimension, c⟩ => .ok (Input.Dimension.toHasIdentifier c).m_strIdentifier
  | ⟨.eInputInclude, c⟩ => .ok (Input.Include.toHasIdentifier c).m_strIdentifier
  | ⟨.eInputUsing, c⟩ => .ok (Input.Using.toHasIdentifier c).m_strIdentifier
  | ⟨.eInputExport, c⟩ => .ok (Input.Export.toHasIdentifier c).m_strIdentifier
  | ⟨.eInputVisibility, _⟩ => .error .visibilityIdentifier
  | ⟨.eInputRoot, c⟩ => .ok (Input.Root.toContext c).toHasIdentifier.m_strIdentifier
  | ⟨.eInputContext, c⟩ => .ok (Input.Context.toHasIdentifier c).m_strIdentifier
  | _ => .error .unsupportedType

section GetIdentifier
variable (members : IndexedObject → Option Members)

/-- What an object says of itself, if it is there. -/
def ask {α : Type} (f : Members → Except SessionFault α) (o : IndexedObject) :
    Except SessionFault α :=
  match members o with
  | some c => f c
  | none => .error (.archive .undefined)

/-- `interface::Element::getIdentifier`, of the objects that are there. -/
def getIdentifier (pElement : IndexedObject) : Except SessionFault String := do
  let element ← ask members interfaceElement pElement
  match element.pIncludeIdentifier, element.m_pElement with
  | some pInclude, _ => ask members includeIdentifier pInclude
  | none, some m_pElement => ask members inputIdentifier m_pElement
  | none, none => return ""

variable {members} {members' : IndexedObject → Option Members}
variable (h : ∀ o c, members o = some c → c.1 ≠ .eInvocationSolution → members' o = some c)
include h

theorem ask_mono {α : Type} {f : Members → Except SessionFault α} {fault : SessionFault}
    (hsolution : ∀ c, f ⟨.eInvocationSolution, c⟩ = .error fault) {a : α} {o : IndexedObject}
    (ha : ask members f o = .ok a) : ask members' f o = .ok a := by
  unfold ask at ha ⊢
  cases hmembers : members o with
  | none =>
    rw [hmembers] at ha
    cases ha
  | some c =>
    rw [hmembers] at ha
    rw [h o c hmembers fun htype => ?_]
    · exact ha
    · obtain ⟨type, content⟩ := c
      obtain rfl : type = .eInvocationSolution := htype
      cases (hsolution content).symm.trans ha

/-- What is known of some of the objects is known of all of them. -/
theorem getIdentifier_mono {pElement : IndexedObject} {s : String}
    (hs : getIdentifier members pElement = .ok s) : getIdentifier members' pElement = .ok s := by
  obtain ⟨element, helement, hs⟩ := except_bind_ok.mp hs
  refine except_bind_ok.mpr ⟨element, ask_mono h (fun _ => rfl) helement, ?_⟩
  obtain ⟨m_pElement, m_pParent, m_visibility, pIncludeIdentifier, m_children⟩ := element
  cases pIncludeIdentifier with
  | some pInclude => exact ask_mono h (fun _ => rfl) hs
  | none =>
    cases m_pElement with
    | some m_pElement => exact ask_mono h (fun _ => rfl) hs
    | none => exact hs

end GetIdentifier
end EgLang.Sessions
