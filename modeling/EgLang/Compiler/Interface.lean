import Mathlib.Data.List.Nodup
import Mathlib.Tactic

/-!
# The interface tree

The elements of a program as it is written: contexts, which may have base contexts, dimensions, and the
rest, each with its members.
-/

namespace EgLang.Compiler

set_option autoImplicit false

inductive RootType
  | eInterfaceRoot
  | eFile
  | eFileRoot
  | eMegaRoot
  | eCoordinator
  | eHostName
  | eProjectName
  | eSubFolder
deriving DecidableEq, Repr

/-- `ObjectType`, of the interface elements; that of a root with its root type. -/
inductive ElementType
  | eAbstractOpaque
  | eAbstractDimension
  | eAbstractInclude
  | eAbstractUsing
  | eAbstractExport
  | eAbstractAbstract
  | eAbstractEvent
  | eAbstractFunction
  | eAbstractAction
  | eAbstractObject
  | eAbstractLink
  | eAbstractRoot (rootType : RootType)
deriving DecidableEq, Repr

namespace ElementType

/-- `dynamic_cast< const interface::Context* >`. -/
def isContext : ElementType → Bool
  | eAbstractAbstract | eAbstractEvent | eAbstractFunction | eAbstractAction | eAbstractObject
  | eAbstractLink | eAbstractRoot _ => true
  | _ => false

/-- `dynamic_cast< const interface::Link* >`. -/
def isLink : ElementType → Bool
  | eAbstractLink => true
  | _ => false

/-- `dynamic_cast< const interface::Function* >`. -/
def isFunction : ElementType → Bool
  | eAbstractFunction => true
  | _ => false

/-- `dynamic_cast< const interface::Root* >`. -/
def isRoot : ElementType → Bool
  | eAbstractRoot _ => true
  | _ => false

/-- `dynamic_cast< const interface::Object* >`; a root is an object. -/
def isObject : ElementType → Bool
  | eAbstractObject | eAbstractRoot _ => true
  | _ => false

/-- `Context::isAbstract`. -/
def isAbstract : ElementType → Bool
  | eAbstractAbstract => true
  | _ => false

end ElementType

/-- The interface elements of a session, as the interface pass leaves them: a tree, in which contexts
have other contexts as bases, each once, functions have none, a link has its target alone, and no link
is a base. -/
structure Interface (ι : Type) where
  /-- the elements, by index -/
  objects : List ι
  getType : ι → ElementType
  getIdentifier : ι → String
  getParent : ι → Option ι
  getChildren : ι → List ι
  getBaseContexts : ι → List ι
  depth : ι → ℕ
  objects_nodup : objects.Nodup
  children_nodup : ∀ e, (getChildren e).Nodup
  child_mem : ∀ {e p}, e ∈ getChildren p → e ∈ objects
  child_parent : ∀ {e p}, e ∈ getChildren p → getParent e = some p
  child_depth : ∀ {e p}, e ∈ getChildren p → depth e = depth p + 1
  bases_nodup : ∀ c, (getBaseContexts c).Nodup
  base_mem : ∀ {b c}, b ∈ getBaseContexts c → b ∈ objects
  base_isContext : ∀ {b c}, b ∈ getBaseContexts c → (getType b).isContext = true
  base_not_link : ∀ {b c}, b ∈ getBaseContexts c → (getType b).isLink = false
  function_bases : ∀ {c}, (getType c).isFunction = true → getBaseContexts c = []
  link_target : ∀ {c}, (getType c).isLink = true → ∃ t, getBaseContexts c = [t]
  link_identifier : ∀ {c}, (getType c).isLink = true → getIdentifier c ≠ ""

namespace Interface
variable {ι : Type} (I : Interface ι)

/-- `many< interface::Context >`. -/
def contexts : List ι := I.objects.filter fun e => (I.getType e).isContext

/-- The contexts that are no links. -/
def plainContexts : List ι := I.contexts.filter fun e => !(I.getType e).isLink

/-- The contexts that are links. -/
def links : List ι := I.contexts.filter fun e => (I.getType e).isLink

variable {I} {e b c : ι}

theorem mem_contexts : e ∈ I.contexts ↔ e ∈ I.objects ∧ (I.getType e).isContext = true :=
  List.mem_filter

theorem mem_plainContexts :
    e ∈ I.plainContexts ↔ e ∈ I.contexts ∧ (I.getType e).isLink = false := by
  rw [plainContexts, List.mem_filter, Bool.not_eq_true']

theorem mem_links : e ∈ I.links ↔ e ∈ I.contexts ∧ (I.getType e).isLink = true := List.mem_filter

theorem plainContexts_nodup : I.plainContexts.Nodup := (I.objects_nodup.filter _).filter _

theorem base_mem_plainContexts (h : b ∈ I.getBaseContexts c) : b ∈ I.plainContexts :=
  mem_plainContexts.mpr ⟨mem_contexts.mpr ⟨I.base_mem h, I.base_isContext h⟩, I.base_not_link h⟩

end Interface

/-! ## Programs given as a list -/

/-- An element, with the positions of its parent and its bases in a list. -/
structure Declaration where
  type : ElementType
  identifier : String
  parent : Option ℕ
  bases : List ℕ
deriving DecidableEq, Repr

namespace Declaration

def typeAt (ds : List Declaration) (i : ℕ) : ElementType :=
  (ds[i]?.map type).getD .eAbstractOpaque

def identifierAt (ds : List Declaration) (i : ℕ) : String := (ds[i]?.map identifier).getD ""

def parentAt (ds : List Declaration) (i : ℕ) : Option ℕ := ds[i]?.bind parent

def basesAt (ds : List Declaration) (i : ℕ) : List ℕ := (ds[i]?.map bases).getD []

def childrenAt (ds : List Declaration) (i : ℕ) : List ℕ :=
  (List.range ds.length).filter fun e => parentAt ds e = some i

/-- The number of steps up to the root, at most the fuel. -/
def depthAt (ds : List Declaration) : ℕ → ℕ → ℕ
  | 0, _ => 0
  | fuel + 1, i =>
    match parentAt ds i with
    | none => 0
    | some p => depthAt ds fuel p + 1

/-- The list is that of a program. -/
def Valid (ds : List Declaration) : Prop :=
  ∀ i < ds.length,
    (∀ p ∈ parentAt ds i, depthAt ds ds.length i = depthAt ds ds.length p + 1) ∧
      (basesAt ds i).Nodup ∧
        (∀ b ∈ basesAt ds i, b < ds.length ∧ (typeAt ds b).isContext = true ∧
          (typeAt ds b).isLink = false) ∧
          ((typeAt ds i).isFunction = true → basesAt ds i = []) ∧
            ((typeAt ds i).isLink = true → (basesAt ds i).length = 1 ∧ identifierAt ds i ≠ "")

instance (ds : List Declaration) : Decidable (Valid ds) :=
  inferInstanceAs (Decidable (∀ i < ds.length, _ ∧ _ ∧ _ ∧ _ ∧ _))

variable {ds : List Declaration} {i : ℕ}

theorem typeAt_of_le (h : ds.length ≤ i) : typeAt ds i = .eAbstractOpaque := by
  simp [typeAt, List.getElem?_eq_none h]

theorem basesAt_of_le (h : ds.length ≤ i) : basesAt ds i = [] := by
  simp [basesAt, List.getElem?_eq_none h]

theorem mem_childrenAt {e : ℕ} : e ∈ childrenAt ds i ↔ e < ds.length ∧ parentAt ds e = some i := by
  simp [childrenAt]

end Declaration

open Declaration in
/-- The interface of a list of declarations. -/
def Interface.ofDeclarations (ds : List Declaration) (h : Valid ds) : Interface ℕ where
  objects := List.range ds.length
  getType := typeAt ds
  getIdentifier := identifierAt ds
  getParent := parentAt ds
  getChildren := childrenAt ds
  getBaseContexts := basesAt ds
  depth := depthAt ds ds.length
  objects_nodup := List.nodup_range
  children_nodup _ := List.nodup_range.filter _
  child_mem he := List.mem_range.mpr (mem_childrenAt.mp he).1
  child_parent he := (mem_childrenAt.mp he).2
  child_depth he := (h _ (mem_childrenAt.mp he).1).1 _ (mem_childrenAt.mp he).2
  bases_nodup c := by
    by_cases hc : c < ds.length
    · exact (h c hc).2.1
    · rw [basesAt_of_le (not_lt.mp hc)]
      exact .nil
  base_mem {b c} hb := by
    by_cases hc : c < ds.length
    · exact List.mem_range.mpr ((h c hc).2.2.1 b hb).1
    · rw [basesAt_of_le (not_lt.mp hc)] at hb
      exact absurd hb List.not_mem_nil
  base_isContext {b c} hb := by
    by_cases hc : c < ds.length
    · exact ((h c hc).2.2.1 b hb).2.1
    · rw [basesAt_of_le (not_lt.mp hc)] at hb
      exact absurd hb List.not_mem_nil
  base_not_link {b c} hb := by
    by_cases hc : c < ds.length
    · exact ((h c hc).2.2.1 b hb).2.2
    · rw [basesAt_of_le (not_lt.mp hc)] at hb
      exact absurd hb List.not_mem_nil
  function_bases {c} hf := by
    by_cases hc : c < ds.length
    · exact (h c hc).2.2.2.1 hf
    · exact basesAt_of_le (not_lt.mp hc)
  link_target {c} hl := by
    by_cases hc : c < ds.length
    · exact List.length_eq_one_iff.mp ((h c hc).2.2.2.2 hl).1
    · rw [typeAt_of_le (not_lt.mp hc)] at hl
      cases hl
  link_identifier {c} hl := by
    by_cases hc : c < ds.length
    · exact ((h c hc).2.2.2.2 hl).2
    · rw [typeAt_of_le (not_lt.mp hc)] at hl
      cases hl

end EgLang.Compiler
