import Mathlib.Data.List.FinRange
import Mathlib.Data.String.Basic
import Mathlib.Data.List.Sort
import EgLang.Common

/-! # Concrete programs

What the generator of runtime code reads of a program the compiler has accepted: the tree of
concrete actions with their local domain sizes, and the link groups. Actions are numbered in the
order of their construction, so that the parent of an action has a smaller number.
-/

namespace EgLang.Runtime
set_option autoImplicit false

inductive RootType
  | interfaceRoot | file | fileRoot | projectName | megaRoot | coordinator | hostName | subFolder
deriving DecidableEq, Repr

/-- The class of the context a concrete action is an instance of. -/
inductive ContextType
  | root (rootType : RootType)
  | action | object | link | event | function
deriving DecidableEq, Repr

/-- `LinkGroup`: the links of one name to one set of related contexts. -/
structure LinkGroup (n : ℕ) where
  name : String
  targets : List (Fin n)
  concreteLinks : List (Fin n)

structure Program where
  numActions : ℕ
  parent : Fin numActions → Option (Fin numActions)
  context : Fin numActions → ContextType
  localDomainSize : Fin numActions → ℕ
  index : Fin numActions → ℤ
  groups : List (LinkGroup numActions)
  parent_lt : ∀ a b, parent a = some b → b < a
  localDomainSize_pos : ∀ a, 0 < localDomainSize a
  /-- a root is declared without a size -/
  localDomainSize_root : ∀ a rootType, context a = .root rootType → localDomainSize a = 1
  index_ne_zero : ∀ a, index a ≠ 0
  index_injective : ∀ a b, index a = index b → a = b
  /-- no context is derived from a link -/
  targets_not_link : ∀ g ∈ groups, ∀ t ∈ g.targets, context t ≠ .link
  concreteLinks_link : ∀ g ∈ groups, ∀ l ∈ g.concreteLinks, context l = .link
  /-- the name and the target of a link determine its group -/
  groups_disjoint : ∀ i j : Fin groups.length, ∀ l,
    l ∈ (groups.get i).concreteLinks → l ∈ (groups.get j).concreteLinks → i = j

namespace Program

abbrev Action (p : Program) : Type := Fin p.numActions

abbrev GroupId (p : Program) : Type := Fin p.groups.length

def group (p : Program) (g : p.GroupId) : LinkGroup p.numActions := p.groups.get g

/-! ## Roots -/

def isExecutable (p : Program) (a : p.Action) : Bool :=
  match p.context a with
  | .root .file | .root .fileRoot => true
  | .root _ => false
  | _ => true

def isMainExecutable (p : Program) (a : p.Action) : Bool := p.context a = .root .fileRoot

/-- An object, as a root is one too. -/
def isObject (p : Program) (a : p.Action) : Bool :=
  match p.context a with
  | .object | .root _ => true
  | _ => false

/-! ## Allocators -/

inductive Allocator
  | nothing | singleton | range
deriving DecidableEq, Repr

/-- The roots below and under which instances are allocated. -/
def rootGenerates : RootType → Bool
  | .interfaceRoot | .file | .fileRoot | .projectName => true
  | .megaRoot | .coordinator | .hostName | .subFolder => false

/-- `bGenerate` of `chooseAllocator`. -/
def generates (p : Program) (pChild : p.Action) : Bool :=
  match p.parent pChild with
  | none => false
  | some pParent =>
    match p.context pChild, p.context pParent with
    | .root rootType, _ => rootGenerates rootType
    | _, .root rootType => rootGenerates rootType
    | _, _ => true

/-- `getAllocator`. A function gets a `NothingAllocator`, and so does an event with user dimensions; an
event without them gets what `chooseAllocator` chooses, but its `m_pObject` is never set, so that the
generator of its stopper throws (`VERIFY_RTE( pObject )`): no program has one, and events have no
instances here. -/
def allocator (p : Program) (a : p.Action) : Allocator :=
  match p.context a with
  | .event | .function => .nothing
  | _ =>
    if p.generates a then
      if p.localDomainSize a = 1 then .singleton else .range
    else .nothing

/-! ## The tree -/

def children (p : Program) (a : p.Action) : List p.Action :=
  (List.finRange p.numActions).filter fun c => p.parent c = some a

def getTotalDomainSize (p : Program) (a : p.Action) : ℕ :=
  match _h : p.parent a with
  | none => p.localDomainSize a
  | some b => p.getTotalDomainSize b * p.localDomainSize a
termination_by a.val
decreasing_by exact p.parent_lt a b _h

/-- `getObject`: the nearest object the action is in. `m_pObject` is not set for events and functions. -/
def getObject (p : Program) (a : p.Action) : Option p.Action :=
  if p.isObject a then some a
  else match p.context a with
    | .event | .function => none
    | _ =>
      match _h : p.parent a with
      | none => some a
      | some b => p.getObject b
termination_by a.val
decreasing_by exact p.parent_lt a b _h

/-- `getObjectDomainFactor`: how many instances of the action there are to one of its object. -/
def getObjectDomainFactor (p : Program) (a : p.Action) : ℕ :=
  if p.getObject a = some a then 1
  else match _h : p.parent a with
    | none => 1
    | some b => p.localDomainSize a * p.getObjectDomainFactor b
termination_by a.val
decreasing_by exact p.parent_lt a b _h

/-! ## Links -/

/-- The link group of the base dimension of a link. -/
def linkGroup (p : Program) (l : p.Action) : Option p.GroupId :=
  (List.finRange p.groups.length).find? fun g => l ∈ (p.group g).concreteLinks

/-- `getLinks`: for each name the first group with a back reference in the action, by name. -/
def getLinks (p : Program) (a : p.Action) : List p.GroupId :=
  let linking := (List.finRange p.groups.length).filter fun g => a ∈ (p.group g).targets
  (linking.filter fun g => ∀ g' ∈ linking, (p.group g').name = (p.group g).name → g ≤ g').insertionSort
    fun g g' => (p.group g).name ≤ (p.group g').name

/-- `switch` on the type of a reference over the targets that have an object. -/
def targetOf (p : Program) (g : p.GroupId) (type : ℤ) : Option p.Action :=
  (p.group g).targets.find? fun t => p.index t = type ∧ (p.getObject t).isSome

/-- `switch` on the type of a reference over the concrete links. -/
def linkOf (p : Program) (g : p.GroupId) (type : ℤ) : Option p.Action :=
  (p.group g).concreteLinks.find? fun l => p.index l = type

/-- The action of a type. -/
def actionOf (p : Program) (type : ℤ) : Option p.Action :=
  (List.finRange p.numActions).find? fun a => p.index a = type

variable {p : Program} {a b c l t o : p.Action} {g : p.GroupId} {type : ℤ}

/-- `find?` for a property that at most one element has. -/
theorem find?_eq_some_of_unique {α : Type} {q : α → Bool} {xs : List α} {x : α}
    (hq : ∀ y z, q y = true → q z = true → y = z) :
    xs.find? q = some x ↔ x ∈ xs ∧ q x = true := by
  refine ⟨fun h => ⟨List.mem_of_find?_eq_some h, List.find?_some h⟩, fun ⟨hx, hqx⟩ => ?_⟩
  cases h : xs.find? q with
  | none => exact absurd hqx (List.find?_eq_none.mp h x hx)
  | some y => rw [hq y x (List.find?_some h) hqx]

theorem mem_children : c ∈ p.children a ↔ p.parent c = some a := by
  simp [children]

theorem actionOf_eq_some : p.actionOf type = some a ↔ p.index a = type := by
  rw [actionOf, find?_eq_some_of_unique fun b c hb hc => ?_]
  · simp
  · exact p.index_injective b c ((of_decide_eq_true hb).trans (of_decide_eq_true hc).symm)

theorem linkOf_eq_some :
    p.linkOf g type = some l ↔ l ∈ (p.group g).concreteLinks ∧ p.index l = type := by
  rw [linkOf, find?_eq_some_of_unique fun b c hb hc => ?_, decide_eq_true_eq]
  exact p.index_injective b c ((of_decide_eq_true hb).trans (of_decide_eq_true hc).symm)

theorem targetOf_eq_some : p.targetOf g type = some t ↔
    t ∈ (p.group g).targets ∧ p.index t = type ∧ (p.getObject t).isSome = true := by
  rw [targetOf, find?_eq_some_of_unique fun b c hb hc => ?_, decide_eq_true_eq]
  exact p.index_injective b c ((of_decide_eq_true hb).1.trans (of_decide_eq_true hc).1.symm)

theorem linkGroup_eq_some : p.linkGroup l = some g ↔ l ∈ (p.group g).concreteLinks := by
  rw [linkGroup, find?_eq_some_of_unique fun g g' hg hg' => ?_]
  · simp
  · exact p.groups_disjoint g g' l (of_decide_eq_true hg) (of_decide_eq_true hg')

theorem context_of_linkGroup (h : p.linkGroup l = some g) : p.context l = .link :=
  p.concreteLinks_link _ (List.get_mem _ g) l (linkGroup_eq_some.mp h)

theorem localDomainSize_of_singleton (h : p.allocator a = .singleton) : p.localDomainSize a = 1 := by
  unfold allocator at h
  split at h
  · cases h
  · cases h
  · split_ifs at h with hgenerates hone
    exact hone

theorem getTotalDomainSize_child (h : p.parent c = some a) :
    p.getTotalDomainSize c = p.getTotalDomainSize a * p.localDomainSize c := by
  rw [getTotalDomainSize]
  split
  · rename_i hn
    rw [h] at hn
    cases hn
  · rename_i b hb
    rw [h, Option.some.injEq] at hb
    rw [hb]

theorem getTotalDomainSize_pos (a : p.Action) : 0 < p.getTotalDomainSize a := by
  induction a using getTotalDomainSize.induct p with
  | case1 a h =>
    rw [getTotalDomainSize]
    split
    · exact p.localDomainSize_pos a
    · rename_i hb
      rw [h] at hb
      cases hb
  | case2 a b h ih =>
    rw [getTotalDomainSize_child h]
    exact Nat.mul_pos ih (p.localDomainSize_pos a)

theorem getObject_of_isObject (h : p.isObject a = true) : p.getObject a = some a := by
  rw [getObject, if_pos h]

/-- An action that is no object has the object of its parent, if it has any. -/
theorem getObject_of_parent (ha : p.isObject a = false) (hp : p.parent a = some b)
    (h : p.getObject a = some o) : p.getObject b = some o := by
  rw [getObject, if_neg (by simp [ha])] at h
  split at h
  · cases h
  · cases h
  · split at h
    · rename_i hn
      rw [hp] at hn
      cases hn
    · rename_i b' hb'
      rw [hp, Option.some.injEq] at hb'
      rwa [hb']

theorem getObject_of_top (hp : p.parent a = none) (h : p.getObject a = some o) : o = a := by
  rw [getObject] at h
  split at h
  · exact (Option.some.inj h).symm
  · split at h
    · cases h
    · cases h
    · split at h
      · exact (Option.some.inj h).symm
      · rename_i hb
        rw [hp] at hb
        cases hb

/-- **Up the tree** to the object of an action. -/
theorem object_induction {motive : p.Action → Prop} (o : p.Action)
    (object : p.getObject o = some o → motive o)
    (inner : ∀ a b, p.parent a = some b → p.getObject a = some o → p.getObject a ≠ some a →
      p.getObject b = some o → motive b → motive a) (a : p.Action) :
    p.getObject a = some o → motive a := by
  induction a using WellFounded.induction (measure fun a : p.Action => a.val).wf with
  | _ a ih =>
    intro h
    by_cases hself : p.getObject a = some a
    · rw [hself, Option.some.injEq] at h
      exact h ▸ object (h ▸ hself)
    · have hobj : p.isObject a = false := by
        by_contra hne
        exact hself (getObject_of_isObject (by simpa using hne))
      cases hp : p.parent a with
      | none => exact absurd (getObject_of_top hp h ▸ h) hself
      | some b =>
        have hb := getObject_of_parent hobj hp h
        exact inner a b hp h hself hb (ih b (p.parent_lt a b hp) hb)

/-- The object of an object is the object itself. -/
theorem getObject_getObject (h : p.getObject a = some o) : p.getObject o = some o :=
  object_induction (motive := fun _ => p.getObject o = some o) o id (fun _ _ _ _ _ _ ho => ho) a h

/-- So the factor that the generator divides by is always 1. -/
theorem getObjectDomainFactor_of_object (h : p.getObject a = some o) :
    p.getObjectDomainFactor o = 1 := by
  rw [getObjectDomainFactor, if_pos (getObject_getObject h)]

/-- **The factor** of an action is the number of its instances in one of its object. -/
theorem getTotalDomainSize_object (h : p.getObject a = some o) :
    p.getTotalDomainSize a = p.getTotalDomainSize o * p.getObjectDomainFactor a := by
  refine object_induction (motive := fun a => p.getTotalDomainSize a =
    p.getTotalDomainSize o * p.getObjectDomainFactor a) o (fun ho => ?_)
    (fun a b hp _ hself _ ih => ?_) a h
  · rw [getObjectDomainFactor, if_pos ho, Nat.mul_one]
  · have hf : p.getObjectDomainFactor a = p.localDomainSize a * p.getObjectDomainFactor b := by
      rw [getObjectDomainFactor, if_neg hself]
      split
      · rename_i hn
        rw [hp] at hn
        cases hn
      · rename_i b' hb'
        rw [hp, Option.some.injEq] at hb'
        rw [hb']
    rw [getTotalDomainSize_child hp, ih, hf, Nat.mul_assoc, Nat.mul_comm (p.localDomainSize a)]

local instance sampleSize : NeZero 7 := ⟨by decide⟩

/-- Two objects with an action `T` and four actions `X` each, a link in each object to a `T`, and
two links in the root to an `X`. -/
def sample : Program where
  numActions := 7
  parent := ![none, some 0, some 1, some 2, some 2, some 2, some 1]
  context := ![.root .interfaceRoot, .root .fileRoot, .object, .action, .link, .action, .link]
  localDomainSize := ![1, 1, 2, 1, 1, 4, 2]
  index := fun a => a.val + 1
  groups := [⟨"Inner", [3], [4]⟩, ⟨"Outer", [5], [6]⟩]
  parent_lt := by decide
  localDomainSize_pos := by decide
  localDomainSize_root := by
    intro a rootType h
    revert a
    cases rootType <;> decide
  index_ne_zero := by decide
  index_injective := by decide
  targets_not_link := by decide
  concreteLinks_link := by decide
  groups_disjoint := by decide

namespace sample

abbrev root : sample.Action := (1 : Fin 7)
abbrev object : sample.Action := (2 : Fin 7)
abbrev T : sample.Action := (3 : Fin 7)
abbrev inner : sample.Action := (4 : Fin 7)
abbrev X : sample.Action := (5 : Fin 7)
abbrev outer : sample.Action := (6 : Fin 7)
abbrev innerGroup : sample.GroupId := (0 : Fin 2)
abbrev outerGroup : sample.GroupId := (1 : Fin 2)

end sample

end Program
end EgLang.Runtime
