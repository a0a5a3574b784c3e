import Mathlib.Data.Prod.Lex
import Mathlib.Data.List.Sort
import Mathlib.Tactic

/-!
# Derivation analysis

What name resolution reads of a program: the concrete elements `κ` with their members, the interface
elements `ι` with their base contexts, and the maps from an interface element to its concrete
instances. The orders of `ι` and `κ` are those of the addresses of the elements.
-/

namespace EgLang.Compiler

set_option autoImplicit false

/-- The class of a `concrete::Element` with what is read of it: the context of an action, the context
types of a user dimension. -/
inductive ConcreteKind (ι : Type)
  | action (context : ι)
  | userDimension (contextTypes : List ι)
  | generatedDimension
deriving DecidableEq, Repr

/-- `dynamic_cast< const concrete::Action* >`. -/
def ConcreteKind.isAction {ι : Type} : ConcreteKind ι → Bool
  | .action _ => true
  | _ => false

/-- `InvocationSolution::ElementPair`: two pointers, to an interface and to a concrete element. -/
structure ElementPair (ι κ : Type) where
  first : Option ι
  second : Option κ
deriving DecidableEq, Repr

/-- `DerivationAnalysis`, with the elements that its maps lead to. The inheritance map leads to the
root concrete action of an inheritance node, and the context types of a dimension are contexts. -/
structure DerivationAnalysis (ι κ : Type) where
  kind : κ → ConcreteKind ι
  children : κ → List κ
  isContext : ι → Bool
  baseContexts : ι → List ι
  rank : ι → ℕ
  rank_base : ∀ {c b : ι}, b ∈ baseContexts c → rank b < rank c
  instanceMap : List (ι × κ)
  inheritanceMap : List (ι × κ)
  inheritance_isAction : ∀ {p : ι × κ}, p ∈ inheritanceMap → (kind p.2).isAction = true
  contextTypes_isContext : ∀ {e : κ} {contextTypes : List ι},
    kind e = .userDimension contextTypes → ∀ t ∈ contextTypes, isContext t = true

namespace DerivationAnalysis
variable {ι κ : Type} (analysis : DerivationAnalysis ι κ)

/-- `dynamic_cast< const concrete::Action* >` of a pointer. -/
def isAction : Option κ → Bool
  | some e => (analysis.kind e).isAction
  | none => false

/-- `Element::isMember`. -/
def isMember [DecidableEq κ] (pAction : Option κ) (pElement : Option κ) : Bool :=
  match pAction, pElement with
  | some a, some e => e ∈ analysis.children a
  | _, _ => false

/-- The context types of a user dimension; `isEGType` is that there are some. -/
def getContextTypes : Option κ → List ι
  | some e =>
    match analysis.kind e with
    | .userDimension contextTypes => contextTypes
    | _ => []
  | none => []

/-- `dynamic_cast< const concrete::Dimension_User* >`, and `isEGType` of what it yields. -/
def isEGType (e : Option κ) : Bool :=
  analysis.getContextTypes e ≠ []

variable [DecidableEq ι]

/-- `DerivationAnalysis::getInstances`. -/
def getInstances (pElement : ι) (bDeriving : Bool) : List κ :=
  if bDeriving && analysis.isContext pElement then
    (analysis.inheritanceMap.filter fun p => p.1 = pElement).map Prod.snd
  else
    (analysis.instanceMap.filter fun p => p.1 = pElement).map Prod.snd

/-- `chooseMostDerived`: the first of the two contexts on a way up from the context of a concrete
action. -/
def chooseMostDerived (pConcreteAction : ι) (pFirst pSecond : Option ι) : Option ι :=
  if some pConcreteAction = pFirst then pFirst
  else if some pConcreteAction = pSecond then pSecond
  else
    (analysis.baseContexts pConcreteAction).attach.foldl (fun pResult ⟨pBase, _⟩ =>
      match chooseMostDerived pBase pFirst pSecond with
      | some p => some p
      | none => pResult) none
termination_by analysis.rank pConcreteAction
decreasing_by exact analysis.rank_base (by assumption)

/-- A pointer to an interface element, as a pointer to a context. -/
def asContext (e : Option ι) : Option ι :=
  e.filter analysis.isContext

/-- The interface type that is kept of a concrete element that occurs twice. -/
def keepMostDerived (pConcreteElement : κ) (first pInterfaceElement : Option ι) : Option ι :=
  match analysis.kind pConcreteElement with
  | .action context =>
    analysis.chooseMostDerived context (analysis.asContext first)
      (analysis.asContext pInterfaceElement)
  | _ => first

variable [DecidableEq κ]

/-- One concrete instance of an interface element is entered, unless it is there already. -/
def enterInstance (pInterfaceElement : ι) (result : List (ElementPair ι κ))
    (pConcreteElement : κ) : List (ElementPair ι κ) :=
  if result.any fun p => p.second = some pConcreteElement then
    result.map fun p =>
      if p.second = some pConcreteElement then
        { p with
          first := analysis.keepMostDerived pConcreteElement p.first (some pInterfaceElement) }
      else p
  else result ++ [⟨some pInterfaceElement, some pConcreteElement⟩]

/-- `InvocationSolution::getElementVector`. -/
def getElementVector (interfaceElements : List ι) (bIncludeInherited : Bool) :
    List (ElementPair ι κ) :=
  interfaceElements.foldl (fun result pInterfaceElement =>
    (analysis.getInstances pInterfaceElement bIncludeInherited).foldl
      (analysis.enterInstance pInterfaceElement) result) []

end DerivationAnalysis

/-- `std::set< ElementPair >`: each pair once, in the order of the addresses. -/
def ElementPair.toSet {ι κ : Type} [LinearOrder ι] [LinearOrder κ] (pairs : List (ElementPair ι κ)) :
    List (ElementPair ι κ) :=
  let key (p : ElementPair ι κ) : WithBot ι ×ₗ WithBot κ := toLex (p.first, p.second)
  pairs.dedup.insertionSort fun a b => key a ≤ key b

/-! ## First occurrences -/

section Uniquify
variable {α : Type} [DecidableEq α]

/-- `uniquify_without_reorder`. -/
def uniquify (ids : List α) : List α :=
  ids.foldl (fun result value => if value ∈ result then result else result ++ [value]) []

theorem foldl_uniquify {ids acc : List α} (hacc : acc.Nodup) :
    (ids.foldl (fun result value => if value ∈ result then result else result ++ [value]) acc).Nodup ∧
      ∀ a, a ∈ ids.foldl (fun result value => if value ∈ result then result else result ++ [value])
        acc ↔ a ∈ acc ∨ a ∈ ids := by
  induction ids generalizing acc with
  | nil => exact ⟨hacc, fun a => by simp⟩
  | cons b ids ih =>
    rw [List.foldl_cons]
    by_cases hb : b ∈ acc
    · rw [if_pos hb]
      refine ⟨(ih hacc).1, fun a => ?_⟩
      rw [(ih hacc).2 a, List.mem_cons]
      constructor
      · rintro (ha | ha)
        · exact .inl ha
        · exact .inr (.inr ha)
      · rintro (ha | rfl | ha)
        · exact .inl ha
        · exact .inl hb
        · exact .inr ha
    · rw [if_neg hb]
      have hsnoc : (acc ++ [b]).Nodup := List.nodup_append_comm.mp (List.nodup_cons.mpr ⟨hb, hacc⟩)
      refine ⟨(ih hsnoc).1, fun a => ?_⟩
      rw [(ih hsnoc).2 a, List.mem_append, List.mem_singleton, List.mem_cons, or_assoc]

theorem nodup_uniquify (ids : List α) : (uniquify ids).Nodup := (foldl_uniquify List.nodup_nil).1

theorem mem_uniquify {ids : List α} {a : α} : a ∈ uniquify ids ↔ a ∈ ids := by
  rw [uniquify, (foldl_uniquify List.nodup_nil).2 a]
  simp

theorem uniquify_of_nodup {ids : List α} (h : ids.Nodup) : uniquify ids = ids := by
  have key : ∀ (ids acc : List α), (acc ++ ids).Nodup →
      ids.foldl (fun result value => if value ∈ result then result else result ++ [value]) acc =
        acc ++ ids := by
    intro ids
    induction ids with
    | nil => intro acc _; exact (List.append_nil acc).symm
    | cons b ids ih =>
      intro acc hnd
      have hb : b ∉ acc := fun hb =>
        (List.nodup_append.mp hnd).2.2 b hb b List.mem_cons_self rfl
      rw [← List.singleton_append, ← List.append_assoc] at hnd
      rw [List.foldl_cons, if_neg hb, ih _ hnd, List.append_assoc, List.singleton_append]
  exact key ids [] h

end Uniquify

end EgLang.Compiler
