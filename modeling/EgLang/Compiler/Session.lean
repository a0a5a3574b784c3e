import EgLang.Compiler.Derivation
import EgLang.Library.Ancestry

/-!
# Sessions

What building an invocation reads of a program, besides its derivation analysis: the tree of concrete
elements, the domain sizes of actions and the indices of elements.
-/

namespace EgLang.Compiler

open EgLang.Library

set_option autoImplicit false

/-- `InterfaceSession`: the elements of a program. The concrete elements form one tree, of which all but
the leaves are actions; `isDimension` is `dynamic_cast< const interface::Dimension* >`. -/
structure Session (ι κ : Type) extends DerivationAnalysis ι κ where
  isDimension : ι → Bool
  tree : Hierarchy κ
  root : κ
  only_root : ∀ {e : κ}, tree.parent e = none → e = root
  root_isAction : (kind root).isAction = true
  parent_isAction : ∀ {e p : κ}, tree.parent e = some p → (kind p).isAction = true
  getLocalDomainSize : κ → ℕ
  localDomainSize_pos : ∀ e, 0 < getLocalDomainSize e
  getIndex : κ → ℤ
  index_injective : Function.Injective getIndex
  /-- `Dimension_User::getLinkGroup` is not null. -/
  hasLinkGroup : κ → Bool

namespace Session
variable {ι κ : Type} (session : Session ι κ)

/-- `Element::getParent`. -/
def getParent (e : κ) : Option κ := session.tree.parent e

/-- The action that has an element: the element itself, if it is an action, or its parent. -/
def owner (e : κ) : Option κ :=
  if (session.kind e).isAction then some e else session.getParent e

theorem owner_of_action {e : κ} (h : (session.kind e).isAction = true) :
    session.owner e = some e := if_pos h

theorem owner_of_dimension {e : κ} (h : (session.kind e).isAction = false) :
    session.owner e = session.getParent e := by
  unfold owner
  rw [h]
  exact if_neg Bool.false_ne_true

/-- An element that is no action has a parent. -/
theorem exists_parent {e : κ} (h : (session.kind e).isAction = false) :
    ∃ p, session.getParent e = some p := by
  cases hp : session.getParent e with
  | some p => exact ⟨p, rfl⟩
  | none =>
    rw [session.only_root hp, session.root_isAction] at h
    cases h

theorem exists_owner (e : κ) : ∃ a, session.owner e = some a ∧ (session.kind a).isAction = true := by
  cases h : (session.kind e).isAction with
  | true => exact ⟨e, session.owner_of_action h, h⟩
  | false =>
    obtain ⟨p, hp⟩ := session.exists_parent h
    exact ⟨p, by rw [session.owner_of_dimension h, hp], session.parent_isAction hp⟩

theorem head_path (e : κ) : (session.tree.path e).head? = some session.root := by
  induction e using session.tree.induction with
  | step e ih =>
    cases hp : session.tree.parent e with
    | none => rw [Hierarchy.path, session.tree.wayUp_root hp, session.only_root hp]; rfl
    | some p =>
      have hpath := ih p hp
      rw [Hierarchy.path, session.tree.wayUp_child hp, List.reverse_cons, ← Hierarchy.path]
      rw [List.head?_append, hpath]
      rfl

end Session
end EgLang.Compiler
