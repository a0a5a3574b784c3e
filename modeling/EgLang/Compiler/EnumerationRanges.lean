import EgLang.Compiler.Derivations
import EgLang.Compiler.RangeCode
import Mathlib.Data.Nat.PSub

/-!
# Ranges and parents

The range that an enumeration emits for a target holds the instances that lie in the instance of the
enumerating action: the multiplication of the range inverts the divisions of the parent derivations.
-/

namespace EgLang.Compiler

open EgLang.Library Evaluation Codegen

set_option autoImplicit false

variable {ι κ : Type} (session : Session ι κ)

/-! ## Domain sizes -/

/-- `Action::getTotalDomainSize`. -/
def Session.getTotalDomainSize (e : κ) : ℕ :=
  ((session.tree.wayUp e).map session.getLocalDomainSize).prod

section Multiplier
variable [DecidableEq κ]

/-- The instances of an element that lie in one instance of an ancestor. -/
def multiplier (r e : κ) : ℕ := ((session.tree.below r e).map session.getLocalDomainSize).prod

variable {session} {r e : κ}

theorem domainMultiplier_eq (h : r ∈ session.tree.wayUp e) :
    domainMultiplier session r e = .ok (multiplier session r e) := if_pos h

theorem getTotalDomainSize_eq (h : r ∈ session.tree.wayUp e) :
    session.getTotalDomainSize e = session.getTotalDomainSize r * multiplier session r e := by
  rw [Session.getTotalDomainSize, session.tree.wayUp_eq_below_append h, List.map_append,
    List.prod_append, mul_comm]
  rfl

/-- The instances of an ancestor's instance are those that climb to it. -/
theorem climb_below_iff {i x : ℕ} :
    climb session.getLocalDomainSize (session.tree.below r e) x = i ↔
      i * multiplier session r e ≤ x ∧ x < (i + 1) * multiplier session r e :=
  climb_eq_iff _ fun e _ => session.localDomainSize_pos e

end Multiplier

/-! ## The expressions of ancestors -/

/-- The expression of an ancestor, after the parent derivations from some elements. -/
def parentDerivations (es : List κ) (expr : InstanceExpr) : InstanceExpr :=
  es.foldl (fun expr e => parentDerivation (session.getLocalDomainSize e) expr) expr

theorem value_parentDerivations (es : List κ) (expr : InstanceExpr) (i : ℕ) :
    (parentDerivations session es expr).value i =
      climb session.getLocalDomainSize es (expr.value i) := by
  induction es generalizing expr with
  | nil => rfl
  | cons e es ih =>
    have hstep := ih (parentDerivation (session.getLocalDomainSize e) expr)
    rw [value_parentDerivation (session.localDomainSize_pos e)] at hstep
    rw [climb_cons]
    exact hstep

/-! ## Inversion -/

section Inversion
variable [DecidableEq κ] {session}

/-- The range of a target from an action: what evaluation and the emitted code make of it, and that it
holds the instances that the parent derivations lead back to the instance of the action. -/
structure InvertsDivision (dereferenceDimension : Reference → ℤ → Reference) (session : Session ι κ)
    (pEnumerationAction pTarget : κ) (op : Operation (Option κ) (Option ι))
    (target : RangeTarget) : Prop where
  evaluated : ∀ i, subRange session pEnumerationAction i op =
    .ok ⟨session.getIndex pTarget, i * target.szDomainMultiplier, (i + 1) * target.szDomainMultiplier⟩
  emitted : ∀ (expr : InstanceExpr) (context : ℕ),
    (expr.value context + 1) * target.szDomainMultiplier < 2 ^ 32 →
      target.iBegin expr context = expr.value context * target.szDomainMultiplier ∧
        target.iEnd expr context = (expr.value context + 1) * target.szDomainMultiplier
  derivation : ∀ {m_variables : Variables} {n x timestamp : ℕ} {pVariable : Variable κ},
    HoldsInstance session m_variables n pVariable pTarget x timestamp →
      ∃ heads pLast next m_variables' y,
        Invocation.derive (parentSteps session (session.tree.below pEnumerationAction pTarget))
          pVariable n = (heads, pLast, next) ∧
        Ascends session (session.tree.below pEnumerationAction pTarget) heads ∧
        Sets dereferenceDimension session heads m_variables m_variables' ∧
        HoldsInstance session m_variables' next pLast pEnumerationAction y timestamp ∧
        ∀ i, i * target.szDomainMultiplier ≤ x ∧ x < (i + 1) * target.szDomainMultiplier ↔ y = i
  division : ∀ (expr : InstanceExpr) (context i : ℕ),
    i * target.szDomainMultiplier ≤ expr.value context ∧
        expr.value context < (i + 1) * target.szDomainMultiplier ↔
      (parentDerivations session (session.tree.below pEnumerationAction pTarget) expr).value
        context = i
  disjoint : ∀ x, ∃! i, i * target.szDomainMultiplier ≤ x ∧ x < (i + 1) * target.szDomainMultiplier
  covers : ∀ x, x < session.getTotalDomainSize pTarget ↔
    ∃ i < session.getTotalDomainSize pEnumerationAction,
      i * target.szDomainMultiplier ≤ x ∧ x < (i + 1) * target.szDomainMultiplier

/-- **Main result.** The range of a target below an action inverts the parent derivations. -/
theorem enumeration_invertsDivision (dereferenceDimension : Reference → ℤ → Reference)
    (getFriendlyName : κ → String) {pEnumerationAction pTarget : κ}
    (hbelow : pEnumerationAction ∈ session.tree.wayUp pTarget)
    {op : Operation (Option κ) (Option ι)} {rangeType : RangeType}
    (htype : op.type = .range rangeType) (htarget : op.concreteType = some pTarget) :
    ∃ target, rangeTarget session getFriendlyName pEnumerationAction op = .ok target ∧
      InvertsDivision dereferenceDimension session pEnumerationAction pTarget op target := by
  refine ⟨⟨multiplier session pEnumerationAction pTarget, session.getIndex pTarget,
    getFriendlyName pTarget⟩, ?_, ?_, ?_, ?_, ?_, ?_, ?_⟩
  · rw [rangeTarget, Evaluation.rangeType, htype, htarget]
    show (do
      let szDomainMultiplier ← domainMultiplier session pEnumerationAction pTarget
      return (⟨szDomainMultiplier, session.getIndex pTarget, getFriendlyName pTarget⟩ : RangeTarget)) = _
    rw [domainMultiplier_eq hbelow]
    rfl
  · intro i
    rw [subRange, htarget]
    show (do
      let szDomainMultiplier ← domainMultiplier session pEnumerationAction pTarget
      return (⟨session.getIndex pTarget, i * szDomainMultiplier,
        (i + 1) * szDomainMultiplier⟩ : SubRange)) = _
    rw [domainMultiplier_eq hbelow]
    rfl
  · intro expr context hfits
    refine ⟨Nat.mod_eq_of_lt (lt_of_le_of_lt ?_ hfits), Nat.mod_eq_of_lt hfits⟩
    exact Nat.mul_le_mul_right _ (Nat.le_succ _)
  · intro m_variables n x timestamp pVariable hx
    obtain ⟨heads, pLast, next, hheads, hleads⟩ :=
      leads_parentSteps dereferenceDimension n hbelow hx.type
    obtain ⟨m_variables', hlast, hsets⟩ := hleads.evaluate hx
    have hderive := hleads.derive []
    rw [List.append_nil] at hderive
    refine ⟨heads, pLast, next, m_variables', _, ?_, hheads, hsets, hlast, fun i =>
      climb_below_iff.symm⟩
    rw [hderive]
    simp [Invocation.derive]
  · intro expr context i
    rw [value_parentDerivations]
    exact climb_below_iff.symm
  · intro x
    refine ⟨climb session.getLocalDomainSize (session.tree.below pEnumerationAction pTarget) x,
      climb_below_iff.mp rfl, fun i hi => (climb_below_iff.mpr hi).symm⟩
  · intro x
    have hpos : 0 < multiplier session pEnumerationAction pTarget := by
      refine List.prod_pos fun n hn => ?_
      obtain ⟨e, -, rfl⟩ := List.mem_map.mp hn
      exact session.localDomainSize_pos e
    rw [getTotalDomainSize_eq hbelow]
    constructor
    · intro hx
      have hin := (@climb_below_iff _ _ session _ pEnumerationAction pTarget _ x).mp rfl
      refine ⟨_, ?_, hin⟩
      exact Nat.lt_of_mul_lt_mul_right (lt_of_le_of_lt hin.1 hx)
    · rintro ⟨i, hi, -, hlt⟩
      exact lt_of_lt_of_le hlt (Nat.mul_le_mul_right _ hi)

end Inversion

/-- Actions one below the other without end: action `e` has `e + 1` instances in each of its parent's. -/
def nested : Session ℕ ℕ where
  kind e := .action e
  children e := [e + 1]
  isContext _ := true
  baseContexts _ := []
  rank _ := 0
  rank_base h := absurd h List.not_mem_nil
  instanceMap := [(0, 0), (1, 1), (2, 2), (3, 3)]
  inheritanceMap := [(0, 0), (1, 1), (2, 2), (3, 3)]
  inheritance_isAction _ := rfl
  contextTypes_isContext _ _ _ := rfl
  isDimension _ := false
  tree := ⟨Nat.ppred, id, fun h => Nat.lt_of_succ_le (Nat.ppred_eq_some.mp h).le⟩
  root := 0
  only_root := Nat.ppred_eq_none.mp
  root_isAction := rfl
  parent_isAction _ := rfl
  getLocalDomainSize e := e + 1
  localDomainSize_pos := Nat.succ_pos
  getIndex e := e
  index_injective := Nat.cast_injective
  hasLinkGroup _ := false

/-- The range of action 3 from action 1: two steps up, and twelve instances in each of two. -/
theorem nested_invertsDivision : ∃ target,
    rangeTarget nested (fun _ => "") 1 ⟨0, .range .eRange, ⟨1, some 1⟩, some 3, some 3⟩ = .ok target ∧
      target.szDomainMultiplier = 12 ∧
        InvertsDivision (fun ref _ => ref) nested 1 3
          ⟨0, .range .eRange, ⟨1, some 1⟩, some 3, some 3⟩ target := by
  obtain ⟨target, htarget, hinverts⟩ : ∃ target,
      rangeTarget nested (fun _ => "") 1 ⟨0, .range .eRange, ⟨1, some 1⟩, some 3, some 3⟩ = .ok target ∧
        InvertsDivision (fun ref _ => ref) nested 1 3
          ⟨0, .range .eRange, ⟨1, some 1⟩, some 3, some 3⟩ target :=
    enumeration_invertsDivision (fun ref _ => ref) (fun _ => "") (by decide) rfl rfl
  have hmultiplier : rangeTarget nested (fun _ => "") 1
      ⟨0, .range .eRange, ⟨1, some 1⟩, some 3, some 3⟩ = .ok ⟨12, 3, ""⟩ := rfl
  refine ⟨target, htarget, ?_, hinverts⟩
  rw [hmultiplier] at htarget
  cases htarget
  rfl

end EgLang.Compiler
