import EgLang.Compiler.Evaluation
import EgLang.Compiler.RangeBuilding

/-!
# What derivations compute

The instructions that `commonRootDerivation` makes go up to the nearest common ancestor of two actions,
by divisions, and down from it, where an instance of the ancestor is the instance of what lies below it.
-/

namespace EgLang.Compiler

open EgLang.Library

set_option autoImplicit false

namespace Evaluation
variable {ι κ : Type} {session : Session ι κ}

/-! ## Stages -/

/-- A variable holds an instance of an element, and all addresses from `n` on are free. -/
structure HoldsInstance (session : Session ι κ) (m_variables : Variables) (n : ℕ)
    (pVariable : Variable κ) (e : κ) (i : ℕ) (timestamp : ℕ) : Prop where
  type : pVariable.concreteType = some e
  value : m_variables pVariable.address = some ⟨i, session.getIndex e, timestamp⟩
  free : ∀ k, n ≤ k → m_variables k = none

variable {m_variables : Variables} {n : ℕ} {pVariable : Variable κ} {e : κ} {i timestamp : ℕ}

/-- A new variable takes the address that comes next. -/
theorem HoldsInstance.update (h : HoldsInstance session m_variables n pVariable e i timestamp) (d : κ)
    (j : ℕ) :
    HoldsInstance session (Function.update m_variables n (some ⟨j, session.getIndex d, timestamp⟩)) (n + 1)
      ⟨n, some d⟩ d j timestamp where
  type := rfl
  value := Function.update_self ..
  free k hk := by
    rw [Function.update_of_ne (by omega)]
    exact h.free k (by omega)

theorem HoldsInstance.setVarValue (h : HoldsInstance session m_variables n pVariable e i timestamp)
    (value : Reference) :
    setVarValue m_variables n value = .ok (Function.update m_variables n (some value)) := by
  rw [Evaluation.setVarValue, h.free n le_rfl]

/-! ## Steps down -/

theorem childSteps_of_one {es : List κ} (hactions : ∀ e ∈ es, (session.kind e).isAction = true)
    (h : ∀ e ∈ es, session.getLocalDomainSize e = 1) :
    Invocation.childSteps session es = .ok (es.map Invocation.Step.child) := by
  induction es with
  | nil => rfl
  | cons d es ih =>
    rw [List.forall_mem_cons] at hactions h
    rw [Invocation.childSteps]
    cases hkind : session.kind d with
    | action context =>
      dsimp only
      rw [if_neg (not_not.mpr h.1), ih hactions.2 h.2]
      rfl
    | _ =>
      rw [hkind] at hactions
      cases hactions.1

/-- An action with more instances ends the steps in a failure. -/
theorem childSteps_of_several {es : List κ}
    (hactions : ∀ e ∈ es, (session.kind e).isAction = true)
    (h : ∃ e ∈ es, session.getLocalDomainSize e ≠ 1) :
    ∃ ones, ones <+: es ∧ (∀ e ∈ ones, session.getLocalDomainSize e = 1) ∧
      Invocation.childSteps session es = .ok (ones.map Invocation.Step.child ++ [.failure]) := by
  induction es with
  | nil => simp at h
  | cons d es ih =>
    rw [List.forall_mem_cons] at hactions
    rw [Invocation.childSteps]
    cases hkind : session.kind d with
    | action context =>
      dsimp only
      by_cases hd : session.getLocalDomainSize d = 1
      · rw [if_neg (not_not.mpr hd)]
        have hrest : ∃ e ∈ es, session.getLocalDomainSize e ≠ 1 := by
          obtain ⟨e, he, hsize⟩ := h
          rcases List.mem_cons.mp he with rfl | he
          · exact absurd hd hsize
          · exact ⟨e, he, hsize⟩
        obtain ⟨ones, hbegins, hones, hsteps⟩ := ih hactions.2 hrest
        refine ⟨d :: ones, List.cons_prefix_cons.mpr ⟨rfl, hbegins⟩,
          List.forall_mem_cons.mpr ⟨hd, hones⟩, ?_⟩
        rw [hsteps]
        rfl
      · rw [if_pos hd]
        exact ⟨[], List.nil_prefix, by simp, rfl⟩
    | _ =>
      rw [hkind] at hactions
      cases hactions.1

/-! ## Instructions -/

/-- The instructions up from some elements, each to its parent. -/
def Ascends (session : Session ι κ) : List κ → List (Head (Option κ) (Option ι)) → Prop :=
  List.Forall₂ fun e head => ∃ pFrom pTo, head = .parentDerivation pFrom pTo ∧
    pFrom.concreteType = some e ∧ pTo.concreteType = session.getParent e

/-- The instructions down to some elements. -/
def Descends : List κ → List (Head (Option κ) (Option ι)) → Prop :=
  List.Forall₂ fun e head => ∃ pFrom pTo, head = .childDerivation pFrom pTo ∧
    pTo.concreteType = some e

theorem Ascends.no_failure {es : List κ} {heads : List (Head (Option κ) (Option ι))}
    (h : Ascends session es heads) : Head.failure ∉ heads := by
  induction h with
  | nil => exact List.not_mem_nil
  | cons hstep _ ih =>
    obtain ⟨pFrom, pTo, rfl, -⟩ := hstep
    simpa using ih

theorem Descends.no_failure {es : List κ} {heads : List (Head (Option κ) (Option ι))}
    (h : Descends es heads) : Head.failure ∉ heads := by
  induction h with
  | nil => exact List.not_mem_nil
  | cons hstep _ ih =>
    obtain ⟨pFrom, pTo, rfl, -⟩ := hstep
    simpa using ih

variable [DecidableEq κ] (dereferenceDimension : Reference → ℤ → Reference)

/-- Some instructions set a variable, and go on with what comes after them. -/
def Sets (session : Session ι κ) (heads : List (Head (Option κ) (Option ι)))
    (m_variables m_variables' : Variables) : Prop :=
  ∀ t, evaluate session dereferenceDimension (Instruction.nest heads t) m_variables =
    evaluate session dereferenceDimension t m_variables'

variable {dereferenceDimension}

theorem Sets.nil (m_variables : Variables) :
    Sets dereferenceDimension session [] m_variables m_variables := fun _ => rfl

theorem Sets.append {heads heads' : List (Head (Option κ) (Option ι))}
    {m_variables m_variables' m_variables'' : Variables}
    (h : Sets dereferenceDimension session heads m_variables m_variables')
    (h' : Sets dereferenceDimension session heads' m_variables' m_variables'') :
    Sets dereferenceDimension session (heads ++ heads') m_variables m_variables'' := by
  intro t
  rw [Instruction.nest, List.foldr_append]
  exact (h _).trans (h' t)

/-- A parent derivation divides by the local domain size. -/
theorem HoldsInstance.parentDerivation
    (h : HoldsInstance session m_variables n pVariable e i timestamp) (p : κ) :
    Sets dereferenceDimension session [.parentDerivation pVariable ⟨n, some p⟩] m_variables
      (Function.update m_variables n
        (some ⟨i / session.getLocalDomainSize e, session.getIndex p, timestamp⟩)) := by
  intro t
  show (do
    let fromRef ← getVarValue m_variables pVariable.address
    let fromType ← pointee pVariable.concreteType
    let m_variables ← Evaluation.setVarValue m_variables n
      ⟨fromRef.inst / session.getLocalDomainSize fromType, session.getIndex p, fromRef.timestamp⟩
    evaluateFront session dereferenceDimension [t] m_variables) = _
  rw [getVarValue, h.value, h.type]
  show (do
    let m_variables ← Evaluation.setVarValue m_variables n
      ⟨i / session.getLocalDomainSize e, session.getIndex p, timestamp⟩
    evaluateFront session dereferenceDimension [t] m_variables) = _
  rw [h.setVarValue]
  rfl

/-- A child derivation keeps the instance. -/
theorem HoldsInstance.childDerivation
    (h : HoldsInstance session m_variables n pVariable e i timestamp) (d : κ) :
    Sets dereferenceDimension session [.childDerivation pVariable ⟨n, some d⟩] m_variables
      (Function.update m_variables n (some ⟨i, session.getIndex d, timestamp⟩)) := by
  intro t
  show (do
    let fromRef ← getVarValue m_variables pVariable.address
    let m_variables ← Evaluation.setVarValue m_variables n
      ⟨fromRef.inst, session.getIndex d, fromRef.timestamp⟩
    evaluateFront session dereferenceDimension [t] m_variables) = _
  rw [getVarValue, h.value]
  show (do
    let m_variables ← Evaluation.setVarValue m_variables n ⟨i, session.getIndex d, timestamp⟩
    evaluateFront session dereferenceDimension [t] m_variables) = _
  rw [h.setVarValue]
  rfl

/-! ## Up to an ancestor -/

/-- The steps up from some elements. -/
def parentSteps (session : Session ι κ) (es : List κ) : List (Invocation.Step κ) :=
  es.map fun e => Invocation.Step.parent (session.getParent e)

/-- Some steps from a variable of an element make instructions that come to a variable of another one,
with the instance that a function gives, whatever steps follow. -/
structure Leads (dereferenceDimension : Reference → ℤ → Reference) (session : Session ι κ)
    (steps : List (Invocation.Step κ)) (pVariable : Variable κ) (n : ℕ) (e : κ)
    (heads : List (Head (Option κ) (Option ι))) (pLast : Variable κ) (next : ℕ) (d : κ)
    (f : ℕ → ℕ) : Prop where
  type : pLast.concreteType = some d
  derive : ∀ rest, @Invocation.derive ι κ (steps ++ rest) pVariable n =
    (heads ++ (@Invocation.derive ι κ rest pLast next).1, (@Invocation.derive ι κ rest pLast next).2)
  evaluate : ∀ {m_variables : Variables} {i timestamp : ℕ},
    HoldsInstance session m_variables n pVariable e i timestamp →
      ∃ m_variables', HoldsInstance session m_variables' next pLast d (f i) timestamp ∧
        Sets dereferenceDimension session heads m_variables m_variables'

theorem Leads.refl (htype : pVariable.concreteType = some e) :
    Leads dereferenceDimension session [] pVariable n e [] pVariable n e id where
  type := htype
  derive _ := rfl
  evaluate h := ⟨_, h, .nil _⟩

theorem Leads.trans {steps steps' : List (Invocation.Step κ)}
    {heads heads' : List (Head (Option κ) (Option ι))} {pMiddle pLast : Variable κ} {m next : ℕ}
    {c d : κ} {f g : ℕ → ℕ}
    (h : Leads dereferenceDimension session steps pVariable n e heads pMiddle m c f)
    (h' : Leads dereferenceDimension session steps' pMiddle m c heads' pLast next d g) :
    Leads dereferenceDimension session (steps ++ steps') pVariable n e (heads ++ heads') pLast next d
      (g ∘ f) where
  type := h'.type
  derive rest := by
    rw [List.append_assoc, h.derive, h'.derive, List.append_assoc]
  evaluate hi := by
    obtain ⟨m_variables', hmiddle, hsets⟩ := h.evaluate hi
    obtain ⟨m_variables'', hlast, hsets'⟩ := h'.evaluate hmiddle
    exact ⟨m_variables'', hlast, hsets.append hsets'⟩

/-- One step up. -/
theorem leads_parent (p : κ) :
    Leads dereferenceDimension session [.parent (some p)] pVariable n e
      [.parentDerivation pVariable ⟨n, some p⟩] ⟨n, some p⟩ (n + 1) p
      (· / session.getLocalDomainSize e) where
  type := rfl
  derive _ := rfl
  evaluate h := ⟨_, h.update _ _, h.parentDerivation p⟩

/-- One step down. -/
theorem leads_child (d : κ) :
    Leads dereferenceDimension session [.child d] pVariable n e
      [.childDerivation pVariable ⟨n, some d⟩] ⟨n, some d⟩ (n + 1) d id where
  type := rfl
  derive _ := rfl
  evaluate h := ⟨_, h.update _ _, h.childDerivation d⟩

/-- The steps up to an ancestor climb to the instance that an instance lies in. -/
theorem leads_parentSteps (dereferenceDimension : Reference → ℤ → Reference) (n : ℕ) {r : κ}
    (hr : r ∈ session.tree.wayUp e) (htype : pVariable.concreteType = some e) :
    ∃ heads pLast next, Ascends session (session.tree.below r e) heads ∧
      Leads dereferenceDimension session (parentSteps session (session.tree.below r e)) pVariable n e
        heads pLast next r (climb session.getLocalDomainSize (session.tree.below r e)) := by
  induction e using session.tree.induction generalizing pVariable n with
  | step e ih =>
    by_cases hself : e = r
    · subst hself
      rw [Hierarchy.below_self]
      exact ⟨[], pVariable, n, .nil, .refl htype⟩
    · cases hp : session.tree.parent e with
      | none => exact absurd ((session.tree.mem_wayUp_root hp).mp hr).symm hself
      | some p =>
        have hmem := ((session.tree.mem_wayUp_child hp).mp hr).resolve_left (Ne.symm hself)
        have hparent : session.getParent e = some p := hp
        obtain ⟨heads, pLast, next, hheads, hleads⟩ :=
          @ih p hp ⟨n, some p⟩ (n + 1) hmem rfl
        rw [session.tree.below_child hself hp]
        refine ⟨_, pLast, next, .cons ⟨pVariable, ⟨n, some p⟩, rfl, htype, hparent.symm⟩ hheads, ?_⟩
        rw [parentSteps, List.map_cons, hparent]
        exact (leads_parent p).trans hleads

/-! ## Down to an element -/

/-- The steps down to elements that have one instance in each instance of their parent. -/
theorem leads_children (dereferenceDimension : Reference → ℤ → Reference) (n : ℕ) (es : List κ)
    (htype : pVariable.concreteType = some e) :
    ∃ heads pLast next, Descends es heads ∧
      Leads dereferenceDimension session (es.map Invocation.Step.child) pVariable n e heads pLast next
        (es.getLast?.getD e) id := by
  induction es generalizing pVariable n e with
  | nil => exact ⟨[], pVariable, n, .nil, .refl htype⟩
  | cons d es ih =>
    obtain ⟨heads, pLast, next, hheads, hleads⟩ := @ih ⟨n, some d⟩ d (n + 1) rfl
    refine ⟨_, pLast, next, .cons ⟨pVariable, ⟨n, some d⟩, rfl, rfl⟩ hheads, ?_⟩
    rw [List.getLast?_cons]
    exact (leads_child d).trans hleads

/-! ## From one action to another -/

theorem pathTo_eq_below (r e : κ) : Invocation.pathTo session (some r) (some e) =
    session.tree.below r e := by
  simp [Invocation.pathTo, Hierarchy.below]

theorem below_last {r e : κ} (hr : r ∈ session.tree.wayUp e) :
    (session.tree.below r e).reverse.getLast?.getD r = e := by
  rw [List.getLast?_reverse]
  obtain ⟨above, habove⟩ := session.tree.exists_wayUp_eq_cons e
  by_cases hself : e = r
  · subst hself
    rw [Hierarchy.below_self]
    rfl
  · rw [Hierarchy.below, habove, List.takeWhile_cons_of_pos (by simpa using hself)]
    rfl

theorem below_isAction {r e : κ} (he : (session.kind e).isAction = true) :
    ∀ d ∈ (session.tree.below r e).reverse, (session.kind d).isAction = true := fun _ hd =>
  Invocation.isAction_of_mem_wayUp he (List.takeWhile_subset _ (List.mem_reverse.mp hd))

/-- The nearest common ancestor of two actions, and the steps between them. -/
theorem commonRootSteps_eq (from' to' : κ) : ∃ common, session.tree.IsNearest from' to' common ∧
    Invocation.commonRootSteps session (some from') (some to') =
      (Invocation.childSteps session (session.tree.below common to').reverse).map
        (parentSteps session (session.tree.below common from') ++ ·) := by
  by_cases hself : from' = to'
  · subst hself
    refine ⟨from', session.tree.isNearest_self from', ?_⟩
    rw [Hierarchy.below_self, Invocation.commonRootSteps, if_neg (by simp)]
    rfl
  · obtain ⟨common, hcommon⟩ := Option.ne_none_iff_exists'.mp
      (session.tree.lastCommon_ne_none (session.head_path from') (session.head_path to'))
    refine ⟨common, session.tree.isNearest_of_lastCommon hcommon, ?_⟩
    have hroot : Invocation.findCommonRoot session (some from') (some to') = some common := by
      rw [Invocation.findCommonRoot, if_neg (by simpa using hself)]
      exact hcommon
    rw [Invocation.commonRootSteps, if_pos ⟨by simp, by simpa using hself⟩, hroot]
    simp only [pathTo_eq_below]
    rfl

/-- The instructions between two actions go up to an ancestor and down from it. They fail where an
action below it has more than one instance, and else come to the only instance of the target in the
instance of the ancestor. -/
structure Derived (dereferenceDimension : Reference → ℤ → Reference) (session : Session ι κ)
    (pFrom pTo common : κ) (pVariable : Variable κ) (n : ℕ)
    (heads : List (Head (Option κ) (Option ι))) (pLast : Variable κ) (next : ℕ) : Prop where
  nearest : session.tree.IsNearest pFrom pTo common
  failure_iff : Head.failure ∈ heads ↔
    ∃ e ∈ session.tree.below common pTo, session.getLocalDomainSize e ≠ 1
  fails : Head.failure ∈ heads → ∃ ups downs ones, heads = ups ++ downs ++ [.failure] ∧
    Ascends session (session.tree.below common pFrom) ups ∧ Descends ones downs ∧
      ones <+: (session.tree.below common pTo).reverse
  succeeds : Head.failure ∉ heads → ∃ ups downs, heads = ups ++ downs ∧
    Ascends session (session.tree.below common pFrom) ups ∧
      Descends (session.tree.below common pTo).reverse downs
  value : Head.failure ∉ heads → ∀ {m_variables : Variables} {i timestamp : ℕ},
    HoldsInstance session m_variables n pVariable pFrom i timestamp → ∃ j m_variables',
      (∀ k, climb session.getLocalDomainSize (session.tree.below common pTo) k =
        climb session.getLocalDomainSize (session.tree.below common pFrom) i ↔ k = j) ∧
        HoldsInstance session m_variables' next pLast pTo j timestamp ∧
          Sets dereferenceDimension session heads m_variables m_variables'

/-- **Main result.** From a variable of an action, `commonRootDerivation` derives a variable of another
action. -/
theorem commonRootDerivation_derived (dereferenceDimension : Reference → ℤ → Reference)
    (session : Session ι κ) {pFrom pTo : κ} (hto : (session.kind pTo).isAction = true)
    {pVariable : Variable κ} (htype : pVariable.concreteType = some pFrom) (n : ℕ) :
    ∃ heads pLast next common,
      Invocation.commonRootDerivation session (some pFrom) (some pTo) pVariable n =
        .ok (heads, pLast, next) ∧
      Derived dereferenceDimension session pFrom pTo common pVariable n heads pLast next := by
  obtain ⟨common, hnearest, hsteps⟩ := @commonRootSteps_eq _ _ session _ pFrom pTo
  have hactions := @below_isAction _ _ session _ common pTo hto
  obtain ⟨ups, pMiddle, middle, hups, hleads⟩ := leads_parentSteps
    dereferenceDimension n hnearest.left htype
  by_cases hones : ∀ e ∈ session.tree.below common pTo, session.getLocalDomainSize e = 1
  · -- every action on the way down has one instance
    obtain ⟨downs, pLast, next, hdowns, hchildren⟩ := leads_children
      dereferenceDimension middle (session.tree.below common pTo).reverse hleads.type
    have hall := hleads.trans hchildren
    rw [below_last hnearest.right] at hall
    have hnone : Head.failure ∉ ups ++ downs := by
      rw [List.mem_append]
      exact not_or.mpr ⟨hups.no_failure, hdowns.no_failure⟩
    refine ⟨ups ++ downs, pLast, next, common, ?_, hnearest, ?_, fun h => absurd h hnone,
      fun _ => ⟨ups, downs, rfl, hups, hdowns⟩, fun _ {m_variables i timestamp} hi => ?_⟩
    · rw [Invocation.commonRootDerivation, hsteps,
        childSteps_of_one hactions fun e he => hones e (List.mem_reverse.mp he)]
      have hderive := hall.derive []
      rw [List.append_nil] at hderive
      exact congrArg Except.ok (hderive.trans (by simp [Invocation.derive]))
    · refine iff_of_false hnone ?_
      push Not
      exact hones
    · obtain ⟨m_variables', hlast, hsets⟩ := hall.evaluate hi
      refine ⟨_, m_variables', fun k => ?_, hlast, hsets⟩
      rw [climb_of_one _ hones]
      rfl
  · -- the first action with more of them ends the derivation
    push Not at hones
    have hseveral : ∃ e ∈ (session.tree.below common pTo).reverse,
        session.getLocalDomainSize e ≠ 1 := by
      obtain ⟨e, he, hsize⟩ := hones
      exact ⟨e, List.mem_reverse.mpr he, hsize⟩
    obtain ⟨ones, hbegins, -, hchild⟩ := childSteps_of_several hactions hseveral
    obtain ⟨downs, pLast, next, hdowns, hchildren⟩ := leads_children
      dereferenceDimension middle ones hleads.type
    have hall := hleads.trans hchildren
    have hfailure : Head.failure ∈ ups ++ downs ++ [Head.failure] :=
      List.mem_append_right _ List.mem_cons_self
    refine ⟨ups ++ downs ++ [.failure], pLast, next, common, ?_, hnearest,
      iff_of_true hfailure hones, fun _ => ⟨ups, downs, ones, rfl, hups, hdowns, hbegins⟩,
      fun h => absurd hfailure h, fun h => absurd hfailure h⟩
    rw [Invocation.commonRootDerivation, hsteps, hchild]
    have hderive := hall.derive [.failure]
    rw [List.append_assoc] at hderive
    exact congrArg Except.ok hderive

/-- The root has two actions: `1`, which has three instances, and `2`. -/
def siblings : Session (Fin 3) (Fin 3) where
  kind e := .action e
  children e := if e = 0 then [1, 2] else []
  isContext _ := true
  baseContexts _ := []
  rank _ := 0
  rank_base h := by simp at h
  instanceMap := [(0, 0), (1, 1), (2, 2)]
  inheritanceMap := [(0, 0), (1, 1), (2, 2)]
  inheritance_isAction _ := rfl
  contextTypes_isContext h := by cases h
  isDimension _ := false
  tree := ⟨fun e => if e = 0 then none else some 0, fun e => e.val, by decide⟩
  root := 0
  only_root := by decide
  root_isAction := rfl
  parent_isAction _ := rfl
  getLocalDomainSize e := if e = 1 then 3 else 1
  localDomainSize_pos := by decide
  getIndex e := e.val
  index_injective := by decide
  hasLinkGroup _ := false

/-- From `1` to `2`. -/
theorem siblings_derived : ∃ heads pLast next common,
    Invocation.commonRootDerivation siblings (some 1) (some 2) ⟨0, some 1⟩ 1 =
      .ok (heads, pLast, next) ∧
    Derived (fun ref _ => ref) siblings 1 2 common ⟨0, some 1⟩ 1 heads pLast next :=
  commonRootDerivation_derived (fun ref _ => ref) siblings rfl rfl 1

end Evaluation
end EgLang.Compiler
