import EgLang.Compiler.EnumerationRanges
import EgLang.Compiler.InvocationCode
import EgLang.Compiler.RangeSolutions

/-!
# The ranges of an invocation

From a reference to an instance of its context, a range invocation is evaluated, and its code executed, to
one range of instances for each target.
-/

namespace EgLang.Compiler

open EgLang.Library NameResolution Invocation Evaluation Codegen

set_option autoImplicit false

namespace Invocation
variable {ι κ : Type}

/-! ## Targets -/

section Targets
variable (nodes : Nodes ι κ)

/-- The actions at the ends of the chains of a context. -/
def targets (context : Name ι κ) : List κ :=
  (chains nodes context).filterMap fun chain =>
    chain.getLast?.bind fun leaf => leaf.element.second

/-- The operation is the range of a target that lies below an action. -/
structure RangesTarget (session : Session ι κ) (rangeType : RangeType) (e : κ)
    (op : Operation (Option κ) (Option ι)) (pTarget : κ) : Prop where
  type : op.type = .range rangeType
  target : op.concreteType = some pTarget
  below : e ∈ session.tree.wayUp pTarget

variable [DecidableEq κ] (session : Session ι κ)

/-- The range of a target from an instance of an action. -/
def rangeOf (e : κ) (i : ℕ) (pTarget : κ) : SubRange :=
  ⟨session.getIndex pTarget, i * multiplier session e pTarget, (i + 1) * multiplier session e pTarget⟩

variable {nodes session}

/-- The end of a chain that descends lies below its start. -/
theorem exists_last {prev : Name ι κ} {rest : List (Name ι κ)}
    (h : descends session (prev :: rest) = true) {e : κ} (he : prev.element.second = some e) :
    ∃ leaf pTarget, (prev :: rest).getLast? = some leaf ∧ leaf.element.second = some pTarget ∧
      e ∈ session.tree.wayUp pTarget := by
  induction rest generalizing prev e with
  | nil => exact ⟨prev, e, rfl, he, session.tree.mem_wayUp_self e⟩
  | cons current rest ih =>
    rw [descends, Bool.and_eq_true] at h
    cases hsecond : current.element.second with
    | none => simp [liesBelow, hsecond] at h
    | some d =>
      obtain ⟨leaf, pTarget, hleaf, htarget, hbelow⟩ := ih h.2 hsecond
      refine ⟨leaf, pTarget, ?_, htarget, session.tree.mem_wayUp_trans hbelow ?_⟩
      · rw [List.getLast?_cons_cons, hleaf]
      · simpa [liesBelow, hsecond, he] using h.1

/-- The operations of a case have the targets of its context. -/
theorem rangesTarget_targets {rangeType : RangeType} {context : Name ι κ} {e : κ}
    (he : context.element.second = some e)
    (hderivable : ∀ chain ∈ chains nodes context, derivable session chain = true)
    {operations : List (Operation (Option κ) (Option ι))}
    (hranges : List.Forall₂ (RangeOf session rangeType) operations (chains nodes context)) :
    List.Forall₂ (RangesTarget session rangeType e) operations (targets nodes context) := by
  have hlast : ∀ chain ∈ chains nodes context, ∃ leaf pTarget, chain.getLast? = some leaf ∧
      leaf.element.second = some pTarget ∧ e ∈ session.tree.wayUp pTarget := by
    intro chain hchain
    obtain ⟨current, rest, rfl, -⟩ := exists_chain_eq hchain
    exact exists_last (descends_of_derivable session (hderivable _ hchain)) he
  rw [targets]
  generalize chains nodes context = cs at hranges hlast
  clear hderivable
  induction hranges with
  | nil => exact .nil
  | @cons op chain ops cs hop _ ih =>
    rw [List.forall_mem_cons] at hlast
    obtain ⟨leaf, pTarget, hleaf, htarget, hbelow⟩ := hlast.1
    obtain ⟨leaf', hleaf', -, hconcrete, -⟩ := hop.target
    obtain rfl := Option.some.inj (hleaf.symm.trans hleaf')
    have hsome : (chain.getLast?.bind fun leaf => leaf.element.second) = some pTarget := by
      rw [hleaf]
      exact htarget
    rw [List.filterMap_cons, hsome]
    exact .cons ⟨hop.type, hconcrete.trans htarget, hbelow⟩ (ih hlast.2)

end Targets

/-! ## Enumerations -/

section Enumerate
variable [DecidableEq κ] {session : Session ι κ} {rangeType : RangeType} {e : κ}
  {operations : List (Operation (Option κ) (Option ι))} {ts : List κ}
  (h : List.Forall₂ (RangesTarget session rangeType e) operations ts)
include h

omit [DecidableEq κ] in
theorem isRaw_ranges (hne : operations ≠ []) :
    isRaw operations = .ok (decide (rangeType = .eRaw)) := by
  cases h with
  | nil => exact absurd rfl hne
  | cons hop _ =>
    rw [isRaw, Evaluation.rangeType, hop.type]
    rfl

theorem enumerate_ranges (hne : operations ≠ []) {m_variables : Variables} {pContext : Variable κ}
    (htype : pContext.concreteType = some e) {x : Reference}
    (hx : m_variables pContext.address = some x) :
    enumerate session m_variables pContext operations =
      .ok (.range ⟨ts.map (rangeOf session e x.inst), rangeType = .eRaw⟩) := by
  have hranges : (operations.mapM fun op => do
      let pEnumerationAction ← pointee pContext.concreteType
      let value ← getVarValue m_variables pContext.address
      subRange session pEnumerationAction value.inst op) =
        .ok (ts.map (rangeOf session e x.inst)) := by
    clear hne
    induction h with
    | nil => rfl
    | @cons op pTarget ops ts hop _ ih =>
      have hown : (do
          let pEnumerationAction ← pointee pContext.concreteType
          let value ← getVarValue m_variables pContext.address
          subRange session pEnumerationAction value.inst op) =
            .ok (rangeOf session e x.inst pTarget) := by
        rw [htype, getVarValue, hx]
        show subRange session e x.inst op = _
        rw [subRange, hop.target]
        exact except_bind_ok.mpr ⟨_, rfl, except_bind_ok.mpr ⟨_, domainMultiplier_eq hop.below, rfl⟩⟩
      rw [List.mapM_cons]
      exact except_bind_ok.mpr ⟨_, hown, except_bind_ok.mpr ⟨_, ih, rfl⟩⟩
  unfold enumerate
  exact except_bind_ok.mpr ⟨_, isRaw_ranges h hne, except_bind_ok.mpr ⟨_, hranges, rfl⟩⟩

/-- The target of a range, as the code names it. -/
def namedTarget (session : Session ι κ) (getFriendlyName : κ → String) (e pTarget : κ) :
    RangeTarget :=
  ⟨multiplier session e pTarget, session.getIndex pTarget, getFriendlyName pTarget⟩

theorem rangeTargets_eq (getFriendlyName : κ → String) :
    rangeTargets session getFriendlyName e operations =
      .ok (ts.map (namedTarget session getFriendlyName e)) := by
  induction h with
  | nil => rfl
  | @cons op pTarget ops ts hop _ ih =>
    have hown : rangeTarget session getFriendlyName e op =
        .ok (namedTarget session getFriendlyName e pTarget) := by
      rw [rangeTarget, Evaluation.rangeType, hop.type, hop.target]
      refine except_bind_ok.mpr ⟨rangeType, rfl, except_bind_ok.mpr ⟨pTarget, rfl, ?_⟩⟩
      exact except_bind_ok.mpr ⟨_, domainMultiplier_eq hop.below, rfl⟩
    rw [rangeTargets]
    exact except_bind_ok.mpr ⟨_, hown, except_bind_ok.mpr ⟨_, ih, rfl⟩⟩

theorem enumerationCode_eq (hne : operations ≠ []) (getFriendlyName : κ → String)
    {pContext : Variable κ} (htype : pContext.concreteType = some e) {returnTypes : List (Option ι)}
    (hreturn : returnTypes ≠ []) {iMaxRanges : ℕ} (hmax : iMaxRanges = 1 → operations.length = 1)
    {m_variables : VariableExprMap κ} {expr : VarExpr κ}
    (hexpr : m_variables pContext.address = some expr) :
    enumerationCode session getFriendlyName ⟨pContext, returnTypes, iMaxRanges, operations⟩ m_variables =
      .ok [.ranges (rangeType = .eRaw) iMaxRanges (ts.map (namedTarget session getFriendlyName e)) expr] := by
  have hnot : ¬ (returnTypes = [] ∨ operations = [] ∨ (iMaxRanges = 1 ∧ operations.length ≠ 1)) := by
    rintro (hnil | hnil | ⟨hone, hlength⟩)
    · exact hreturn hnil
    · exact hne hnil
    · exact hlength (hmax hone)
  have hranges : (do
      let pEnumerationAction ← pointee pContext.concreteType
      let raw ← isRaw operations
      let targets ← rangeTargets session getFriendlyName pEnumerationAction operations
      return (raw, targets)) = .ok (decide (rangeType = .eRaw),
        ts.map (namedTarget session getFriendlyName e)) := by
    rw [htype]
    refine except_bind_ok.mpr ⟨e, rfl, except_bind_ok.mpr ⟨_, isRaw_ranges h hne, ?_⟩⟩
    exact except_bind_ok.mpr ⟨_, rangeTargets_eq h getFriendlyName, rfl⟩
  simp only [enumerationCode, if_neg hnot]
  refine except_bind_ok.mpr ⟨_, getVarExpr_ok.mpr hexpr, ?_⟩
  rw [hranges]
  rfl

end Enumerate

/-! ## Cases -/

section Cases
variable {nodes : Nodes ι κ} {session : Session ι κ} {rangeType : RangeType}

/-- The variable of a case is of the action of its context, and the operations have its targets. -/
structure RangeCase.Ready (session : Session ι κ) (rangeType : RangeType) (nodes : Nodes ι κ)
    (c : RangeCase ι κ) (e : κ) : Prop where
  element : c.context.element.second = some e
  type : c.pInstance.concreteType = some e
  ranges : List.Forall₂ (RangesTarget session rangeType e) (Instruction.operationsOf c.ts)
    (targets nodes c.context)
  nonempty : Instruction.operationsOf c.ts ≠ []

variable [DecidableEq κ] {context : List (ElementPair ι κ)} {solution : InvocationSolution ι κ}
  {cases : List (RangeCase ι κ)}

theorem RangeSolution.ready (h : RangeSolution session rangeType nodes context solution cases)
    (hcontext : ∀ p ∈ context, session.isAction p.second = true) {c : RangeCase ι κ}
    (hc : c ∈ cases) : ∃ e, c.Ready session rangeType nodes e := by
  have hcase := h.casesFrom.isCase c hc
  have haction : session.isAction c.context.element.second = true := by
    refine hcontext _ ?_
    rw [← h.elements, ← h.casesFrom.contexts]
    exact List.mem_map_of_mem (List.mem_map_of_mem hc)
  cases hsecond : c.context.element.second with
  | none =>
    rw [hsecond] at haction
    cases haction
  | some e =>
    refine ⟨e, hsecond, ?_, ?_, fun hnil => ?_⟩
    · rw [hcase.pInstance, hsecond, asAction, Option.filter_some, if_pos]
      rwa [hsecond] at haction
    · exact rangesTarget_targets hsecond (h.derivable c hc) hcase.built.ranges
    · have hranges := hcase.built.ranges
      rw [hnil] at hranges
      exact h.hasChains c hc (List.forall₂_nil_left_iff.mp hranges)

end Cases

/-! ## Evaluation -/

section Evaluate
variable [DecidableEq κ] {nodes : Nodes ι κ} {session : Session ι κ} {rangeType : RangeType}
  {dereferenceDimension : Reference → ℤ → Reference} {pVariable : ReferenceVariable (Option κ)}
  {returnTypes : List (Option ι)} {iMaxRanges : ℕ} {m_variables : Variables} {x : Reference}

theorem evaluate_case {c : RangeCase ι κ} {e : κ} (h : c.Ready session rangeType nodes e)
    (hx : m_variables pVariable.address = some x) (hfree : m_variables c.pInstance.address = none) :
    evaluate session dereferenceDimension (c.solved (caseHead pVariable) returnTypes iMaxRanges)
        m_variables =
      .ok (.range ⟨(targets nodes c.context).map (rangeOf session e x.inst), rangeType = .eRaw⟩) := by
  have hget : getVarValue m_variables pVariable.address = .ok x := by rw [getVarValue, hx]
  have hset : setVarValue m_variables c.pInstance.address x =
      .ok (Function.update m_variables c.pInstance.address (some x)) := by rw [setVarValue, hfree]
  have hbelow : evaluateFront session dereferenceDimension
      [.node (.enumeration c.pInstance returnTypes iMaxRanges) c.ts]
      (Function.update m_variables c.pInstance.address (some x)) =
        .ok (.range ⟨(targets nodes c.context).map (rangeOf session e x.inst),
          rangeType = .eRaw⟩) := by
    rw [evaluateFront, evaluate]
    exact enumerate_ranges h.ranges h.nonempty h.type (Function.update_self ..)
  unfold RangeCase.solved caseHead
  split
  · rw [evaluate]
    exact except_bind_ok.mpr ⟨x, hget, except_bind_ok.mpr ⟨_, hset, hbelow⟩⟩
  · rw [evaluate]
    exact except_bind_ok.mpr ⟨x, hget, except_bind_ok.mpr ⟨_, hset, hbelow⟩⟩

variable (dereferenceDimension returnTypes iMaxRanges m_variables x) in
/-- The case of a type is evaluated, where there is one. -/
theorem evaluateBranch_cases (hpoly : pVariable.types.length > 1) {cases : List (RangeCase ι κ)}
    (hready : ∀ c ∈ cases, ∃ e, c.Ready session rangeType nodes e)
    (hnodup : (cases.map fun c => c.context.element.second).Nodup) :
    (∀ c ∈ cases, ∀ e, c.context.element.second = some e → session.getIndex e = x.type →
      evaluateBranch session dereferenceDimension x
          (cases.map (RangeCase.solved (caseHead pVariable) returnTypes iMaxRanges)) m_variables =
        evaluate session dereferenceDimension
          (c.solved (caseHead pVariable) returnTypes iMaxRanges) m_variables) ∧
    ((∀ c ∈ cases, ∀ e, c.context.element.second = some e → session.getIndex e ≠ x.type) →
      evaluateBranch session dereferenceDimension x
          (cases.map (RangeCase.solved (caseHead pVariable) returnTypes iMaxRanges)) m_variables =
        .error .noCase) := by
  induction cases with
  | nil => exact ⟨by simp, fun _ => rfl⟩
  | cons c cases ih =>
    rw [List.forall_mem_cons] at hready
    rw [List.map_cons, List.nodup_cons] at hnodup
    obtain ⟨⟨e, he⟩, hready⟩ := hready
    obtain ⟨ihsome, ihnone⟩ := ih hready hnodup.2
    have hstep : evaluateBranch session dereferenceDimension x
        ((c :: cases).map (RangeCase.solved (caseHead pVariable) returnTypes iMaxRanges))
          m_variables =
        if session.getIndex e = x.type then evaluate session dereferenceDimension
          (c.solved (caseHead pVariable) returnTypes iMaxRanges) m_variables
        else evaluateBranch session dereferenceDimension x
          (cases.map (RangeCase.solved (caseHead pVariable) returnTypes iMaxRanges))
            m_variables := by
      have hhead : (c.solved (caseHead pVariable) returnTypes iMaxRanges).head =
          .polyCase pVariable c.pInstance := if_pos hpoly
      rw [List.map_cons, evaluateBranch, hhead]
      dsimp only
      rw [he.type]
      rfl
    rw [hstep]
    constructor
    · intro c' hc' e' he' hindex
      rcases List.mem_cons.mp hc' with rfl | hc'
      · obtain rfl : e = e' := Option.some.inj (he.element.symm.trans he')
        exact if_pos hindex
      · rw [if_neg fun hsame => ?_]
        · exact ihsome c' hc' e' he' hindex
        · obtain rfl := session.index_injective (hsame.trans hindex.symm)
          refine hnodup.1 (List.mem_map.mpr ⟨c', hc', ?_⟩)
          rw [he', he.element]
    · intro hall
      rw [if_neg (hall c List.mem_cons_self e he.element)]
      exact ihnone fun c' hc' => hall c' (List.mem_cons_of_mem c hc')

variable {context : List (ElementPair ι κ)} {solution : InvocationSolution ι κ}
  {cases : List (RangeCase ι κ)}

omit [DecidableEq κ] in
theorem nodup_contexts (hcontexts : cases.map RangeCase.context = contexts nodes)
    (helements : (contexts nodes).map Name.element = context)
    (hnodup : (context.map ElementPair.second).Nodup) :
    (cases.map fun c => c.context.element.second).Nodup := by
  rw [← helements, ← hcontexts, List.map_map, List.map_map] at hnodup
  exact hnodup

theorem evaluateSolution_root {children : List (Tree ι κ)}
    (hroot : solution.m_pRoot = .node (.root (contextVariable context)) children) :
    evaluateSolution session dereferenceDimension solution x =
      evaluateFront session dereferenceDimension children
        (Function.update (fun _ => none) 0 (some x)) := by
  have hevaluate : ∀ m_variables, evaluate session dereferenceDimension
      (.node (.root (contextVariable context)) children) m_variables =
        evaluateFront session dereferenceDimension children m_variables := fun _ => by rw [evaluate]
  rw [evaluateSolution, hroot]
  exact hevaluate _

/-- From a reference to an instance of a context, evaluation comes to the ranges of its targets. -/
theorem RangeSolution.evaluate_eq (h : RangeSolution session rangeType nodes context solution cases)
    (hcontext : ∀ p ∈ context, session.isAction p.second = true)
    (hnodup : (context.map ElementPair.second).Nodup) :
    (∀ c ∈ cases, ∀ e, c.context.element.second = some e →
      (context.length > 1 → session.getIndex e = x.type) →
      evaluateSolution session dereferenceDimension solution x =
        .ok (.range ⟨(targets nodes c.context).map (rangeOf session e x.inst), rangeType = .eRaw⟩)) ∧
    (context.length > 1 → (∀ c ∈ cases, ∀ e, c.context.element.second = some e →
      session.getIndex e ≠ x.type) →
      evaluateSolution session dereferenceDimension solution x = .error .noCase) := by
  obtain ⟨returnTypes, -, hroot⟩ := h.root
  have hready : ∀ c ∈ cases, ∃ e, c.Ready session rangeType nodes e := fun c hc => h.ready hcontext hc
  have hdifferent := nodup_contexts h.casesFrom.contexts h.elements hnodup
  have hget : Function.update (fun _ => none) 0 (some x) (contextVariable context).address = some x :=
    Function.update_self ..
  have hfree : ∀ c ∈ cases, Function.update (fun _ => none) 0 (some x) c.pInstance.address = none := by
    intro c hc
    have habove := h.casesFrom.above c hc
    exact Function.update_of_ne (by omega) ..
  have hlength : (contextVariable context).types.length = context.length := List.length_map ..
  by_cases hpoly : context.length > 1
  · have htypes : (contextVariable context).types.length > 1 := hlength ▸ hpoly
    have hstart : evaluateSolution session dereferenceDimension solution x =
        evaluateBranch session dereferenceDimension x
          (cases.map (RangeCase.solved (caseHead (contextVariable context)) returnTypes
            (maxRanges cases))) (Function.update (fun _ => none) 0 (some x)) := by
      rw [evaluateSolution_root hroot, rangeRoot, if_pos htypes, evaluateFront, evaluate, getVarValue,
        hget]
      rfl
    obtain ⟨hsome, hnone⟩ := evaluateBranch_cases dereferenceDimension returnTypes (maxRanges cases)
      (Function.update (fun _ => none) 0 (some x)) x htypes hready hdifferent
    rw [hstart]
    refine ⟨fun c hc e he htype => ?_, fun _ hall => hnone hall⟩
    obtain ⟨e', he'⟩ := hready c hc
    obtain rfl : e' = e := Option.some.inj (he'.element.symm.trans he)
    rw [hsome c hc e' he (htype hpoly)]
    exact evaluate_case he' hget (hfree c hc)
  · have htypes : ¬ (contextVariable context).types.length > 1 := hlength ▸ hpoly
    refine ⟨fun c hc e he _ => ?_, fun hlt => absurd hlt hpoly⟩
    have hone : cases = [c] := by
      have hmap : cases.length = context.length := by
        rw [← h.elements, ← h.casesFrom.contexts, List.length_map, List.length_map]
      obtain ⟨c', rfl⟩ : ∃ c', cases = [c'] := by
        have hpos := List.length_pos_of_mem hc
        exact List.length_eq_one_iff.mp (by omega)
      rw [List.mem_singleton.mp hc]
    obtain ⟨e', he'⟩ := hready c hc
    obtain rfl : e' = e := Option.some.inj (he'.element.symm.trans he)
    rw [evaluateSolution_root hroot, rangeRoot, if_neg htypes]
    conv_lhs => rw [hone, List.map_singleton, evaluateFront]
    exact evaluate_case he' hget (hfree c hc)

end Evaluate

/-! ## Code -/

section Code
variable [DecidableEq κ] {nodes : Nodes ι κ} {session : Session ι κ} {rangeType : RangeType}
  {elements : Elements κ} {getFriendlyName : κ → String} {pVariable : ReferenceVariable (Option κ)}
  {returnTypes : List (Option ι)} {iMaxRanges : ℕ} {exprs : VariableExprMap κ}

/-- The code of the ranges of a case. -/
def rangesCode (session : Session ι κ) (getFriendlyName : κ → String) (rangeType : RangeType)
    (nodes : Nodes ι κ) (iMaxRanges : ℕ) (c : RangeCase ι κ) (e : κ) : Statement κ :=
  .ranges (rangeType = .eRaw) iMaxRanges
    ((targets nodes c.context).map (namedTarget session getFriendlyName e)) (.dataInstance .context)

theorem generate_enumeration {c : RangeCase ι κ} {e : κ} (h : c.Ready session rangeType nodes e)
    (hreturn : returnTypes ≠ [])
    (hmax : iMaxRanges = 1 → (Instruction.operationsOf c.ts).length = 1)
    (hexpr : exprs c.pInstance.address = some (.dataInstance .context)) :
    generateAll session elements getFriendlyName
        [.node (.enumeration c.pInstance returnTypes iMaxRanges) c.ts] exprs =
      .ok ([rangesCode session getFriendlyName rangeType nodes iMaxRanges c e], exprs) := by
  rw [generateAll_singleton, generateCode]
  refine except_bind_ok.mpr ⟨_, ?_, rfl⟩
  exact enumerationCode_eq h.ranges h.nonempty getFriendlyName h.type hreturn hmax hexpr

variable (elements getFriendlyName) in
/-- The code of the cases of a reference, whose variables are different. -/
theorem generateAll_cases (hpoly : pVariable.types.length > 1) {cases : List (RangeCase ι κ)}
    (hready : ∀ c ∈ cases, ∃ e, c.Ready session rangeType nodes e) (hreturn : returnTypes ≠ [])
    (hmax : ∀ c ∈ cases, iMaxRanges = 1 → (Instruction.operationsOf c.ts).length = 1)
    (haddresses : (cases.map fun c => c.pInstance.address).Pairwise (· < ·))
    (hexpr : exprs pVariable.address = some .context)
    (hfree : ∀ c ∈ cases, exprs c.pInstance.address = none) :
    ∃ bodies exprs', generateAll session elements getFriendlyName
        (cases.map (RangeCase.solved (caseHead pVariable) returnTypes iMaxRanges)) exprs =
          .ok (bodies.map fun b => .case b.1 b.2, exprs') ∧
      List.Forall₂ (fun (c : RangeCase ι κ) b => ∃ e, c.context.element.second = some e ∧
        b = (session.getIndex e, [rangesCode session getFriendlyName rangeType nodes iMaxRanges c e]))
        cases bodies := by
  induction cases generalizing exprs with
  | nil => exact ⟨[], exprs, rfl, .nil⟩
  | cons c cases ih =>
    rw [List.forall_mem_cons] at hready hmax hfree
    rw [List.map_cons, List.pairwise_cons] at haddresses
    obtain ⟨⟨e, he⟩, hready⟩ := hready
    have hne : ∀ c' ∈ cases, c'.pInstance.address ≠ c.pInstance.address := fun c' hc' =>
      (haddresses.1 _ (List.mem_map_of_mem hc')).ne'
    have hcontext : pVariable.address ≠ c.pInstance.address := by
      intro heq
      rw [heq, hfree.1] at hexpr
      cases hexpr
    have hset : Function.update exprs c.pInstance.address (some (.dataInstance .context))
        pVariable.address = some .context := by
      rw [Function.update_of_ne hcontext, hexpr]
    obtain ⟨bodies, exprs', hbodies, hforall⟩ := ih hready hmax.2 haddresses.2 hset
      fun c' hc' => by rw [Function.update_of_ne (hne c' hc'), hfree.2 c' hc']
    refine ⟨(session.getIndex e, [rangesCode session getFriendlyName rangeType nodes iMaxRanges c e]) ::
      bodies, exprs', ?_, .cons ⟨e, he.element, rfl⟩ hforall⟩
    have hown : generateCode session elements getFriendlyName
        (c.solved (caseHead pVariable) returnTypes iMaxRanges) exprs =
          .ok ([.case (session.getIndex e)
              [rangesCode session getFriendlyName rangeType nodes iMaxRanges c e]],
            Function.update exprs c.pInstance.address (some (.dataInstance .context))) := by
      have hhead : (caseHead pVariable c.pInstance : Head (Option κ) (Option ι)) =
          .polyCase pVariable c.pInstance := if_pos hpoly
      rw [RangeCase.solved, hhead, generateCode]
      refine except_bind_ok.mpr ⟨_, getVarExpr_ok.mpr hexpr, ?_⟩
      refine except_bind_ok.mpr ⟨_, setVarExpr_ok.mpr ⟨hfree.1, rfl⟩, ?_⟩
      refine except_bind_ok.mpr ⟨e, required_ok.mpr he.type, ?_⟩
      refine except_bind_ok.mpr ⟨_, generate_enumeration he hreturn hmax.1 ?_, rfl⟩
      exact Function.update_self ..
    exact generateAll_cons.mpr ⟨_, _, _, hown, hbodies, rfl⟩

variable {context : List (ElementPair ι κ)} {solution : InvocationSolution ι κ}
  {cases : List (RangeCase ι κ)}

/-- The code of a range: a switch over the contexts, or the ranges of the only one. -/
inductive RangeCodes (session : Session ι κ) (getFriendlyName : κ → String) (rangeType : RangeType)
    (nodes : Nodes ι κ) (context : List (ElementPair ι κ)) (cases : List (RangeCase ι κ)) :
    List (Statement κ) → Prop
  | mono {c : RangeCase ι κ} {e : κ} (hone : ¬ context.length > 1) (hcases : cases = [c])
      (he : c.context.element.second = some e) :
      RangeCodes session getFriendlyName rangeType nodes context cases
        [rangesCode session getFriendlyName rangeType nodes (maxRanges cases) c e]
  | poly {bodies : List (ℤ × List (Statement κ))} (hmany : context.length > 1)
      (hbodies : List.Forall₂ (fun (c : RangeCase ι κ) b => ∃ e, c.context.element.second = some e ∧
        b = (session.getIndex e,
          [rangesCode session getFriendlyName rangeType nodes (maxRanges cases) c e])) cases bodies) :
      RangeCodes session getFriendlyName rangeType nodes context cases
        [.switchType .context (bodies.map fun b => .case b.1 b.2)]

theorem RangeSolution.length_eq (h : RangeSolution session rangeType nodes context solution cases) :
    cases.length = context.length := by
  rw [← h.elements, ← h.casesFrom.contexts, List.length_map, List.length_map]

/-- Every solution of a range has code. -/
theorem RangeSolution.generate (h : RangeSolution session rangeType nodes context solution cases)
    (hcontext : ∀ p ∈ context, session.isAction p.second = true) (elements : Elements κ)
    (getFriendlyName : κ → String) :
    ∃ code, generateInstructions session elements getFriendlyName solution = .ok code ∧
      RangeCodes session getFriendlyName rangeType nodes context cases code := by
  obtain ⟨returnTypes, hreturn, hroot⟩ := h.root
  have hready : ∀ c ∈ cases, ∃ e, c.Ready session rangeType nodes e := fun c hc => h.ready hcontext hc
  have hmax : ∀ c ∈ cases, maxRanges cases = 1 → (Instruction.operationsOf c.ts).length = 1 := by
    intro c hc hone
    obtain ⟨e, he⟩ := hready c hc
    have hle := le_maxRanges hc
    have hpos := List.length_pos_of_ne_nil he.nonempty
    omega
  have hstart : setVarExpr (fun _ => none) (contextVariable context).address .context =
      .ok (Function.update (fun _ => none) 0 (some (.context : VarExpr κ))) := rfl
  have hexpr : Function.update (fun _ => none) 0 (some (.context : VarExpr κ))
      (contextVariable context).address = some .context := Function.update_self ..
  have hfree : ∀ c ∈ cases, Function.update (fun _ => none) 0 (some (.context : VarExpr κ))
      c.pInstance.address = none := by
    intro c hc
    have habove := h.casesFrom.above c hc
    exact Function.update_of_ne (by omega) ..
  have hlength : (contextVariable context).types.length = context.length := List.length_map ..
  unfold generateInstructions
  rw [hroot]
  by_cases hpoly : context.length > 1
  · have htypes : (contextVariable context).types.length > 1 := hlength ▸ hpoly
    obtain ⟨bodies, exprs', hbodies, hforall⟩ := generateAll_cases elements getFriendlyName htypes
      hready hreturn hmax h.casesFrom.addresses hexpr hfree
    refine ⟨_, ?_, .poly hpoly hforall⟩
    refine except_bind_ok.mpr ⟨_, hstart, except_bind_ok.mpr ⟨(_, exprs'), ?_, rfl⟩⟩
    rw [rangeRoot, if_pos htypes, generateAll_singleton, generateCode]
    refine except_bind_ok.mpr ⟨_, getVarExpr_ok.mpr hexpr, ?_⟩
    exact except_bind_ok.mpr ⟨_, hbodies, rfl⟩
  · have htypes : ¬ (contextVariable context).types.length > 1 := hlength ▸ hpoly
    obtain ⟨c, hone⟩ : ∃ c, cases = [c] := by
      have hpos := List.length_pos_of_ne_nil h.nonempty
      have hcount := h.length_eq
      exact List.length_eq_one_iff.mp (by omega)
    have hc : c ∈ cases := by rw [hone]; exact List.mem_singleton_self c
    obtain ⟨e, he⟩ := hready c hc
    refine ⟨_, ?_, .mono hpoly hone he.element⟩
    refine except_bind_ok.mpr ⟨_, hstart, except_bind_ok.mpr ⟨(_, Function.update
      (Function.update (fun _ => none) 0 (some .context)) c.pInstance.address
        (some (.dataInstance .context))), ?_, rfl⟩⟩
    have hhead : (caseHead (contextVariable context) c.pInstance : Head (Option κ) (Option ι)) =
        .monoReference (contextVariable context) c.pInstance := if_neg htypes
    rw [rangeRoot, if_neg htypes]
    conv_lhs => rw [hone, List.map_singleton, generateAll_singleton, RangeCase.solved, hhead, ← hone]
    rw [generateCode]
    refine except_bind_ok.mpr ⟨_, getVarExpr_ok.mpr hexpr, ?_⟩
    refine except_bind_ok.mpr ⟨_, setVarExpr_ok.mpr ⟨hfree c hc, rfl⟩, ?_⟩
    exact generate_enumeration he hreturn (hmax c hc) (Function.update_self ..)

/-! ## Execution -/

/-- A range in the 32 bits of an instance. -/
def inst32 (r : SubRange) : SubRange := ⟨r.runtimeType, r.first % 2 ^ 32, r.last % 2 ^ 32⟩

variable {content : κ → ℕ → Reference} {x : Reference}

theorem execute_ranges {c : RangeCase ι κ} {e : κ}
    (hcount : iMaxRanges ≤ (targets nodes c.context).length) :
    executeAll content x [rangesCode session getFriendlyName rangeType nodes iMaxRanges c e] =
      .ok ⟨[.range ⟨((targets nodes c.context).map (rangeOf session e x.inst)).map inst32,
        rangeType = .eRaw⟩], true⟩ := by
  have hinst : instOf content x (.dataInstance .context : VarExpr κ) = .ok x.inst := rfl
  have hlength : ¬ ((targets nodes c.context).map (namedTarget session getFriendlyName e)).length <
      iMaxRanges := by
    rw [List.length_map]
    omega
  rw [executeAll, rangesCode, execute]
  refine except_bind_ok.mpr ⟨_, except_bind_ok.mpr ⟨_, hinst, if_neg hlength⟩, ?_⟩
  rw [List.map_map, List.map_map]
  rfl

omit [DecidableEq κ] in
/-- A switch throws where no label is the type. -/
theorem executeCase_none {type : ℤ} {bodies : List (ℤ × List (Statement κ))}
    (h : ∀ b ∈ bodies, b.1 ≠ type) :
    executeCase content x type (bodies.map fun b => .case b.1 b.2) = .error .typeError := by
  induction bodies with
  | nil => rfl
  | cons b bodies ih =>
    rw [List.forall_mem_cons] at h
    rw [List.map_cons, executeCase, if_neg h.1, ih h.2]

omit [DecidableEq κ] in
theorem execute_switch {body : List (Statement κ)} {r : Except ExecutionFault (Execution κ)}
    (h : executeCase content x x.type body = r)
    (hr : ∀ execution, r = .ok execution → execution.returned = true) :
    executeAll content x [.switchType .context body] = r := by
  have hswitch : execute content x (.switchType .context body) = r := by
    rw [execute]
    exact h
  rw [executeAll, hswitch]
  cases r with
  | error fault => rfl
  | ok execution => exact if_pos (hr execution rfl)

/-- The number of ranges of all contexts, if it is the same for all. -/
theorem RangeSolution.maxRanges_eq (h : RangeSolution session rangeType nodes context solution cases)
    (hcontext : ∀ p ∈ context, session.isAction p.second = true) {n : ℕ}
    (hcount : ∀ c ∈ contexts nodes, (targets nodes c).length = n) : maxRanges cases = n := by
  have hall : ∀ c ∈ cases, (Instruction.operationsOf c.ts).length = n ∧ 0 < n := by
    intro c hc
    obtain ⟨e, he⟩ := h.ready hcontext hc
    have hlength := he.ranges.length_eq
    have hpos := List.length_pos_of_ne_nil he.nonempty
    have hn := hcount c.context (by rw [← h.casesFrom.contexts]; exact List.mem_map_of_mem hc)
    omega
  obtain ⟨c, hc⟩ := List.exists_mem_of_ne_nil _ h.nonempty
  exact Invocation.maxRanges_eq (hall c hc).2 h.nonempty fun c hc => (hall c hc).1

/-- The code of a range, on a reference to an instance of a context. -/
theorem RangeCodes.execute_eq {code : List (Statement κ)}
    (hcode : RangeCodes session getFriendlyName rangeType nodes context cases code)
    (hnodup : (cases.map fun c => c.context.element.second).Nodup) {c : RangeCase ι κ} (hc : c ∈ cases)
    {e : κ} (he : c.context.element.second = some e)
    (htype : context.length > 1 → session.getIndex e = x.type)
    (hcount : maxRanges cases ≤ (targets nodes c.context).length) :
    executeAll content x code =
      .ok ⟨[.range ⟨((targets nodes c.context).map (rangeOf session e x.inst)).map inst32,
        rangeType = .eRaw⟩], true⟩ := by
  cases hcode with
  | @mono c' e' hone hcases he' =>
    obtain rfl : c = c' := by
      rw [hcases] at hc
      exact List.mem_singleton.mp hc
    obtain rfl : e = e' := Option.some.inj (he.symm.trans he')
    exact execute_ranges hcount
  | @poly bodies hmany hbodies =>
    generalize maxRanges cases = iMaxRanges at hbodies hcount
    have hlabels : (bodies.map Prod.fst).map some =
        (cases.map fun c => c.context.element.second).map (Option.map session.getIndex) := by
      clear hnodup hc hcount
      induction hbodies with
      | nil => rfl
      | cons hb _ ih =>
        obtain ⟨e, he, rfl⟩ := hb
        simp only [List.map_cons, ih, he, Option.map_some]
    have hdifferent : (bodies.map Prod.fst).Nodup := by
      have hmapped := hnodup.map (Option.map_injective session.index_injective)
      rw [← hlabels] at hmapped
      exact hmapped.of_map some
    have hmem : (session.getIndex e, [rangesCode session getFriendlyName rangeType nodes
        iMaxRanges c e]) ∈ bodies := by
      clear hlabels hdifferent hnodup hcount
      induction hbodies with
      | nil => cases hc
      | cons hb _ ih =>
        rcases List.mem_cons.mp hc with rfl | hc
        · obtain ⟨e', he', rfl⟩ := hb
          obtain rfl : e = e' := Option.some.inj (he.symm.trans he')
          exact List.mem_cons_self
        · exact List.mem_cons_of_mem _ (ih hc)
    refine execute_switch ?_ fun execution hok => by rw [← Except.ok.inj hok]
    rw [← htype hmany, executeCase_mem hmem hdifferent]
    exact execute_ranges hcount

/-- The code of a range throws where the reference is to none of the contexts. -/
theorem RangeCodes.execute_none {code : List (Statement κ)}
    (hcode : RangeCodes session getFriendlyName rangeType nodes context cases code)
    (hmany : context.length > 1)
    (htype : ∀ c ∈ cases, ∀ e, c.context.element.second = some e → session.getIndex e ≠ x.type) :
    executeAll content x code = .error .typeError := by
  cases hcode with
  | mono hone => exact absurd hmany hone
  | @poly bodies _ hbodies =>
    refine execute_switch (executeCase_none fun b hb => ?_) fun execution hok => by cases hok
    obtain ⟨c, hc, e, he, rfl⟩ := exists_forall₂ hbodies hb
    exact htype c hc e he

end Code
end Invocation
end EgLang.Compiler
