import EgLang.Compiler.BuiltRoutes
import EgLang.Compiler.InvocationCache

/-!
# Invocations are walks

Where the names of an invocation stay in step, its instruction tree is well typed, and evaluated on a
reference to its context it does the operation on the instance that a walk along the type path comes to.
Whatever the names, evaluation never finds a variable unset, or set twice.
-/

namespace EgLang.Compiler

open EgLang.Library NameResolution Evaluation

set_option autoImplicit false

namespace Invocation
variable {ι κ : Type}

/-! ## Evaluation -/

section Evaluation
variable [DecidableEq ι] [DecidableEq κ] {session : Session ι κ}
  {dereferenceDimension : Reference → ℤ → Reference}

/-- Every reference that a dimension stores is to an instance of one of its context types. -/
def Stores (session : Session ι κ) (dereferenceDimension : Reference → ℤ → Reference) : Prop :=
  ∀ (d o : κ) (x : Reference), session.isEGType (some d) = true → session.owner d = some o →
    x.type = session.getIndex o →
    ∃ e, some e ∈ (session.getElementVector (session.getContextTypes (some d)) true).map
        ElementPair.second ∧
      session.getIndex e = (dereferenceDimension x (session.getIndex d)).type

/-- The variable that a route has come to holds a reference to an instance of one of its types. -/
def HoldsAt (session : Session ι κ) (m_variables : Variables) (x : Reference) : Place (Option κ) → Prop
  | .start => False
  | .inst v => m_variables v.address = some x ∧
      ∃ e, v.concreteType = some e ∧ x.type = session.getIndex e
  | .ref r => m_variables r.address = some x ∧ ∃ e, some e ∈ r.types ∧ session.getIndex e = x.type

variable {m_variables : Variables}

omit [DecidableEq ι] in
/-- A variable of one type is made, and the tree below goes on from it. -/
theorem evaluate_set (session : Session ι κ) (dereferenceDimension : Reference → ℤ → Reference)
    {m_variables : Variables} {v : Variable κ} {e : κ} (hv : v.concreteType = some e) {t : Tree ι κ}
    (h : Free m_variables ({v.address} + t.bound)) {x : Reference}
    (hx : x.type = session.getIndex e) : ∃ m_variables',
      (Evaluation.setVarValue m_variables v.address x >>= fun m_variables =>
        evaluateFront session dereferenceDimension [t] m_variables) =
        evaluate session dereferenceDimension t m_variables' ∧
      HoldsAt session m_variables' x (.inst v) ∧ Free m_variables' t.bound := by
  obtain ⟨hset, hfree⟩ := setVarValue_free h x
  refine ⟨_, ?_, ⟨Function.update_self .., e, hv, hx⟩, hfree⟩
  rw [hset]
  rfl

omit [DecidableEq ι] in
/-- The case of a reference is found. -/
theorem evaluateBranch_case (session : Session ι κ)
    (dereferenceDimension : Reference → ℤ → Reference) (m_variables : Variables)
    (r : ReferenceVariable (Option κ)) {x : Reference} {cases : List (Variable κ × Tree ι κ)}
    (htypes : ∀ c ∈ cases, c.1.concreteType ≠ none)
    (h : ∃ c ∈ cases, ∃ e, c.1.concreteType = some e ∧ session.getIndex e = x.type) :
    ∃ c ∈ cases, (∃ e, c.1.concreteType = some e ∧ session.getIndex e = x.type) ∧
      evaluateBranch session dereferenceDimension x
          (cases.map fun c => .node (.polyCase r c.1) [c.2]) m_variables =
        evaluate session dereferenceDimension (.node (.polyCase r c.1) [c.2]) m_variables := by
  induction cases with
  | nil => simp at h
  | cons c cases ih =>
    rw [List.forall_mem_cons] at htypes
    obtain ⟨d, hd⟩ := Option.ne_none_iff_exists'.mp htypes.1
    have hbranch : evaluateBranch session dereferenceDimension x
        ((c :: cases).map fun c => .node (.polyCase r c.1) [c.2]) m_variables =
          if session.getIndex d = x.type then
            evaluate session dereferenceDimension (.node (.polyCase r c.1) [c.2]) m_variables
          else evaluateBranch session dereferenceDimension x
            (cases.map fun c => .node (.polyCase r c.1) [c.2]) m_variables := by
      rw [List.map_cons, evaluateBranch]
      simp only [Instruction.head_node, hd, pointee]
      rfl
    by_cases hindex : session.getIndex d = x.type
    · refine ⟨c, List.mem_cons_self, ⟨d, hd, hindex⟩, ?_⟩
      rw [hbranch, if_pos hindex]
    · have hrest : ∃ c ∈ cases, ∃ e, c.1.concreteType = some e ∧ session.getIndex e = x.type := by
        obtain ⟨c', hc', e, he, hx⟩ := h
        rcases List.mem_cons.mp hc' with rfl | hc'
        · rw [hd] at he
          exact absurd (Option.some.inj he ▸ hx) hindex
        · exact ⟨c', hc', e, he, hx⟩
      obtain ⟨c', hc', htype, heq⟩ := ih htypes.2 hrest
      refine ⟨c', List.mem_cons_of_mem c hc', htype, ?_⟩
      rw [hbranch, if_neg hindex, heq]

/-- **A clean, well typed route** evaluates to the operation that one of its runs comes to. -/
theorem evaluate_route (hstores : Stores session dereferenceDimension) {p : Place (Option κ)}
    {t : Tree ι κ} (h : Route (Cleaned (Instructs session) True) True p t) {x : Reference}
    (hp : HoldsAt session m_variables x p) (hfree : Free m_variables t.bound) :
    ∃ op y, Run (reading session dereferenceDimension) t x op y ∧
      evaluate session dereferenceDimension t m_variables = perform session op y := by
  induction h generalizing m_variables x with
  | root hok ht ih => exact absurd hp id
  | @parentDerivation v w t hok ht ih =>
    obtain ⟨hx, -⟩ := hp
    obtain ⟨e, d, hv, -, hw⟩ := hok.1
    obtain ⟨m_variables', heq, hholds, hfree⟩ := evaluate_set session
      dereferenceDimension hw (hfree.below rfl rfl)
      (x := ⟨x.inst / session.getLocalDomainSize e, session.getIndex d, x.timestamp⟩) rfl
    obtain ⟨op, y, hrun, hevaluate⟩ := ih hholds hfree
    refine ⟨op, y, .parentDerivation ?_, ?_⟩
    · rw [hv, hw]
      exact hrun
    · rw [evaluate]
      simp only [getVarValue, hx, hv, hw, pointee]
      exact heq.trans hevaluate
  | @childDerivation v w t hok ht ih =>
    obtain ⟨hx, -⟩ := hp
    obtain ⟨e, d, hv, -, -, hw⟩ := hok.1
    obtain ⟨m_variables', heq, hholds, hfree⟩ := evaluate_set session
      dereferenceDimension hw (hfree.below rfl rfl)
      (x := ⟨x.inst, session.getIndex d, x.timestamp⟩) rfl
    obtain ⟨op, y, hrun, hevaluate⟩ := ih hholds hfree
    refine ⟨op, y, .childDerivation ?_, ?_⟩
    · rw [hw]
      exact hrun
    · rw [evaluate]
      simp only [getVarValue, hx, hw, pointee]
      exact heq.trans hevaluate
  | @read v r d t hok ht ih =>
    obtain ⟨hx, e, hv, htype⟩ := hp
    obtain ⟨k, o, rfl, howner, ho, hdimension, htypes⟩ := hok.1
    obtain rfl := Option.some.inj (ho.symm.trans hv)
    obtain ⟨c, hc, hindex⟩ := hstores k o x hdimension howner htype
    obtain ⟨hset, hfree⟩ := setVarValue_free (hfree.below rfl rfl)
      (dereferenceDimension x (session.getIndex k))
    rw [← htypes] at hc
    obtain ⟨op, y, hrun, hevaluate⟩ := ih ⟨Function.update_self .., c, hc, hindex⟩ hfree
    refine ⟨op, y, .read hrun, ?_⟩
    rw [evaluate]
    simp only [getVarValue, hx, pointee]
    show (Evaluation.setVarValue m_variables r.address _ >>= fun m_variables =>
      evaluateFront session dereferenceDimension [t] m_variables) = _
    rw [hset]
    exact hevaluate
  | @monoReference w r t hok ht ih =>
    obtain ⟨hx, e, he, hindex⟩ := hp
    obtain ⟨htypes, -⟩ := hok.1
    rw [htypes, List.mem_singleton] at he
    obtain ⟨m_variables', heq, hholds, hfree⟩ := evaluate_set session
      dereferenceDimension he.symm (hfree.below rfl rfl) hindex.symm
    obtain ⟨op, y, hrun, hevaluate⟩ := ih hholds hfree
    refine ⟨op, y, .monoReference ?_ hrun, ?_⟩
    · rw [← he]
      exact hindex
    · rw [evaluate]
      simp only [getVarValue, hx]
      exact heq.trans hevaluate
  | @polyReference r cases hok htypes hcases ht ih =>
    obtain ⟨hx, e, he, hindex⟩ := hp
    rw [← htypes] at he
    obtain ⟨c, hc, htype⟩ := List.mem_map.mp he
    obtain ⟨c, hc, ⟨d, hd, hindex⟩, hbranch⟩ := evaluateBranch_case session
      dereferenceDimension m_variables r
      (fun c hc => (hcases c hc).1) ⟨c, hc, e, htype, hindex⟩
    have hmem : (.node (.polyCase r c.1) [c.2] : Tree ι κ) ∈
        cases.map fun c => .node (.polyCase r c.1) [c.2] := List.mem_map_of_mem hc
    have hcase : Free m_variables (Instruction.node (.polyCase r c.1) [c.2]).bound :=
      hfree.mono (by simpa [Head.binds, Head.isClosed] using bound_le_boundAll hmem)
    obtain ⟨m_variables', heq, hholds, hfree⟩ := evaluate_set session
      dereferenceDimension hd (hcase.below rfl rfl) hindex.symm
    obtain ⟨op, y, hrun, hevaluate⟩ := ih c hc hholds hfree
    refine ⟨op, y, .polyReference hmem ?_ hrun, ?_⟩
    · rw [hd]
      exact hindex
    · rw [evaluate]
      simp only [getVarValue, hx]
      show evaluateBranch session dereferenceDimension x _ m_variables = _
      rw [hbranch, evaluate]
      simp only [getVarValue, hx]
      exact heq.trans hevaluate
  | elimination hok hstrict ht ih => exact absurd rfl hok.2.1
  | failure hok => exact absurd rfl (hok.2.2 trivial)
  | @operation v op hv hok =>
    subst hv
    refine ⟨op, x, .operation, ?_⟩
    rw [evaluate, getVarValue, hp.1]
    rfl

end Evaluation

/-! ## The tree of an invocation -/

section Root
variable [DecidableEq ι] [DecidableEq κ] {session : Session ι κ} {operation : OperationID}
  {context : List (ElementPair ι κ)} {typePath : List (List (ElementPair ι κ))} {nodes : Nodes ι κ}

/-- The trees of contexts that stay in step. -/
theorem context_sound {t : NameTree ℕ ι κ}
    (hfollows : FollowsFrom session.toDerivationAnalysis (decide (operation = .id_Done)) context
      typePath t) (hcontext : ∀ p ∈ context, session.isAction p.second = true)
    (hstep : ∀ c ∈ t.children, InStep session operation c ∧
      (appliesToParent operation = true → c.children ≠ [])) {c : NameTree ℕ ι κ}
    (hc : c ∈ t.children) {v : Variable κ}
    (hv : v.concreteType = asAction session c.label.2.element.second) {u : Tree ι κ}
    (h : GenericTree session operation .referent t.label.2.element.second c v u) :
    ∃ k, some k ∈ context.map ElementPair.second ∧ c.label.2.element.second = some k ∧
      v.concreteType = some k ∧ Sound session operation .referent typePath c k v u := by
  have hmem : c.label.2.element ∈ context := by
    rw [← hfollows.elements]
    exact List.mem_map_of_mem hc
  obtain ⟨k, hk, hkaction⟩ := exists_action (hcontext _ hmem)
  have htype : v.concreteType = some k := by
    rw [hv, asAction_of_isAction (hcontext _ hmem), hk]
  have hroot : t.label.2.element.second = none := by rw [hfollows.root]
  have hat : At session operation t.label.2.element.second c k .referent := by
    refine ⟨hk, fun hleaf => .inl ⟨hroot, ?_⟩⟩
    refine Bool.eq_false_iff.mpr fun hp => ?_
    exact (hstep c hc).2 hp hleaf
  refine ⟨k, ?_, hk, htype, h.sound (hfollows.follows c hc) (hstep c hc).1 hkaction htype hat⟩
  rw [← hk]
  exact List.mem_map_of_mem hmem

/-- **The root instruction** begins well typed routes, the runs of which are walks from a context. -/
theorem GenericRoot.sound {t : NameTree ℕ ι κ}
    (hfollows : FollowsFrom session.toDerivationAnalysis (decide (operation = .id_Done)) context
      typePath t) (hcontext : ∀ p ∈ context, session.isAction p.second = true)
    (hstep : ∀ c ∈ t.children, InStep session operation c ∧
      (appliesToParent operation = true → c.children ≠ [])) {children : List (Tree ι κ)}
    (h : GenericRoot session operation (contextVariable context) t children) :
    Route (Instructs session) True .start (.node (.root (contextVariable context)) children) ∧
      ∀ {dereferenceDimension : Reference → ℤ → Reference} {x y : Reference}
        {op : Operation (Option κ) (Option ι)}, Run (reading session dereferenceDimension)
          (.node (.root (contextVariable context)) children) x op y →
          ∃ c e, session.getIndex c = x.type ∧ op.concreteType = some e ∧
            Walk session operation dereferenceDimension typePath c x op.type e y := by
  cases h with
  | @mono a c i u h =>
    obtain ⟨k, -, hk, htype, hsound⟩ :=
      context_sound hfollows hcontext hstep (c := c) List.mem_cons_self rfl h
    have htypes : (contextVariable context).types = [some k] := by
      rw [contextVariable, ← hfollows.elements, ← hk]
      rfl
    refine ⟨.root trivial (.monoReference ⟨?_, ?_⟩ hsound.route), fun {_ x y op} hrun => ?_⟩
    · rw [htypes, htype]
    · rw [htype]
      exact Option.some_ne_none k
    · cases hrun with
      | root hrun =>
        cases hrun with
        | monoReference hindex hrun =>
          rw [htype] at hindex
          obtain ⟨e, he, hwalk⟩ := hsound.walks hindex.symm hrun
          exact ⟨k, e, hindex, he, hwalk⟩
  | @poly a cases hvariable h =>
    have hcase : ∀ c ∈ cases, ∃ k, c.1.label.2.element.second = some k ∧
        c.2.1.concreteType = some k ∧
        Sound session operation .referent typePath c.1 k c.2.1 c.2.2 := fun c hc => by
      obtain ⟨k, -, hk, htype, hsound⟩ := context_sound hfollows hcontext hstep (c := c.1)
        (List.mem_map_of_mem hc) (hvariable c hc) (h c hc)
      exact ⟨k, hk, htype, hsound⟩
    refine ⟨.root trivial (route_cases trivial ?_ fun c hc => ?_), fun {_ x y op} hrun => ?_⟩
    · rw [contextVariable, ← hfollows.elements, RoseTree.children_node, List.map_map, List.map_map]
      refine List.map_congr_left fun c hc => ?_
      obtain ⟨k, hk, htype, -⟩ := hcase c hc
      exact htype.trans hk.symm
    · obtain ⟨k, -, htype, hsound⟩ := hcase c hc
      exact ⟨fun hnone => (by cases htype.symm.trans hnone), hsound.route⟩
    · cases hrun with
      | root hrun =>
        cases hrun with
        | polyReference hmem hindex hrun =>
          obtain ⟨c, hc, heq⟩ := List.mem_map.mp hmem
          cases heq
          obtain ⟨k, -, hk, hsound⟩ := hcase c hc
          rw [hk] at hindex
          obtain ⟨e, he, hwalk⟩ := hsound.walks hindex.symm hrun
          exact ⟨k, e, hindex, he, hwalk⟩

/-- Every root instruction begins ways from variable to variable. -/
theorem GenericRoot.placed {t : NameTree ℕ ι κ} {bExpandFinalReferences : Bool}
    (hfollows : FollowsFrom session.toDerivationAnalysis bExpandFinalReferences context typePath t)
    (hcontext : ∀ p ∈ context, session.isAction p.second = true)
    (hnodup : (context.map ElementPair.second).Nodup) {children : List (Tree ι κ)}
    (h : GenericRoot session operation (contextVariable context) t children) :
    Route Generic False .start (.node (.root (contextVariable context)) children) := by
  cases h with
  | mono h =>
    exact .root trivial (.monoReference trivial (h.placed (hfollows.follows _ List.mem_cons_self)))
  | @poly a cases hvariable h =>
    refine .root trivial (route_cases hnodup ?_ fun c hc => ⟨trivial, ?_⟩)
    · rw [contextVariable, ← hfollows.elements, RoseTree.children_node, List.map_map, List.map_map]
      refine List.map_congr_left fun c hc => (hvariable c hc).trans ?_
      refine asAction_of_isAction (hcontext _ ?_)
      rw [← hfollows.elements]
      exact List.mem_map_of_mem (List.mem_map_of_mem hc)
    · exact (h c hc).placed (hfollows.follows c.1 (List.mem_map_of_mem hc))

end Root

/-! ## Solutions -/

section Solutions
variable [LinearOrder ι] [LinearOrder κ] {session : Session ι κ} {invocationID : InvocationID ι}
  {fuel : ℕ} {context : List (ElementPair ι κ)} {typePath : List (List (ElementPair ι κ))}
  {nodes : Nodes ι κ} {solution : InvocationSolution ι κ}

/-- No path element of an invocation is empty. -/
theorem typePathElements_ne_nil {ids : List (List ι)} {path : List (List (ElementPair ι κ))}
    (h : typePathElements session ids = .ok path) : ∀ pathElement ∈ path, pathElement ≠ [] := by
  induction ids generalizing path with
  | nil =>
    obtain rfl := Except.ok.inj h
    simp
  | cons id ids ih =>
    rw [typePathElements] at h
    split at h
    · cases h
    · rename_i hne
      cases hrest : typePathElements session ids with
      | error e =>
        rw [hrest] at h
        cases h
      | ok rest =>
        rw [hrest] at h
        obtain rfl := Except.ok.inj h
        exact List.forall_mem_cons.mpr ⟨hne, ih hrest⟩

theorem constructInvocation_path
    (h : constructInvocation session invocationID = .ok (context, typePath)) :
    ∀ pathElement ∈ typePath, pathElement ≠ [] := by
  simp only [constructInvocation] at h
  split at h
  · cases h
  · cases hpath : typePathElements session invocationID.typePath with
    | error e =>
      rw [hpath] at h
      cases h
    | ok path =>
      rw [hpath] at h
      dsimp only at h
      split at h
      · cases h
      · obtain ⟨-, rfl⟩ := Prod.mk.inj (Except.ok.inj h)
        exact typePathElements_ne_nil hpath

/-- Each concrete element is a context of an invocation once. -/
theorem constructInvocation_context
    (h : constructInvocation session invocationID = .ok (context, typePath)) :
    (context.map ElementPair.second).Nodup := by
  simp only [constructInvocation] at h
  split at h
  · cases h
  · cases hpath : typePathElements session invocationID.typePath with
    | error e =>
      rw [hpath] at h
      cases h
    | ok path =>
      rw [hpath] at h
      dsimp only at h
      split at h
      · cases h
      · obtain ⟨rfl, -⟩ := Prod.mk.inj (Except.ok.inj h)
        exact (session.getElementVector_instances invocationID.context true).1

omit [LinearOrder ι] in
/-- A generic invocation has been visited by the builder of generic trees. -/
theorem visit_generic {operation : OperationID} (hgeneric : isOperationEnumeration operation = false)
    (hoperation : operation ≠ .HIGHEST_OPERATION_TYPE) {pVariable : ReferenceVariable (Option κ)}
    {n : ℕ} {children : List (Tree ι κ)}
    (h : visit session operation nodes pVariable n = .ok children) :
    ∃ r, buildGeneric session operation nodes pVariable n = .ok r ∧ r.1 = children := by
  have hvisit : visit session operation nodes pVariable n =
      (buildGeneric session operation nodes pVariable n).map Prod.fst := by
    cases operation with
    | id_Range => cases hgeneric
    | id_Raw => cases hgeneric
    | HIGHEST_OPERATION_TYPE => exact absurd rfl hoperation
    | _ => rfl
  rw [hvisit] at h
  cases hr : buildGeneric session operation nodes pVariable n with
  | error e =>
    rw [hr] at h
    cases h
  | ok r =>
    rw [hr] at h
    exact ⟨r, rfl, Except.ok.inj h⟩

/-- What resolution and the visitor have made of a generic invocation. -/
structure Visited (session : Session ι κ) (operation : OperationID) (context : List (ElementPair ι κ))
    (typePath : List (List (ElementPair ι κ))) (nodes : Nodes ι κ) (t : NameTree ℕ ι κ) : Prop where
  stands : StandsIn nodes t
  index : t.index = 0
  follows : FollowsFrom session.toDerivationAnalysis (decide (operation = .id_Done)) context typePath t
  built : ∀ {children : List (Tree ι κ)},
    visit session operation nodes (contextVariable context) 1 = .ok children →
      GenericRoot session operation (contextVariable context) t children ∧
        ∃ n, Fresh 1 n (Instruction.boundAll children)

theorem exists_visited (hgeneric : isOperationEnumeration invocationID.operation = false)
    (hconstruct : constructInvocation session invocationID = .ok (context, typePath))
    (hresolve : nameResolution session.toDerivationAnalysis fuel invocationID.operation context
      typePath = some (.ok nodes)) :
    ∃ t, Visited session invocationID.operation context typePath nodes t := by
  obtain ⟨hne, tree, hholds, hfollows⟩ :=
    follows_of_nameResolution (constructInvocation_path hconstruct) hresolve
  obtain ⟨t, ht, hi, rfl⟩ := hholds.stands
  have hfollows := followsFrom_of_forget hfollows
  refine ⟨t, ht, hi, hfollows, fun {children} hvisit => ?_⟩
  have hoperation : invocationID.operation ≠ .HIGHEST_OPERATION_TYPE := fun h => by
    rw [h, nameResolution, if_neg hne] at hresolve
    cases hresolve
  obtain ⟨r, hr, rfl⟩ := visit_generic hgeneric hoperation hvisit
  have hchildren : t.children ≠ [] := fun hnil => by
    refine hne ?_
    rw [← hfollows.elements, hnil]
    rfl
  have htypes : (contextVariable context).types =
      t.children.map fun c => c.label.2.element.second := by
    rw [contextVariable, ← hfollows.elements, List.map_map]
    rfl
  obtain ⟨hroot, hfresh⟩ := buildGeneric_generic hholds.forest ht hi hchildren htypes hr
  exact ⟨hroot, r.2, hfresh⟩

omit [LinearOrder ι] [LinearOrder κ] in
/-- The variables of a tree are made once, and none of them is the context. -/
theorem unique_of_fresh {children : List (Tree ι κ)} {n : ℕ}
    (hfresh : Fresh 1 n (Instruction.boundAll children)) {bound : Multiset ℕ}
    (hle : bound ≤ (Instruction.node (.root (contextVariable context)) children).bound) :
    bound.Nodup ∧ (contextVariable context).address ∉ bound := by
  have hbound : (Instruction.node (.root (contextVariable context)) children).bound =
      Instruction.boundAll children := by simp [Head.binds, Head.isClosed]
  rw [hbound] at hle
  refine ⟨Multiset.nodup_of_le hle hfresh.nodup, fun hmem => ?_⟩
  have hone := (Multiset.mem_Ico.mp (Multiset.mem_of_le (hle.trans hfresh.2) hmem)).1
  exact absurd hone (by simp [contextVariable])

/-- What is below the root instruction of a solution. -/
structure Rooted (ok : Head (Option κ) (Option ι) → Prop) (strict : Prop)
    (context : List (ElementPair ι κ)) (solution : InvocationSolution ι κ) (u : Tree ι κ) : Prop where
  root : solution.m_pRoot = .node (.root (contextVariable context)) [u]
  route : Route (Cleaned ok strict) strict (.ref (contextVariable context)) u
  nodup : u.bound.Nodup
  notMem : (contextVariable context).address ∉ u.bound

theorem exists_rooted {operation : OperationID} {t : NameTree ℕ ι κ}
    {ok : Head (Option κ) (Option ι) → Prop} {strict : Prop}
    (hgeneric : isOperationEnumeration operation = false)
    (hvisited : Visited session operation context typePath nodes t)
    (hbuild : build session operation context typePath nodes = .ok solution)
    (hroute : ∀ children, GenericRoot session operation (contextVariable context) t children →
      Route ok strict .start (.node (.root (contextVariable context)) children)) :
    ∃ u children, Rooted ok strict context solution u ∧
      GenericRoot session operation (contextVariable context) t children ∧
      ∀ {reading : Reading (Option κ)} {x y : Reference} {op : Operation (Option κ) (Option ι)},
        Run reading solution.m_pRoot x op y →
          Run reading (.node (.root (contextVariable context)) children) x op y := by
  obtain ⟨children, hvisit, hkept, hhead, hbound, hruns⟩ := built_route hgeneric hbuild
    fun children hvisit => hroute children (hvisited.built hvisit).1
  obtain ⟨hroot, n, hfresh⟩ := hvisited.built hvisit
  obtain ⟨hnodup, hmem⟩ := unique_of_fresh hfresh hbound
  generalize hsolution : solution.m_pRoot = root at hkept hhead hnodup hmem hruns
  cases hkept with
  | @root r u hok hkept =>
    obtain rfl := Head.root.inj hhead
    have hbelow : (Instruction.node (.root (contextVariable context)) [u]).bound = u.bound := by
      simp [Head.binds, Head.isClosed]
    rw [hbelow] at hnodup hmem
    exact ⟨u, children, ⟨hsolution, hkept, hnodup, hmem⟩, hroot, fun hrun => hruns hrun⟩

/-- A solution of a generic invocation goes on from one variable to the next. -/
theorem generic_rooted (hgeneric : isOperationEnumeration invocationID.operation = false)
    (hconstruct : constructInvocation session invocationID = .ok (context, typePath))
    (hcontext : ∀ p ∈ context, session.isAction p.second = true)
    (hresolve : nameResolution session.toDerivationAnalysis fuel invocationID.operation context
      typePath = some (.ok nodes))
    (hbuild : build session invocationID.operation context typePath nodes = .ok solution) :
    ∃ u, Rooted Generic False context solution u := by
  obtain ⟨t, hvisited⟩ := exists_visited hgeneric hconstruct hresolve
  obtain ⟨u, -, hrooted, -⟩ := exists_rooted hgeneric hvisited hbuild fun children hroot =>
    hroot.placed hvisited.follows hcontext (constructInvocation_context hconstruct)
  exact ⟨u, hrooted⟩

/-- **Main result.** No solution of a generic invocation looks a variable up that is not set, or sets one
twice. -/
theorem evaluateSolution_verifies
    (hgeneric : isOperationEnumeration invocationID.operation = false)
    (hconstruct : constructInvocation session invocationID = .ok (context, typePath))
    (hcontext : ∀ p ∈ context, session.isAction p.second = true)
    (hresolve : nameResolution session.toDerivationAnalysis fuel invocationID.operation context
      typePath = some (.ok nodes))
    (hbuild : build session invocationID.operation context typePath nodes = .ok solution)
    (dereferenceDimension : Reference → ℤ → Reference) (x : Reference) :
    evaluateSolution session dereferenceDimension solution x ≠ .error .verify := by
  obtain ⟨u, hrooted⟩ := generic_rooted hgeneric hconstruct hcontext hresolve hbuild
  have hset : IsSet (Function.update (fun _ => none) 0 (some x)) (.ref (contextVariable context)) :=
    ⟨x, Function.update_self ..⟩
  have hverifies : evaluate session dereferenceDimension u
      (Function.update (fun _ => none) 0 (some x)) ≠ .error .verify :=
    evaluate_verifies hrooted.route hset (free_update hrooted.nodup hrooted.notMem x)
  rw [evaluateSolution, hrooted.root]
  exact hverifies

/-- A solution whose instructions are well typed, and that does the operation at the end of a walk, if
that is no write of a link. -/
structure TakesWalks (session : Session ι κ) (operation : OperationID)
    (context : List (ElementPair ι κ)) (typePath : List (List (ElementPair ι κ)))
    (solution : InvocationSolution ι κ) : Prop where
  typed : solution.m_pRoot.Every (WellTyped session)
  walks : ∀ {dereferenceDimension : Reference → ℤ → Reference},
    Stores session dereferenceDimension → ∀ {x : Reference} {p : ElementPair ι κ} {c : κ},
      p ∈ context → p.second = some c → session.getIndex c = x.type →
      ∃ type e y, Walk session operation dereferenceDimension typePath c x type e y ∧
        (type ≠ .writeLink → evaluateSolution session dereferenceDimension solution x =
          .ok (effectOf session type e y))

/-- **Main result.** Where the names of a generic invocation stay in step, its solution is well typed and
takes walks along the type path. -/
theorem takesWalks_of_inStep (hgeneric : isOperationEnumeration invocationID.operation = false)
    (hconstruct : constructInvocation session invocationID = .ok (context, typePath))
    (hcontext : ∀ p ∈ context, session.isAction p.second = true)
    (hresolve : nameResolution session.toDerivationAnalysis fuel invocationID.operation context
      typePath = some (.ok nodes))
    (hbuild : build session invocationID.operation context typePath nodes = .ok solution)
    (hstep : InStepAt session invocationID.operation nodes) :
    TakesWalks session invocationID.operation context typePath solution := by
  obtain ⟨t, hvisited⟩ := exists_visited hgeneric hconstruct hresolve
  obtain ⟨t', ht', hi', hstep⟩ := hstep
  obtain rfl := hvisited.stands.unique ht' (hvisited.index.trans hi'.symm)
  obtain ⟨u, children, hrooted, hroot, hruns⟩ := exists_rooted hgeneric hvisited hbuild
    fun children hroot => (hroot.sound hvisited.follows hcontext hstep).1
  have hevery : u.Every (WellTyped session) :=
    hrooted.route.every (fun head h => h.1.wellTyped) fun h => h.2.2 trivial rfl
  refine ⟨?_, fun {dereferenceDimension} hstores {x p c} hp hc hx => ?_⟩
  · rw [hrooted.root]
    exact .node trivial (List.forall_mem_singleton.mpr hevery)
  · have hholds : HoldsAt session (Function.update (fun _ => none) 0 (some x)) x
        (.ref (contextVariable context)) := by
      refine ⟨Function.update_self .., c, ?_, hx⟩
      rw [← hc]
      exact List.mem_map_of_mem hp
    obtain ⟨op, y, hrun, hevaluate⟩ := evaluate_route hstores hrooted.route hholds
      (free_update hrooted.nodup hrooted.notMem x)
    have hrun' : Run (reading session dereferenceDimension) solution.m_pRoot x op y := by
      rw [hrooted.root]
      exact .root hrun
    obtain ⟨c', e, hindex, he, hwalk⟩ :=
      (hroot.sound hvisited.follows hcontext hstep).2 (hruns hrun')
    obtain rfl := session.index_injective (hindex.trans hx.symm)
    refine ⟨op.type, e, y, hwalk, fun hlink => ?_⟩
    rw [evaluateSolution, hrooted.root, ← perform_eq session he hlink hwalk.type_ne_range y,
      ← hevaluate]
    rfl

end Solutions

/-! ## A reference on the way -/

/-- Action `1` has a dimension `2` that refers to action `3`, which has a dimension `4`, or to action `7`,
the parent `5` of which has a dimension `6`. -/
def linked : Session (Fin 8) (Fin 8) where
  kind e := if e = 2 then .userDimension [3, 7] else if e = 4 ∨ e = 6 then .userDimension [] else .action e
  children e := if e = 0 then [1, 3, 5] else if e = 1 then [2] else if e = 3 then [4] else
    if e = 5 then [6, 7] else []
  isContext e := e ≠ 2 ∧ e ≠ 4 ∧ e ≠ 6
  baseContexts _ := []
  rank _ := 0
  rank_base h := by simp at h
  instanceMap := [(0, 0), (1, 1), (2, 2), (3, 3), (4, 4), (5, 5), (6, 6), (7, 7)]
  inheritanceMap := [(0, 0), (1, 1), (3, 3), (5, 5), (7, 7)]
  inheritance_isAction := by decide
  contextTypes_isContext {e contextTypes} h := by
    revert h
    fin_cases e <;> simp <;> rintro rfl <;> simp
  isDimension e := e = 2 ∨ e = 4 ∨ e = 6
  tree := ⟨fun e => if e = 0 then none else if e = 2 then some 1 else if e = 4 then some 3 else
    if e = 6 ∨ e = 7 then some 5 else some 0, fun e => e.val, by decide⟩
  root := 0
  only_root := by decide
  root_isAction := rfl
  parent_isAction := by decide
  getLocalDomainSize e := if e = 1 then 3 else if e = 3 then 4 else if e = 7 then 2 else 1
  localDomainSize_pos := by decide
  getIndex e := e.val
  index_injective := by decide
  hasLinkGroup _ := false

/-- `get` of `4` or `6`, through `2`, from `1`. -/
def linkedID : InvocationID (Fin 8) := ⟨[1], [[2], [4, 6]], .id_Get⟩

def linkedContext : List (ElementPair (Fin 8) (Fin 8)) := [⟨some 1, some 1⟩]

def linkedPath : List (List (ElementPair (Fin 8) (Fin 8))) :=
  [[⟨some 2, some 2⟩], [⟨some 4, some 4⟩, ⟨some 6, some 6⟩]]

def linkedNodes : Nodes (Fin 8) (Fin 8) :=
  [⟨⟨none, none⟩, true, true, [1]⟩, ⟨⟨some 1, some 1⟩, true, false, [2]⟩,
    ⟨⟨some 2, some 2⟩, true, true, [3, 4]⟩, ⟨⟨some 3, some 3⟩, false, false, [5]⟩,
    ⟨⟨some 7, some 7⟩, false, false, [6, 7]⟩, ⟨⟨some 4, some 4⟩, true, false, []⟩,
    ⟨⟨some 4, some 4⟩, false, false, []⟩, ⟨⟨some 6, some 6⟩, false, false, []⟩]

theorem linked_resolved :
    constructInvocation linked linkedID = .ok (linkedContext, linkedPath) ∧
      nameResolution linked.toDerivationAnalysis 3 .id_Get linkedContext linkedPath =
        some (.ok linkedNodes) := by
  constructor <;> decide +kernel

theorem linked_follows : linkedContext ≠ [] ∧ ∃ tree, Holds linkedNodes tree ∧
    FollowsFrom linked.toDerivationAnalysis (decide (OperationID.id_Get = .id_Done)) linkedContext
      linkedPath tree :=
  follows_of_nameResolution (by simp [linkedPath]) linked_resolved.2

theorem linked_built : ∃ solution,
    build linked .id_Get linkedContext linkedPath linkedNodes = .ok solution := by
  have hok : (build linked .id_Get linkedContext linkedPath linkedNodes).isOk = true := by
    decide +kernel
  cases hbuild : build linked .id_Get linkedContext linkedPath linkedNodes with
  | ok solution => exact ⟨solution, rfl⟩
  | error e =>
    rw [hbuild] at hok
    cases hok

/-- The names of `4` and `6`, of what refers to them, and so on up to the context. -/
def linkedNames : List (NameTree ℕ (Fin 8) (Fin 8)) :=
  let first := .node (3, ⟨⟨some 3, some 3⟩, false, false⟩)
    [.node (5, ⟨⟨some 4, some 4⟩, true, false⟩) []]
  let second := .node (4, ⟨⟨some 7, some 7⟩, false, false⟩)
    [.node (6, ⟨⟨some 4, some 4⟩, false, false⟩) [], .node (7, ⟨⟨some 6, some 6⟩, false, false⟩) []]
  let dimension := .node (2, ⟨⟨some 2, some 2⟩, true, true⟩) [first, second]
  [.node (1, ⟨⟨some 1, some 1⟩, true, false⟩) [dimension]]

theorem linked_stands :
    StandsIn linkedNodes (.node (0, ⟨⟨none, none⟩, true, true⟩) linkedNames) := by
  refine .node (a := linkedNodes[0]) rfl rfl (List.forall_mem_singleton.mpr ?_)
  refine .node (a := linkedNodes[1]) rfl rfl (List.forall_mem_singleton.mpr ?_)
  refine .node (a := linkedNodes[2]) rfl rfl (List.forall_mem_cons.mpr ⟨?_, List.forall_mem_singleton.mpr ?_⟩)
  · refine .node (a := linkedNodes[3]) rfl rfl (List.forall_mem_singleton.mpr ?_)
    exact .node (a := linkedNodes[5]) rfl rfl (by simp)
  · refine .node (a := linkedNodes[4]) rfl rfl
      (List.forall_mem_cons.mpr ⟨?_, List.forall_mem_singleton.mpr ?_⟩)
    · exact .node (a := linkedNodes[6]) rfl rfl (by simp)
    · exact .node (a := linkedNodes[7]) rfl rfl (by simp)

/-- From `7`, neither `4` nor `6` is failed at once. -/
theorem linked_not_failsFirst {a : ℕ × Mark (Fin 8) (Fin 8)}
    (ha : a.2.element.second = some 4 ∨ a.2.element.second = some 6) :
    ¬ FailsFirst linked .id_Get (some 7) (.node a []) := by
  intro hfails
  cases hfails with
  | leaf he htype hsteps =>
    rcases ha with ha | ha <;> rw [ha] at he <;> cases he <;> cases htype <;> cases hsteps
  | node hne => exact hne rfl

theorem linked_inStep : InStepAt linked .id_Get linkedNodes := by
  refine ⟨_, linked_stands, rfl, List.forall_mem_singleton.mpr ⟨?_, by decide⟩⟩
  refine .node (by simp) (by simp) (by simp) (List.forall_mem_singleton.mpr ?_)
  refine .node (by simp) (by simp) (by simp) (List.forall_mem_cons.mpr ⟨?_, List.forall_mem_singleton.mpr ?_⟩)
  · refine .node (by simp) (by simp) (by simp) (List.forall_mem_singleton.mpr ?_)
    exact .node (by simp) (by simp [appliesToParent]) (by simp) (by simp)
  · refine .node (by simp) (by simp)
      (fun _ _ => List.forall_mem_cons.mpr ⟨?_, List.forall_mem_singleton.mpr ?_⟩)
      (List.forall_mem_cons.mpr ⟨?_, List.forall_mem_singleton.mpr ?_⟩)
    · exact linked_not_failsFirst (.inl rfl)
    · exact linked_not_failsFirst (.inr rfl)
    · exact .node (by simp) (by simp [appliesToParent]) (by simp) (by simp)
    · exact .node (by simp) (by simp [appliesToParent]) (by simp) (by simp)

theorem linked_takesWalks : ∃ solution,
    build linked .id_Get linkedContext linkedPath linkedNodes = .ok solution ∧
      TakesWalks linked .id_Get linkedContext linkedPath solution := by
  obtain ⟨solution, hbuild⟩ := linked_built
  have hgeneric : isOperationEnumeration linkedID.operation = false := rfl
  exact ⟨solution, hbuild, takesWalks_of_inStep hgeneric linked_resolved.1 (by decide)
    linked_resolved.2 hbuild linked_inStep⟩

theorem linked_verifies : ∃ solution,
    build linked .id_Get linkedContext linkedPath linkedNodes = .ok solution ∧
      ∀ x : Reference,
        evaluateSolution linked (fun ref _ => ref) solution x ≠ .error .verify := by
  obtain ⟨solution, hbuild⟩ := linked_built
  have hgeneric : isOperationEnumeration linkedID.operation = false := rfl
  exact ⟨solution, hbuild, evaluateSolution_verifies hgeneric linked_resolved.1 (by decide)
    linked_resolved.2 hbuild (fun ref _ => ref)⟩

end Invocation
end EgLang.Compiler
