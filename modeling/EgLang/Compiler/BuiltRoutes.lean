import EgLang.Compiler.Evaluation
import EgLang.Compiler.TypedTrees

/-!
# The routes of a solution

What `build` does to the tree of a generic invocation: elimination, once or twice, keeps its routes, adds no
run and makes no variable twice. What evaluation does on such a tree.
-/

namespace EgLang.Compiler

open EgLang.Library NameResolution

set_option autoImplicit false

namespace Invocation
variable {ι κ : Type} [DecidableEq ι] [DecidableEq κ] {session : Session ι κ} {operation : OperationID}
  {context : List (ElementPair ι κ)} {typePath : List (List (ElementPair ι κ))} {nodes : Nodes ι κ}
  {solution : InvocationSolution ι κ}

/-! ## Building -/

omit [DecidableEq κ] in
theorem root_of_analyseReturnTypes (hgeneric : isOperationEnumeration operation = false)
    {root : Tree ι κ} (h : analyseReturnTypes session operation root = .ok solution) :
    solution.m_pRoot = root := by
  unfold analyseReturnTypes at h
  simp only [hgeneric, Bool.false_eq_true, if_false] at h
  split at h
  · cases h
  · split at h
    · rw [← Except.ok.inj h]
    · split at h
      · rw [← Except.ok.inj h]
      · cases h

theorem eliminated_ok {α : Type} {r : Except EliminationFault α} {a : α}
    (h : eliminated r = .ok a) : r = .ok a := by
  cases r with
  | error e => cases h
  | ok b => exact congrArg Except.ok (Except.ok.inj h)

/-- A solution is the tree of the visitor, eliminated once or, with what is left, a second time. -/
theorem build_inv (hgeneric : isOperationEnumeration operation = false)
    (h : build session operation context typePath nodes = .ok solution) :
    ∃ children r, visit session operation nodes (contextVariable context) 1 = .ok children ∧
      Instruction.eliminate (.node (.root (contextVariable context)) children) = .ok r ∧
      (r.1 = .eSuccess ∧ solution.m_pRoot = r.2 ∨
        ∃ rejects, Instruction.eliminateWith rejects r.2 = .ok (.eSuccess, solution.m_pRoot)) := by
  unfold build at h
  obtain ⟨children, hvisit, h⟩ := except_bind_ok.mp h
  obtain ⟨⟨elimination, root⟩, heliminate, h⟩ := except_bind_ok.mp h
  refine ⟨children, _, hvisit, eliminated_ok heliminate, ?_⟩
  cases elimination with
  | eSuccess =>
    obtain ⟨found, hfound, h⟩ := except_bind_ok.mp h
    obtain ⟨explicit, -, h⟩ := except_bind_ok.mp h
    refine .inl ⟨rfl, ?_⟩
    rw [← Except.ok.inj h]
    have hroot := root_of_analyseReturnTypes hgeneric hfound
    exact hroot
  | eFailure =>
    obtain ⟨found, hfound, -⟩ := except_bind_ok.mp h
    cases hfound
  | eAmbiguous =>
    obtain ⟨found, hfound, h⟩ := except_bind_ok.mp h
    obtain ⟨explicit, -, h⟩ := except_bind_ok.mp h
    obtain rfl := Except.ok.inj h
    refine .inr ?_
    dsimp only at hfound ⊢
    simp only [disambiguate] at hfound
    split at hfound
    · cases hfound
    · split at hfound
      · cases hfound
      · rename_i last hlast
        generalize hcandidates : candidateOperations (concreteTargets session last)
          root.getOperations = candidates at hfound
        split at hfound
        · cases hfound
        · obtain ⟨⟨second, root'⟩, hsecond, hfound⟩ := except_bind_ok.mp hfound
          refine ⟨_, (eliminated_ok hsecond).trans ?_⟩
          cases second with
          | eSuccess => rw [root_of_analyseReturnTypes hgeneric hfound]
          | eFailure => cases hfound
          | eAmbiguous => cases hfound

/-- **Building** keeps the routes of the visitor's tree, and what is left has no group. -/
theorem built_route {ok : Head (Option κ) (Option ι) → Prop} {strict : Prop}
    (hgeneric : isOperationEnumeration operation = false)
    (h : build session operation context typePath nodes = .ok solution)
    (hroute : ∀ children, visit session operation nodes (contextVariable context) 1 = .ok children →
      Route ok strict .start (.node (.root (contextVariable context)) children)) :
    ∃ children, visit session operation nodes (contextVariable context) 1 = .ok children ∧
      Route (Cleaned ok strict) strict .start solution.m_pRoot ∧
      solution.m_pRoot.head = .root (contextVariable context) ∧
      solution.m_pRoot.bound ≤
        (Instruction.node (.root (contextVariable context)) children).bound ∧
      ∀ {reading : Reading (Option κ)} {x y : Reference} {op : Operation (Option κ) (Option ι)},
        Run reading solution.m_pRoot x op y →
          Run reading (.node (.root (contextVariable context)) children) x op y := by
  obtain ⟨children, r, hvisit, heliminate, hlast⟩ := build_inv hgeneric h
  obtain ⟨hkept, hhead⟩ := (hroute children hvisit).kept.1 (by simp) heliminate
  refine ⟨children, hvisit, ?_⟩
  rcases hlast with ⟨hsuccess, heq⟩ | ⟨rejects, hsecond⟩
  · rw [heq]
    refine ⟨hkept.clean hsuccess fun _ => ?_, hhead, hkept.bound, fun hrun => hkept.runs hrun⟩
    rw [hhead]
    simp
  · have hroot : r.2.head ≠ .elimination := by
      rw [hhead]
      simp
    obtain ⟨hkept', hhead'⟩ := hkept.route.kept.1 hroot hsecond
    refine ⟨hkept'.clean rfl fun _ => ?_, hhead'.trans hhead, hkept'.bound.trans hkept.bound,
      fun hrun => hkept.runs (hkept'.runs hrun)⟩
    rw [hhead'.trans hhead]
    simp

/-! ## Evaluation -/

open Evaluation

variable {dereferenceDimension : Reference → ℤ → Reference} {m_variables : Variables}

omit [DecidableEq ι] [DecidableEq κ] in
theorem bound_le_boundAll {c : Tree ι κ} {cs : List (Tree ι κ)} (hc : c ∈ cs) :
    c.bound ≤ Instruction.boundAll cs := by
  rw [Instruction.boundAll_eq]
  exact List.single_le_sum (fun _ _ => Multiset.zero_le _) _ (List.mem_map_of_mem hc)

/-- All variables that a tree makes are free, each of them is made once. -/
def Free {α : Type} (m_variables : ℕ → Option α) (bound : Multiset ℕ) : Prop :=
  (∀ k ∈ bound, m_variables k = none) ∧ bound.Nodup

section Free
variable {α : Type} {m_variables : ℕ → Option α}

theorem Free.mono {bound bound' : Multiset ℕ} (h : Free m_variables bound) (hle : bound' ≤ bound) :
    Free m_variables bound' :=
  ⟨fun k hk => h.1 k (Multiset.mem_of_le hle hk), Multiset.nodup_of_le hle h.2⟩

/-- A new variable leaves the others free. -/
theorem Free.update {n : ℕ} {bound : Multiset ℕ} (h : Free m_variables ({n} + bound)) (value : α) :
    m_variables n = none ∧ Free (Function.update m_variables n (some value)) bound := by
  obtain ⟨hfree, hnodup⟩ := h
  rw [Multiset.singleton_add] at hfree hnodup
  obtain ⟨hmem, hnodup⟩ := Multiset.nodup_cons.mp hnodup
  refine ⟨hfree n (Multiset.mem_cons_self n bound), fun k hk => ?_, hnodup⟩
  have hne : k ≠ n := by
    rintro rfl
    exact hmem hk
  rw [Function.update_of_ne hne]
  exact hfree k (Multiset.mem_cons_of_mem hk)

/-- With one variable set, the others are free. -/
theorem free_update {bound : Multiset ℕ} {n : ℕ} (hnodup : bound.Nodup) (hmem : n ∉ bound) (value : α) :
    Free (Function.update (fun _ => none) n (some value)) bound := by
  refine ⟨fun k hk => ?_, hnodup⟩
  have hne : k ≠ n := by
    rintro rfl
    exact hmem hk
  rw [Function.update_of_ne hne]

omit [DecidableEq ι] [DecidableEq κ] in
/-- The tree below an instruction that makes a variable. -/
theorem Free.below {head : Head (Option κ) (Option ι)} {t : Tree ι κ} {n : ℕ}
    (hbinds : head.binds = {n}) (hclosed : head.isClosed = false)
    (h : Free m_variables (Instruction.node head [t]).bound) : Free m_variables ({n} + t.bound) := by
  simpa [hbinds, hclosed] using h

end Free

/-- A free variable is set. -/
theorem setVarValue_free {n : ℕ} {bound : Multiset ℕ} (h : Free m_variables ({n} + bound))
    (value : Reference) :
    setVarValue m_variables n value = .ok (Function.update m_variables n (some value)) ∧
      Free (Function.update m_variables n (some value)) bound := by
  obtain ⟨hnone, hfree⟩ := h.update value
  exact ⟨by rw [setVarValue, hnone], hfree⟩

/-! ## Verification -/

/-- The variable that a route has come to is set. -/
def IsSet {α : Type} (m_variables : ℕ → Option α) : Place (Option κ) → Prop
  | .start => False
  | .inst v => ∃ x, m_variables v.address = some x
  | .ref r => ∃ x, m_variables r.address = some x

theorem bind_ne_error {ε α β : Type} {fault : ε} {r : Except ε α} {f : α → Except ε β}
    (hr : r ≠ .error fault) (hf : ∀ a, r = .ok a → f a ≠ .error fault) :
    r >>= f ≠ .error fault := by
  cases r with
  | error e => exact fun h => hr (congrArg Except.error (Except.error.inj h))
  | ok a => exact hf a rfl

omit [DecidableEq κ] in
theorem pointee_verifies (e : Option κ) : pointee e ≠ .error .verify := by
  cases e <;> simp [pointee]

theorem getVarValue_verifies {n : ℕ} (h : ∃ x, m_variables n = some x) :
    getVarValue m_variables n ≠ .error .verify := by
  obtain ⟨x, hx⟩ := h
  simp [getVarValue, hx]

omit [DecidableEq ι] in
/-- Going on from a variable that is made. -/
theorem setVarValue_verifies {n : ℕ} {t : Tree ι κ} (h : Free m_variables ({n} + t.bound))
    (value : Reference)
    (ht : ∀ {m_variables : Variables}, (∃ x, m_variables n = some x) → Free m_variables t.bound →
      evaluate session dereferenceDimension t m_variables ≠ .error .verify) :
    (setVarValue m_variables n value >>= fun m_variables =>
      evaluateFront session dereferenceDimension [t] m_variables) ≠ .error .verify := by
  obtain ⟨hset, hfree⟩ := setVarValue_free h value
  rw [hset]
  exact ht ⟨value, Function.update_self ..⟩ hfree

omit [DecidableEq ι] in
theorem evaluateBranch_verifies {ref : Reference} {children : List (Tree ι κ)}
    (h : ∀ c ∈ children, evaluate session dereferenceDimension c m_variables ≠ .error .verify) :
    evaluateBranch session dereferenceDimension ref children m_variables ≠ .error .verify := by
  induction children with
  | nil =>
    rw [evaluateBranch]
    simp
  | cons c children ih =>
    rw [List.forall_mem_cons] at h
    rw [evaluateBranch]
    split
    · refine bind_ne_error (pointee_verifies _) fun type _ => ?_
      split
      · exact h.1
      · exact ih h.2
    · simp

omit [DecidableEq ι] in
/-- On a route, the variables that are looked up are set, and those that are made are free. -/
theorem evaluate_verifies {ok : Head (Option κ) (Option ι) → Prop} {strict : Prop}
    {p : Place (Option κ)} {t : Tree ι κ} (h : Route ok strict p t) (hp : IsSet m_variables p)
    (hfree : Free m_variables t.bound) :
    evaluate session dereferenceDimension t m_variables ≠ .error .verify := by
  induction h generalizing m_variables with
  | root hok ht ih => exact absurd hp id
  | @parentDerivation v w t hok ht ih =>
    rw [evaluate]
    refine bind_ne_error (getVarValue_verifies hp) fun fromRef _ => ?_
    refine bind_ne_error (pointee_verifies _) fun fromType _ => ?_
    refine bind_ne_error (pointee_verifies _) fun toType _ => ?_
    exact setVarValue_verifies (hfree.below rfl rfl) _ fun hset hfree => ih hset hfree
  | @childDerivation v w t hok ht ih =>
    rw [evaluate]
    refine bind_ne_error (getVarValue_verifies hp) fun fromRef _ => ?_
    refine bind_ne_error (pointee_verifies _) fun toType _ => ?_
    exact setVarValue_verifies (hfree.below rfl rfl) _ fun hset hfree => ih hset hfree
  | @read v r d t hok ht ih =>
    rw [evaluate]
    refine bind_ne_error (getVarValue_verifies hp) fun actionRef _ => ?_
    refine bind_ne_error (pointee_verifies _) fun pDimension _ => ?_
    exact setVarValue_verifies (hfree.below rfl rfl) _ fun hset hfree => ih hset hfree
  | @monoReference w r t hok ht ih =>
    rw [evaluate]
    refine bind_ne_error (getVarValue_verifies hp) fun ref _ => ?_
    exact setVarValue_verifies (hfree.below rfl rfl) _ fun hset hfree => ih hset hfree
  | @polyReference r cases hok htypes hcases ht ih =>
    rw [evaluate]
    refine bind_ne_error (getVarValue_verifies hp) fun ref _ => ?_
    refine evaluateBranch_verifies fun u hu => ?_
    have hle := bound_le_boundAll hu
    obtain ⟨c, hc, rfl⟩ := List.mem_map.mp hu
    have hcase : Free m_variables (Instruction.node (.polyCase r c.1) [c.2]).bound :=
      hfree.mono (by simpa [Head.binds, Head.isClosed] using hle)
    rw [evaluate]
    refine bind_ne_error (getVarValue_verifies hp) fun ref _ => ?_
    exact setVarValue_verifies (hcase.below rfl rfl) _ fun hset hfree => ih c hc hset hfree
  | elimination hok hstrict ht ih =>
    rw [evaluate]
    simp
  | failure hok =>
    rw [evaluate]
    simp
  | @operation v op hv hok =>
    subst hv
    rw [evaluate]
    have hget : getVarValue m_variables op.pInstance.address ≠ .error .verify :=
      getVarValue_verifies hp
    unfold performWith
    split
    all_goals first
      | exact bind_ne_error hget fun ref _ => bind_ne_error (pointee_verifies _) fun _ _ => by simp [pure, Except.pure]
      | exact bind_ne_error hget fun ref _ => by simp [pure, Except.pure]
      | simp

end Invocation
end EgLang.Compiler
