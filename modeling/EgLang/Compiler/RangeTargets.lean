import EgLang.Compiler.ContextTypes
import EgLang.Compiler.InvocationCache
import EgLang.Compiler.RangeBuilding

/-!
# The targets of a range

A range or raw invocation has one `RangeOperation` for each chain of resolved elements that descends
from a context. The builder prunes nothing: it throws at the first chain that it cannot derive, and so
it keeps the chains that descend exactly where all chains can be derived, or where some context has
none that descends.
-/

namespace EgLang.Compiler

open EgLang.Library NameResolution

set_option autoImplicit false

namespace Invocation
variable {ι κ : Type}

/-! ## Elimination -/

section Cases
variable {session : Session ι κ} {rangeType : RangeType} {nodes : Nodes ι κ}

/-- The tree of a context before elimination. -/
def CaseOf (session : Session ι κ) (rangeType : RangeType) (nodes : Nodes ι κ) (context : Name ι κ)
    (tree : Tree ι κ) : Prop :=
  ∃ head pInstance ts, tree = caseTree head pInstance ts ∧
    IsCase session rangeType nodes context head pInstance ts

/-- What is left of the tree of a context, where the tree has not failed. -/
def CaseLeft (session : Session ι κ) (rangeType : RangeType) (nodes : Nodes ι κ) (context : Name ι κ)
    (tree : Tree ι κ) : Prop :=
  tree.Clean ∧ List.Forall₂ (RangeOf session rangeType) (Instruction.operationsOf [tree])
    (chains nodes context)

theorem CaseOf.wellNested {context : Name ι κ} {tree : Tree ι κ}
    (h : CaseOf session rangeType nodes context tree) :
    Instruction.WellNested (fun _ => false) tree := by
  obtain ⟨head, pInstance, ts, rfl, hcase⟩ := h
  have hprune : Instruction.WellNested (fun _ => false)
      (.node (.enumeration pInstance [] 1) [.node .prune ts] : Tree ι κ) := by
    refine .node rfl (fun c hc hord => ?_) (fun c hc _ a ha => ?_) fun c hc _ => ?_ <;>
      obtain rfl := List.mem_singleton.mp hc
    · cases hord
    · exact (hcase.built.clean a ha).wellNested
    · refine ⟨fun a ha => ?_, fun s hs => ?_, .inl rfl⟩
      · rw [(hcase.built.clean a ha).meaning]
        decide
      · rw [List.mem_singleton.mp hs, Instruction.meaning]
        show Elimination.anyOf _ ≠ _
        unfold Elimination.anyOf
        split <;> decide
  refine .of_ordinary hcase.ordinary fun c hc => ?_
  rw [List.mem_singleton.mp hc]
  exact hprune

theorem CaseOf.meaning {context : Name ι κ} {tree : Tree ι κ}
    (h : CaseOf session rangeType nodes context tree) :
    Instruction.meaning (fun _ => false) tree =
      if chains nodes context = [] then .eFailure else .eSuccess := by
  obtain ⟨head, pInstance, ts, rfl, hcase⟩ := h
  have hgroup : Instruction.meaning (fun _ => false) (.node .prune ts : Tree ι κ) =
      if chains nodes context = [] then .eFailure else .eSuccess := by
    show Elimination.anyOf _ = _
    split
    · rename_i hnil
      rw [hcase.empty hnil]
      rfl
    · rename_i hne
      obtain ⟨t, ht⟩ := List.exists_mem_of_ne_nil _ (hcase.built.ne_nil hne)
      refine if_pos (Instruction.mem_meanings.mpr ⟨t, ht, ?_⟩)
      exact (hcase.built.clean t ht).meaning
  rw [caseTree, Instruction.meaning_ordinary hcase.ordinary, Instruction.meanings, Instruction.meanings,
    Instruction.meaning_ordinary rfl, Instruction.meanings, Instruction.meanings, hgroup]
  split <;> rfl

theorem CaseOf.left {context : Name ι κ} {tree : Tree ι κ}
    (h : CaseOf session rangeType nodes context tree) :
    ∃ left, Instruction.remains (fun _ => false) tree = [left] ∧
      CaseLeft session rangeType nodes context left := by
  obtain ⟨head, pInstance, ts, rfl, hcase⟩ := h
  refine ⟨.node head [.node (.enumeration pInstance [] 1) ts], ?_, ?_, ?_⟩
  · have hgroup : Instruction.remains (fun _ => false) (.node .prune ts : Tree ι κ) = ts :=
      Instruction.successes_clean hcase.built.clean
    have henumeration : Instruction.remains (fun _ => false)
        (.node (.enumeration pInstance [] 1) [.node .prune ts] : Tree ι κ) =
          [.node (.enumeration pInstance [] 1) ts] := by
      rw [Instruction.remains_ordinary rfl, Instruction.remainsAll, hgroup, Instruction.remainsAll,
        List.append_nil]
    rw [caseTree, Instruction.remains_ordinary hcase.ordinary, Instruction.remainsAll, henumeration,
      Instruction.remainsAll, List.append_nil]
  · refine .node hcase.ordinary fun c hc => ?_
    rw [List.mem_singleton.mp hc]
    exact .node rfl hcase.built.clean
  · rw [Instruction.operationsOf_cons _ _ hcase.not_operation,
      Instruction.operationsOf_cons _ _ fun op h => by cases h]
    show List.Forall₂ _ ((_ ++ []) ++ []) _
    rw [List.append_nil, List.append_nil]
    exact hcase.built.ranges

/-- The trees of some contexts, before elimination and after it. -/
theorem cases_left {cs : List (Name ι κ)} {trees : List (Tree ι κ)}
    (h : List.Forall₂ (CaseOf session rangeType nodes) cs trees) :
    (∀ t ∈ trees, Instruction.WellNested (fun _ => false) t) ∧
      Instruction.meanings (fun _ => false) trees =
        cs.map (fun c => if chains nodes c = [] then .eFailure else .eSuccess) ∧
      List.Forall₂ (RangeOf session rangeType)
        (Instruction.operationsOf (Instruction.remainsAll (fun _ => false) trees))
        (cs.flatMap (chains nodes)) := by
  induction h with
  | nil => exact ⟨by simp, rfl, .nil⟩
  | @cons c tree cs trees hcase _ ih =>
    obtain ⟨hnested, hmeanings, hranges⟩ := ih
    obtain ⟨left, hleft, -, hown⟩ := hcase.left
    refine ⟨List.forall_mem_cons.mpr ⟨hcase.wellNested, hnested⟩, ?_, ?_⟩
    · rw [Instruction.meanings, hcase.meaning, hmeanings, List.map_cons]
    · rw [Instruction.remainsAll, hleft, Instruction.operationsOf_append, List.flatMap_cons]
      exact List.rel_append hown hranges

theorem allOf_cases (cs : List (Name ι κ)) :
    Elimination.allOf (cs.map fun c => if chains nodes c = [] then .eFailure else .eSuccess) =
      if ∀ c ∈ cs, chains nodes c ≠ [] then .eSuccess else .eFailure := by
  induction cs with
  | nil => rfl
  | cons c cs ih =>
    rw [List.map_cons, Elimination.allOf_cons, ih]
    by_cases hc : chains nodes c = []
    · have hnot : ¬ ∀ d ∈ c :: cs, chains nodes d ≠ [] := fun h => h c List.mem_cons_self hc
      rw [if_pos hc, if_neg hnot]
      split <;> rfl
    · rw [if_neg hc]
      by_cases hcs : ∀ d ∈ cs, chains nodes d ≠ []
      · have hall : ∀ d ∈ c :: cs, chains nodes d ≠ [] := List.forall_mem_cons.mpr ⟨hc, hcs⟩
        rw [if_pos hcs, if_pos hall]
        rfl
      · rw [if_neg hcs, if_neg fun h => hcs (List.forall_mem_cons.mp h).2]
        rfl

/-- The children of the root instruction. -/
inductive RootOf (session : Session ι κ) (rangeType : RangeType) (nodes : Nodes ι κ)
    (cs : List (Name ι κ)) : List (Tree ι κ) → Prop
  | mono {trees : List (Tree ι κ)} (h : List.Forall₂ (CaseOf session rangeType nodes) cs trees) :
      RootOf session rangeType nodes cs trees
  | poly {trees : List (Tree ι κ)} (pVariable : ReferenceVariable (Option κ))
      (h : List.Forall₂ (CaseOf session rangeType nodes) cs trees) :
      RootOf session rangeType nodes cs [.node (.polyReference pVariable) trees]

/-- Elimination of a tree with the cases of some contexts. -/
theorem RootOf.eliminate {cs : List (Name ι κ)} {children : List (Tree ι κ)}
    (h : RootOf session rangeType nodes cs children) (pContext : ReferenceVariable (Option κ)) :
    ∃ r, Instruction.eliminate (.node (.root pContext) children) = .ok r ∧
      r.1 = (if ∀ c ∈ cs, chains nodes c ≠ [] then Elimination.eSuccess else .eFailure) ∧
      (r.1 = .eSuccess → List.Forall₂ (RangeOf session rangeType) r.2.getOperations
        (cs.flatMap (chains nodes))) := by
  have hroot : Instruction.WellNested (fun _ => false) (.node (.root pContext) children) ∧
      Elimination.allOf (Instruction.meanings (fun _ => false) children) =
        (if ∀ c ∈ cs, chains nodes c ≠ [] then Elimination.eSuccess else .eFailure) ∧
      List.Forall₂ (RangeOf session rangeType)
        (Instruction.operationsOf (Instruction.remainsAll (fun _ => false) children))
        (cs.flatMap (chains nodes)) := by
    cases h with
    | mono h =>
      obtain ⟨hnested, hmeanings, hranges⟩ := cases_left h
      rw [hmeanings]
      exact ⟨.of_ordinary rfl hnested, allOf_cases cs, hranges⟩
    | @poly trees pVariable h =>
      obtain ⟨hnested, hmeanings, hranges⟩ := cases_left h
      refine ⟨.of_ordinary rfl fun c hc => ?_, ?_, ?_⟩
      · rw [List.mem_singleton.mp hc]
        exact .of_ordinary rfl hnested
      · rw [Instruction.meanings, Instruction.meanings, Instruction.meaning_ordinary rfl, hmeanings,
          allOf_cases]
        split <;> rfl
      · rw [Instruction.remainsAll, Instruction.remains_ordinary rfl, Instruction.remainsAll,
          List.append_nil, Instruction.operationsOf_cons _ _ fun op h => by cases h]
        show List.Forall₂ _ (_ ++ []) _
        rw [List.append_nil]
        exact hranges
  obtain ⟨hnested, hmeaning, hranges⟩ := hroot
  obtain ⟨r, hr, hout, hleft⟩ := Instruction.eliminateWith_answers hnested
  rw [Instruction.meaning_ordinary rfl, hmeaning] at hout
  refine ⟨r, hr, hout, fun hsuccess => ?_⟩
  have hremains := (hleft hsuccess).1
  rw [Instruction.remains_ordinary rfl] at hremains
  rw [← (List.cons.inj hremains).1, Instruction.getOperations]
  exact hranges

end Cases

/-! ## Building -/

section Visit
variable {session : Session ι κ} {rangeType : RangeType} {nodes : Nodes ι κ}

/-- The contexts of a vector that is a tree. -/
theorem exists_context {t : NameTree ℕ ι κ} (ht : StandsIn nodes t) (hi : t.index = 0) :
    ∃ root, nodes[0]? = some root ∧ contexts nodes = nodesAt nodes root.children ∧
      ∀ i ∈ root.children, ∃ c, StandsIn nodes c ∧ c.index = i ∧ ∃ next, nodes[i]? = some next := by
  obtain ⟨root, hroot, -⟩ := ht.get
  rw [hi] at hroot
  refine ⟨root, hroot, by rw [contexts, hroot], fun i hmem => ?_⟩
  rw [← hi] at hroot
  obtain ⟨c, hc, -, hindex, hnext⟩ := exists_child ht hroot hmem
  exact ⟨c, hc, hindex, hnext⟩

variable [DecidableEq κ]

/-- Where all chains can be derived, the cases of all contexts are built. -/
theorem buildRangeRoot_ok (hforest : IsForest nodes) {t : NameTree ℕ ι κ} (ht : StandsIn nodes t)
    (hi : t.index = 0)
    (hchains : ∀ c ∈ contexts nodes, ∀ chain ∈ chains nodes c, derivable session chain = true)
    (pVariable : ReferenceVariable (Option κ)) (n : ℕ) :
    ∃ children n', buildRangeRoot session (operationOf rangeType) nodes pVariable n =
      .ok (children, n') ∧ RootOf session rangeType nodes (contexts nodes) children := by
  obtain ⟨root, hroot, hcontexts, hchild⟩ := exists_context ht hi
  have hbuild : ∀ head : ReferenceVariable (Option κ) → Variable κ → Head (Option κ) (Option ι),
      (∀ v w, (head v w).transient = false) → (∀ v w op, head v w ≠ .operation op) →
        ∀ i ∈ root.children, ∃ next, nodes[i]? = some next ∧ ∀ n, ∃ tree n',
          buildEnumeration session (operationOf rangeType) nodes head pVariable next n =
            .ok (tree, n') ∧ CaseOf session rangeType nodes next tree := by
    intro head hordinary hop i hmem
    obtain ⟨c, hc, rfl, next, hnext⟩ := hchild i hmem
    refine ⟨next, hnext, fun n => buildEnumeration_ok hforest hc hnext ?_ hordinary hop pVariable n⟩
    refine hchains next ?_
    rw [hcontexts]
    exact mem_nodesAt.mpr ⟨_, hmem, hnext⟩
  simp only [buildRangeRoot, hroot]
  rw [hcontexts]
  split
  · obtain ⟨trees, n', htrees, hcases⟩ := buildEach_ok
      (hbuild .polyCase (fun v w => rfl) fun v w op h => by cases h) n
    exact ⟨_, n', except_bind_ok.mpr ⟨_, htrees, rfl⟩, .poly pVariable hcases⟩
  · obtain ⟨trees, n', htrees, hcases⟩ := buildEach_ok
      (hbuild .monoReference (fun v w => rfl) fun v w op h => by cases h) n
    exact ⟨trees, n', htrees, .mono hcases⟩

/-- The cases are built only where all chains can be derived. -/
theorem buildRangeRoot_inv (hforest : IsForest nodes) {t : NameTree ℕ ι κ} (ht : StandsIn nodes t)
    (hi : t.index = 0) {operation : OperationID} {pVariable : ReferenceVariable (Option κ)} {n : ℕ}
    {r : List (Tree ι κ) × ℕ} (h : buildRangeRoot session operation nodes pVariable n = .ok r) :
    ∀ c ∈ contexts nodes, ∀ chain ∈ chains nodes c, derivable session chain = true := by
  obtain ⟨root, hroot, hcontexts, hchild⟩ := exists_context ht hi
  simp only [buildRangeRoot, hroot] at h
  rw [hcontexts]
  intro context hcontext
  obtain ⟨i, hmem, hget⟩ := mem_nodesAt.mp hcontext
  obtain ⟨c, hc, rfl, -⟩ := hchild i hmem
  split at h
  · obtain ⟨p, hp, -⟩ := except_bind_ok.mp h
    obtain ⟨n', r', hr'⟩ := buildEach_inv hp context hcontext
    exact buildEnumeration_inv hforest hc hget hr'
  · obtain ⟨n', r', hr'⟩ := buildEach_inv h context hcontext
    exact buildEnumeration_inv hforest hc hget hr'

end Visit

/-! ## Solutions -/

section Solve
variable {session : Session ι κ} {rangeType : RangeType}

theorem explicitOperation_ranges {operations : List (Operation (Option κ) (Option ι))}
    (h : ∀ op ∈ operations, op.type = .range rangeType) (e : Option ExplicitOperationID)
    (he : e = none ∨ e = some (OperationType.range rangeType).explicit) :
    ∃ e', explicitOperation operations e = .ok e' := by
  induction operations generalizing e with
  | nil => exact ⟨e, by cases e <;> rfl⟩
  | cons op operations ih =>
    rw [List.forall_mem_cons] at h
    rcases he with rfl | rfl
    · rw [explicitOperation, h.1]
      exact ih h.2 _ (.inr rfl)
    · rw [explicitOperation, if_neg (by rw [h.1]; exact not_not.mpr rfl)]
      exact ih h.2 _ (.inr rfl)

theorem returnType_range {op : Operation (Option κ) (Option ι)} (h : op.type = .range rangeType) :
    returnType session op = op.interfaceType := by
  rw [returnType, h]

section Types
variable [DecidableEq ι]

/-- The return types of ranges of contexts are contexts. -/
theorem analyseReturnTypes_ranges {root : Tree ι κ} (hne : root.getOperations ≠ [])
    (hranges : ∀ op ∈ root.getOperations, op.type = .range rangeType ∧ ∃ c,
      op.interfaceType = some c ∧ session.isContext c = true ∧ session.isDimension c = false) :
    ∃ solution, analyseReturnTypes session (operationOf rangeType) root = .ok solution ∧
      solution.m_pRoot.getOperations = root.getOperations := by
  have hmem : ∀ e ∈ (root.getOperations.map (returnType session)).eraseDups, ∃ c, e = some c ∧
      session.isContext c = true ∧ session.isDimension c = false := by
    intro e he
    obtain ⟨op, hop, rfl⟩ := List.mem_map.mp (List.mem_eraseDups.mp he)
    obtain ⟨htype, c, hc, hcontext⟩ := hranges op hop
    exact ⟨c, (returnType_range htype).trans hc, hcontext⟩
  have hdimensions : (root.getOperations.map (returnType session)).eraseDups.filterMap
      (asDimension session) = [] := by
    refine List.filterMap_eq_nil_iff.mpr fun e he => ?_
    obtain ⟨c, rfl, -, hc⟩ := hmem e he
    rw [asDimension, Option.filter_some, hc]
    rfl
  have hactions : (root.getOperations.map (returnType session)).eraseDups.filterMap
      session.asContext ≠ [] := by
    obtain ⟨op, hop⟩ := List.exists_mem_of_ne_nil _ hne
    obtain ⟨htype, c, hc, hcontext, -⟩ := hranges op hop
    refine @List.ne_nil_of_mem _ c _ (List.mem_filterMap.mpr ⟨some c, ?_, ?_⟩)
    · exact List.mem_eraseDups.mpr (List.mem_map.mpr ⟨op, hop, (returnType_range htype).trans hc⟩)
    · rw [DerivationAnalysis.asContext, Option.filter_some, if_pos hcontext]
  have henumeration : isOperationEnumeration (operationOf rangeType) = true := by
    cases rangeType <;> rfl
  simp only [analyseReturnTypes, hdimensions, ne_eq, not_true_eq_false, false_and, if_false, hactions,
    not_false_eq_true, if_true, henumeration]
  exact ⟨_, rfl, (Instruction.operationsOf_setRanges _ _ root).1⟩

end Types

variable [DecidableEq κ] {nodes : Nodes ι κ} {context : List (ElementPair ι κ)}
  {typePath : List (List (ElementPair ι κ))}

theorem visit_range (rangeType : RangeType) (pVariable : ReferenceVariable (Option κ)) (n : ℕ) :
    visit session (operationOf rangeType) nodes pVariable n =
      (buildRangeRoot session (operationOf rangeType) nodes pVariable n).map Prod.fst := by
  cases rangeType <;> rfl

variable [DecidableEq ι]

theorem visited_of_build {solution : InvocationSolution ι κ}
    (h : build session (operationOf rangeType) context typePath nodes = .ok solution) :
    ∃ r, buildRangeRoot session (operationOf rangeType) nodes (contextVariable context) 1 = .ok r := by
  unfold build at h
  obtain ⟨children, hchildren, -⟩ := except_bind_ok.mp h
  rw [visit_range] at hchildren
  cases hr : buildRangeRoot session (operationOf rangeType) nodes (contextVariable context) 1 with
  | error e =>
    rw [hr] at hchildren
    cases hchildren
  | ok r => exact ⟨r, rfl⟩

variable {children : List (Tree ι κ)} {n : ℕ}

/-- Where elimination fails, there is no solution. -/
theorem build_of_failure
    (hvisit : buildRangeRoot session (operationOf rangeType) nodes (contextVariable context) 1 =
      .ok (children, n)) {root : Tree ι κ}
    (heliminate : Instruction.eliminate (.node (.root (contextVariable context)) children) =
      .ok (.eFailure, root)) :
    build session (operationOf rangeType) context typePath nodes = .error .noDerivation := by
  have hchildren : visit session (operationOf rangeType) nodes (contextVariable context) 1 =
      .ok children := by
    rw [visit_range, hvisit]
    rfl
  have heliminated : eliminated (Instruction.eliminate
      (.node (.root (contextVariable context)) children)) = .ok (.eFailure, root) := by
    rw [heliminate]
    rfl
  unfold build
  refine except_bind_error.mpr (.inr ⟨children, hchildren, ?_⟩)
  refine except_bind_error.mpr (.inr ⟨(.eFailure, root), heliminated, ?_⟩)
  exact except_bind_error.mpr (.inl rfl)

/-- Where it succeeds, with ranges of contexts, there is one with these. -/
theorem build_of_success
    (hvisit : buildRangeRoot session (operationOf rangeType) nodes (contextVariable context) 1 =
      .ok (children, n)) {root : Tree ι κ}
    (heliminate : Instruction.eliminate (.node (.root (contextVariable context)) children) =
      .ok (.eSuccess, root)) (hne : root.getOperations ≠ [])
    (hranges : ∀ op ∈ root.getOperations, op.type = .range rangeType ∧ ∃ c,
      op.interfaceType = some c ∧ session.isContext c = true ∧ session.isDimension c = false) :
    ∃ solution, build session (operationOf rangeType) context typePath nodes = .ok solution ∧
      solution.m_pRoot.getOperations = root.getOperations := by
  have hchildren : visit session (operationOf rangeType) nodes (contextVariable context) 1 =
      .ok children := by
    rw [visit_range, hvisit]
    rfl
  have heliminated : eliminated (Instruction.eliminate
      (.node (.root (contextVariable context)) children)) = .ok (.eSuccess, root) := by
    rw [heliminate]
    rfl
  obtain ⟨solution, hanalyse, hoperations⟩ := analyseReturnTypes_ranges hne hranges
  obtain ⟨explicit, hexplicit⟩ := explicitOperation_ranges
    (fun op hop => (hranges op (by rw [← hoperations]; exact hop)).1) none (.inl rfl)
  refine ⟨{ solution with m_explicitOperation := explicit }, ?_, hoperations⟩
  unfold build
  refine except_bind_ok.mpr ⟨children, hchildren, ?_⟩
  refine except_bind_ok.mpr ⟨(.eSuccess, root), heliminated, ?_⟩
  exact except_bind_ok.mpr ⟨solution, hanalyse, except_bind_ok.mpr ⟨explicit, hexplicit, rfl⟩⟩

end Solve

/-! ## The chains that descend -/

section Leaves
variable {session : Session ι κ} {nodes : Nodes ι κ}

theorem mem_of_mem_ways {depth : ℕ} {node : Name ι κ} (hnode : node ∈ nodes)
    {way : List (Name ι κ)} (hway : way ∈ ways nodes depth node) : ∀ name ∈ way, name ∈ nodes := by
  induction depth generalizing node way with
  | zero => cases hway
  | succ depth ih =>
    unfold ways at hway
    split at hway
    · intro name hname
      rw [List.mem_singleton.mp hway] at hname
      rw [List.mem_singleton.mp hname]
      exact hnode
    · obtain ⟨rest, hrest, rfl⟩ := List.mem_map.mp hway
      obtain ⟨next, hnext, hrest⟩ := List.mem_flatMap.mp hrest
      obtain ⟨i, -, hget⟩ := mem_nodesAt.mp hnext
      exact List.forall_mem_cons.mpr ⟨hnode, ih (List.mem_of_getElem? hget) hrest⟩

/-- A chain has names of the vector, two at least. -/
theorem exists_chain_eq {context : Name ι κ} {chain : List (Name ι κ)}
    (h : chain ∈ chains nodes context) :
    ∃ current rest, chain = context :: current :: rest ∧
      ∀ name ∈ current :: rest, name ∈ nodes := by
  obtain ⟨way, hway, rfl⟩ := List.mem_map.mp h
  obtain ⟨next, hnext, hway⟩ := List.mem_flatMap.mp hway
  obtain ⟨rest, rfl⟩ := ways_start hway
  obtain ⟨i, -, hget⟩ := mem_nodesAt.mp hnext
  exact ⟨next, rest, rfl, mem_of_mem_ways (List.mem_of_getElem? hget) hway⟩

/-- A typed action goes with a context. -/
theorem exists_asContext {p : ElementPair ι κ} (htyped : session.TypedPair p)
    (haction : session.isAction p.second = true) :
    ∃ c, session.asContext p.first = some c ∧ session.isContext c = true := by
  cases hsecond : p.second with
  | none =>
    rw [hsecond] at haction
    cases haction
  | some e =>
    rw [hsecond] at haction
    cases hkind : session.kind e with
    | action context =>
      obtain ⟨c, hfirst, hc, -⟩ := htyped e context hsecond hkind
      refine ⟨c, ?_, hc⟩
      rw [DerivationAnalysis.asContext, hfirst, Option.filter_some, if_pos hc]
    | _ =>
      rw [DerivationAnalysis.isAction, hkind] at haction
      cases haction

variable [DecidableEq κ]

theorem derivable_last {prev current : Name ι κ} {rest : List (Name ι κ)}
    (h : derivable session (prev :: current :: rest) = true) {leaf : Name ι κ}
    (hleaf : (current :: rest).getLast? = some leaf) :
    session.isAction leaf.element.second = true := by
  induction rest generalizing prev current with
  | nil =>
    simp only [derivable, derives, Bool.and_eq_true] at h
    obtain rfl : current = leaf := Option.some.inj hleaf
    exact h.1.1.2
  | cons next rest ih =>
    rw [derivable, Bool.and_eq_true] at h
    rw [List.getLast?_cons_cons] at hleaf
    exact ih h.2 hleaf

/-- The ranges of derivable chains, where the names are typed, are ranges of contexts. -/
theorem range_context {rangeType : RangeType} (htyped : ∀ name ∈ nodes, session.TypedPair name.element)
    (hdimension : ∀ c, session.isContext c = true → session.isDimension c = false)
    {cs : List (Name ι κ)} {operations : List (Operation (Option κ) (Option ι))}
    (hchains : ∀ c ∈ cs, ∀ chain ∈ chains nodes c, derivable session chain = true)
    (h : List.Forall₂ (RangeOf session rangeType) operations (cs.flatMap (chains nodes))) :
    ∀ op ∈ operations, op.type = .range rangeType ∧ ∃ c, op.interfaceType = some c ∧
      session.isContext c = true ∧ session.isDimension c = false := by
  intro op hop
  obtain ⟨i, hi, rfl⟩ := List.mem_iff_getElem.mp hop
  have hlength : i < (cs.flatMap (chains nodes)).length := h.length_eq ▸ hi
  have hrange := h.get hi hlength
  obtain ⟨c, hc, hchain⟩ := List.mem_flatMap.mp (List.getElem_mem hlength)
  obtain ⟨current, rest, heq, hmem⟩ := exists_chain_eq hchain
  have hderivable := hchains c hc _ hchain
  rw [heq] at hderivable
  obtain ⟨leaf, hleaf, hinterface, -⟩ := hrange.target
  rw [List.get_eq_getElem, heq, List.getLast?_cons_cons] at hleaf
  obtain ⟨d, hd, hcontext⟩ := exists_asContext (htyped leaf (hmem leaf (List.mem_of_getLast? hleaf)))
    (derivable_last hderivable hleaf)
  exact ⟨hrange.type, d, hinterface.trans hd, hcontext, hdimension d hcontext⟩

theorem filter_descends {cs : List (Name ι κ)}
    (h : ∀ c ∈ cs, ∀ chain ∈ chains nodes c, derivable session chain = true) :
    (cs.flatMap (chains nodes)).filter (descends session) = cs.flatMap (chains nodes) := by
  refine List.filter_eq_self.mpr fun chain hchain => ?_
  obtain ⟨c, hc, hchain⟩ := List.mem_flatMap.mp hchain
  exact descends_of_derivable session (h c hc chain hchain)

/-- The outcome of a range invocation, as the chains have it that descend from a context: one operation
for each of them, and a failure only where some context has none. -/
structure KeepsDescending (session : Session ι κ) (rangeType : RangeType) (nodes : Nodes ι κ)
    (result : Except InvocationFault (InvocationSolution ι κ)) : Prop where
  kept : ∀ solution, result = .ok solution →
    List.Forall₂ (RangeOf session rangeType) solution.m_pRoot.getOperations
      (((contexts nodes).flatMap (chains nodes)).filter (descends session))
  refused : ∀ e, result = .error e →
    ∃ c ∈ contexts nodes, ∀ chain ∈ chains nodes c, descends session chain = false

end Leaves

section Range
variable {session : Session ι κ} {rangeType : RangeType} {nodes : Nodes ι κ}
  {context : List (ElementPair ι κ)} {typePath : List (List (ElementPair ι κ))}

/-- The contexts of a vector have the elements that resolution started from. -/
theorem contexts_element {tree : NameTree Unit ι κ} (h : Holds nodes tree)
    (hheads : Heads context tree) : (contexts nodes).map Name.element = context := by
  obtain ⟨t, ht, hi, rfl⟩ := h.stands
  obtain ⟨root, hroot, -, hchildren⟩ := ht.get
  rw [hi] at hroot
  have hbelow : ∀ ts : List (NameTree ℕ ι κ), (∀ c ∈ ts, StandsIn nodes c) →
      (nodesAt nodes (ts.map RoseTree.index)).map Name.element =
        (ts.map NameTree.forget).map fun c => c.label.2.element := by
    intro ts
    induction ts with
    | nil => exact fun _ => rfl
    | cons c ts ih =>
      intro hts
      rw [List.forall_mem_cons] at hts
      obtain ⟨name, hname, hmark, -⟩ := hts.1.get
      have hown : name.element = (NameTree.forget c).label.2.element := by
        cases c with
        | node a us => exact congrArg Mark.element hmark
      rw [nodesAt] at ih ⊢
      rw [List.map_cons, List.filterMap_cons, hname, List.map_cons, ih hts.2, List.map_cons,
        List.map_cons, hown]
  rw [contexts, hroot]
  show (nodesAt nodes root.children).map Name.element = context
  rw [hchildren, hbelow t.children fun c hc => ht.child hc, ← hheads.2]
  cases t with
  | node a ts =>
    rw [NameTree.forget, NameTree.rename_node]
    rfl

/-- What a vector of names is, after resolution of a range. -/
structure Resolved (session : Session ι κ) (context : List (ElementPair ι κ)) (nodes : Nodes ι κ) :
    Prop where
  tree : ∃ tree, Holds nodes tree ∧ Heads context tree
  typed : ∀ name ∈ nodes, session.TypedPair name.element

variable [LinearOrder ι] [LinearOrder κ]

theorem typePathElements_typed (htyped : session.Typed) {path : List (List ι)}
    (h : typePathElements session path = .ok typePath) :
    ∀ elements ∈ typePath, ∀ p ∈ elements, session.TypedPair p := by
  induction path generalizing typePath with
  | nil =>
    obtain rfl := Except.ok.inj h
    simp
  | cons types path ih =>
    rw [typePathElements] at h
    split at h
    · cases h
    · cases hpath : typePathElements session path with
      | error e =>
        rw [hpath] at h
        cases h
      | ok rest =>
        rw [hpath] at h
        obtain rfl := Except.ok.inj h
        exact List.forall_mem_cons.mpr ⟨htyped.typedPair types, ih hpath⟩

/-- Resolution of a range ends with a tree of the contexts, of typed names. -/
theorem resolved_of_constructInvocation (htyped : session.Typed) {invocationID : InvocationID ι}
    (hoperation : invocationID.operation = operationOf rangeType) {fuel : ℕ}
    (hconstruct : constructInvocation session invocationID = .ok (context, typePath))
    (hresolve : nameResolution session.toDerivationAnalysis fuel invocationID.operation context
      typePath = some (.ok nodes)) : context ≠ [] ∧ Resolved session context nodes := by
  have hparts : context = session.getElementVector invocationID.context true ∧ context ≠ [] ∧
      typePathElements session invocationID.typePath = .ok typePath := by
    simp only [constructInvocation] at hconstruct
    split at hconstruct
    · cases hconstruct
    · rename_i hcontext
      cases hpath : typePathElements session invocationID.typePath with
      | error e =>
        rw [hpath] at hconstruct
        cases hconstruct
      | ok path =>
        rw [hpath] at hconstruct
        dsimp only at hconstruct
        split at hconstruct
        · cases hconstruct
        · obtain ⟨rfl, rfl⟩ := Prod.mk.inj (Except.ok.inj hconstruct)
          exact ⟨rfl, hcontext, rfl⟩
  obtain ⟨hvector, hcontext, hpath⟩ := hparts
  refine ⟨hcontext, ?_⟩
  have hpathResolve : resolvePath session.toDerivationAnalysis fuel typePath (start context) =
      some (.ok nodes) := by
    have hnone : invocationID.operation ≠ .HIGHEST_OPERATION_TYPE := by
      rw [hoperation]
      cases rangeType <;> decide
    have hfrom : nameResolution session.toDerivationAnalysis fuel invocationID.operation context
        typePath = _ := (nameResolution_eq fuel hcontext hnone typePath).1
    rw [hfrom, resolveFrom] at hresolve
    have hdone : (decide (invocationID.operation = .id_Done)) = false := by
      rw [hoperation]
      cases rangeType <;> rfl
    rw [hdone] at hresolve
    cases hp : resolvePath session.toDerivationAnalysis fuel typePath (start context) with
    | none =>
      rw [hp] at hresolve
      cases hresolve
    | some outcome =>
      rw [hp] at hresolve
      cases outcome with
      | error e => cases hresolve
      | ok final => exact hresolve
  refine ⟨?_, ?_⟩
  · exact holds_and_of_resolvePath (fun demand tree => Heads.grow hcontext demand)
      (fun tree => Heads.prune) ⟨_, holds_start context, heads_startTree context⟩ hpathResolve
  · have hstart : ∀ node ∈ start context, session.TypedPair node.element := by
      refine forall_element_start (fun e c he => by cases he) ?_
      rw [hvector]
      exact htyped.typedPair invocationID.context
    exact forall_element_of_resolvePath htyped.typedPair (typePathElements_typed htyped hpath) hstart
      hpathResolve

/-- **Main result.** A range invocation whose names resolve keeps the chains that descend from a context,
and is refused only where some context has none, exactly if all chains can be derived or some context
has none that descends. -/
theorem keepsDescending_iff (htyped : session.Typed)
    (hdimension : ∀ c, session.isContext c = true → session.isDimension c = false)
    {invocationID : InvocationID ι} (hoperation : invocationID.operation = operationOf rangeType)
    {fuel : ℕ} (hconstruct : constructInvocation session invocationID = .ok (context, typePath))
    (hresolve : nameResolution session.toDerivationAnalysis fuel invocationID.operation context
      typePath = some (.ok nodes)) :
    KeepsDescending session rangeType nodes
        (build session invocationID.operation context typePath nodes) ↔
      (∀ c ∈ contexts nodes, ∀ chain ∈ chains nodes c, derivable session chain = true) ∨
        ∃ c ∈ contexts nodes, ∀ chain ∈ chains nodes c, descends session chain = false := by
  obtain ⟨hcontext, ⟨⟨tree, hholds, hheads⟩, hnames⟩⟩ :=
    resolved_of_constructInvocation htyped hoperation hconstruct hresolve
  obtain ⟨t, ht, hi, -⟩ := hholds.stands
  rw [hoperation]
  constructor
  · intro hkeeps
    cases hbuild : build session (operationOf rangeType) context typePath nodes with
    | error e => exact .inr (hkeeps.refused e hbuild)
    | ok solution =>
      obtain ⟨r, hr⟩ := visited_of_build hbuild
      exact .inl (buildRangeRoot_inv hholds.forest ht hi hr)
  · intro hcondition
    by_cases hall : ∀ c ∈ contexts nodes, ∀ chain ∈ chains nodes c, derivable session chain = true
    · have hbuilt : ∃ children n, buildRangeRoot session (operationOf rangeType) nodes
            (contextVariable context) 1 = .ok (children, n) ∧
          RootOf session rangeType nodes (contexts nodes) children :=
        buildRangeRoot_ok hholds.forest ht hi hall (contextVariable context) 1
      obtain ⟨children, n, hvisit, hroot⟩ := hbuilt
      obtain ⟨⟨outcome, root⟩, heliminate, houtcome, hranges⟩ := hroot.eliminate (contextVariable context)
      by_cases hsome : ∀ c ∈ contexts nodes, chains nodes c ≠ []
      · -- every context has a chain: all of them are left
        rw [if_pos hsome] at houtcome
        obtain rfl : outcome = .eSuccess := houtcome
        have hforall := hranges rfl
        have hne : root.getOperations ≠ [] := by
          intro hnil
          rw [hnil] at hforall
          have hmap := contexts_element hholds hheads
          cases hcs : contexts nodes with
          | nil =>
            rw [hcs] at hmap
            exact hcontext hmap.symm
          | cons c cs =>
            rw [hcs] at hforall hsome
            have hflat := List.forall₂_nil_left_iff.mp hforall
            rw [List.flatMap_eq_nil_iff] at hflat
            exact hsome c List.mem_cons_self (hflat c List.mem_cons_self)
        have hsolution : ∃ solution,
            build session (operationOf rangeType) context typePath nodes = .ok solution ∧
              solution.m_pRoot.getOperations = root.getOperations :=
          build_of_success hvisit heliminate hne (range_context hnames hdimension hall hforall)
        obtain ⟨solution, hbuild, hoperations⟩ := hsolution
        refine ⟨fun solution' h => ?_, fun e h => ?_⟩
        · rw [hbuild] at h
          rw [← Except.ok.inj h, hoperations, filter_descends hall]
          exact hforall
        · rw [hbuild] at h
          cases h
      · -- some context has no chain at all: the invocation has no derivation
        rw [if_neg hsome] at houtcome
        obtain rfl : outcome = .eFailure := houtcome
        have hbuild : build session (operationOf rangeType) context typePath nodes =
            .error .noDerivation := build_of_failure hvisit heliminate
        refine ⟨fun solution h => ?_, fun e _ => ?_⟩
        · rw [hbuild] at h
          cases h
        · push Not at hsome
          obtain ⟨c, hc, hnil⟩ := hsome
          exact ⟨c, hc, fun chain hchain => by rw [hnil] at hchain; cases hchain⟩
    · -- some chain cannot be derived: nothing is built
      have hstray := hcondition.resolve_left hall
      refine ⟨fun solution h => ?_, fun _ _ => hstray⟩
      obtain ⟨r, hr⟩ := visited_of_build h
      exact absurd (buildRangeRoot_inv hholds.forest ht hi hr) hall

end Range

/-! ## A candidate outside the context -/

/-- Action `1` has an action `2` with an action `3`; the action `4` has the identifier of `3` and lies
beside `1`. -/
def strays : Session (Fin 5) (Fin 5) where
  kind e := .action e
  children e := if e = 0 then [1, 4] else if e = 1 then [2] else if e = 2 then [3] else []
  isContext _ := true
  baseContexts _ := []
  rank _ := 0
  rank_base h := by simp at h
  instanceMap := [(0, 0), (1, 1), (2, 2), (3, 3), (4, 4)]
  inheritanceMap := [(0, 0), (1, 1), (2, 2), (3, 3), (4, 4)]
  inheritance_isAction _ := rfl
  contextTypes_isContext h := by cases h
  isDimension _ := false
  tree := ⟨fun e => if e = 0 then none else if e = 2 then some 1 else if e = 3 then some 2 else some 0,
    fun e => e.val, by decide⟩
  root := 0
  only_root := by decide
  root_isAction := rfl
  parent_isAction _ := rfl
  getLocalDomainSize _ := 1
  localDomainSize_pos _ := Nat.one_pos
  getIndex e := e.val
  index_injective := by decide
  hasLinkGroup _ := false

/-- The range of the identifier of `3` and `4`, from `1`. -/
def straysID : InvocationID (Fin 5) := ⟨[1], [[3, 4]], .id_Range⟩

def straysContext : List (ElementPair (Fin 5) (Fin 5)) := [⟨some 1, some 1⟩]

def straysPath : List (List (ElementPair (Fin 5) (Fin 5))) :=
  [[⟨some 3, some 3⟩, ⟨some 4, some 4⟩]]

/-- The names of that range: below `1`, both candidates. -/
def straysNodes : Nodes (Fin 5) (Fin 5) :=
  [⟨⟨none, none⟩, false, true, [1]⟩, ⟨⟨some 1, some 1⟩, false, false, [2, 3]⟩,
    ⟨⟨some 3, some 3⟩, false, false, []⟩, ⟨⟨some 4, some 4⟩, false, false, []⟩]

theorem strays_resolved :
    constructInvocation strays straysID = .ok (straysContext, straysPath) ∧
      nameResolution strays.toDerivationAnalysis 2 .id_Range straysContext straysPath =
        some (.ok straysNodes) := by
  constructor <;> decide +kernel

theorem strays_typed : strays.Typed where
  instance_isContext _ _ _ := rfl
  inheritance_inherits p hp context hkind := by
    have hsame : p.1 = p.2 := by
      have hall : ∀ p ∈ strays.inheritanceMap, p.1 = p.2 := by decide
      exact hall p hp
    obtain rfl := ConcreteKind.action.inj hkind
    rw [hsame]
    exact .refl

/-- The range is refused, for `4`, although `3` lies below the context. -/
theorem strays_not_keepsDescending :
    (constructInvocation strays straysID = .ok (straysContext, straysPath) ∧
      nameResolution strays.toDerivationAnalysis 2 .id_Range straysContext straysPath =
        some (.ok straysNodes)) ∧
      ¬ KeepsDescending strays .eRange straysNodes
        (build strays .id_Range straysContext straysPath straysNodes) := by
  have hvisit : (buildRangeRoot strays (operationOf .eRange) straysNodes
      (contextVariable straysContext) 1).isOk = false := by
    decide +kernel
  have hdescends : ∀ c ∈ contexts straysNodes, ∃ chain ∈ chains straysNodes c,
      descends strays chain = true := by
    decide +kernel
  refine ⟨strays_resolved, fun hkeeps => ?_⟩
  cases hbuild : build strays (operationOf .eRange) straysContext straysPath straysNodes with
  | ok solution =>
    obtain ⟨r, hr⟩ := visited_of_build hbuild
    rw [hr] at hvisit
    cases hvisit
  | error e =>
    obtain ⟨c, hc, hnone⟩ := hkeeps.refused e hbuild
    obtain ⟨chain, hchain, hbelow⟩ := hdescends c hc
    rw [hnone chain hchain] at hbelow
    cases hbelow

theorem strays_keepsDescending_iff :
    KeepsDescending strays .eRange straysNodes
        (build strays straysID.operation straysContext straysPath straysNodes) ↔
      (∀ c ∈ contexts straysNodes, ∀ chain ∈ chains straysNodes c, derivable strays chain = true) ∨
        ∃ c ∈ contexts straysNodes, ∀ chain ∈ chains straysNodes c, descends strays chain = false :=
  keepsDescending_iff strays_typed (fun _ _ => rfl) rfl strays_resolved.1 strays_resolved.2

end Invocation
end EgLang.Compiler
