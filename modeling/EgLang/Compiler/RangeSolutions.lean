import EgLang.Compiler.CodeSimulation
import EgLang.Compiler.InvocationWalks
import EgLang.Compiler.RangeTargets

/-!
# The solution of a range

What elimination and the analysis of return types leave of a range invocation: an enumeration for each
context, each with a variable of its own, over the ranges of the chains of the context.
-/

namespace EgLang.Compiler

open EgLang.Library NameResolution

set_option autoImplicit false

namespace Invocation
variable {ι κ : Type}

/-! ## Counting variables -/

section Counting
variable {session : Session ι κ} {nodes : Nodes ι κ}

theorem deriveEnum_le {path : List κ} {pVariable : Variable κ} {n : ℕ}
    {r : List (Head (Option κ) (Option ι)) × Variable κ × ℕ}
    (h : deriveEnum session path pVariable n = some r) : n ≤ r.2.2 := by
  induction path generalizing pVariable n r with
  | nil =>
    obtain rfl := Option.some.inj h
    exact le_rfl
  | cons pIter path ih =>
    rw [deriveEnum] at h
    split at h
    · obtain ⟨r', hr', rfl⟩ := Option.map_eq_some_iff.mp h
      have hle : n + 1 ≤ r'.2.2 := ih hr'
      exact (Nat.le_succ n).trans hle
    · cases h

theorem buildRanges_le {build : Name ι κ → ℕ → Except InvocationFault (List (Tree ι κ) × ℕ)}
    (hbuild : ∀ next n r, build next n = .ok r → n ≤ r.2) {children : List ℕ} {n : ℕ}
    {r : List (Tree ι κ) × ℕ} (h : buildRanges nodes build children n = .ok r) : n ≤ r.2 := by
  induction children generalizing n r with
  | nil =>
    obtain rfl := Except.ok.inj h
    exact le_rfl
  | cons i children ih =>
    rw [buildRanges] at h
    split at h
    · cases h
    · obtain ⟨p, hp, h⟩ := except_bind_ok.mp h
      obtain ⟨q, hq, h⟩ := except_bind_ok.mp h
      obtain rfl := Except.ok.inj h
      have hle : p.2 ≤ q.2 := ih hq
      exact (hbuild _ _ _ hp).trans hle

theorem buildRange_le {operation : OperationID} {current : Name ι κ} {pAction : κ}
    {pVariable : Variable κ} {n : ℕ} {r : Tree ι κ × ℕ}
    (h : buildRange session operation current pAction pVariable n = .ok r) : n ≤ r.2 := by
  cases operation with
  | id_Raw =>
    obtain rfl := Except.ok.inj h
    exact Nat.le_succ n
  | id_Range =>
    obtain rfl := Except.ok.inj h
    exact Nat.le_succ n
  | _ => cases h

theorem buildEnum_le [DecidableEq κ] {operation : OperationID} {depth : ℕ} {prev current : Name ι κ}
    {pVariable : Variable κ} {n : ℕ} {r : List (Tree ι κ) × ℕ}
    (h : buildEnum session operation nodes depth prev current pVariable n = .ok r) : n ≤ r.2 := by
  induction depth generalizing prev current pVariable n r with
  | zero => cases h
  | succ depth ih =>
    rw [buildEnum] at h
    split at h
    · cases h
    split at h
    · cases h
    split at h
    · cases h
    rename_i heads v n₁ htarget
    have hle : n ≤ n₁ := by
      unfold targetDerivation at htarget
      split at htarget
      · exact deriveEnum_le htarget
      · cases htarget
    split at h
    · obtain ⟨p, hp, h⟩ := except_bind_ok.mp h
      obtain rfl := Except.ok.inj h
      exact hle.trans (buildRange_le hp)
    · obtain ⟨p, hp, h⟩ := except_bind_ok.mp h
      obtain rfl := Except.ok.inj h
      have hranges : n₁ ≤ p.2 := buildRanges_le (fun next n r hr => ih hr) hp
      exact hle.trans hranges

end Counting

/-! ## Cases -/

/-- A context, with its variable and the instructions below its enumeration. -/
structure RangeCase (ι κ : Type) where
  context : Name ι κ
  pInstance : Variable κ
  ts : List (Tree ι κ)

/-- The tree of a case, before elimination and after it. -/
def RangeCase.tree (head : Variable κ → Head (Option κ) (Option ι)) (c : RangeCase ι κ) : Tree ι κ :=
  caseTree (head c.pInstance) c.pInstance c.ts

/-- The tree of a case in a solution. -/
def RangeCase.solved (head : Variable κ → Head (Option κ) (Option ι)) (returnTypes : List (Option ι))
    (iMaxRanges : ℕ) (c : RangeCase ι κ) : Tree ι κ :=
  .node (head c.pInstance) [.node (.enumeration c.pInstance returnTypes iMaxRanges) c.ts]

/-- A case has the ranges of the chains of its context, on a variable of its action. -/
structure IsRangeCase (session : Session ι κ) (rangeType : RangeType) (nodes : Nodes ι κ)
    (c : RangeCase ι κ) : Prop where
  pInstance : c.pInstance.concreteType = asAction session c.context.element.second
  built : Built session rangeType (chains nodes c.context) c.ts
  empty : chains nodes c.context = [] → c.ts = []

section Cases
variable [DecidableEq κ] {session : Session ι κ} {rangeType : RangeType} {nodes : Nodes ι κ}
  {head : ReferenceVariable (Option κ) → Variable κ → Head (Option κ) (Option ι)}
  {pVariable : ReferenceVariable (Option κ)}

/-- The case of a context takes the first variable that is free. -/
theorem buildEnumeration_case (hforest : IsForest nodes) {t : NameTree ℕ ι κ} (ht : StandsIn nodes t)
    {context : Name ι κ} (hget : nodes[t.index]? = some context)
    (hordinary : ∀ v w, (head v w).transient = false) (hop : ∀ v w op, head v w ≠ .operation op)
    {n : ℕ} {r : Tree ι κ × ℕ}
    (h : buildEnumeration session (operationOf rangeType) nodes head pVariable context n = .ok r) :
    ∃ c : RangeCase ι κ, c.context = context ∧ c.pInstance.address = n ∧ n < r.2 ∧
      r.1 = c.tree (head pVariable) ∧ IsRangeCase session rangeType nodes c := by
  obtain ⟨tree, n', hbuild, head', pInstance, ts, rfl, hcase⟩ := buildEnumeration_ok hforest ht hget
    (buildEnumeration_inv hforest ht hget h) hordinary hop pVariable n
  have hbuilt := h
  rw [hbuild] at hbuilt
  obtain rfl := Except.ok.inj hbuilt
  obtain ⟨p, hp, heq⟩ := except_bind_ok.mp h
  obtain ⟨htree, rfl⟩ := Prod.mk.inj (Except.ok.inj heq)
  have hle : n + 1 ≤ p.2 := buildRanges_le (fun next n r hr => buildEnum_le hr) hp
  simp only [caseTree, Instruction.node.injEq, List.cons.injEq, Head.enumeration.injEq, and_true,
    true_and] at htree
  obtain ⟨rfl, rfl, rfl⟩ := htree
  exact ⟨⟨context, ⟨n, asAction session context.element.second⟩, p.1⟩, rfl, rfl, hle, rfl, rfl,
    hcase.built, hcase.empty⟩

/-- The cases of some contexts, whose variables are different and no smaller than `n`. -/
structure CasesFrom (session : Session ι κ) (rangeType : RangeType) (nodes : Nodes ι κ) (n : ℕ)
    (cs : List (Name ι κ)) (cases : List (RangeCase ι κ)) : Prop where
  contexts : cases.map RangeCase.context = cs
  isCase : ∀ c ∈ cases, IsRangeCase session rangeType nodes c
  addresses : (cases.map fun c => c.pInstance.address).Pairwise (· < ·)
  above : ∀ c ∈ cases, n ≤ c.pInstance.address

omit [DecidableEq κ] in
theorem buildEach_cases {head : Variable κ → Head (Option κ) (Option ι)}
    {build : Name ι κ → ℕ → Except InvocationFault (Tree ι κ × ℕ)} {children : List ℕ}
    (hbuild : ∀ i ∈ children, ∀ next, nodes[i]? = some next → ∀ {n r}, build next n = .ok r →
      ∃ c : RangeCase ι κ, c.context = next ∧ c.pInstance.address = n ∧ n < r.2 ∧
        r.1 = c.tree head ∧ IsRangeCase session rangeType nodes c)
    {n : ℕ} {r : List (Tree ι κ) × ℕ} (h : buildEach nodes build children n = .ok r) :
    ∃ cases, r.1 = cases.map (RangeCase.tree head) ∧
      CasesFrom session rangeType nodes n (nodesAt nodes children) cases := by
  induction children generalizing n r with
  | nil =>
    obtain rfl := Except.ok.inj h
    exact ⟨[], rfl, rfl, by simp, .nil, by simp⟩
  | cons i children ih =>
    rw [List.forall_mem_cons] at hbuild
    rw [buildEach] at h
    cases hnext : nodes[i]? with
    | none =>
      rw [hnext] at h
      cases h
    | some next =>
      rw [hnext] at h
      obtain ⟨p, hp, h⟩ := except_bind_ok.mp h
      obtain ⟨q, hq, h⟩ := except_bind_ok.mp h
      obtain rfl := Except.ok.inj h
      obtain ⟨c, hcontext, haddress, hlt, htree, hcase⟩ := hbuild.1 next hnext hp
      obtain ⟨cases, htrees, hcases⟩ := ih hbuild.2 hq
      refine ⟨c :: cases, ?_, ?_, ?_, ?_, ?_⟩
      · show p.1 :: q.1 = _
        rw [htree, htrees, List.map_cons]
      · rw [nodesAt, List.filterMap_cons, hnext, List.map_cons, hcontext, hcases.contexts]
        rfl
      · exact List.forall_mem_cons.mpr ⟨hcase, hcases.isCase⟩
      · rw [List.map_cons, List.pairwise_cons]
        refine ⟨fun a ha => ?_, hcases.addresses⟩
        obtain ⟨c', hc', rfl⟩ := List.mem_map.mp ha
        rw [haddress]
        exact lt_of_lt_of_le hlt (hcases.above c' hc')
      · refine List.forall_mem_cons.mpr ⟨haddress.ge, fun c' hc' => ?_⟩
        exact (hlt.trans_le (hcases.above c' hc')).le

/-- The instruction of a case, by the number of the contexts. -/
def caseHead (pVariable : ReferenceVariable (Option κ)) (pInstance : Variable κ) :
    Head (Option κ) (Option ι) :=
  if pVariable.types.length > 1 then .polyCase pVariable pInstance
  else .monoReference pVariable pInstance

/-- The children of the root instruction, by the number of the contexts. -/
def rangeRoot (pVariable : ReferenceVariable (Option κ)) (trees : List (Tree ι κ)) :
    List (Tree ι κ) :=
  if pVariable.types.length > 1 then [.node (.polyReference pVariable) trees] else trees

omit [DecidableEq κ] in
theorem caseHead_ordinary (pVariable : ReferenceVariable (Option κ)) (pInstance : Variable κ) :
    (caseHead pVariable pInstance : Head (Option κ) (Option ι)).transient = false ∧
      (∀ op, (caseHead pVariable pInstance : Head (Option κ) (Option ι)) ≠ .operation op) ∧
      ∀ v returnTypes iMaxRanges, (caseHead pVariable pInstance : Head (Option κ) (Option ι)) ≠
        .enumeration v returnTypes iMaxRanges := by
  unfold caseHead
  split
  · exact ⟨rfl, by simp, by simp⟩
  · exact ⟨rfl, by simp, by simp⟩

/-- What is built for a range has a case for each of its contexts. -/
theorem buildRangeRoot_cases (hforest : IsForest nodes) {t : NameTree ℕ ι κ} (ht : StandsIn nodes t)
    (hi : t.index = 0) {n : ℕ} {r : List (Tree ι κ) × ℕ}
    (h : buildRangeRoot session (operationOf rangeType) nodes pVariable n = .ok r) :
    ∃ cases, r.1 = rangeRoot pVariable (cases.map (RangeCase.tree (caseHead pVariable))) ∧
      CasesFrom session rangeType nodes n (contexts nodes) cases := by
  obtain ⟨root, hroot, hcontexts, hchild⟩ := exists_context ht hi
  have hbuild : ∀ head : ReferenceVariable (Option κ) → Variable κ → Head (Option κ) (Option ι),
      (∀ v w, (head v w).transient = false) → (∀ v w op, head v w ≠ .operation op) →
        ∀ i ∈ root.children, ∀ next, nodes[i]? = some next → ∀ {n r},
          buildEnumeration session (operationOf rangeType) nodes head pVariable next n = .ok r →
            ∃ c : RangeCase ι κ, c.context = next ∧ c.pInstance.address = n ∧ n < r.2 ∧
              r.1 = c.tree (head pVariable) ∧ IsRangeCase session rangeType nodes c := by
    intro head hordinary hop i hmem next hnext n r h
    obtain ⟨c, hc, rfl, -⟩ := hchild i hmem
    exact buildEnumeration_case hforest hc hnext hordinary hop h
  simp only [buildRangeRoot, hroot] at h
  rw [hcontexts]
  by_cases hpoly : pVariable.types.length > 1
  · have hhead : (caseHead pVariable : Variable κ → Head (Option κ) (Option ι)) =
        .polyCase pVariable := by
      funext pInstance
      exact if_pos hpoly
    rw [if_pos hpoly] at h
    obtain ⟨p, hp, h⟩ := except_bind_ok.mp h
    obtain rfl := Except.ok.inj h
    obtain ⟨cases, hcases, hfrom⟩ := buildEach_cases
      (hbuild .polyCase (fun v w => rfl) fun v w op h => by cases h) hp
    refine ⟨cases, ?_, hfrom⟩
    rw [rangeRoot, if_pos hpoly, hhead, ← hcases]
  · have hhead : (caseHead pVariable : Variable κ → Head (Option κ) (Option ι)) =
        .monoReference pVariable := by
      funext pInstance
      exact if_neg hpoly
    rw [if_neg hpoly] at h
    obtain ⟨cases, hcases, hfrom⟩ := buildEach_cases
      (hbuild .monoReference (fun v w => rfl) fun v w op h => by cases h) h
    refine ⟨cases, ?_, hfrom⟩
    rw [rangeRoot, if_neg hpoly, hhead, ← hcases]

/-! ## Elimination -/

omit [DecidableEq κ] in
/-- Elimination takes the group of a case away. -/
theorem remains_tree {head : Variable κ → Head (Option κ) (Option ι)} {c : RangeCase ι κ}
    (hhead : (head c.pInstance).transient = false) (hclean : ∀ t ∈ c.ts, Instruction.Clean t) :
    Instruction.remains (fun _ => false) (c.tree head) = [c.solved head [] 1] := by
  have hgroup : Instruction.remains (fun _ => false) (.node .prune c.ts : Tree ι κ) = c.ts :=
    Instruction.successes_clean hclean
  rw [RangeCase.tree, caseTree, Instruction.remains_ordinary hhead, Instruction.remainsAll,
    Instruction.remains_ordinary rfl]
  simp [Instruction.remainsAll, hgroup, RangeCase.solved]

omit [DecidableEq κ] in
theorem CasesFrom.remainsAll {n : ℕ} {cs : List (Name ι κ)} {cases : List (RangeCase ι κ)}
    (h : CasesFrom session rangeType nodes n cs cases) :
    Instruction.remainsAll (fun _ => false) (cases.map (RangeCase.tree (caseHead pVariable))) =
      cases.map (RangeCase.solved (caseHead pVariable) [] 1) := by
  have hcase := h.isCase
  clear h
  induction cases with
  | nil => rfl
  | cons c cases ih =>
    rw [List.forall_mem_cons] at hcase
    rw [List.map_cons, Instruction.remainsAll, ih hcase.2, List.map_cons,
      remains_tree (caseHead_ordinary pVariable c.pInstance).1 hcase.1.built.clean,
      List.singleton_append]

omit [DecidableEq κ] in
theorem CasesFrom.forall₂ {n : ℕ} {cs : List (Name ι κ)} {cases : List (RangeCase ι κ)}
    (h : CasesFrom session rangeType nodes n cs cases) (pVariable : ReferenceVariable (Option κ)) :
    List.Forall₂ (CaseOf session rangeType nodes) cs
      (cases.map (RangeCase.tree (caseHead pVariable))) := by
  rw [← h.contexts, List.forall₂_map_left_iff, List.forall₂_map_right_iff, List.forall₂_same]
  intro c hc
  have hcase := h.isCase c hc
  have hhead := caseHead_ordinary (ι := ι) pVariable c.pInstance
  exact ⟨_, _, _, rfl, hhead.1, hhead.2.1, hcase.built, hcase.empty⟩

omit [DecidableEq κ] in
theorem CasesFrom.rootOf {n : ℕ} {cs : List (Name ι κ)} {cases : List (RangeCase ι κ)}
    (h : CasesFrom session rangeType nodes n cs cases) (pVariable : ReferenceVariable (Option κ)) :
    RootOf session rangeType nodes cs
      (rangeRoot pVariable (cases.map (RangeCase.tree (caseHead pVariable)))) := by
  unfold rangeRoot
  split
  · exact .poly pVariable (h.forall₂ pVariable)
  · exact .mono (h.forall₂ pVariable)

omit [DecidableEq κ] in
/-- Elimination of the cases of a range: it fails where some context has no chain, and takes nothing but
the groups away where all have. -/
theorem CasesFrom.eliminate {n : ℕ} {cs : List (Name ι κ)} {cases : List (RangeCase ι κ)}
    (h : CasesFrom session rangeType nodes n cs cases)
    (pContext pVariable : ReferenceVariable (Option κ)) :
    ∃ r, Instruction.eliminate (.node (.root pContext)
        (rangeRoot pVariable (cases.map (RangeCase.tree (caseHead pVariable))))) = .ok r ∧
      r.1 = (if ∀ c ∈ cs, chains nodes c ≠ [] then Elimination.eSuccess else .eFailure) ∧
      (r.1 = .eSuccess → r.2 = .node (.root pContext)
          (rangeRoot pVariable (cases.map (RangeCase.solved (caseHead pVariable) [] 1))) ∧
        List.Forall₂ (RangeOf session rangeType) r.2.getOperations (cs.flatMap (chains nodes))) := by
  have hrootOf := h.rootOf pVariable
  obtain ⟨r, hr, hout, hranges⟩ := hrootOf.eliminate pContext
  refine ⟨r, hr, hout, fun hsuccess => ⟨?_, hranges hsuccess⟩⟩
  have hnested := (cases_left (h.forall₂ pVariable)).1
  have hroot : Instruction.WellNested (fun _ => false) (.node (.root pContext)
      (rangeRoot pVariable (cases.map (RangeCase.tree (caseHead pVariable))))) := by
    refine .of_ordinary rfl ?_
    unfold rangeRoot
    split
    · exact List.forall_mem_singleton.mpr (.of_ordinary rfl hnested)
    · exact hnested
  obtain ⟨r', hr', -, hleft⟩ := Instruction.eliminateWith_answers hroot
  obtain rfl : r' = r := Except.ok.inj (hr'.symm.trans hr)
  have hremains := (hleft hsuccess).1
  have hchildren : Instruction.remainsAll (fun _ => false)
      (rangeRoot pVariable (cases.map (RangeCase.tree (caseHead pVariable)))) =
        rangeRoot pVariable (cases.map (RangeCase.solved (caseHead pVariable) [] 1)) := by
    unfold rangeRoot
    split
    · rw [Instruction.remainsAll, Instruction.remains_ordinary rfl, h.remainsAll]
      rfl
    · exact h.remainsAll
  rw [Instruction.remains_ordinary rfl, hchildren] at hremains
  exact (List.cons.inj hremains).1.symm

/-! ## Return types -/

/-- The number of ranges that the enumerations of some cases are padded to. -/
def maxRanges (cases : List (RangeCase ι κ)) : ℕ :=
  (cases.map fun c => (Instruction.operationsOf c.ts).length).foldr max 1

omit [DecidableEq κ] in
theorem one_le_maxRanges (cases : List (RangeCase ι κ)) : 1 ≤ maxRanges cases := by
  induction cases with
  | nil => exact le_rfl
  | cons c cases ih => exact ih.trans (le_max_right _ _)

omit [DecidableEq κ] in
theorem le_maxRanges {cases : List (RangeCase ι κ)} {c : RangeCase ι κ} (hc : c ∈ cases) :
    (Instruction.operationsOf c.ts).length ≤ maxRanges cases := by
  induction cases with
  | nil => cases hc
  | cons c' cases ih =>
    show _ ≤ max _ (maxRanges cases)
    rcases List.mem_cons.mp hc with rfl | hc
    · exact le_max_left _ _
    · exact (ih hc).trans (le_max_right _ _)

omit [DecidableEq κ] in
theorem maxRanges_eq {cases : List (RangeCase ι κ)} {n : ℕ} (hn : 0 < n) (hne : cases ≠ [])
    (hall : ∀ c ∈ cases, (Instruction.operationsOf c.ts).length = n) : maxRanges cases = n := by
  have hle : maxRanges cases ≤ n := by
    clear hne
    induction cases with
    | nil => exact hn
    | cons c cases ih =>
      rw [List.forall_mem_cons] at hall
      exact max_le hall.1.le (ih hall.2)
  obtain ⟨c, hc⟩ := List.exists_mem_of_ne_nil _ hne
  exact hle.antisymm (hall c hc ▸ le_maxRanges hc)

omit [DecidableEq κ] in
theorem maxOperations_solved {returnTypes : List (Option ι)} {iMaxRanges : ℕ} {c : RangeCase ι κ} :
    (c.solved (caseHead pVariable) returnTypes iMaxRanges).maxOperations =
      max (Instruction.operationsOf c.ts).length 1 := by
  unfold RangeCase.solved caseHead
  split <;> simp [Instruction.maxOperations, Instruction.maxOperationsOf]

omit [DecidableEq κ] in
theorem maxOperationsOf_solved {returnTypes : List (Option ι)} {iMaxRanges : ℕ}
    (cases : List (RangeCase ι κ)) :
    Instruction.maxOperationsOf
        (cases.map (RangeCase.solved (caseHead pVariable) returnTypes iMaxRanges)) =
      maxRanges cases := by
  induction cases with
  | nil => rfl
  | cons c cases ih =>
    rw [List.map_cons, Instruction.maxOperationsOf, ih, maxOperations_solved, max_assoc,
      max_eq_right (one_le_maxRanges cases)]
    rfl

omit [DecidableEq κ] in
theorem maxOperations_root {returnTypes : List (Option ι)} {iMaxRanges : ℕ}
    {pContext : ReferenceVariable (Option κ)} (cases : List (RangeCase ι κ)) :
    (Instruction.node (.root pContext) (rangeRoot pVariable
      (cases.map (RangeCase.solved (caseHead pVariable) returnTypes iMaxRanges)))).maxOperations =
      maxRanges cases := by
  have hroot : ∀ ts : List (Tree ι κ), (Instruction.node (.root pContext) ts).maxOperations =
      Instruction.maxOperationsOf ts := fun _ => by simp [Instruction.maxOperations]
  have hpoly : ∀ ts : List (Tree ι κ), (Instruction.node (.polyReference pVariable) ts).maxOperations =
      Instruction.maxOperationsOf ts := fun _ => by simp [Instruction.maxOperations]
  rw [hroot]
  unfold rangeRoot
  split
  · rw [Instruction.maxOperationsOf, hpoly, maxOperationsOf_solved, Instruction.maxOperationsOf]
    exact max_eq_left (one_le_maxRanges cases)
  · exact maxOperationsOf_solved cases

omit [DecidableEq κ] in
theorem setRanges_solved {returnTypes returnTypes' : List (Option ι)} {iMaxRanges iMaxRanges' : ℕ}
    {c : RangeCase ι κ} :
    Instruction.setRanges returnTypes' iMaxRanges'
        (c.solved (caseHead pVariable) returnTypes iMaxRanges) =
      c.solved (caseHead pVariable) returnTypes' iMaxRanges' := by
  unfold RangeCase.solved caseHead
  split <;> simp [Instruction.setRanges, Instruction.setRangesOf]

omit [DecidableEq κ] in
theorem setRanges_root {returnTypes returnTypes' : List (Option ι)} {iMaxRanges iMaxRanges' : ℕ}
    {pContext : ReferenceVariable (Option κ)} (cases : List (RangeCase ι κ)) :
    Instruction.setRanges returnTypes' iMaxRanges' (.node (.root pContext) (rangeRoot pVariable
        (cases.map (RangeCase.solved (caseHead pVariable) returnTypes iMaxRanges)))) =
      .node (.root pContext) (rangeRoot pVariable
        (cases.map (RangeCase.solved (caseHead pVariable) returnTypes' iMaxRanges'))) := by
  have hcases : Instruction.setRangesOf returnTypes' iMaxRanges'
        (cases.map (RangeCase.solved (caseHead pVariable) returnTypes iMaxRanges)) =
      cases.map (RangeCase.solved (caseHead pVariable) returnTypes' iMaxRanges') := by
    induction cases with
    | nil => rfl
    | cons c cases ih =>
      rw [List.map_cons, Instruction.setRangesOf, ih, setRanges_solved, List.map_cons]
  unfold rangeRoot
  split
  · simp only [Instruction.setRanges, Instruction.setRangesOf, hcases]
  · simp only [Instruction.setRanges, hcases]

end Cases

/-! ## Solutions -/

/-- A solution that has a case for each context, and enumerations that are padded to one number. -/
structure RangeSolution [DecidableEq κ] (session : Session ι κ) (rangeType : RangeType) (nodes : Nodes ι κ)
    (context : List (ElementPair ι κ)) (solution : InvocationSolution ι κ)
    (cases : List (RangeCase ι κ)) : Prop where
  elements : (contexts nodes).map Name.element = context
  casesFrom : CasesFrom session rangeType nodes 1 (contexts nodes) cases
  nonempty : cases ≠ []
  hasChains : ∀ c ∈ cases, chains nodes c.context ≠ []
  derivable : ∀ c ∈ cases, ∀ chain ∈ chains nodes c.context, derivable session chain = true
  root : ∃ returnTypes, returnTypes ≠ [] ∧ solution.m_pRoot =
    .node (.root (contextVariable context)) (rangeRoot (contextVariable context)
      (cases.map (RangeCase.solved (caseHead (contextVariable context)) returnTypes (maxRanges cases))))

section Solve
variable {session : Session ι κ} {rangeType : RangeType} {nodes : Nodes ι κ}
  {context : List (ElementPair ι κ)} {typePath : List (List (ElementPair ι κ))}
  {solution : InvocationSolution ι κ} [DecidableEq ι]

/-- The analysis of return types changes the enumerations only. -/
theorem analyseReturnTypes_root {root : Tree ι κ} (hoperations : root.getOperations ≠ [])
    (h : analyseReturnTypes session (operationOf rangeType) root = .ok solution) :
    ∃ returnTypes, returnTypes ≠ [] ∧
      solution.m_pRoot = root.setRanges returnTypes root.maxOperations := by
  have henumeration : isOperationEnumeration (operationOf rangeType) = true := by
    cases rangeType <;> rfl
  have hreturn : (root.getOperations.map (returnType session)).eraseDups ≠ [] := by
    obtain ⟨op, hop⟩ := List.exists_mem_of_ne_nil _ hoperations
    exact List.ne_nil_of_mem (List.mem_eraseDups.mpr (List.mem_map_of_mem hop))
  refine ⟨_, hreturn, ?_⟩
  simp only [analyseReturnTypes, henumeration, if_true] at h
  split at h
  · cases h
  split at h
  · rw [← Except.ok.inj h]
  split at h
  · rw [← Except.ok.inj h]
  · cases h

/-- **The solution of a range** has a case for each of the contexts. -/
theorem exists_rangeSolution [DecidableEq κ] {tree : NameTree Unit ι κ} (hholds : Holds nodes tree)
    (hheads : Heads context tree) (hcontext : context ≠ [])
    (hbuild : build session (operationOf rangeType) context typePath nodes = .ok solution) :
    ∃ cases, RangeSolution session rangeType nodes context solution cases := by
  obtain ⟨t, ht, hi, -⟩ := hholds.stands
  obtain ⟨r, hr⟩ := visited_of_build hbuild
  obtain ⟨cases, hchildren, hcases⟩ := buildRangeRoot_cases hholds.forest ht hi hr
  have hmap := contexts_element hholds hheads
  have hne : contexts nodes ≠ [] := by
    intro hnil
    rw [hnil] at hmap
    exact hcontext hmap.symm
  have hmem : ∀ c ∈ cases, c.context ∈ contexts nodes := fun c hc => by
    rw [← hcases.contexts]
    exact List.mem_map_of_mem hc
  obtain ⟨p, heliminate, hout, hleft⟩ :=
    hcases.eliminate (contextVariable context) (contextVariable context)
  unfold build at hbuild
  obtain ⟨children, hvisit, hbuild⟩ := except_bind_ok.mp hbuild
  rw [visit_range, hr] at hvisit
  obtain rfl : r.1 = children := Except.ok.inj hvisit
  rw [hchildren, heliminate] at hbuild
  have hanalysed : p.1 = .eSuccess ∧ ∃ s, analyseReturnTypes session (operationOf rangeType) p.2 = .ok s ∧
      s.m_pRoot = solution.m_pRoot := by
    obtain ⟨q, hq, hbuild⟩ := except_bind_ok.mp hbuild
    obtain rfl : p = q := Except.ok.inj hq
    obtain ⟨elimination, root⟩ := p
    cases elimination with
    | eSuccess =>
      obtain ⟨s, hs, hbuild⟩ := except_bind_ok.mp hbuild
      obtain ⟨e, -, hbuild⟩ := except_bind_ok.mp hbuild
      obtain rfl := Except.ok.inj hbuild
      exact ⟨rfl, s, hs, rfl⟩
    | eFailure =>
      obtain ⟨s, hs, -⟩ := except_bind_ok.mp hbuild
      cases hs
    | eAmbiguous => split at hout <;> cases hout
  obtain ⟨hsuccess, s, hs, hroot⟩ := hanalysed
  have hchains : ∀ c ∈ contexts nodes, chains nodes c ≠ [] := by
    by_contra hnot
    rw [if_neg hnot, hsuccess] at hout
    cases hout
  obtain ⟨hp, hranges⟩ := hleft hsuccess
  have hoperations : p.2.getOperations ≠ [] := by
    intro hnil
    rw [hnil] at hranges
    obtain ⟨c, hc⟩ := List.exists_mem_of_ne_nil _ hne
    exact hchains c hc (List.flatMap_eq_nil_iff.mp (List.forall₂_nil_left_iff.mp hranges) c hc)
  obtain ⟨returnTypes, hreturn, hset⟩ := analyseReturnTypes_root hoperations hs
  refine ⟨cases, hmap, hcases, ?_, fun c hc => hchains _ (hmem c hc), fun c hc => ?_, returnTypes,
    hreturn, ?_⟩
  · rintro rfl
    exact hne hcases.contexts.symm
  · exact buildRangeRoot_inv hholds.forest ht hi hr _ (hmem c hc)
  · rw [← hroot, hset, hp, maxOperations_root, setRanges_root]

end Solve
end Invocation
end EgLang.Compiler
