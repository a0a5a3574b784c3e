import EgLang.Compiler.Growth

/-!
# A path element

`addType` grows the leaves by the matches of a path element, as long as every leaf is an action.
-/

namespace EgLang.Compiler.NameResolution

set_option autoImplicit false

variable {ι κ : Type} [LinearOrder ι] [LinearOrder κ] (analysis : DerivationAnalysis ι κ)

/-- A leaf whose element has a property. -/
def leafWith {ι κ : Type} (p : ElementPair ι κ → Bool) (node : Name ι κ) : Bool :=
  node.children = [] && p node.element

/-- The elements of a path element that are members of an action. -/
def members (pathElement : List (ElementPair ι κ)) (pAction : Option κ) : List (ElementPair ι κ) :=
  ElementPair.toSet (pathElement.filter fun element => analysis.isMember pAction element.second)

/-- The children that an action demands for a path element. -/
def matching (pathElement : List (ElementPair ι κ)) (element : ElementPair ι κ) :
    Option (Growth ι κ) :=
  if analysis.isAction element.second then
    if members analysis pathElement element.second ≠ [] then
      some ⟨false, true, members analysis pathElement element.second⟩
    else some ⟨false, false, pathElement⟩
  else none

/-- What no further element can follow: it is no action. -/
def isBlocked (element : ElementPair ι κ) : Bool :=
  !analysis.isAction element.second

variable {analysis} {pathElement : List (ElementPair ι κ)}

theorem addMatches_eq (nodes : Nodes ι κ) (i : ℕ) (pAction : Option κ) :
    addMatches analysis pathElement nodes i pAction =
      if members analysis pathElement pAction ≠ [] then
        addAll nodes i (members analysis pathElement pAction) true
      else addAll nodes i pathElement false := rfl

/-- A visit to a node grows it, unless it is blocked. -/
theorem addTypeNode_eq (nodes : Nodes ι κ) (i : ℕ) :
    addTypeNode analysis pathElement nodes i =
      if nodes[i]?.any (leafWith (isBlocked analysis)) then .error .afterDimension
      else .ok (growAt (matching analysis pathElement) nodes i) := by
  unfold addTypeNode growAt
  cases hn : nodes[i]? with
  | none => rfl
  | some node =>
    rw [Option.any_some, Option.bind_some]
    dsimp only
    by_cases hc : node.children = []
    · cases ha : analysis.isAction node.element.second with
      | false => simp [leafWith, isBlocked, hc, ha]
      | true =>
        simp only [leafWith, isBlocked, demandOf, matching, hc, ha, if_true, Bool.not_true, Bool.and_false,
          Bool.false_eq_true, if_false]
        rw [addMatches_eq]
        by_cases hm : members analysis pathElement node.element.second = []
        · simp [hm]
        · simp [hm]
    · simp [leafWith, demandOf, hc]

/-- **`addType`** grows all nodes, unless one of them is blocked. -/
theorem addType_eq (nodes : Nodes ι κ) : addType analysis pathElement nodes =
    if nodes.any (leafWith (isBlocked analysis)) then .error .afterDimension
    else .ok (grow (matching analysis pathElement) nodes) := by
  suffices hn : ∀ n ≤ nodes.length,
      (List.range n).foldlM (addTypeNode analysis pathElement) nodes =
        if (nodes.take n).any (leafWith (isBlocked analysis)) then .error .afterDimension
        else .ok ((List.range n).foldl (growAt (matching analysis pathElement)) nodes) by
    rw [addType, hn _ le_rfl, List.take_length, grow]
  intro n
  induction n with
  | zero => exact fun _ => rfl
  | succ n ih =>
    intro hle
    have hn : n < nodes.length := hle
    have hwait : ((List.range n).foldl (growAt (matching analysis pathElement)) nodes)[n]? =
        nodes[n]? := (growAt_waiting _ nodes n).2 n hn le_rfl
    rw [List.range_succ, List.foldlM_append, ih (by omega), List.foldl_append, List.foldl_cons,
      List.foldl_nil, List.take_succ_eq_append_getElem hn, List.any_append]
    cases (nodes.take n).any (leafWith (isBlocked analysis)) with
    | true => rfl
    | false =>
      rw [if_neg (by decide)]
      show (addTypeNode analysis pathElement _ n >>= fun s => pure s) = _
      rw [addTypeNode_eq, hwait, List.getElem?_eq_getElem hn, Option.any_some, List.any_cons,
        List.any_nil]
      cases leafWith (isBlocked analysis) nodes[n] <;> rfl

theorem addType_eq_ok {nodes nodes' : Nodes ι κ}
    (h : addType analysis pathElement nodes = .ok nodes') :
    nodes' = grow (matching analysis pathElement) nodes := by
  rw [addType_eq] at h
  split at h
  · cases h
  · exact (Except.ok.inj h).symm

/-! ## New nodes -/

theorem mem_members {p : ElementPair ι κ} {pAction : Option κ} :
    p ∈ members analysis pathElement pAction ↔
      p ∈ pathElement ∧ analysis.isMember pAction p.second = true := by
  rw [members, ElementPair.toSet, List.mem_insertionSort, List.mem_dedup, List.mem_filter]

end EgLang.Compiler.NameResolution
