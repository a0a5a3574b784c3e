import EgLang.Compiler.Growth
import EgLang.Compiler.Instances

/-!
# Reference expansion

A pass of `expandReferences` grows the leaves that are reference dimensions. What they get are
actions, so a second pass finds nothing to do, unless a leaf got no child at all.
-/

namespace EgLang.Compiler.NameResolution

set_option autoImplicit false

variable {ι κ : Type} [LinearOrder ι] [LinearOrder κ] (analysis : DerivationAnalysis ι κ)

/-- The children that a reference dimension demands. -/
def expansion (element : ElementPair ι κ) : Option (Growth ι κ) :=
  if analysis.isEGType element.second then
    some ⟨true, false, analysis.getElementVector (analysis.getContextTypes element.second) true⟩
  else none

variable {analysis}

theorem demandOf_expansion (node : Name ι κ) : demandOf (expansion analysis) node =
    if isOpen analysis node then
      some ⟨true, false,
        analysis.getElementVector (analysis.getContextTypes node.element.second) true⟩
    else none := by
  unfold demandOf expansion isOpen
  by_cases hc : node.children = [] <;> simp [hc]

/-- A visit of the pass grows the node, and sets `bContinue` where there is something to grow. -/
theorem expandNode_eq (s : Nodes ι κ × Bool) (i : ℕ) :
    expandNode analysis s i = (growAt (expansion analysis) s.1 i,
      s.2 || s.1[i]?.any (isOpen analysis)) := by
  unfold expandNode growAt
  cases hn : s.1[i]? with
  | none => simp
  | some node =>
    rw [Option.bind_some, demandOf_expansion]
    by_cases ho : isOpen analysis node <;> simp [ho]

/-- **One pass** grows all nodes, and goes on where one of them was open. -/
theorem expandPass_eq (nodes : Nodes ι κ) : expandPass analysis nodes =
    (grow (expansion analysis) nodes, nodes.any (isOpen analysis)) := by
  suffices hn : ∀ n ≤ nodes.length, (List.range n).foldl (expandNode analysis) (nodes, false) =
      ((List.range n).foldl (growAt (expansion analysis)) nodes,
        (nodes.take n).any (isOpen analysis)) by
    rw [expandPass, hn _ le_rfl, List.take_length, grow]
  intro n
  induction n with
  | zero => exact fun _ => rfl
  | succ n ih =>
    intro hle
    have hn : n < nodes.length := hle
    have hwait : ((List.range n).foldl (growAt (expansion analysis)) nodes)[n]? = nodes[n]? :=
      (growAt_waiting _ nodes n).2 n hn le_rfl
    rw [List.range_succ, List.foldl_append, List.foldl_append, ih (by omega), List.foldl_cons,
      List.foldl_nil, List.foldl_cons, List.foldl_nil, expandNode_eq, hwait,
      List.take_succ_eq_append_getElem hn, List.any_append, List.getElem?_eq_getElem hn]
    simp

/-! ## The loop -/

/-- Every leaf that is a reference dimension has an instance of one of its context types. -/
def Supplied (analysis : DerivationAnalysis ι κ) (nodes : Nodes ι κ) : Prop :=
  ∀ node ∈ nodes, isOpen analysis node = true →
    ∃ t ∈ analysis.getContextTypes node.element.second, analysis.getInstances t true ≠ []

/-- After a pass no leaf is open, where every open one was supplied. -/
theorem grow_closed {nodes : Nodes ι κ} (h : Supplied analysis nodes) :
    (grow (expansion analysis) nodes).any (isOpen analysis) = false := by
  rw [List.any_eq_false]
  intro x hx
  obtain ⟨j, hj⟩ := List.mem_iff_getElem?.mp hx
  by_cases hold : j < nodes.length
  · -- a node that was there has the children it demanded
    have hnode : nodes[j]? = some nodes[j] := List.getElem?_eq_getElem hold
    have hg := grow_grown (expansion analysis) hnode
    rw [GrownAt, demandOf_expansion] at hg
    by_cases ho : isOpen analysis nodes[j]
    · simp only [ho, if_true] at hg
      obtain ⟨base, -, hparent, -⟩ := hg
      rw [hj, Option.some.injEq] at hparent
      have hne := analysis.getElementVector_ne_nil.mpr (h _ (List.getElem_mem hold) ho)
      subst hparent
      simp [isOpen, Growth.parent, hne]
    · simp only [ho, Bool.false_eq_true, if_false] at hg
      rw [hj, Option.some.injEq] at hg
      rw [hg]
      exact ho
  · -- a new node is an action
    obtain ⟨node, -, g, hg, e, he, rfl⟩ := grow_new (by omega) hj
    rw [demandOf_expansion] at hg
    split at hg
    · cases hg
      simp [isOpen, analysis.isEGType_of_isAction (analysis.isAction_of_reference he)]
    · cases hg

/-- **Two passes are enough.** -/
theorem expandReferences_of_supplied {nodes : Nodes ι κ} (h : Supplied analysis nodes) (fuel : ℕ) :
    expandReferences analysis (fuel + 2) nodes = some (grow (expansion analysis) nodes) := by
  have hclosed := grow_closed h
  have hsame : grow (expansion analysis) (grow (expansion analysis) nodes) =
      grow (expansion analysis) nodes := grow_of_demandOf fun node hn => by
    rw [demandOf_expansion, if_neg (List.any_eq_false.mp hclosed node hn)]
  rw [expandReferences, expandPass_eq]
  dsimp only
  split
  · rw [expandReferences, expandPass_eq, hclosed, hsame]
    rfl
  · rfl

/-- More passes change nothing. -/
theorem expandReferences_mono {fuel : ℕ} {nodes nodes' : Nodes ι κ}
    (h : expandReferences analysis fuel nodes = some nodes') (more : ℕ) :
    expandReferences analysis (fuel + more) nodes = some nodes' := by
  induction fuel generalizing nodes with
  | zero => cases h
  | succ fuel ih =>
    rw [Nat.succ_add, expandReferences]
    rw [expandReferences] at h
    dsimp only at h ⊢
    split at h
    · rename_i hb
      rw [if_pos hb]
      exact ih h
    · rename_i hb
      rw [if_neg hb]
      exact h

theorem expandReferences_eq_grow {fuel : ℕ} {nodes nodes' : Nodes ι κ}
    (hs : Supplied analysis nodes) (h : expandReferences analysis fuel nodes = some nodes') :
    nodes' = grow (expansion analysis) nodes := by
  have hmore := expandReferences_mono h 2
  rw [expandReferences_of_supplied hs fuel] at hmore
  exact (Option.some.inj hmore).symm

/-- **The loop never ends** where an open leaf has no instance. -/
theorem expandReferences_of_not_supplied {nodes : Nodes ι κ} (h : ¬ Supplied analysis nodes)
    (fuel : ℕ) : expandReferences analysis fuel nodes = none := by
  unfold Supplied at h
  push Not at h
  obtain ⟨node, hmem, ho, hnone⟩ := h
  have helements : analysis.getElementVector (analysis.getContextTypes node.element.second) true = [] :=
    not_not.mp (mt analysis.getElementVector_ne_nil.mp (by push Not; exact hnone))
  obtain ⟨i, hi⟩ := List.mem_iff_getElem?.mp hmem
  clear hnone hmem
  induction fuel generalizing nodes node with
  | zero => rfl
  | succ fuel ih =>
    have hany : nodes.any (isOpen analysis) = true :=
      List.any_eq_true.mpr ⟨node, List.mem_of_getElem? hi, ho⟩
    have hg := grow_grown (expansion analysis) hi
    rw [GrownAt, demandOf_expansion, if_pos ho] at hg
    obtain ⟨base, -, hparent, -⟩ := hg
    rw [expandReferences, expandPass_eq, hany]
    refine ih ((⟨true, false, _⟩ : Growth ι κ).parent node base) ?_ helements hparent
    have hEG : analysis.isEGType node.element.second = true := by
      simp only [isOpen, Bool.and_eq_true] at ho
      exact ho.2
    simp [isOpen, Growth.parent, helements, hEG]

/-- What expansion comes to, wherever it ends. -/
theorem expandReferences_eq_some {fuel : ℕ} {nodes nodes' : Nodes ι κ}
    (h : expandReferences analysis fuel nodes = some nodes') :
    nodes' = grow (expansion analysis) nodes := by
  by_cases hs : Supplied analysis nodes
  · exact expandReferences_eq_grow hs h
  · rw [expandReferences_of_not_supplied hs] at h
    cases h

/-- The concrete element of a node. -/
def concreteAt (nodes : Nodes ι κ) (i : ℕ) : Option κ :=
  nodes[i]?.bind fun node => node.element.second

/-- Every leaf that was open has as children exactly the instances of its context types, each
once. -/
def Expanded (analysis : DerivationAnalysis ι κ) (nodes nodes' : Nodes ι κ) : Prop :=
  ∀ (i : ℕ) (node : Name ι κ), nodes[i]? = some node → isOpen analysis node = true →
    ∃ (node' : Name ι κ) (instances : List κ), nodes'[i]? = some node' ∧
      node'.children.map (concreteAt nodes') = instances.map some ∧ instances.Nodup ∧
        ∀ k, k ∈ instances ↔ ∃ t ∈ analysis.getContextTypes node.element.second,
          k ∈ analysis.getInstances t true

theorem expanded_grow (nodes : Nodes ι κ) :
    Expanded analysis nodes (grow (expansion analysis) nodes) := by
  intro i node hi ho
  have hg := grow_grown (expansion analysis) hi
  rw [GrownAt, demandOf_expansion, if_pos ho] at hg
  obtain ⟨base, -, hparent, hnew⟩ := hg
  obtain ⟨instances, heq, hnd, hmem⟩ :=
    analysis.exists_instances (analysis.getContextTypes node.element.second) true
  refine ⟨_, instances, hparent, ?_, hnd, hmem⟩
  rw [← heq]
  refine List.ext_getElem (by simp [Growth.parent]) fun k hk hk' => ?_
  have hlt : k < (analysis.getElementVector (analysis.getContextTypes node.element.second) true).length :=
    by simpa using hk'
  simp [Growth.parent, concreteAt, hnew k hlt]

/-- **Main result.** The loop ends, and gives every reference dimension its instances, exactly if
every leaf that is a reference dimension has an instance. -/
theorem expandReferences_ends_iff (analysis : DerivationAnalysis ι κ) (nodes : Nodes ι κ) :
    ((∃ fuel nodes', expandReferences analysis fuel nodes = some nodes') ∧
      ∀ fuel nodes', expandReferences analysis fuel nodes = some nodes' →
        Expanded analysis nodes nodes') ↔ Supplied analysis nodes := by
  constructor
  · rintro ⟨⟨fuel, nodes', h⟩, -⟩
    by_contra hno
    rw [expandReferences_of_not_supplied hno] at h
    cases h
  · intro hs
    refine ⟨⟨2, _, expandReferences_of_supplied hs 0⟩, fun fuel nodes' h => ?_⟩
    obtain rfl := expandReferences_eq_grow hs h
    exact expanded_grow nodes

/-! ## A type that is never instantiated -/

theorem no_baseContexts {_c b : ℕ} (h : b ∈ ([] : List ℕ)) : 0 < 0 := absurd h List.not_mem_nil

/-- Context `1` has one concrete action `0` with the dimension `1`, a reference to context `0`, which
no concrete action inherits. -/
def lonely : DerivationAnalysis ℕ ℕ where
  kind e := if e = 0 then .action 1 else .userDimension [0]
  children e := if e = 0 then [1] else []
  isContext e := e ≤ 1
  baseContexts _ := []
  rank _ := 0
  rank_base := @no_baseContexts
  instanceMap := [(1, 0), (2, 1)]
  inheritanceMap := [(1, 0)]
  inheritance_isAction h := by
    obtain rfl := List.mem_singleton.mp h
    rfl
  contextTypes_isContext h t ht := by
    split at h
    · cases h
    · cases h
      obtain rfl := List.mem_singleton.mp ht
      rfl

/-- The path `dimension.anything` from the action: the loop that expands the dimension never
ends. -/
theorem lonely_never_ends : ∃ nodes : Nodes ℕ ℕ,
    addType lonely [⟨some 2, some 1⟩] (start [⟨some 1, some 0⟩]) = .ok nodes ∧
      (∀ fuel, expandReferences lonely fuel (pruneRoot nodes) = none) ∧
        ¬ ((∃ fuel nodes', expandReferences lonely fuel (pruneRoot nodes) = some nodes') ∧
          ∀ fuel nodes', expandReferences lonely fuel (pruneRoot nodes) = some nodes' →
            Expanded lonely (pruneRoot nodes) nodes') := by
  have hno : ∃ nodes : Nodes ℕ ℕ,
      addType lonely [⟨some 2, some 1⟩] (start [⟨some 1, some 0⟩]) = .ok nodes ∧
        ¬ Supplied lonely (pruneRoot nodes) := by
    refine ⟨[⟨⟨none, none⟩, false, true, [1]⟩, ⟨⟨some 1, some 0⟩, false, false, [2]⟩,
      ⟨⟨some 2, some 1⟩, true, false, []⟩], by decide +kernel, fun hs => ?_⟩
    obtain ⟨t, ht, hinst⟩ := hs ⟨⟨some 2, some 1⟩, true, false, []⟩ (by decide +kernel)
      (by decide +kernel)
    have ht' : t = 0 := List.mem_singleton.mp ht
    subst ht'
    exact hinst (by decide +kernel)
  obtain ⟨nodes, hadd, hno⟩ := hno
  have hnever := expandReferences_of_not_supplied hno
  refine ⟨nodes, hadd, hnever, ?_⟩
  rintro ⟨⟨fuel, nodes', h⟩, -⟩
  rw [hnever fuel] at h
  cases h

end EgLang.Compiler.NameResolution
