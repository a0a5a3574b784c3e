import EgLang.Compiler.Reachability
import EgLang.Compiler.StaleFlags

/-!
# Pruning at every step

What pruning does after a path element has been added, in any run of name resolution: it decides
between the matches of the element, whatever was matched before, exactly as long as the membership
flags of earlier elements do no harm.
-/

namespace EgLang.Compiler.NameResolution

open EgLang.Library NameTree

set_option autoImplicit false

variable {ι κ : Type} {nodes : Nodes ι κ} {size : ℕ}

/-! ## Matches -/

/-- The path element whose nodes stand from `size` on was matched below a node. -/
def MatchedBelow (size : ℕ) (nodes : Nodes ι κ) (c : ℕ) : Prop :=
  ∃ j, ReachableFrom nodes c j ∧ size ≤ j

/-- The path element was matched below a node as a member of its parent. -/
def MatchedAsMemberBelow (size : ℕ) (nodes : Nodes ι κ) (c : ℕ) : Prop :=
  ∃ j node, ReachableFrom nodes c j ∧ size ≤ j ∧ nodes[j]? = some node ∧ node.isMember = true

/-- No node that can be reached and is no reference has a child below which the path element was
matched as a member, and a child below which it was matched only as a non-member. -/
def BestKept (size : ℕ) (nodes : Nodes ι κ) : Prop :=
  ∀ i node, Reachable nodes i → nodes[i]? = some node → node.isReference = false →
    ∀ c ∈ node.children, ∀ d ∈ node.children, MatchedAsMemberBelow size nodes c →
      MatchedBelow size nodes d → MatchedAsMemberBelow size nodes d

/-- The membership flags of earlier elements are cleared. -/
def clearMembers (size : ℕ) (nodes : Nodes ι κ) : Nodes ι κ :=
  nodes.mapIdx fun i node => { node with isMember := decide (size ≤ i) && node.isMember }

/-- Pruning keeps what it keeps where the membership flags of earlier elements have been cleared. -/
def FlagsForgotten (size : ℕ) (nodes : Nodes ι κ) : Prop :=
  ∀ i, Reachable (pruneRoot nodes) i ↔ Reachable (pruneRoot (clearMembers size nodes)) i

/-- The flags of earlier elements do no harm in the tree at node 0. -/
def HarmlessAt (size : ℕ) (nodes : Nodes ι κ) : Prop :=
  ∃ t, StandsIn nodes t ∧ t.index = 0 ∧ Harmless size t

/-- A set of nodes that is closed under children holds what its nodes reach. -/
theorem ReachableFrom.mem_of_closed {S : List ℕ} {r j : ℕ} (h : ReachableFrom nodes r j) (hr : r ∈ S)
    (hclosed : ∀ i ∈ S, ∀ node ∈ nodes[i]?, ∀ c ∈ node.children, c ∈ S) : j ∈ S := by
  induction h with
  | root => exact hr
  | child _ hget hc ih => exact hclosed _ ih _ hget _ hc

/-! ## From the vector to the tree -/

theorem matchedBelow_iff {t : NameTree ℕ ι κ} (h : StandsIn nodes t) :
    MatchedBelow size nodes t.index ↔ isMatched size t = true := by
  unfold MatchedBelow isMatched
  rw [List.any_eq_true]
  constructor
  · rintro ⟨j, hj, hsize⟩
    obtain ⟨a, ha, rfl⟩ := List.mem_map.mp ((mem_indices_iff_reachable h).mpr hj)
    exact ⟨a, ha, decide_eq_true hsize⟩
  · rintro ⟨a, ha, hsize⟩
    exact ⟨a.1, (mem_indices_iff_reachable h).mp (List.mem_map_of_mem ha), of_decide_eq_true hsize⟩

theorem matchedAsMemberBelow_iff {t : NameTree ℕ ι κ} (h : StandsIn nodes t) :
    MatchedAsMemberBelow size nodes t.index ↔ isMatchedAsMember size t = true := by
  unfold MatchedAsMemberBelow isMatchedAsMember
  rw [List.any_eq_true]
  constructor
  · rintro ⟨j, node, hj, hsize, hget, hm⟩
    refine ⟨(j, node.mark), h.mem_labels.mpr ⟨(mem_indices_iff_reachable h).mpr hj, node, hget, rfl⟩, ?_⟩
    rw [Bool.and_eq_true]
    exact ⟨decide_eq_true hsize, hm⟩
  · rintro ⟨⟨j, m⟩, ha, hm⟩
    rw [Bool.and_eq_true] at hm
    obtain ⟨hj, node, hget, rfl⟩ := h.mem_labels.mp ha
    exact ⟨j, node, (mem_indices_iff_reachable h).mp hj, of_decide_eq_true hm.1, hget, hm.2⟩

/-- A decided tree keeps the best everywhere. -/
theorem bestKept_of_decided {t : NameTree ℕ ι κ} (h : StandsIn nodes t) (hi : t.index = 0)
    (hd : Decided size t) : BestKept size nodes := by
  have hat : ∀ {s : NameTree ℕ ι κ}, StandsIn nodes s → Decided size s → ∀ j ∈ s.indices,
      ∃ u, StandsIn nodes u ∧ Decided size u ∧ u.index = j := fun {s} hs => by
    induction hs with
    | @node k a ts hget hchildren hstands ih =>
      intro hd j hj
      rcases RoseTree.mem_indices_node.mp hj with rfl | ⟨u, hu, hj⟩
      · exact ⟨_, .node hget hchildren hstands, hd, rfl⟩
      · cases hd with
        | node _ hts => exact ih u hu (hts u hu) j hj
  intro i node hreach hget hr c hc d hd' hmc hmd
  rw [Reachable, ← hi, ← mem_indices_iff_reachable h] at hreach
  obtain ⟨u, hu, hdu, rfl⟩ := hat h hd i hreach
  cases hu with
  | @node k a ts hget' hchildren hstands =>
    rw [RoseTree.index_node, hget', Option.some.injEq] at hget
    subst hget
    rw [hchildren] at hc hd'
    obtain ⟨s, hs, rfl⟩ := List.mem_map.mp hc
    obtain ⟨s', hs', rfl⟩ := List.mem_map.mp hd'
    cases hdu with
    | node hmatch _ =>
      have hone := hmatch hr s hs s' hs' ((matchedAsMemberBelow_iff (hstands s hs)).mp hmc)
        ((matchedBelow_iff (hstands s' hs')).mp hmd)
      exact (matchedAsMemberBelow_iff (hstands s' hs')).mpr hone

theorem stands_clearMembers {t : NameTree ℕ ι κ} (h : StandsIn nodes t) (size : ℕ) :
    StandsIn (clearMembers size nodes) (clearFlags size t) := by
  induction h with
  | @node i a ts hget hchildren hstands ih =>
    have hget' : (clearMembers size nodes)[i]? =
        some { a with isMember := decide (size ≤ i) && a.isMember } := by
      rw [clearMembers, List.getElem?_mapIdx, hget]
      rfl
    rw [clearFlags_node]
    refine .node hget' ?_ (List.forall_mem_map.mpr ih)
    rw [List.map_map]
    refine hchildren.trans (List.map_congr_left fun t _ => ?_)
    rw [Function.comp_apply, clearFlags, RoseTree.label_map]

theorem forest_clearMembers (h : IsForest nodes) (size : ℕ) : IsForest (clearMembers size nodes) := by
  refine Shrunk.forest ⟨List.length_mapIdx, fun {i node'} hget => ?_⟩ h
  rw [clearMembers, List.getElem?_mapIdx] at hget
  cases hi : nodes[i]? with
  | none => rw [hi] at hget; cases hget
  | some node =>
    rw [hi] at hget
    obtain rfl := Option.some.inj hget
    exact ⟨node, rfl, .refl _, rfl, id⟩

theorem newLeaves_of_stands {t : NameTree ℕ ι κ} (h : StandsIn nodes t)
    (hnew : ∀ j node, nodes[j]? = some node → size ≤ j → node.children = []) : NewLeaves size t := by
  induction h with
  | @node i a ts hget hchildren hstands ih =>
    refine .node (fun hts => ?_) ih
    by_contra hsize
    rw [hnew i a hget (by simpa using hsize)] at hchildren
    exact hts (List.map_eq_nil_iff.mp hchildren.symm)

/-- What pruning keeps, told from the tree. -/
theorem reachable_pruneRoot (h : IsForest nodes) {t : NameTree ℕ ι κ} (ht : StandsIn nodes t)
    (hi : t.index = 0) {i : ℕ} : Reachable (pruneRoot nodes) i ↔ i ∈ (prune t).indices := by
  rw [mem_indices_iff_reachable (pruneRoot_prunes h ht hi).stands, index_prune, hi]

/-- **One step**, for any forest whose nodes from `size` on are leaves. -/
theorem bestKept_and_flagsForgotten_iff (h : IsForest nodes) {t : NameTree ℕ ι κ}
    (ht : StandsIn nodes t) (hi : t.index = 0)
    (hnew : ∀ j node, nodes[j]? = some node → size ≤ j → node.children = []) :
    BestKept size (pruneRoot nodes) ∧ FlagsForgotten size nodes ↔ HarmlessAt size nodes := by
  have hleaves := newLeaves_of_stands ht hnew
  have hforgotten : FlagsForgotten size nodes ↔ Harmless size t := by
    have hclear := stands_clearMembers ht size
    have hci : (clearFlags size t).index = 0 := by
      rw [RoseTree.index, clearFlags, RoseTree.label_map]
      exact hi
    rw [← harmless_iff hleaves (ht.indices_nodup h)]
    unfold FlagsForgotten
    simp only [reachable_pruneRoot h ht hi,
      reachable_pruneRoot (forest_clearMembers h size) hclear hci]
  constructor
  · rintro ⟨-, hf⟩
    exact ⟨t, ht, hi, hforgotten.mp hf⟩
  · rintro ⟨t', ht', hi', hharmless⟩
    obtain rfl := ht'.unique ht (hi'.trans hi.symm)
    have hp := pruneRoot_prunes h ht hi
    exact ⟨bestKept_of_decided hp.stands ((index_prune t').trans hi) (hharmless.decided hleaves),
      hforgotten.mpr hharmless⟩

/-! ## Runs -/

section Resolve
variable [LinearOrder ι] [LinearOrder κ] {analysis : DerivationAnalysis ι κ} {fuel : ℕ}

/-- Every state of the loop over a type path is a forest with a tree at node 0. -/
theorem holds_of_resolvePath {typePath : List (List (ElementPair ι κ))} {nodes' : Nodes ι κ}
    (h : ∃ tree, Holds nodes tree)
    (hpath : resolvePath analysis fuel typePath nodes = some (.ok nodes')) :
    ∃ tree, Holds nodes' tree := by
  induction typePath generalizing nodes with
  | nil =>
    cases hpath
    exact h
  | cons pathElement typePath ih =>
    obtain ⟨tree, h⟩ := h
    rw [resolvePath] at hpath
    cases hexpand : expandReferences analysis fuel nodes with
    | none => rw [hexpand] at hpath; cases hpath
    | some expanded =>
      rw [hexpand] at hpath
      dsimp only at hpath
      cases hadd : addType analysis pathElement expanded with
      | error e => rw [hadd] at hpath; cases hpath
      | ok added =>
        rw [hadd] at hpath
        obtain rfl := expandReferences_eq_some hexpand
        obtain rfl := addType_eq_ok hadd
        exact ih ⟨_, ((h.grow _).grow _).pruneRoot⟩ hpath

variable {context : List (ElementPair ι κ)} {typePath : List (List (ElementPair ι κ))}
  {pathElement : List (ElementPair ι κ)} {expanded added : Nodes ι κ}

/-- **Main result.** After any beginning of a type path, pruning for the next path element keeps the
best matches at every node, and forgets the flags of earlier elements, exactly if these do no harm in
the tree at node 0. -/
theorem pruneRoot_decides_iff
    (hpath : resolvePath analysis fuel typePath (start context) = some (.ok nodes))
    (hexpand : expandReferences analysis fuel nodes = some expanded)
    (hadd : addType analysis pathElement expanded = .ok added) :
    BestKept expanded.length (pruneRoot added) ∧ FlagsForgotten expanded.length added ↔
      HarmlessAt expanded.length added := by
  obtain ⟨tree, h⟩ := holds_of_resolvePath ⟨_, holds_start context⟩ hpath
  obtain rfl := expandReferences_eq_some hexpand
  obtain rfl := addType_eq_ok hadd
  have hadded := (h.grow (expansion analysis)).grow (matching analysis pathElement)
  obtain ⟨t, ht, hi, -⟩ := hadded.stands
  exact bestKept_and_flagsForgotten_iff hadded.forest ht hi fun j node hj hsize =>
    grow_new_leaf hsize hj

end Resolve

/-! ## A member that was matched before -/

/-- Actions `1` and `2` are members of action `0`, action `3` is a member of action `1`. -/
def siblings : DerivationAnalysis ℕ ℕ where
  kind e := .action e
  children e := if e = 0 then [1, 2] else if e = 1 then [3] else []
  isContext _ := true
  baseContexts _ := []
  rank _ := 0
  rank_base := @no_baseContexts
  instanceMap := [(0, 0), (1, 1), (2, 2), (3, 3)]
  inheritanceMap := []
  inheritance_isAction h := by cases h
  contextTypes_isContext h := by cases h

/-- The nodes of the path `(1 | 2)` from action `0`, before pruning (`false`) and after it; the flags of the
last two are those of the element itself. -/
def siblingNodes (isMember : Bool) : Nodes ℕ ℕ :=
  [⟨⟨none, none⟩, isMember, true, [1]⟩, ⟨⟨some 0, some 0⟩, isMember, false, [2, 3]⟩,
    ⟨⟨some 1, some 1⟩, true, false, []⟩, ⟨⟨some 2, some 2⟩, true, false, []⟩]

/-- Action `4` is a member of action `2` in the same way. -/
def cousins : DerivationAnalysis ℕ ℕ where
  kind e := .action e
  children e := if e = 0 then [1, 2] else if e = 1 then [3] else if e = 2 then [4] else []
  isContext _ := true
  baseContexts _ := []
  rank _ := 0
  rank_base := @no_baseContexts
  instanceMap := [(0, 0), (1, 1), (2, 2), (3, 3), (4, 4)]
  inheritanceMap := []
  inheritance_isAction h := by cases h
  contextTypes_isContext h := by cases h

/-- The nodes of the path `(1 | 2).(3 | 4)`, before pruning. -/
def cousinNodes : Nodes ℕ ℕ :=
  [⟨⟨none, none⟩, true, true, [1]⟩, ⟨⟨some 0, some 0⟩, true, false, [2, 3]⟩,
    ⟨⟨some 1, some 1⟩, true, false, [4]⟩, ⟨⟨some 2, some 2⟩, true, false, [5]⟩,
    ⟨⟨some 3, some 3⟩, true, false, []⟩, ⟨⟨some 4, some 4⟩, true, false, []⟩]

/-- The subtree of action `1` or `2`, with the match of the second element. -/
def cousinTree (i e j f : ℕ) : NameTree ℕ ℕ ℕ :=
  .node (i, ⟨⟨some e, some e⟩, true, false⟩) [.node (j, ⟨⟨some f, some f⟩, true, false⟩) []]

theorem cousinTree_stands {i e j f : ℕ} (hi : cousinNodes[i]? = some ⟨⟨some e, some e⟩, true, false, [j]⟩)
    (hj : cousinNodes[j]? = some ⟨⟨some f, some f⟩, true, false, []⟩) :
    StandsIn cousinNodes (cousinTree i e j f) :=
  .node hi rfl (List.forall_mem_singleton.mpr (.node hj rfl (List.forall_mem_nil _)))

theorem cousinTree_settled {i e j f : ℕ} (hj : 4 ≤ j) : Settled 4 (cousinTree i e j f) := by
  have hleaf : Settled 4 (.node (j, (⟨⟨some f, some f⟩, true, false⟩ : Mark ℕ ℕ)) []) :=
    .node (fun _ => List.forall_mem_nil _) (List.forall_mem_nil _)
  refine .node (fun _ => List.forall_mem_singleton.mpr (.inl ?_)) (List.forall_mem_singleton.mpr hleaf)
  simp [isMatchedAsMember, RoseTree.labels_node, hj]

/-- Both actions keep their match as a member, so that the flags of the first element do no harm. -/
theorem cousins_harmless : HarmlessAt (siblingNodes true).length cousinNodes := by
  have hmatched : ∀ {i e j f : ℕ}, 4 ≤ j → isMatchedAsMember 4 (cousinTree i e j f) = true := by
    intro i e j f hj
    simp [isMatchedAsMember, cousinTree, RoseTree.labels_node, hj]
  refine ⟨.node (0, ⟨⟨none, none⟩, true, true⟩) [.node (1, ⟨⟨some 0, some 0⟩, true, false⟩)
    [cousinTree 2 1 4 3, cousinTree 3 2 5 4]], ?_, rfl, .flagged rfl rfl ?_⟩
  · have hroot : cousinNodes[0]? = some ⟨⟨none, none⟩, true, true, [1]⟩ := rfl
    have hfirst : cousinNodes[1]? = some ⟨⟨some 0, some 0⟩, true, false, [2, 3]⟩ := rfl
    have hchildren : ∀ t ∈ [cousinTree 2 1 4 3, cousinTree 3 2 5 4], StandsIn cousinNodes t := by
      rw [List.forall_mem_cons, List.forall_mem_singleton]
      exact ⟨cousinTree_stands rfl rfl, cousinTree_stands rfl rfl⟩
    have haction : StandsIn cousinNodes (.node (1, ⟨⟨some 0, some 0⟩, true, false⟩)
        [cousinTree 2 1 4 3, cousinTree 3 2 5 4]) :=
      .node hfirst rfl hchildren
    exact .node hroot rfl (List.forall_mem_singleton.mpr haction)
  · refine List.forall_mem_singleton.mpr (.node (fun _ => ?_) ?_)
    · have hkept : ∀ c ∈ [cousinTree 2 1 4 3, cousinTree 3 2 5 4],
          Kept (isMatchedAsMember 4) [cousinTree 2 1 4 3, cousinTree 3 2 5 4] c := by
        rw [List.forall_mem_cons, List.forall_mem_singleton]
        exact ⟨.inl (hmatched le_rfl), .inl (hmatched (Nat.le_succ 4))⟩
      exact hkept
    · rw [List.forall_mem_cons, List.forall_mem_singleton]
      exact ⟨cousinTree_settled le_rfl, cousinTree_settled (Nat.le_succ 4)⟩

/-- The main result for the second element of the path `(1 | 2).(3 | 4)`. -/
theorem pruneRoot_decides_cousins :
    pruneRoot (siblingNodes false) = siblingNodes true ∧
      resolvePath cousins 2 [[⟨some 1, some 1⟩, ⟨some 2, some 2⟩]] (start [⟨some 0, some 0⟩]) =
        some (.ok (siblingNodes true)) ∧
      addType cousins [⟨some 3, some 3⟩, ⟨some 4, some 4⟩] (siblingNodes true) = .ok cousinNodes ∧
      BestKept (siblingNodes true).length (pruneRoot cousinNodes) ∧
        FlagsForgotten (siblingNodes true).length cousinNodes := by
  have hpath : resolvePath cousins 2 [[⟨some 1, some 1⟩, ⟨some 2, some 2⟩]] (start [⟨some 0, some 0⟩]) =
      some (.ok (siblingNodes true)) := by decide +kernel
  have hexpand : expandReferences cousins 2 (siblingNodes true) = some (siblingNodes true) := by
    decide +kernel
  have hadd : addType cousins [⟨some 3, some 3⟩, ⟨some 4, some 4⟩] (siblingNodes true) =
      .ok cousinNodes := by decide +kernel
  refine ⟨by decide +kernel, hpath, hadd, ?_⟩
  exact (pruneRoot_decides_iff hpath hexpand hadd).mpr cousins_harmless

/-- The nodes of the path `(1 | 2).3`, before and after pruning. -/
def nephewNodes : Nodes ℕ ℕ :=
  [⟨⟨none, none⟩, true, true, [1]⟩, ⟨⟨some 0, some 0⟩, true, false, [2, 3]⟩,
    ⟨⟨some 1, some 1⟩, true, false, [4]⟩, ⟨⟨some 2, some 2⟩, true, false, [5]⟩,
    ⟨⟨some 3, some 3⟩, true, false, []⟩, ⟨⟨some 3, some 3⟩, false, false, []⟩]

/-- The path `(1 | 2).3` from action `0`: the flag of the first element at node 0 keeps the second
from being pruned, so that action `0` keeps action `2`, under which action `3` is no member; without
that flag node 3 would be removed. -/
theorem second_element_not_pruned :
    resolvePath siblings 2 [[⟨some 1, some 1⟩, ⟨some 2, some 2⟩]] (start [⟨some 0, some 0⟩]) =
        some (.ok (siblingNodes true)) ∧
      expandReferences siblings 2 (siblingNodes true) = some (siblingNodes true) ∧
      addType siblings [⟨some 3, some 3⟩] (siblingNodes true) = .ok nephewNodes ∧
      ¬ BestKept (siblingNodes true).length (pruneRoot nephewNodes) ∧
      ¬ FlagsForgotten (siblingNodes true).length nephewNodes := by
  have hprune : pruneRoot nephewNodes = nephewNodes := by decide +kernel
  refine ⟨by decide +kernel, by decide +kernel, by decide +kernel, fun h => ?_, fun h => ?_⟩
  · rw [hprune] at h
    have hroot : Reachable nephewNodes 1 := .child .root rfl List.mem_cons_self
    have hmember : MatchedAsMemberBelow 4 nephewNodes 2 :=
      ⟨4, _, .child .root rfl List.mem_cons_self, le_rfl, rfl, rfl⟩
    have hmatched : MatchedBelow 4 nephewNodes 3 :=
      ⟨5, .child .root rfl List.mem_cons_self, by omega⟩
    obtain ⟨j, node, hj, hsize, hget, hm⟩ :=
      h 1 _ hroot rfl rfl 2 List.mem_cons_self 3 (by decide) hmember hmatched
    have hmem : j ∈ [3, 5] := hj.mem_of_closed (by decide) (by decide +kernel)
    have hsize : 4 ≤ j := hsize
    have hj5 : j = 5 := by
      simp only [List.mem_cons, List.not_mem_nil, or_false] at hmem
      omega
    subst hj5
    obtain rfl := Option.some.inj hget
    cases hm
  · have hkept : Reachable (pruneRoot nephewNodes) 3 := by
      rw [hprune]
      have hroot : Reachable nephewNodes 1 := .child .root rfl List.mem_cons_self
      exact hroot.child rfl (by decide)
    have hmem : 3 ∈ [0, 1, 2, 4] :=
      ((h 3).mp hkept).mem_of_closed (by decide) (by decide +kernel)
    revert hmem
    decide

end EgLang.Compiler.NameResolution
