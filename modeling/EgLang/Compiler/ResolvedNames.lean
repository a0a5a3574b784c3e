import EgLang.Compiler.ContextTypes

/-!
# The names of an invocation

What the tree of names is after resolution: every way down from a context goes through one name for each
element of the type path, and from a reference dimension to what it may refer to.
-/

namespace EgLang.Compiler.NameResolution

open EgLang.Library NameTree

set_option autoImplicit false

variable {ι κ : Type}

section Follows
variable [DecidableEq ι] [DecidableEq κ]

/-- A type path is followed from a name on. References are what stands between two path elements, and, if
the final ones are expanded, after the last. -/
inductive Follows (analysis : DerivationAnalysis ι κ) (bExpandFinalReferences : Bool) {σ : Type} :
    List (List (ElementPair ι κ)) → NameTree σ ι κ → Prop
  | leaf {a : σ × Mark ι κ}
      (h : a.2.isReference = true → analysis.isEGType a.2.element.second = true) :
      Follows analysis bExpandFinalReferences [] (.node a [])
  | reference {typePath : List (List (ElementPair ι κ))} {a : σ × Mark ι κ}
      {ts : List (NameTree σ ι κ)} (hts : ts ≠ []) (hreference : a.2.isReference = true)
      (hdimension : analysis.isEGType a.2.element.second = true)
      (helements : ts.map (fun t => t.label.2.element) =
        analysis.getElementVector (analysis.getContextTypes a.2.element.second) true)
      (hpath : typePath = [] → bExpandFinalReferences = true)
      (h : ∀ t ∈ ts, Follows analysis bExpandFinalReferences typePath t) :
      Follows analysis bExpandFinalReferences typePath (.node a ts)
  | member {pathElement : List (ElementPair ι κ)} {typePath : List (List (ElementPair ι κ))}
      {a : σ × Mark ι κ} {ts : List (NameTree σ ι κ)} (hts : ts ≠ [])
      (hreference : a.2.isReference = false) (haction : analysis.isAction a.2.element.second = true)
      (helements : ∀ t ∈ ts, t.label.2.element ∈ pathElement)
      (h : ∀ t ∈ ts, Follows analysis bExpandFinalReferences typePath t) :
      Follows analysis bExpandFinalReferences (pathElement :: typePath) (.node a ts)

/-- A type path is followed from each of the contexts, which stand below the root. -/
structure FollowsFrom (analysis : DerivationAnalysis ι κ) (bExpandFinalReferences : Bool)
    (context : List (ElementPair ι κ)) (typePath : List (List (ElementPair ι κ))) {σ : Type}
    (tree : NameTree σ ι κ) : Prop where
  root : tree.label.2.element = ⟨none, none⟩
  reference : tree.label.2.isReference = true
  elements : tree.children.map (fun t => t.label.2.element) = context
  follows : ∀ t ∈ tree.children, Follows analysis bExpandFinalReferences typePath t

variable {analysis : DerivationAnalysis ι κ} {bExpandFinalReferences : Bool}

theorem follows_newLeaf (b : Bool) (e : ElementPair ι κ) :
    Follows analysis bExpandFinalReferences [] (newLeaf b e) :=
  .leaf fun h => by cases h

variable {typePath : List (List (ElementPair ι κ))} {σ : Type} {a : σ × Mark ι κ}
  {ts : List (NameTree σ ι κ)}

theorem Follows.of_leaf (h : Follows analysis bExpandFinalReferences typePath (.node a ts))
    (hts : ts = []) : typePath = [] := by
  cases h with
  | leaf => rfl
  | reference hne => exact absurd hts hne
  | member hne => exact absurd hts hne

/-- What stands below a reference. -/
theorem Follows.of_reference (h : Follows analysis bExpandFinalReferences typePath (.node a ts))
    (hts : ts ≠ []) (hreference : a.2.isReference = true) :
    analysis.isEGType a.2.element.second = true ∧
      ts.map (fun t => t.label.2.element) =
        analysis.getElementVector (analysis.getContextTypes a.2.element.second) true ∧
      (typePath = [] → bExpandFinalReferences = true) ∧
      ∀ t ∈ ts, Follows analysis bExpandFinalReferences typePath t := by
  cases h with
  | leaf => exact absurd rfl hts
  | reference _ _ hdimension helements hpath h => exact ⟨hdimension, helements, hpath, h⟩
  | member _ hr =>
    rw [hreference] at hr
    cases hr

/-- What stands below another name. -/
theorem Follows.of_member (h : Follows analysis bExpandFinalReferences typePath (.node a ts))
    (hts : ts ≠ []) (hreference : a.2.isReference = false) :
    ∃ pathElement typePath', typePath = pathElement :: typePath' ∧
      analysis.isAction a.2.element.second = true ∧
      (∀ t ∈ ts, t.label.2.element ∈ pathElement) ∧
      ∀ t ∈ ts, Follows analysis bExpandFinalReferences typePath' t := by
  cases h with
  | leaf => exact absurd rfl hts
  | reference _ hr =>
    rw [hreference] at hr
    cases hr
  | member _ _ haction helements h => exact ⟨_, _, rfl, haction, helements, h⟩

/-- What is left of the type path below a name. -/
theorem Follows.exists_below (h : Follows analysis bExpandFinalReferences typePath (.node a ts)) :
    ∃ rest, ∀ t ∈ ts, Follows analysis bExpandFinalReferences rest t := by
  cases h with
  | leaf => exact ⟨[], by simp⟩
  | reference _ _ _ _ _ h => exact ⟨_, h⟩
  | member _ _ _ _ h => exact ⟨_, h⟩

/-- No action is a reference. -/
theorem Follows.not_isReference
    (h : Follows analysis bExpandFinalReferences typePath (.node a ts)) (hts : ts ≠ [])
    (haction : analysis.isAction a.2.element.second = true) : a.2.isReference = false := by
  refine Bool.eq_false_iff.mpr fun hreference => ?_
  have hdimension := (h.of_reference hts hreference).1
  rw [analysis.isEGType_of_isAction haction] at hdimension
  cases hdimension

end Follows

/-! ## Expansion -/

theorem elements_growTree (demand : ElementPair ι κ → Option (Growth ι κ))
    (ts : List (NameTree Unit ι κ)) :
    (ts.map (growTree demand)).map (fun t => t.label.2.element) =
      ts.map fun t => t.label.2.element := by
  rw [List.map_map]
  exact List.map_congr_left fun t _ => element_growTree demand t

theorem elements_newLeaf (b : Bool) (es : List (ElementPair ι κ)) :
    (es.map (newLeaf b)).map (fun t => t.label.2.element) = es := by
  rw [List.map_map]
  exact List.map_id es

section Growth
variable [LinearOrder ι] [LinearOrder κ] {analysis : DerivationAnalysis ι κ}
  {bExpandFinalReferences : Bool} {pathElement : List (ElementPair ι κ)}
  {typePath : List (List (ElementPair ι κ))}

/-- Expansion adds what the last references may refer to. -/
theorem Follows.expand {tree : NameTree Unit ι κ} (h : Follows analysis false typePath tree) :
    Follows analysis true typePath (growTree (expansion analysis) tree) := by
  induction h with
  | @leaf a h =>
    rw [growTree_leaf]
    cases hdimension : analysis.isEGType a.2.element.second with
    | false =>
      have hnone : expansion analysis a.2.element = none := by
        rw [expansion, hdimension]
        rfl
      rw [hnone]
      exact .leaf h
    | true =>
      have hsome : expansion analysis a.2.element = some ⟨true, false,
          analysis.getElementVector (analysis.getContextTypes a.2.element.second) true⟩ := by
        rw [expansion, hdimension]
        rfl
      rw [hsome]
      dsimp only
      generalize hes : analysis.getElementVector (analysis.getContextTypes a.2.element.second) true = es
      by_cases hnil : es = []
      · rw [hnil]
        exact .leaf fun _ => hdimension
      · refine .reference (by simpa using hnil) (Bool.or_true _) hdimension ?_ (fun _ => rfl)
          fun t ht => ?_
        · rw [elements_newLeaf]
          exact hes.symm
        · obtain ⟨e, -, rfl⟩ := List.mem_map.mp ht
          exact follows_newLeaf _ _
  | @reference typePath a ts hts hreference hdimension helements hpath _ ih =>
    rw [growTree_node hts]
    refine .reference (by simpa using hts) hreference hdimension ?_ (fun _ => rfl) fun t ht => ?_
    · rw [elements_growTree, helements]
    · obtain ⟨u, hu, rfl⟩ := List.mem_map.mp ht
      exact ih u hu
  | @member pathElement typePath a ts hts hreference haction helements _ ih =>
    rw [growTree_node hts]
    refine .member (by simpa using hts) hreference haction (fun t ht => ?_) fun t ht => ?_
    · obtain ⟨u, hu, rfl⟩ := List.mem_map.mp ht
      rw [element_growTree]
      exact helements u hu
    · obtain ⟨u, hu, rfl⟩ := List.mem_map.mp ht
      exact ih u hu

/-! ## Matching -/

/-- An action demands elements of the path element. -/
theorem exists_matching {e : ElementPair ι κ} (he : analysis.isAction e.second = true)
    (hne : pathElement ≠ []) : ∃ g, matching analysis pathElement e = some g ∧
      g.isReference = false ∧ g.elements ≠ [] ∧ ∀ e' ∈ g.elements, e' ∈ pathElement := by
  rw [matching, if_pos he]
  split
  · rename_i hmembers
    exact ⟨_, rfl, rfl, hmembers, fun e' he' => (mem_members.mp he').1⟩
  · exact ⟨_, rfl, rfl, hne, fun e' he' => he'⟩

/-- Matching follows the path element from all leaves, unless one is blocked. -/
theorem Follows.matched (hne : pathElement ≠ []) {tree : NameTree Unit ι κ}
    (h : Follows analysis bExpandFinalReferences typePath tree)
    (hleaves : ∀ m ∈ leaves tree, isBlocked analysis m.element = false) :
    Follows analysis false (typePath ++ [pathElement])
      (growTree (matching analysis pathElement) tree) := by
  induction h with
  | @leaf a h =>
    rw [leaves_leaf, List.forall_mem_singleton, isBlocked, Bool.not_eq_false'] at hleaves
    obtain ⟨g, hg, hreference, hnil, hmem⟩ := exists_matching hleaves hne
    rw [growTree_leaf, hg]
    refine .member (by simpa using hnil) ?_ hleaves (fun t ht => ?_) fun t ht => ?_
    · dsimp only
      rw [hreference, Bool.or_false]
      refine Bool.eq_false_iff.mpr fun hr => ?_
      have hdimension := h hr
      rw [analysis.isEGType_of_isAction hleaves] at hdimension
      cases hdimension
    · obtain ⟨e, he, rfl⟩ := List.mem_map.mp ht
      exact hmem e he
    · obtain ⟨e, -, rfl⟩ := List.mem_map.mp ht
      exact follows_newLeaf _ _
  | @reference typePath a ts hts hreference hdimension helements hpath _ ih =>
    rw [growTree_node hts]
    refine .reference (by simpa using hts) hreference hdimension ?_ (fun h => by simp at h)
      fun t ht => ?_
    · rw [elements_growTree, helements]
    · obtain ⟨u, hu, rfl⟩ := List.mem_map.mp ht
      exact ih u hu fun m hm => hleaves m ((mem_leaves hts).mpr ⟨u, hu, hm⟩)
  | @member pathElement typePath a ts hts hreference haction helements _ ih =>
    rw [growTree_node hts, List.cons_append]
    refine .member (by simpa using hts) hreference haction (fun t ht => ?_) fun t ht => ?_
    · obtain ⟨u, hu, rfl⟩ := List.mem_map.mp ht
      rw [element_growTree]
      exact helements u hu
    · obtain ⟨u, hu, rfl⟩ := List.mem_map.mp ht
      exact ih u hu fun m hm => hleaves m ((mem_leaves hts).mpr ⟨u, hu, hm⟩)

end Growth

/-! ## Pruning -/

section Pruning
variable [DecidableEq ι] [DecidableEq κ] {analysis : DerivationAnalysis ι κ}
  {bExpandFinalReferences : Bool} {context : List (ElementPair ι κ)}
  {typePath : List (List (ElementPair ι κ))}

theorem Follows.prune {tree : NameTree Unit ι κ}
    (h : Follows analysis bExpandFinalReferences typePath tree) :
    Follows analysis bExpandFinalReferences typePath (prune tree) := by
  induction h with
  | @leaf a h =>
    rw [prune_leaf]
    exact .leaf h
  | @reference typePath a ts hts hreference hdimension helements hpath hall ih =>
    cases hm : a.2.isMember with
    | true =>
      rw [prune_flagged ts hreference hm]
      exact .reference hts hreference hdimension helements hpath hall
    | false =>
      rw [prune_reference hts hreference hm, pruneReference]
      refine .reference (by simpa using hts) hreference hdimension ?_ hpath fun t ht => ?_
      · rw [← helements, List.map_map]
        exact List.map_congr_left fun t _ => (label_prune t).2.1
      · obtain ⟨u, hu, rfl⟩ := List.mem_map.mp ht
        exact ih u hu
  | @member pathElement typePath a ts hts hreference haction helements _ ih =>
    have helement : ∀ t ∈ ts.map NameTree.prune, t.label.2.element ∈ pathElement := fun t ht => by
      obtain ⟨u, hu, rfl⟩ := List.mem_map.mp ht
      rw [(label_prune u).2.1]
      exact helements u hu
    have hbelow : ∀ t ∈ ts.map NameTree.prune,
        Follows analysis bExpandFinalReferences typePath t := fun t ht => by
      obtain ⟨u, hu, rfl⟩ := List.mem_map.mp ht
      exact ih u hu
    rw [prune_best hts hreference, pruneBest]
    split
    · rename_i hany
      refine .member (fun hnil => ?_) hreference haction
        (fun t ht => helement t (List.mem_filter.mp ht).1)
        fun t ht => hbelow t (List.mem_filter.mp ht).1
      obtain ⟨t, ht, hmember⟩ := List.any_eq_true.mp hany
      exact List.filter_eq_nil_iff.mp hnil t ht hmember
    · exact .member (by simpa using hts) hreference haction helement hbelow

end Pruning

/-! ## Resolution -/

section Resolution
variable [LinearOrder ι] [LinearOrder κ] {analysis : DerivationAnalysis ι κ} {fuel : ℕ}
  {bExpandFinalReferences : Bool} {context : List (ElementPair ι κ)}
  {typePath : List (List (ElementPair ι κ))} {operation : OperationID} {nodes : Nodes ι κ}

/-- What grows below the root grows below the contexts. -/
theorem FollowsFrom.grow (hne : context ≠ []) {demand : ElementPair ι κ → Option (Growth ι κ)}
    {bExpand : Bool} {typePath' : List (List (ElementPair ι κ))} {tree : NameTree Unit ι κ}
    (h : FollowsFrom analysis bExpandFinalReferences context typePath tree)
    (hgrow : ∀ t ∈ tree.children, Follows analysis bExpand typePath' (growTree demand t)) :
    FollowsFrom analysis bExpand context typePath' (growTree demand tree) := by
  have hheads := Heads.grow hne demand ⟨h.reference, h.elements⟩
  refine ⟨(element_growTree demand tree).trans h.root, hheads.1, hheads.2, ?_⟩
  cases tree with
  | node a ts =>
    have hts : ts ≠ [] := fun hnil => hne (by rw [← h.elements, hnil]; rfl)
    rw [growTree_node hts]
    intro t ht
    obtain ⟨u, hu, rfl⟩ := List.mem_map.mp ht
    exact hgrow u hu

theorem FollowsFrom.prune {tree : NameTree Unit ι κ}
    (h : FollowsFrom analysis bExpandFinalReferences context typePath tree) :
    FollowsFrom analysis bExpandFinalReferences context typePath (prune tree) := by
  have hheads := Heads.prune (⟨h.reference, h.elements⟩ : Heads context tree)
  refine ⟨(label_prune tree).2.1.trans h.root, hheads.1, hheads.2, ?_⟩
  cases tree with
  | node a ts =>
    have hreference : a.2.isReference = true := h.reference
    by_cases hts : ts = []
    · subst hts
      rw [prune_leaf]
      exact h.follows
    · cases hm : a.2.isMember with
      | true =>
        rw [prune_flagged ts hreference hm]
        exact h.follows
      | false =>
        rw [prune_reference hts hreference hm, pruneReference]
        intro t ht
        obtain ⟨u, hu, rfl⟩ := List.mem_map.mp ht
        exact (h.follows u hu).prune

theorem followsFrom_startTree (context : List (ElementPair ι κ)) :
    FollowsFrom analysis bExpandFinalReferences context [] (startTree context) := by
  have hheads := heads_startTree context
  refine ⟨rfl, hheads.1, hheads.2, fun t ht => ?_⟩
  obtain ⟨e, -, rfl⟩ := List.mem_map.mp ht
  exact follows_newLeaf _ _

/-- The leaves below the contexts are those of the tree. -/
theorem leaves_not_blocked {pathElement : List (ElementPair ι κ)} {nodes' : Nodes ι κ}
    {tree : NameTree Unit ι κ} (hholds : Holds nodes tree)
    (hadd : addType analysis pathElement nodes = .ok nodes') :
    ∀ m ∈ leaves tree, isBlocked analysis m.element = false := by
  rw [addType_eq] at hadd
  split at hadd
  · cases hadd
  · rename_i hnone
    intro m hm
    by_contra hblocked
    exact hnone (hholds.any_of_leaves (List.any_eq_true.mpr ⟨m, hm, Bool.eq_true_of_not_eq_false hblocked⟩))

/-- The loop over a type path follows it. -/
theorem follows_of_resolvePath (hne : context ≠ []) {before : List (List (ElementPair ι κ))}
    (hpath : ∀ pathElement ∈ typePath, pathElement ≠ []) {nodes' : Nodes ι κ}
    (h : ∃ tree, Holds nodes tree ∧ FollowsFrom analysis false context before tree)
    (hresolve : resolvePath analysis fuel typePath nodes = some (.ok nodes')) :
    ∃ tree, Holds nodes' tree ∧ FollowsFrom analysis false context (before ++ typePath) tree := by
  induction typePath generalizing nodes before with
  | nil =>
    cases hresolve
    rw [List.append_nil]
    exact h
  | cons pathElement typePath ih =>
    obtain ⟨tree, hholds, hfollows⟩ := h
    rw [List.forall_mem_cons] at hpath
    rw [resolvePath] at hresolve
    cases hexpand : expandReferences analysis fuel nodes with
    | none =>
      rw [hexpand] at hresolve
      cases hresolve
    | some expanded =>
      rw [hexpand] at hresolve
      dsimp only at hresolve
      cases hadd : addType analysis pathElement expanded with
      | error e =>
        rw [hadd] at hresolve
        cases hresolve
      | ok added =>
        rw [hadd] at hresolve
        obtain rfl := expandReferences_eq_some hexpand
        have hleaves := leaves_not_blocked (hholds.grow _) hadd
        obtain rfl := addType_eq_ok hadd
        rw [List.append_cons]
        have hexpanded := hfollows.grow hne fun t ht => (hfollows.follows t ht).expand
        refine ih hpath.2 ⟨_, ((hholds.grow _).grow _).pruneRoot, ?_⟩ hresolve
        refine (hexpanded.grow hne fun t ht => ?_).prune
        refine (hexpanded.follows t ht).matched hpath.1 fun m hm => hleaves m ?_
        generalize growTree (expansion analysis) tree = grown at ht hleaves
        cases grown with
        | node a ts => exact (mem_leaves (List.ne_nil_of_mem ht)).mpr ⟨t, ht, hm⟩

/-- **Resolution** follows the type path from each of the contexts. -/
theorem follows_of_nameResolution (hpath : ∀ pathElement ∈ typePath, pathElement ≠ [])
    (hresolve : nameResolution analysis fuel operation context typePath = some (.ok nodes)) :
    context ≠ [] ∧ ∃ tree, Holds nodes tree ∧
      FollowsFrom analysis (decide (operation = .id_Done)) context typePath tree := by
  have hcontext : context ≠ [] := by
    rintro rfl
    simp [nameResolution] at hresolve
  refine ⟨hcontext, ?_⟩
  have hop : operation ≠ .HIGHEST_OPERATION_TYPE := by
    rintro rfl
    simp [nameResolution, hcontext] at hresolve
  rw [(nameResolution_eq fuel hcontext hop typePath).1, resolveFrom] at hresolve
  cases hresolved : resolvePath analysis fuel typePath (start context) with
  | none =>
    rw [hresolved] at hresolve
    cases hresolve
  | some outcome =>
    rw [hresolved] at hresolve
    cases outcome with
    | error e => cases hresolve
    | ok resolved =>
      have hstart : ∃ tree, Holds (start context) tree ∧ FollowsFrom analysis false context [] tree :=
        ⟨_, holds_start context, followsFrom_startTree context⟩
      obtain ⟨tree, hholds, hfollows⟩ := follows_of_resolvePath hcontext hpath hstart hresolved
      rw [List.nil_append] at hfollows
      dsimp only at hresolve
      rw [resolveFinal] at hresolve
      split at hresolve
      · rename_i hdone
        cases hexpand : expandReferences analysis fuel resolved with
        | none =>
          rw [hexpand] at hresolve
          cases hresolve
        | some expanded =>
          rw [hexpand] at hresolve
          obtain rfl := expandReferences_eq_some hexpand
          obtain rfl := Except.ok.inj (Option.some.inj hresolve)
          rw [hdone]
          exact ⟨_, (hholds.grow _).pruneRoot,
            (hfollows.grow hcontext fun t ht => (hfollows.follows t ht).expand).prune⟩
      · rename_i hdone
        obtain rfl := Except.ok.inj (Option.some.inj hresolve)
        rw [Bool.eq_false_iff.mpr hdone]
        exact ⟨tree, hholds, hfollows⟩

end Resolution

/-! ## Indices -/

section Indices
variable [DecidableEq ι] [DecidableEq κ] {analysis : DerivationAnalysis ι κ}
  {bExpandFinalReferences : Bool} {context : List (ElementPair ι κ)}
  {typePath : List (List (ElementPair ι κ))}

/-- Names with indices are followed like names without. -/
theorem follows_of_forget {t : NameTree ℕ ι κ}
    (h : Follows analysis bExpandFinalReferences typePath (forget t)) :
    Follows analysis bExpandFinalReferences typePath t := by
  induction t using RoseTree.tree_induction generalizing typePath with
  | step a ts ih =>
    obtain ⟨i, m⟩ := a
    have hlabel : ∀ t : NameTree ℕ ι κ, (forget t).label.2.element = t.label.2.element := fun t => by
      rw [forget, rename, RoseTree.label_map]
    rw [forget_node] at h
    generalize hus : ts.map forget = us at h
    generalize hb : ((), m) = b at h
    cases h with
    | leaf h =>
      obtain rfl := List.map_eq_nil_iff.mp hus
      subst hb
      exact .leaf h
    | reference hts hreference hdimension helements hpath h =>
      subst hb hus
      refine .reference (by simpa using hts) hreference hdimension ?_ hpath
        fun t ht => ih t ht (h _ (List.mem_map_of_mem ht))
      rw [← helements, List.map_map]
      exact List.map_congr_left fun t _ => (hlabel t).symm
    | member hts hreference haction helements h =>
      subst hb hus
      refine .member (by simpa using hts) hreference haction (fun t ht => ?_)
        fun t ht => ih t ht (h _ (List.mem_map_of_mem ht))
      rw [← hlabel t]
      exact helements _ (List.mem_map_of_mem ht)

theorem followsFrom_of_forget {t : NameTree ℕ ι κ}
    (h : FollowsFrom analysis bExpandFinalReferences context typePath (forget t)) :
    FollowsFrom analysis bExpandFinalReferences context typePath t := by
  obtain ⟨⟨i, m⟩, ts⟩ := t
  rw [forget_node] at h
  refine ⟨h.root, h.reference, ?_, fun t ht => follows_of_forget (h.follows _ (List.mem_map_of_mem ht))⟩
  rw [← h.elements, RoseTree.children_node, RoseTree.children_node, List.map_map]
  refine List.map_congr_left fun t _ => ?_
  show t.label.2.element = (forget t).label.2.element
  rw [forget, rename, RoseTree.label_map]

end Indices
end EgLang.Compiler.NameResolution
