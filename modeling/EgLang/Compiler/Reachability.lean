import EgLang.Compiler.TreeResolution

/-!
# What node 0 reaches

The passes of name resolution go over the whole vector, nodes that pruning has cut off included. They
come to what the tree at node 0 comes to exactly as long as no leaf that has been cut off starves a
reference expansion or blocks a path element on its own.
-/

namespace EgLang.Compiler.NameResolution

open EgLang.Library NameTree

set_option autoImplicit false

variable {ι κ : Type}

/-- The nodes that a node reaches. -/
inductive ReachableFrom (nodes : Nodes ι κ) (r : ℕ) : ℕ → Prop
  | root : ReachableFrom nodes r r
  | child {i : ℕ} {node : Name ι κ} {c : ℕ} (h : ReachableFrom nodes r i)
      (hget : nodes[i]? = some node) (hc : c ∈ node.children) : ReachableFrom nodes r c

/-- The nodes that node 0 reaches. -/
abbrev Reachable (nodes : Nodes ι κ) : ℕ → Prop := ReachableFrom nodes 0

/-- Where some leaf has a property, a leaf that node 0 reaches has it. -/
def FairTo (p : ElementPair ι κ → Bool) (nodes : Nodes ι κ) : Prop :=
  ∀ node ∈ nodes, leafWith p node = true →
    ∃ (i : ℕ) (x : Name ι κ), Reachable nodes i ∧ nodes[i]? = some x ∧ leafWith p x = true

/-- A forest, and the tree at its node 0. -/
structure Holds (nodes : Nodes ι κ) (tree : NameTree Unit ι κ) : Prop where
  forest : IsForest nodes
  stands : ∃ t, StandsIn nodes t ∧ t.index = 0 ∧ forget t = tree

/-! ## The tree at node 0 -/

variable {nodes : Nodes ι κ} {tree : NameTree Unit ι κ}

/-- The indices of a tree are what its root reaches. -/
theorem mem_indices_iff_reachable {t : NameTree ℕ ι κ} (h : StandsIn nodes t) {i : ℕ} :
    i ∈ t.indices ↔ ReachableFrom nodes t.index i := by
  constructor
  · intro hmem
    have hall : ∀ {s : NameTree ℕ ι κ}, StandsIn nodes s → ReachableFrom nodes t.index s.index →
        ∀ j ∈ s.indices, ReachableFrom nodes t.index j := fun {s} hs => by
      induction hs with
      | @node k a ts hget hchildren hstands ih =>
        intro hk j hj
        rcases RoseTree.mem_indices_node.mp hj with rfl | ⟨u, hu, hj⟩
        · exact hk
        · exact ih u hu (hk.child hget (hchildren ▸ List.mem_map_of_mem hu)) j hj
    exact hall h .root i hmem
  · intro hreach
    have hclosed : ∀ {s : NameTree ℕ ι κ}, StandsIn nodes s → ∀ {j : ℕ} {a : Name ι κ} {c : ℕ},
        j ∈ s.indices → nodes[j]? = some a → c ∈ a.children → c ∈ s.indices := fun {s} hs => by
      induction hs with
      | @node k b ts hget hchildren hstands ih =>
        intro j a c hj ha hc
        rcases RoseTree.mem_indices_node.mp hj with rfl | ⟨u, hu, hj⟩
        · rw [hget, Option.some.injEq] at ha
          subst ha
          rw [hchildren] at hc
          obtain ⟨u, hu, rfl⟩ := List.mem_map.mp hc
          exact RoseTree.mem_indices_node.mpr (.inr ⟨u, hu, u.index_mem_indices⟩)
        · exact RoseTree.mem_indices_node.mpr (.inr ⟨u, hu, ih u hu hj ha hc⟩)
    induction hreach with
    | root => exact t.index_mem_indices
    | child _ hget hc ih => exact hclosed h ih hget hc

/-- The leaves of the tree are the leaves that node 0 reaches. -/
theorem Holds.any_leaves (h : Holds nodes tree) (p : ElementPair ι κ → Bool) :
    ((leaves tree).any fun m => p m.element) = true ↔
      ∃ (i : ℕ) (x : Name ι κ), Reachable nodes i ∧ nodes[i]? = some x ∧ leafWith p x = true := by
  obtain ⟨t, ht, hi, rfl⟩ := h.stands
  rw [List.any_eq_true, Reachable, ← hi]
  constructor
  · rintro ⟨m, hm, hp⟩
    obtain ⟨i, hmem, x, hget, hnil, rfl⟩ := (mem_leaves_iff ht).mp hm
    refine ⟨i, x, (mem_indices_iff_reachable ht).mp hmem, hget, ?_⟩
    rw [leafWith, Bool.and_eq_true]
    exact ⟨decide_eq_true hnil, hp⟩
  · rintro ⟨i, x, hreach, hget, hp⟩
    rw [leafWith, Bool.and_eq_true, decide_eq_true_eq] at hp
    exact ⟨x.mark, (mem_leaves_iff ht).mpr
      ⟨i, (mem_indices_iff_reachable ht).mpr hreach, x, hget, hp.1, rfl⟩, hp.2⟩

/-- A leaf of the tree is a leaf of the vector. -/
theorem Holds.any_of_leaves (h : Holds nodes tree) {p : ElementPair ι κ → Bool}
    (hany : ((leaves tree).any fun m => p m.element) = true) : nodes.any (leafWith p) = true := by
  obtain ⟨i, x, -, hget, hp⟩ := (h.any_leaves p).mp hany
  exact List.any_eq_true.mpr ⟨x, List.mem_of_getElem? hget, hp⟩

/-- The vector has no leaf with a property but where the tree has one, exactly if it is fair. -/
theorem Holds.fairTo_iff (h : Holds nodes tree) (p : ElementPair ι κ → Bool) :
    FairTo p nodes ↔ nodes.any (leafWith p) = (leaves tree).any fun m => p m.element := by
  constructor
  · intro hfair
    rw [Bool.eq_iff_iff]
    refine ⟨fun hany => ?_, h.any_of_leaves⟩
    obtain ⟨node, hmem, hp⟩ := List.any_eq_true.mp hany
    exact (h.any_leaves p).mpr (hfair node hmem hp)
  · intro heq node hmem hp
    rw [← h.any_leaves p, ← heq]
    exact List.any_eq_true.mpr ⟨node, hmem, hp⟩

/-- A vector that is not fair has a leaf where the tree has none. -/
theorem Holds.fairTo_of (h : Holds nodes tree) {p : ElementPair ι κ → Bool}
    (hno : nodes.any (leafWith p) = true → ((leaves tree).any fun m => p m.element) = false →
      False) : FairTo p nodes := by
  rw [h.fairTo_iff]
  cases hn : nodes.any (leafWith p) with
  | true => exact ((Bool.eq_false_or_eq_true _).resolve_right (hno hn)).symm
  | false =>
    refine ((Bool.eq_false_or_eq_true _).resolve_left fun hl => ?_).symm
    exact absurd (h.any_of_leaves hl) (by rw [hn]; decide)

/-! ## The passes -/

theorem Holds.grow (h : Holds nodes tree) (demand : ElementPair ι κ → Option (Growth ι κ)) :
    Holds (grow demand nodes) (growTree demand tree) := by
  obtain ⟨t, ht, hi, rfl⟩ := h.stands
  obtain ⟨t', ht', hi', hforget⟩ := grow_stands demand ht
  exact ⟨forest_grow h.forest, t', ht', hi'.trans hi, hforget⟩

theorem Holds.pruneRoot (h : Holds nodes tree) : Holds (pruneRoot nodes) (prune tree) := by
  obtain ⟨t, ht, hi, rfl⟩ := h.stands
  refine ⟨(pruneBranches_shrunk _ _ _).forest h.forest, prune t,
    (pruneRoot_prunes h.forest ht hi).stands, ?_, ?_⟩
  · rw [index_prune, hi]
  · exact (prune_rename _ t).symm

/-- Resolution starts from a vector that is one tree. -/
theorem holds_start (context : List (ElementPair ι κ)) :
    Holds (start context) (startTree context) := by
  let root : Name ι κ := ⟨⟨none, none⟩, false, true, []⟩
  have hone : Holds [root] (.node ((), root.mark) []) := by
    refine ⟨⟨fun {i a} hget c hc => ?_, fun {i a} hget => ?_, fun {i j a b c} hi hj hca _ => ?_⟩,
      .node (0, root.mark) [], .node rfl rfl fun _ ht => absurd ht List.not_mem_nil, rfl, rfl⟩
    all_goals
      have hroot : a = root := List.mem_singleton.mp (List.mem_of_getElem? ‹[root][i]? = some a›)
      subst hroot
    · cases hc
    · exact List.nodup_nil
    · cases hca
  -- the context is what the root demands
  exact hone.grow fun _ => some ⟨false, false, context⟩

/-! ## Resolution -/

/-- Resolution of the vector has come to what resolution of the tree has come to. -/
def Matches : Option (Except ResolutionFault (Nodes ι κ)) →
    Option (Except ResolutionFault (NameTree Unit ι κ)) → Prop
  | none, none => True
  | some (.error e), some (.error e') => e = e'
  | some (.ok nodes), some (.ok tree) => ∃ t, StandsIn nodes t ∧ t.index = 0 ∧ forget t = tree
  | _, _ => False

section Resolve
variable [LinearOrder ι] [LinearOrder κ] (analysis : DerivationAnalysis ι κ)

/-- No step of resolution meets a leaf that has been cut off and stops it on its own. -/
def Undisturbed (bExpandFinalReferences : Bool) :
    List (List (ElementPair ι κ)) → Nodes ι κ → Prop
  | [], nodes => bExpandFinalReferences = true → FairTo (isStarved analysis) nodes
  | pathElement :: typePath, nodes =>
    FairTo (isStarved analysis) nodes ∧
      ∀ expanded, expandReferences analysis 2 nodes = some expanded →
        FairTo (isBlocked analysis) expanded ∧
          ∀ added, addType analysis pathElement expanded = .ok added →
            Undisturbed bExpandFinalReferences typePath (pruneRoot added)

variable {analysis} {fuel : ℕ} {b : Bool} {typePath : List (List (ElementPair ι κ))}

/-- What an undisturbed step comes to. -/
theorem undisturbed_cons {pathElement : List (ElementPair ι κ)} :
    Undisturbed analysis b (pathElement :: typePath) nodes ↔
      FairTo (isStarved analysis) nodes ∧ (nodes.any (leafWith (isStarved analysis)) = false →
        FairTo (isBlocked analysis) (grow (expansion analysis) nodes) ∧
          ((grow (expansion analysis) nodes).any (leafWith (isBlocked analysis)) = false →
            Undisturbed analysis b typePath (pruneRoot (NameResolution.grow
              (matching analysis pathElement) (grow (expansion analysis) nodes))))) := by
  rw [Undisturbed, expandReferences_eq le_rfl]
  cases nodes.any (leafWith (isStarved analysis)) with
  | true => simp
  | false =>
    simp only [Bool.false_eq_true, if_false, Option.some.injEq, forall_eq', forall_const, addType_eq]
    cases (grow (expansion analysis) nodes).any (leafWith (isBlocked analysis)) with
    | true => simp
    | false => simp

/-- A beginning of an undisturbed path is undisturbed. -/
theorem Undisturbed.beginning {path : List (List (ElementPair ι κ))}
    (h : Undisturbed analysis b typePath nodes) (hpre : path <+: typePath) :
    Undisturbed analysis b path nodes := by
  induction path generalizing typePath nodes with
  | nil =>
    cases typePath with
    | nil => exact h
    | cons pathElement typePath => exact fun _ => h.1
  | cons pathElement path ih =>
    cases typePath with
    | nil => exact absurd (List.prefix_nil.mp hpre) (List.cons_ne_nil _ _)
    | cons pathElement' typePath =>
      obtain ⟨rfl, hrest⟩ := List.cons_prefix_cons.mp hpre
      rw [undisturbed_cons] at h ⊢
      exact ⟨h.1, fun hs => ⟨(h.2 hs).1, fun hb => ih ((h.2 hs).2 hb) hrest⟩⟩

/-- **An undisturbed resolution** comes to what the tree comes to. -/
theorem resolveFrom_matches (hfuel : 2 ≤ fuel) (h : Holds nodes tree)
    (hu : Undisturbed analysis b typePath nodes) :
    Matches (resolveFrom analysis fuel b typePath nodes)
      (resolveTreeFrom analysis b typePath tree) := by
  induction typePath generalizing nodes tree with
  | nil =>
    rw [resolveFrom_nil hfuel, resolveTreeFrom]
    cases b with
    | false => exact h.stands
    | true =>
      rw [if_pos rfl, if_pos rfl, expandTree, ← (h.fairTo_iff _).mp (hu rfl)]
      cases nodes.any (leafWith (isStarved analysis)) with
      | true => trivial
      | false => exact ((h.grow _).pruneRoot).stands
  | cons pathElement typePath ih =>
    rw [undisturbed_cons] at hu
    obtain ⟨hstarved, hu⟩ := hu
    rw [resolveFrom_cons hfuel, resolveTreeFrom, expandTree, ← (h.fairTo_iff _).mp hstarved]
    cases hs : nodes.any (leafWith (isStarved analysis)) with
    | true => trivial
    | false =>
      obtain ⟨hblocked, hu⟩ := hu hs
      have hg := h.grow (expansion analysis)
      simp only [Bool.false_eq_true, if_false]
      rw [addTypeTree, ← (hg.fairTo_iff _).mp hblocked]
      cases hb : (NameResolution.grow (expansion analysis) nodes).any
          (leafWith (isBlocked analysis)) with
      | true => rfl
      | false => exact ih (hg.grow _).pruneRoot (hu hb)

/-- The final expansion is the one that comes before a next element. -/
theorem fairTo_starved_of_matches (h : Holds nodes tree)
    (hm : Matches (resolveFrom analysis 2 true [] nodes) (resolveTreeFrom analysis true [] tree)) :
    FairTo (isStarved analysis) nodes := by
  refine h.fairTo_of fun hn hl => ?_
  rwa [resolveFrom_nil le_rfl, resolveTreeFrom, if_pos rfl, if_pos rfl, expandTree, hn, hl] at hm

/-- A tree has no more errors once its path has ended. -/
theorem not_matches_error (e : ResolutionFault) (b : Bool) (tree : NameTree Unit ι κ) :
    ¬ Matches (some (.error e) : Option (Except ResolutionFault (Nodes ι κ)))
      (resolveTreeFrom analysis b [] tree) := by
  intro hm
  rw [resolveTreeFrom] at hm
  cases b with
  | false => exact hm
  | true =>
    rw [if_pos rfl] at hm
    cases ht : expandTree analysis tree with
    | none => rwa [ht] at hm
    | some t => rwa [ht] at hm

/-- **A disturbed resolution** comes to something else, at one of the beginnings of its path. -/
theorem undisturbed_of_matches (h : Holds nodes tree)
    (hm : ∀ path, path <+: typePath → Matches (resolveFrom analysis 2 b path nodes)
      (resolveTreeFrom analysis b path tree)) : Undisturbed analysis b typePath nodes := by
  induction typePath generalizing nodes tree with
  | nil =>
    intro hb
    subst hb
    exact fairTo_starved_of_matches h (hm [] List.nil_prefix)
  | cons pathElement typePath ih =>
    have hone := hm [pathElement] (List.cons_prefix_cons.mpr ⟨rfl, List.nil_prefix⟩)
    rw [resolveFrom_cons le_rfl, resolveTreeFrom, expandTree] at hone
    rw [undisturbed_cons]
    have hstarved : FairTo (isStarved analysis) nodes := by
      cases b with
      | true => exact fairTo_starved_of_matches h (hm [] List.nil_prefix)
      | false =>
        refine h.fairTo_of fun hn hl => ?_
        rw [hn, hl] at hone
        simp only [if_true, Bool.false_eq_true, if_false, addTypeTree] at hone
        split at hone
        · exact hone
        · exact hone
    refine ⟨hstarved, fun hs => ?_⟩
    have hl := (h.fairTo_iff _).mp hstarved
    rw [hs] at hl
    have hg := h.grow (expansion analysis)
    have hblocked : FairTo (isBlocked analysis) (NameResolution.grow (expansion analysis) nodes) := by
      refine hg.fairTo_of fun hn hlg => ?_
      rw [← hl, hs, hn] at hone
      simp only [if_true, Bool.false_eq_true, if_false, addTypeTree, hlg] at hone
      exact not_matches_error _ b _ hone
    refine ⟨hblocked, fun hb => ih (hg.grow _).pruneRoot fun path hpre => ?_⟩
    have hlg := (hg.fairTo_iff _).mp hblocked
    rw [hb] at hlg
    have hpath := hm (pathElement :: path) (List.cons_prefix_cons.mpr ⟨rfl, hpre⟩)
    rw [resolveFrom_cons le_rfl, resolveTreeFrom, expandTree, hs, ← hl, hb] at hpath
    simp only [Bool.false_eq_true, if_false, addTypeTree, ← hlg] at hpath
    exact hpath

/-- No step of the constructor's resolution is disturbed. -/
def UndisturbedResolution (analysis : DerivationAnalysis ι κ) (operation : OperationID)
    (context : List (ElementPair ι κ)) (typePath : List (List (ElementPair ι κ))) : Prop :=
  context ≠ [] → operation ≠ .HIGHEST_OPERATION_TYPE →
    Undisturbed analysis (operation = .id_Done) typePath (start context)

/-- What the constructor does with an operation, on either side. -/
theorem nameResolution_eq (fuel : ℕ) {operation : OperationID} {context : List (ElementPair ι κ)}
    (hcontext : context ≠ []) (hop : operation ≠ .HIGHEST_OPERATION_TYPE)
    (typePath : List (List (ElementPair ι κ))) :
    nameResolution analysis fuel operation context typePath =
        resolveFrom analysis fuel (operation = .id_Done) typePath (start context) ∧
      resolveTree analysis operation context typePath =
        resolveTreeFrom analysis (operation = .id_Done) typePath (startTree context) := by
  cases operation with
  | HIGHEST_OPERATION_TYPE => exact absurd rfl hop
  | _ =>
    rw [← resolve_eq]
    simp [nameResolution, resolveTree, hcontext]

/-- **Main result.** Name resolution comes to what the nodes that node 0 reaches come to, on a type
path and on all of its beginnings, exactly if no step of it is disturbed. -/
theorem resolution_reachable_iff (analysis : DerivationAnalysis ι κ) (operation : OperationID)
    (context : List (ElementPair ι κ)) (typePath : List (List (ElementPair ι κ))) :
    (∀ path, path <+: typePath → ∀ fuel, 2 ≤ fuel →
      Matches (nameResolution analysis fuel operation context path)
        (resolveTree analysis operation context path)) ↔
      UndisturbedResolution analysis operation context typePath := by
  constructor
  · intro hm hcontext hop
    refine undisturbed_of_matches (holds_start context) fun path hpre => ?_
    have hpath := hm path hpre 2 le_rfl
    rwa [(nameResolution_eq 2 hcontext hop path).1, (nameResolution_eq 2 hcontext hop path).2] at hpath
  · intro hu path hpre fuel hfuel
    by_cases hcontext : context = []
    · subst hcontext
      cases operation <;> rfl
    by_cases hop : operation = .HIGHEST_OPERATION_TYPE
    · subst hop
      simp [nameResolution, resolveTree, hcontext, Matches]
    rw [(nameResolution_eq fuel hcontext hop path).1, (nameResolution_eq fuel hcontext hop path).2]
    exact resolveFrom_matches hfuel (holds_start context) ((hu hcontext hop).beginning hpre)

end Resolve

/-! ## A dimension that has been cut off -/

/-- Action `1` has the action `3` as member and action `3` the action `5`; the dimension `4` is a
member of action `6`. -/
def scattered : DerivationAnalysis ℕ ℕ where
  kind e := if e = 4 then .generatedDimension else .action e
  children e := if e = 1 then [3] else if e = 3 then [5] else if e = 6 then [4] else []
  isContext _ := true
  baseContexts _ := []
  rank _ := 0
  rank_base := @no_baseContexts
  instanceMap := [(0, 0), (1, 1), (2, 2), (3, 3), (4, 4), (5, 5), (6, 6)]
  inheritanceMap := []
  inheritance_isAction h := by cases h
  contextTypes_isContext h := by
    split at h
    · cases h
    · cases h

/-- A result that is no error. -/
theorem exists_ok_of_isSome {α : Type} {r : Option (Except ResolutionFault α)}
    (h : (r.bind Except.toOption).isSome = true) : ∃ a, r = some (.ok a) := by
  obtain ⟨a, ha⟩ := Option.isSome_iff_exists.mp h
  obtain ⟨result, hr, ha⟩ := Option.bind_eq_some_iff.mp ha
  cases result with
  | error e => cases ha
  | ok b => exact ⟨b, hr⟩

/-- The path `(1 | 2).(3 | 4).5`. -/
def scatteredPath : List (List (ElementPair ℕ ℕ)) :=
  [[1, 2], [3, 4], [5]].map fun es => es.map fun e => ⟨some e, some e⟩

/-- From action `0` the element `3` matches under action `1`, which cuts action `2` off with the
dimension below it; the element `5` matches under action `3`, and the dimension makes it throw. -/
theorem detached_dimension_throws :
    nameResolution scattered 2 .id_Get [⟨some 0, some 0⟩] scatteredPath =
        some (.error .afterDimension) ∧
      (∃ tree, resolveTree scattered .id_Get [⟨some 0, some 0⟩] scatteredPath = some (.ok tree)) ∧
      ¬ ∀ fuel, 2 ≤ fuel →
        Matches (nameResolution scattered fuel .id_Get [⟨some 0, some 0⟩] scatteredPath)
          (resolveTree scattered .id_Get [⟨some 0, some 0⟩] scatteredPath) := by
  have herror : nameResolution scattered 2 .id_Get [⟨some 0, some 0⟩] scatteredPath =
      some (.error .afterDimension) := by
    decide +kernel
  obtain ⟨tree, htree⟩ := exists_ok_of_isSome
    (r := resolveTree scattered .id_Get [⟨some 0, some 0⟩] scatteredPath) (by decide +kernel)
  refine ⟨herror, ⟨tree, htree⟩, fun hm => ?_⟩
  have hm := hm 2 le_rfl
  rwa [herror, htree] at hm

end EgLang.Compiler.NameResolution
