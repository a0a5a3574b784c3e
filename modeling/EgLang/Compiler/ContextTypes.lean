import EgLang.Compiler.Instances
import EgLang.Compiler.PruningSteps
import EgLang.Compiler.Reachability
import EgLang.Compiler.Session

/-!
# The types of names

The interface element that goes with an action is a context: one that the action's own context is or
inherits. What `getElementVector` collects has such types, and resolution makes no names but of what
has been collected.
-/

namespace EgLang.Compiler

open EgLang.Library NameResolution NameTree Relation

set_option autoImplicit false

namespace DerivationAnalysis
variable {ι κ : Type} (analysis : DerivationAnalysis ι κ)

/-- A context is another one or inherits it. -/
def Inherits : ι → ι → Prop := ReflTransGen fun c b => b ∈ analysis.baseContexts c

/-- The instances of an interface element are of its kind: those that are actions have a context that
is the element or inherits it. -/
structure Typed : Prop where
  instance_isContext : ∀ p ∈ analysis.instanceMap, (analysis.kind p.2).isAction = true →
    analysis.isContext p.1 = true
  inheritance_inherits : ∀ p ∈ analysis.inheritanceMap, ∀ context,
    analysis.kind p.2 = .action context → analysis.Inherits context p.1

/-- The type of a pair: that of an action is a context of it. -/
def TypedPair (p : ElementPair ι κ) : Prop :=
  ∀ e context, p.second = some e → analysis.kind e = .action context →
    ∃ c, p.first = some c ∧ analysis.isContext c = true ∧ analysis.Inherits context c

/-! ## The most derived context -/

theorem foldl_some {α β : Type} (f : α → Option β) (l : List α) (init : Option β) :
    (∀ r, l.foldl (fun res a => match f a with | some p => some p | none => res) init = some r →
      init = some r ∨ ∃ a ∈ l, f a = some r) ∧
    ((init.isSome = true ∨ ∃ a ∈ l, (f a).isSome = true) →
      (l.foldl (fun res a => match f a with | some p => some p | none => res) init).isSome = true) := by
  induction l generalizing init with
  | nil => exact ⟨fun r h => .inl h, fun h => by simpa using h⟩
  | cons a l ih =>
    rw [List.foldl_cons]
    cases hf : f a with
    | none =>
      refine ⟨fun r h => ?_, fun h => (ih init).2 ?_⟩
      · rcases (ih init).1 r h with h | ⟨b, hb, h⟩
        · exact .inl h
        · exact .inr ⟨b, List.mem_cons_of_mem a hb, h⟩
      · rcases h with h | ⟨b, hb, h⟩
        · exact .inl h
        · rcases List.mem_cons.mp hb with rfl | hb
          · rw [hf] at h
            cases h
          · exact .inr ⟨b, hb, h⟩
    | some p =>
      refine ⟨fun r h => ?_, fun _ => (ih (some p)).2 (.inl rfl)⟩
      rcases (ih (some p)).1 r h with h | ⟨b, hb, h⟩
      · exact .inr ⟨a, List.mem_cons_self, hf.trans h⟩
      · exact .inr ⟨b, List.mem_cons_of_mem a hb, h⟩

variable [DecidableEq ι] {analysis}

/-- The choice is one of the two contexts, and it is made where the first one is inherited. -/
theorem chooseMostDerived_spec (c d a : ι) :
    (∀ r, analysis.chooseMostDerived a (some c) (some d) = some r → r = c ∨ r = d) ∧
      (analysis.Inherits a c →
        (analysis.chooseMostDerived a (some c) (some d)).isSome = true) := by
  induction hrank : analysis.rank a using Nat.strong_induction_on generalizing a with
  | _ n ih =>
    subst hrank
    rw [chooseMostDerived]
    by_cases hc : some a = some c
    · rw [if_pos hc]
      exact ⟨fun r h => .inl (Option.some.inj h).symm, fun _ => rfl⟩
    · rw [if_neg hc]
      by_cases hd : some a = some d
      · rw [if_pos hd]
        exact ⟨fun r h => .inr (Option.some.inj h).symm, fun _ => rfl⟩
      · rw [if_neg hd]
        have hfold := foldl_some
          (fun b : { x // x ∈ analysis.baseContexts a } =>
            analysis.chooseMostDerived b.1 (some c) (some d)) (analysis.baseContexts a).attach none
        refine ⟨fun r h => ?_, fun h => hfold.2 ?_⟩
        · rcases hfold.1 r h with h | ⟨b, -, h⟩
          · cases h
          · exact (ih _ (analysis.rank_base b.2) b.1 rfl).1 r h
        · rcases ReflTransGen.cases_head h with rfl | ⟨b, hb, h⟩
          · exact absurd rfl hc
          · exact .inr ⟨⟨b, hb⟩, List.mem_attach _ _, (ih _ (analysis.rank_base hb) b rfl).2 h⟩

/-! ## Collected elements -/

/-- The instances that are collected for an interface element have its type. -/
theorem Typed.instance_typed (h : analysis.Typed) {t : ι} {e : κ}
    (he : e ∈ analysis.getInstances t true) {context : ι}
    (hkind : analysis.kind e = .action context) :
    analysis.isContext t = true ∧ analysis.Inherits context t := by
  have haction : (analysis.kind e).isAction = true := by
    rw [hkind]
    rfl
  rw [getInstances, Bool.true_and] at he
  split at he
  · rename_i hcontext
    obtain ⟨p, hp, rfl⟩ := List.mem_map.mp he
    obtain ⟨hmem, hfirst⟩ := List.mem_filter.mp hp
    obtain rfl := of_decide_eq_true hfirst
    exact ⟨hcontext, h.inheritance_inherits p hmem context hkind⟩
  · rename_i hcontext
    obtain ⟨p, hp, rfl⟩ := List.mem_map.mp he
    obtain ⟨hmem, hfirst⟩ := List.mem_filter.mp hp
    obtain rfl := of_decide_eq_true hfirst
    exact absurd (h.instance_isContext p hmem haction) hcontext

variable [DecidableEq κ]

theorem typedPair_enterInstance {t : ι} {e : κ}
    (hte : ∀ context, analysis.kind e = .action context →
      analysis.isContext t = true ∧ analysis.Inherits context t)
    {result : List (ElementPair ι κ)} (hresult : ∀ p ∈ result, analysis.TypedPair p) :
    ∀ p ∈ analysis.enterInstance t result e, analysis.TypedPair p := by
  intro p hp
  unfold enterInstance at hp
  split at hp
  · obtain ⟨q, hq, rfl⟩ := List.mem_map.mp hp
    split
    · rename_i hsecond
      intro e' context he' hkind
      obtain rfl : e = e' := Option.some.inj (hsecond.symm.trans he')
      obtain ⟨c, hfirst, hc, hinherits⟩ := hresult q hq e context hsecond hkind
      obtain ⟨ht, htinherits⟩ := hte context hkind
      obtain ⟨hmem, hsome⟩ := @chooseMostDerived_spec _ _ analysis _ c t context
      obtain ⟨r, hr⟩ := Option.isSome_iff_exists.mp (hsome hinherits)
      refine ⟨r, ?_, ?_⟩
      · simp only [keepMostDerived, hkind, asContext, hfirst, Option.filter_some, hc, ht, if_true]
        exact hr
      · rcases hmem r hr with rfl | rfl
        · exact ⟨hc, hinherits⟩
        · exact ⟨ht, htinherits⟩
    · exact hresult q hq
  · rcases List.mem_append.mp hp with hp | hp
    · exact hresult p hp
    · rw [List.mem_singleton.mp hp]
      intro e' context he' hkind
      obtain rfl := Option.some.inj he'
      exact ⟨t, rfl, hte context hkind⟩

/-- Every collected pair is typed. -/
theorem Typed.typedPair (h : analysis.Typed) (types : List ι) :
    ∀ p ∈ analysis.getElementVector types true, analysis.TypedPair p := by
  have hinstances : ∀ (t : ι) (es : List κ), (∀ e ∈ es, e ∈ analysis.getInstances t true) →
      ∀ result : List (ElementPair ι κ), (∀ p ∈ result, analysis.TypedPair p) →
        ∀ p ∈ es.foldl (analysis.enterInstance t) result, analysis.TypedPair p := by
    intro t es
    induction es with
    | nil => exact fun _ result hresult => hresult
    | cons e es ih =>
      intro hes result hresult
      rw [List.forall_mem_cons] at hes
      exact ih hes.2 _ (typedPair_enterInstance (fun context => h.instance_typed hes.1) hresult)
  have htypes : ∀ (types : List ι) (result : List (ElementPair ι κ)),
      (∀ p ∈ result, analysis.TypedPair p) →
        ∀ p ∈ types.foldl (fun result t =>
          (analysis.getInstances t true).foldl (analysis.enterInstance t) result) result,
          analysis.TypedPair p := by
    intro types
    induction types with
    | nil => exact fun result hresult => hresult
    | cons t types ih =>
      intro result hresult
      exact ih _ (hinstances t _ (fun _ he => he) result hresult)
  exact htypes types [] (by simp)

end DerivationAnalysis

/-! ## Names -/

namespace NameResolution
variable {ι κ : Type} {nodes nodes' : Nodes ι κ} {P : ElementPair ι κ → Prop}

/-- New names have the elements that are demanded, the others keep theirs. -/
theorem forall_element_grow {demand : ElementPair ι κ → Option (Growth ι κ)}
    (h : ∀ node ∈ nodes, P node.element)
    (hdemand : ∀ e g, demand e = some g → ∀ e' ∈ g.elements, P e') :
    ∀ node ∈ grow demand nodes, P node.element := by
  intro node hnode
  obtain ⟨i, hi⟩ := List.mem_iff_getElem?.mp hnode
  by_cases hold : i < nodes.length
  · have hget : nodes[i]? = some nodes[i] := List.getElem?_eq_getElem hold
    have hgrown := grow_grown demand hget
    have hkeep : node.element = nodes[i].element := by
      unfold GrownAt at hgrown
      split at hgrown
      · rw [Option.some.inj (hi.symm.trans hgrown)]
      · obtain ⟨base, -, hat, -⟩ := hgrown
        rw [Option.some.inj (hi.symm.trans hat)]
        rfl
    rw [hkeep]
    exact h _ (List.getElem_mem hold)
  · obtain ⟨node', -, g, hg, e, he, rfl⟩ := grow_new (by omega) hi
    exact hdemand _ g (demandOf_eq_some.mp hg).2 e he

theorem forall_element_shrunk (h : ∀ node ∈ nodes, P node.element) (hshrunk : Shrunk nodes nodes') :
    ∀ node ∈ nodes', P node.element := by
  intro node hnode
  obtain ⟨i, hi⟩ := List.mem_iff_getElem?.mp hnode
  obtain ⟨old, hold, -, helement, -⟩ := hshrunk.get hi
  rw [helement]
  exact h old (List.mem_of_getElem? hold)

theorem forall_element_start {context : List (ElementPair ι κ)} (hroot : P ⟨none, none⟩)
    (h : ∀ p ∈ context, P p) : ∀ node ∈ start context, P node.element := by
  have hone : ∀ node ∈ ([⟨⟨none, none⟩, false, true, []⟩] : Nodes ι κ), P node.element := by
    intro node hnode
    rw [List.mem_singleton.mp hnode]
    exact hroot
  -- the context is what the root demands
  have hgrow : ∀ node ∈ grow (fun _ => some ⟨false, false, context⟩)
      ([⟨⟨none, none⟩, false, true, []⟩] : Nodes ι κ), P node.element := by
    refine forall_element_grow hone fun e g hg e' he' => ?_
    obtain rfl := Option.some.inj hg
    exact h e' he'
  exact hgrow

section Resolve
variable [LinearOrder ι] [LinearOrder κ] {analysis : DerivationAnalysis ι κ} {fuel : ℕ}

/-- What holds of the elements of a context and of a type path, and of all that is collected for a
reference, holds of all names. -/
theorem forall_element_of_resolvePath
    (hreference : ∀ types, ∀ p ∈ analysis.getElementVector types true, P p)
    {typePath : List (List (ElementPair ι κ))} (hpath : ∀ elements ∈ typePath, ∀ p ∈ elements, P p)
    (h : ∀ node ∈ nodes, P node.element)
    (hresolve : resolvePath analysis fuel typePath nodes = some (.ok nodes')) :
    ∀ node ∈ nodes', P node.element := by
  induction typePath generalizing nodes with
  | nil =>
    cases hresolve
    exact h
  | cons pathElement typePath ih =>
    rw [List.forall_mem_cons] at hpath
    rw [resolvePath] at hresolve
    cases hexpand : expandReferences analysis fuel nodes with
    | none =>
      rw [hexpand] at hresolve
      cases hresolve
    | some expanded =>
      rw [hexpand] at hresolve
      dsimp only at hresolve
      cases hadd : addType analysis pathElement expanded with
      | error e =>
        rw [hadd] at hresolve
        cases hresolve
      | ok added =>
        rw [hadd] at hresolve
        obtain rfl := expandReferences_eq_some hexpand
        obtain rfl := addType_eq_ok hadd
        refine ih hpath.2 ?_ hresolve
        refine forall_element_shrunk ?_ (pruneBranches_shrunk _ _ _)
        refine forall_element_grow (forall_element_grow h ?_) ?_
        · intro e g hg e' he'
          unfold expansion at hg
          split at hg
          · obtain rfl := Option.some.inj hg
            exact hreference _ e' he'
          · cases hg
        · intro e g hg e' he'
          unfold matching at hg
          split at hg
          · split at hg
            · obtain rfl := Option.some.inj hg
              exact hpath.1 e' (mem_members.mp he').1
            · obtain rfl := Option.some.inj hg
              exact hpath.1 e' he'
          · cases hg

/-- What growing and pruning keep of the tree at node 0 holds of it after resolution. -/
theorem holds_and_of_resolvePath {Q : NameTree Unit ι κ → Prop}
    (hgrow : ∀ demand tree, Q tree → Q (growTree demand tree)) (hprune : ∀ tree, Q tree → Q (prune tree))
    {typePath : List (List (ElementPair ι κ))} (h : ∃ tree, Holds nodes tree ∧ Q tree)
    (hresolve : resolvePath analysis fuel typePath nodes = some (.ok nodes')) :
    ∃ tree, Holds nodes' tree ∧ Q tree := by
  induction typePath generalizing nodes with
  | nil =>
    cases hresolve
    exact h
  | cons pathElement typePath ih =>
    obtain ⟨tree, h, hQ⟩ := h
    rw [resolvePath] at hresolve
    cases hexpand : expandReferences analysis fuel nodes with
    | none =>
      rw [hexpand] at hresolve
      cases hresolve
    | some expanded =>
      rw [hexpand] at hresolve
      dsimp only at hresolve
      cases hadd : addType analysis pathElement expanded with
      | error e =>
        rw [hadd] at hresolve
        cases hresolve
      | ok added =>
        rw [hadd] at hresolve
        obtain rfl := expandReferences_eq_some hexpand
        obtain rfl := addType_eq_ok hadd
        exact ih ⟨_, ((h.grow _).grow _).pruneRoot, hprune _ (hgrow _ _ (hgrow _ _ hQ))⟩ hresolve

end Resolve

/-! ## The context -/

/-- The root of a tree is a reference, with the elements of a context below it. -/
def Heads (context : List (ElementPair ι κ)) (tree : NameTree Unit ι κ) : Prop :=
  tree.label.2.isReference = true ∧ tree.children.map (fun t => t.label.2.element) = context

theorem element_growTree (demand : ElementPair ι κ → Option (Growth ι κ)) (tree : NameTree Unit ι κ) :
    (growTree demand tree).label.2.element = tree.label.2.element := by
  cases tree with
  | node a ts =>
    by_cases hts : ts = []
    · rw [hts, growTree_leaf]
      split <;> rfl
    · rw [growTree_node hts]
      rfl

variable {context : List (ElementPair ι κ)}

theorem Heads.grow (hne : context ≠ []) (demand : ElementPair ι κ → Option (Growth ι κ))
    {tree : NameTree Unit ι κ} (h : Heads context tree) : Heads context (growTree demand tree) := by
  cases tree with
  | node a ts =>
    obtain ⟨hreference, helements⟩ := h
    have hts : ts ≠ [] := by
      rintro rfl
      exact hne helements.symm
    rw [growTree_node hts]
    refine ⟨hreference, ?_⟩
    rw [RoseTree.children_node, List.map_map, ← helements]
    exact List.map_congr_left fun t _ => element_growTree demand t

theorem Heads.prune {tree : NameTree Unit ι κ} (h : Heads context tree) :
    Heads context (prune tree) := by
  cases tree with
  | node a ts =>
    have hreference : a.2.isReference = true := h.1
    have helements : ts.map (fun t => t.label.2.element) = context := h.2
    by_cases hts : ts = []
    · subst hts
      rw [prune_leaf]
      exact ⟨hreference, helements⟩
    · cases hmember : a.2.isMember with
      | true =>
        rw [prune_flagged ts hreference hmember]
        exact ⟨hreference, helements⟩
      | false =>
        rw [prune_reference hts hreference hmember]
        refine ⟨hreference, ?_⟩
        rw [pruneReference, RoseTree.children_node, List.map_map, ← helements]
        exact List.map_congr_left fun t _ => (label_prune t).2.1

theorem heads_startTree (context : List (ElementPair ι κ)) : Heads context (startTree context) := by
  refine ⟨rfl, ?_⟩
  rw [startTree, RoseTree.children_node, List.map_map]
  exact List.map_id context

end NameResolution
end EgLang.Compiler
