import EgLang.Compiler.Compatibility

/-!
# Coherence of compatibility

Two contexts are statically compatible when they lie on one path from the root of the inheritance tree of
some concrete action; a link is compatible besides with what its target is compatible with.
-/

namespace EgLang.Compiler

open Library

set_option autoImplicit false

/-! ## The contexts of a tree -/

namespace ConcreteTree
variable {ι : Type} {t : ConcreteTree ι} {A B : ι} {k : List ℕ}

/-- Two contexts lie on one path from the root of the inheritance tree of some concrete action. -/
def Along (t : ConcreteTree ι) (A B : ι) : Prop :=
  ∃ e ∈ t.located, ∃ c inheritance, e.2.label = .action c inheritance ∧
    (inheritance.map InheritanceNode.context).OnePath A B

/-- The concrete action at a place has a context in its inheritance tree. -/
def Derives (t : ConcreteTree ι) (k : List ℕ) (A : ι) : Prop :=
  ∃ s c inheritance, (k, s) ∈ t.located ∧ s.label = .action c inheritance ∧
    A ∈ (inheritance.map InheritanceNode.context).labels

theorem Along.symm (h : Along t A B) : Along t B A := by
  obtain ⟨e, he, c, inheritance, hlabel, h⟩ := h
  exact ⟨e, he, c, inheritance, hlabel, h.symm⟩

theorem mem_inheritanceNodes {node : InheritanceView ι} :
    node ∈ t.inheritanceNodes ↔ ∃ s c inheritance, (node.rootConcreteAction, s) ∈ t.located ∧
      s.label = .action c inheritance ∧
        (node.above, node.below) ∈ (inheritance.map InheritanceNode.context).ways [] := by
  rw [inheritanceNodes, List.mem_flatMap]
  constructor
  · rintro ⟨⟨k, s⟩, hs, hnode⟩
    cases hlabel : s.label with
    | dimension e =>
      simp only [hlabel] at hnode
      cases hnode
    | action c inheritance =>
      simp only [hlabel, List.mem_map] at hnode
      obtain ⟨w, hw, rfl⟩ := hnode
      exact ⟨s, c, inheritance, hs, hlabel, hw⟩
  · rintro ⟨s, c, inheritance, hs, hlabel, hw⟩
    refine ⟨_, hs, ?_⟩
    simp only [hlabel, List.mem_map]
    exact ⟨_, hw, rfl⟩

/-- A context lies above or below a node of another one when both lie on one path. -/
theorem exists_node_iff :
    (∃ node ∈ t.inheritanceNodes, node.abstractAction = A ∧
      (B ∈ node.above ∨ B ∈ node.below.labels)) ↔ Along t A B := by
  have hway : ∀ u : RoseTree ι, (∃ w ∈ u.ways [], w.2.label = A ∧ (B ∈ w.1 ∨ B ∈ w.2.labels)) ↔
      u.OnePath A B := by
    intro u
    rw [RoseTree.exists_way_iff, or_iff_right]
    rintro ⟨-, h⟩
    cases h
  constructor
  · rintro ⟨node, hnode, hA, hB⟩
    obtain ⟨s, c, inheritance, hs, hlabel, hw⟩ := mem_inheritanceNodes.mp hnode
    exact ⟨_, hs, c, inheritance, hlabel, (hway _).mp ⟨_, hw, hA, hB⟩⟩
  · rintro ⟨⟨k, s⟩, hs, c, inheritance, hlabel, h⟩
    obtain ⟨w, hw, hA, hB⟩ := (hway _).mpr h
    exact ⟨⟨k, w.1, w.2⟩, mem_inheritanceNodes.mpr ⟨s, c, inheritance, hs, hlabel, hw⟩, hA, hB⟩

theorem exists_node_root_iff :
    (∃ node ∈ t.inheritanceNodes, node.abstractAction = A ∧ node.rootConcreteAction = k) ↔
      Derives t k A := by
  have hlabels : ∀ u : RoseTree ι, A ∈ u.labels ↔ ∃ w ∈ u.ways [], w.2.label = A := by
    intro u
    rw [← RoseTree.map_label_ways u [], List.mem_map]
  constructor
  · rintro ⟨node, hnode, hA, rfl⟩
    obtain ⟨s, c, inheritance, hs, hlabel, hw⟩ := mem_inheritanceNodes.mp hnode
    exact ⟨s, c, inheritance, hs, hlabel, (hlabels _).mpr ⟨_, hw, hA⟩⟩
  · rintro ⟨s, c, inheritance, hs, hlabel, h⟩
    obtain ⟨w, hw, hA⟩ := (hlabels _).mp h
    exact ⟨⟨k, w.1, w.2⟩, mem_inheritanceNodes.mpr ⟨s, c, inheritance, hs, hlabel, hw⟩, hA, rfl⟩

end ConcreteTree

section Coherence
variable {ι : Type} [DecidableEq ι] {I : Interface ι} {t : ConcreteTree ι} {A B L T : ι} {k : List ℕ}

theorem mem_getInstances_iff (hA : (I.getType A).isContext = true) :
    k ∈ I.getInstances t A true ↔ ConcreteTree.Derives t k A := by
  rw [Interface.getInstances, hA, ← ConcreteTree.exists_node_root_iff]
  simp [ConcreteTree.inheritanceMap]

/-- The inheritance tree of a concrete action of a built tree unfolds the contexts that are inherited. -/
theorem unfolds_of_located {root : ι} {fuel : ℕ} (ht : I.instanceAnalysis root fuel = .ok t)
    {s : ConcreteTree ι} {c : ι} {inheritance : RoseTree (InheritanceNode ι)}
    (hs : (k, s) ∈ t.located) (hlabel : s.label = .action c inheritance) :
    Unfolds I.inherited (inheritance.map InheritanceNode.context) ∧
      (inheritance.map InheritanceNode.context).label = c := by
  cases s with
  | node label ts =>
    obtain rfl : label = .action c inheritance := hlabel
    obtain ⟨st, hst⟩ :=
      Interface.exists_constructed_of_analysis ht (RoseTree.mem_subtrees_of_located hs)
    exact ⟨hst.inherits, (RoseTree.label_map _ _).trans hst.context⟩

omit [DecidableEq ι] in
/-- A link inherits nothing, and nothing inherits a link: it is alone in an inheritance tree. -/
theorem eq_node_of_link {u : RoseTree ι} (hu : Unfolds I.inherited u) (hL : L ∈ u.labels)
    (hlink : (I.getType L).isLink = true) : u = .node L [] := by
  have hroot : u.label = L := by
    rcases Relation.ReflTransGen.cases_tail (hu.mem_labels.mp hL) with h | ⟨c, -, hc⟩
    · exact h.symm
    · rw [Interface.inherited] at hc
      split at hc
      · cases hc
      · rw [I.base_not_link hc] at hlink
        cases hlink
  cases u with
  | node a ts =>
    obtain rfl : a = L := hroot
    have hchildren := (unfolds_node.mp hu).1
    rw [Interface.inherited, hlink, Bool.true_or, if_pos rfl] at hchildren
    rw [List.map_eq_nil_iff.mp hchildren]

theorem eq_of_along_link {root : ι} {fuel : ℕ} (ht : I.instanceAnalysis root fuel = .ok t)
    (hlink : (I.getType L).isLink = true) (h : ConcreteTree.Along t L B) : B = L := by
  obtain ⟨⟨k, s⟩, hs, c, inheritance, hlabel, h⟩ := h
  have hL := h.mem_labels
  have hB := h.symm.mem_labels
  rw [eq_node_of_link (unfolds_of_located ht hs hlabel).1 hL hlink] at hB
  rcases RoseTree.mem_labels_node.mp hB with h | ⟨_, h, -⟩
  · exact h
  · cases h

/-! ## Without links -/

/-- What a loop over inheritance nodes adds. -/
theorem foldl_addNode (nodes : List (InheritanceView ι)) (c : Compatibility ι) :
    (∀ B, B ∈ (nodes.foldl (addNode A) c).staticCompatibleTypes ↔ B ∈ c.staticCompatibleTypes ∨
      ∃ node ∈ nodes, node.abstractAction = A ∧ (B ∈ node.above ∨ B ∈ node.below.labels)) ∧
    (∀ k, k ∈ (nodes.foldl (addNode A) c).dynamicCompatibleTypes ↔ k ∈ c.dynamicCompatibleTypes ∨
      ∃ node ∈ nodes, node.abstractAction = A ∧ node.rootConcreteAction = k) ∧
    (nodes.foldl (addNode A) c).staticLinkCompatibleTypes = c.staticLinkCompatibleTypes ∧
    (nodes.foldl (addNode A) c).dynamicCompatibleFromLinkTypes = c.dynamicCompatibleFromLinkTypes ∧
    (nodes.foldl (addNode A) c).dynamicCompatibleToLinkTypes = c.dynamicCompatibleToLinkTypes := by
  induction nodes generalizing c with
  | nil => simp
  | cons node nodes ih =>
    obtain ⟨hstatic, hdynamic, hrest⟩ := ih (addNode A c node)
    rw [List.foldl_cons]
    by_cases hA : node.abstractAction = A
    · have hself : A ∈ node.below.labels := by
        rw [← hA]
        exact RoseTree.label_mem_labels node.below
      have hadd : addNode A c node = { c with
          staticCompatibleTypes := c.staticCompatibleTypes ∪
            (node.abstractAction :: node.above).toFinset ∪ node.below.labels.toFinset
          dynamicCompatibleTypes := insert node.rootConcreteAction c.dynamicCompatibleTypes } :=
        if_pos hA
      rw [hadd] at hstatic hdynamic hrest ⊢
      refine ⟨fun B => ?_, fun k => ?_, hrest⟩
      · rw [hstatic, List.exists_mem_cons_iff]
        simp only [Finset.mem_union, List.mem_toFinset, List.mem_cons, hA, true_and]
        constructor
        · rintro (((h | rfl | h) | h) | h)
          · exact .inl h
          · exact .inr (.inl (.inr hself))
          · exact .inr (.inl (.inl h))
          · exact .inr (.inl (.inr h))
          · exact .inr (.inr h)
        · rintro (h | (h | h) | h)
          · exact .inl (.inl (.inl h))
          · exact .inl (.inl (.inr (.inr h)))
          · exact .inl (.inr h)
          · exact .inr h
      · rw [hdynamic, List.exists_mem_cons_iff]
        simp only [Finset.mem_insert, hA, true_and]
        rw [or_comm (a := k = node.rootConcreteAction), or_assoc, eq_comm (a := k)]
    · have hadd : addNode A c node = c := if_neg hA
      rw [hadd] at hstatic hdynamic hrest ⊢
      refine ⟨fun B => ?_, fun k => ?_, hrest⟩
      · rw [hstatic, List.exists_mem_cons_iff]
        simp only [hA, false_and, false_or]
      · rw [hdynamic, List.exists_mem_cons_iff]
        simp only [hA, false_and, false_or]

/-- The compatibility of a context before the links are analysed. -/
theorem analyseCompatibility_spec {contexts : List ι} {c : Compatibility ι}
    (h : analyseCompatibility contexts t.inheritanceNodes A = some c) :
    (∀ B, B ∈ c.staticCompatibleTypes ↔ ConcreteTree.Along t A B) ∧
      (∀ k, k ∈ c.dynamicCompatibleTypes ↔ ConcreteTree.Derives t k A) ∧
      c.staticLinkCompatibleTypes = ∅ ∧ c.dynamicCompatibleFromLinkTypes = ∅ ∧
      c.dynamicCompatibleToLinkTypes = ∅ := by
  rw [analyseCompatibility, Option.ite_none_right_eq_some, Option.some.injEq] at h
  obtain ⟨-, rfl⟩ := h
  obtain ⟨hstatic, hdynamic, hrest⟩ := foldl_addNode (A := A) t.inheritanceNodes ⟨∅, ∅, ∅, ∅, ∅⟩
  refine ⟨fun B => ?_, fun k => ?_, hrest⟩
  · rw [hstatic, ConcreteTree.exists_node_iff]
    exact or_iff_right (Finset.notMem_empty B)
  · rw [hdynamic, ConcreteTree.exists_node_root_iff]
    exact or_iff_right (Finset.notMem_empty k)

/-! ## With links -/

variable (I t) in
/-- What the loop over the links has entered for a context, when it has done some of them. -/
structure Entered (links : List ι) (A : ι) (c : Compatibility ι) : Prop where
  static : ∀ B, B ∈ c.staticCompatibleTypes ↔ ConcreteTree.Along t A B
  dynamic : ∀ k, k ∈ c.dynamicCompatibleTypes ↔ ConcreteTree.Derives t k A
  staticLink : ∀ B, B ∈ c.staticLinkCompatibleTypes ↔ ∃ L ∈ links, ∃ T, I.getBaseContexts L = [T] ∧
    (A = L ∧ ConcreteTree.Along t T B ∨ B = L ∧ ConcreteTree.Along t T A)
  toLink : ∀ k, k ∈ c.dynamicCompatibleToLinkTypes ↔ A ∈ links ∧ ∃ T, I.getBaseContexts A = [T] ∧
    ConcreteTree.Derives t k T
  fromLink : ∀ k, k ∈ c.dynamicCompatibleFromLinkTypes ↔ ∃ L ∈ links, ∃ T, I.getBaseContexts L = [T] ∧
    ConcreteTree.Along t T A ∧ ConcreteTree.Derives t k L

omit [DecidableEq ι] in
theorem getCompatibility_eq_ok {m : CompatibilityMap ι} {c : Compatibility ι} :
    m.getCompatibility A = .ok c ↔ m A = some c := by
  rw [CompatibilityMap.getCompatibility]
  cases m A <;> simp

theorem mapError_eq_ok {ε ε' α : Type} {f : ε → ε'} {x : Except ε α} {a : α} :
    x.mapError f = .ok a ↔ x = .ok a := by
  cases x <;> simp [Except.mapError]

section Round
variable {m m' : CompatibilityMap ι} {done : List ι} {link target c : Compatibility ι}

omit [DecidableEq ι] in
/-- Doing one more link adds what holds of it. -/
theorem exists_link_concat {P : ι → ι → Prop} (hT : I.getBaseContexts L = [T]) :
    (∃ L' ∈ done ++ [L], ∃ T, I.getBaseContexts L' = [T] ∧ P L' T) ↔
      (∃ L' ∈ done, ∃ T, I.getBaseContexts L' = [T] ∧ P L' T) ∨ P L T := by
  simp only [List.mem_append, List.mem_singleton, or_and_right, exists_or, exists_eq_left, hT,
    List.cons.injEq, and_true]
  simp only [eq_comm (a := T), exists_eq_left]

/-- The entry of the link, once it has what its target is compatible with. -/
theorem Entered.addTarget (hT : I.getBaseContexts L = [T]) (hlink : Entered I t done L link)
    (htarget : Entered I t done T target) (hL : ¬ ConcreteTree.Along t T L) :
    Entered I t (done ++ [L]) L (link.addTarget target) where
  static := hlink.static
  dynamic := hlink.dynamic
  staticLink B := by
    rw [Compatibility.addTarget, Finset.mem_union, hlink.staticLink, htarget.static,
      exists_link_concat hT]
    simp only [true_and, hL, and_false, or_false]
  toLink k := by
    rw [Compatibility.addTarget, Finset.mem_union, hlink.toLink, htarget.dynamic]
    simp only [List.mem_append, List.mem_singleton, or_true, true_and, hT, List.cons.injEq, and_true,
      exists_eq_left']
    exact or_iff_right_of_imp And.right
  fromLink k := by
    rw [Compatibility.addTarget, hlink.fromLink, exists_link_concat hT]
    simp only [hL, false_and, or_false]

/-- The entry of a context that the target is compatible with. -/
theorem Entered.addLink (hT : I.getBaseContexts L = [T]) (hlink : Entered I t done L link)
    (hA : Entered I t done A c) (hAL : A ≠ L) (halong : ConcreteTree.Along t T A) :
    Entered I t (done ++ [L]) A (c.addLink L link) where
  static := hA.static
  dynamic := hA.dynamic
  staticLink B := by
    rw [Compatibility.addLink, Finset.mem_insert, hA.staticLink, exists_link_concat hT]
    simp only [hAL, false_and, false_or, halong, and_true]
    rw [or_comm]
  toLink k := by
    rw [Compatibility.addLink, hA.toLink]
    simp only [List.mem_append, List.mem_singleton, hAL, or_false]
  fromLink k := by
    rw [Compatibility.addLink, Finset.mem_union, hA.fromLink, hlink.dynamic, exists_link_concat hT]
    simp only [halong, true_and]

omit [DecidableEq ι] in
/-- The entry of any other context. -/
theorem Entered.other (hT : I.getBaseContexts L = [T]) (hA : Entered I t done A c) (hAL : A ≠ L)
    (halong : ¬ ConcreteTree.Along t T A) : Entered I t (done ++ [L]) A c where
  static := hA.static
  dynamic := hA.dynamic
  staticLink B := by
    rw [hA.staticLink, exists_link_concat hT]
    simp only [hAL, false_and, halong, and_false, or_false]
  toLink k := by
    rw [hA.toLink]
    simp only [List.mem_append, List.mem_singleton, hAL, or_false]
  fromLink k := by
    rw [hA.fromLink, exists_link_concat hT]
    simp only [halong, false_and, or_false]

/-- One round of the loop. -/
theorem linkCompatibility_spec (hL : ∀ {T}, I.getBaseContexts L = [T] → ¬ ConcreteTree.Along t T L)
    (hm : ∀ {A c}, m A = some c → Entered I t done A c)
    (h : I.linkCompatibility m L = .ok m') :
    (∀ A, (m' A).isSome = (m A).isSome) ∧ ∀ {A c}, m' A = some c → Entered I t (done ++ [L]) A c := by
  simp only [Interface.linkCompatibility, except_bind_ok, mapError_eq_ok, getCompatibility_eq_ok,
    LinkAnalysis.getLinkTarget_eq_ok] at h
  obtain ⟨link, hlink, T, hT, target, htarget, h⟩ := h
  have hlinked := (hm hlink).addTarget hT (hm htarget) (hL hT)
  split at h
  case isFalse => cases h
  obtain rfl := Except.ok.inj h
  constructor
  · intro A
    by_cases hAL : A = L
    · subst hAL
      simp only [Function.update_self, hlink]
      split <;> rfl
    · simp only [Function.update_of_ne hAL]
      split
      · exact Option.isSome_map
      · rfl
  · intro A c hA
    have halong := (hm htarget).static A
    beta_reduce at hA
    by_cases hAL : A = L
    · subst hAL
      rw [if_neg (halong.not.mpr (hL hT)), Function.update_self, Option.some.injEq] at hA
      rw [← hA]
      exact hlinked
    · rw [Function.update_of_ne hAL] at hA
      by_cases hAT : A ∈ target.staticCompatibleTypes
      · rw [if_pos hAT, Option.map_eq_some_iff] at hA
        obtain ⟨c₁, hc₁, rfl⟩ := hA
        exact (hm hlink).addLink hT (hm hc₁) hAL (halong.mp hAT)
      · rw [if_neg hAT] at hA
        exact (hm hA).other hT hAL (halong.not.mp hAT)

end Round

theorem foldlM_linkCompatibility {m m' : CompatibilityMap ι} {done links : List ι}
    (hL : ∀ {L T}, L ∈ links → I.getBaseContexts L = [T] → ¬ ConcreteTree.Along t T L)
    (hm : ∀ {A c}, m A = some c → Entered I t done A c)
    (h : links.foldlM I.linkCompatibility m = .ok m') :
    (∀ A, (m' A).isSome = (m A).isSome) ∧
      ∀ {A c}, m' A = some c → Entered I t (done ++ links) A c := by
  induction links generalizing m done with
  | nil =>
    obtain rfl := Except.ok.inj h
    rw [List.append_nil]
    exact ⟨fun _ => rfl, hm⟩
  | cons L links ih =>
    rw [List.foldlM_cons, except_bind_ok] at h
    obtain ⟨m₁, hm₁, h⟩ := h
    obtain ⟨hsome, hspec⟩ := linkCompatibility_spec (hL List.mem_cons_self) hm hm₁
    obtain ⟨hsome', hspec'⟩ := ih (fun hmem => hL (List.mem_cons_of_mem L hmem)) hspec h
    rw [List.append_assoc] at hspec'
    exact ⟨fun A => (hsome' A).trans (hsome A), hspec'⟩

variable (I t) in
/-- What the compatibility of a context is once the links are analysed. -/
structure Compatible (A : ι) (c : Compatibility ι) : Prop where
  static : ∀ B, B ∈ c.staticCompatibleTypes ↔ ConcreteTree.Along t A B
  dynamic : ∀ k, k ∈ c.dynamicCompatibleTypes ↔ ConcreteTree.Derives t k A
  staticLink : ∀ B, B ∈ c.staticLinkCompatibleTypes ↔ ConcreteTree.Along t A B ∨
    ∃ L ∈ I.links, ∃ T, I.getBaseContexts L = [T] ∧
      (A = L ∧ ConcreteTree.Along t T B ∨ B = L ∧ ConcreteTree.Along t T A)
  toLink : ∀ k, k ∈ c.dynamicCompatibleToLinkTypes ↔ A ∈ I.links ∧ ∃ T, I.getBaseContexts A = [T] ∧
    ConcreteTree.Derives t k T
  fromLink : ∀ k, k ∈ c.dynamicCompatibleFromLinkTypes ↔ ∃ L ∈ I.links, ∃ T,
    I.getBaseContexts L = [T] ∧ ConcreteTree.Along t T A ∧ ConcreteTree.Derives t k L

theorem compatible_of_linkAnalysis {root : ι} {fuel : ℕ} {linked : Interface.Linked ι}
    (ht : I.instanceAnalysis root fuel = .ok t) (h : I.linkAnalysis t = .ok linked) :
    (∀ A, (∃ c, linked.compatibility.getCompatibility A = .ok c) ↔ A ∈ I.contexts) ∧
      ∀ {A c}, linked.compatibility.getCompatibility A = .ok c → Compatible I t A c := by
  simp only [Interface.linkAnalysis, except_bind_ok, mapError_eq_ok] at h
  obtain ⟨groups, hgroups, dimensions, -, m, hm, hlinked⟩ := h
  obtain rfl := Except.ok.inj hlinked
  simp only [Interface.analyseLinkCompatibility, except_bind_ok] at hm
  obtain ⟨m₁, hm₁, hlast⟩ := hm
  obtain rfl := Except.ok.inj hlast
  have hlinks : ∀ L, L ∈ groups.flatMap LinkGroup.links ↔ L ∈ I.links := by
    intro L
    rw [List.mem_flatMap, (LinkAnalysis.links_of_calculateGroups hgroups).1 L, Interface.mem_links]
  have hempty : ∀ {A c}, analyseCompatibility I.contexts t.inheritanceNodes A = some c →
      Entered I t [] A c := by
    intro A c hA
    obtain ⟨hs, hd, hsl, hfl, htl⟩ := analyseCompatibility_spec hA
    refine ⟨hs, hd, ?_, ?_, ?_⟩ <;> simp [hsl, hfl, htl]
  have hapart : ∀ {L T}, L ∈ groups.flatMap LinkGroup.links → I.getBaseContexts L = [T] →
      ¬ ConcreteTree.Along t T L := by
    intro L T hL hT halong
    have hlink := (Interface.mem_links.mp ((hlinks L).mp hL)).2
    obtain rfl := eq_of_along_link ht hlink halong.symm
    rw [I.base_not_link (c := T) (by simp [hT])] at hlink
    cases hlink
  obtain ⟨hsome, hspec⟩ := foldlM_linkCompatibility hapart hempty hm₁
  simp only [getCompatibility_eq_ok, Option.map_eq_some_iff]
  refine ⟨fun A => ?_, ?_⟩
  · have := hsome A
    rw [Bool.eq_iff_iff, Option.isSome_iff_exists, Option.isSome_iff_exists] at this
    simp only [analyseCompatibility, Option.ite_none_right_eq_some, exists_and_left,
      Option.some.injEq, exists_eq', and_true] at this
    rw [← this]
    exact ⟨fun ⟨_, c, hc, _⟩ => ⟨c, hc⟩, fun ⟨c, hc⟩ => ⟨_, c, hc, rfl⟩⟩
  · rintro A c ⟨c₁, hc₁, rfl⟩
    obtain ⟨hs, hd, hsl, htl, hfl⟩ := hspec hc₁
    simp only [List.nil_append, hlinks] at hsl htl hfl
    refine ⟨hs, hd, fun B => ?_, htl, hfl⟩
    rw [Finset.mem_union, hsl, hs, or_comm]

/-- **Compatibility is coherent.** The static relation is symmetric; without links two contexts are
compatible when they lie on one path of an inheritance tree, and with links besides when one is a link and
the other compatible with its target; the dynamic types of a context are its instances, derived ones
included. -/
theorem compatibility_coherent {root : ι} {fuel : ℕ} {linked : Interface.Linked ι}
    (ht : I.instanceAnalysis root fuel = .ok t) (hlinked : I.linkAnalysis t = .ok linked)
    (hA : A ∈ I.contexts) (hB : B ∈ I.contexts) :
    ∃ a b, linked.compatibility.getCompatibility A = .ok a ∧
      linked.compatibility.getCompatibility B = .ok b ∧
      (B ∈ a.staticLinkCompatibleTypes ↔ A ∈ b.staticLinkCompatibleTypes) ∧
      (B ∈ a.staticCompatibleTypes ↔ ConcreteTree.Along t A B) ∧
      (B ∈ a.staticLinkCompatibleTypes ↔ B ∈ a.staticCompatibleTypes ∨
        (∃ T, (I.getType A).isLink = true ∧ I.getBaseContexts A = [T] ∧ ConcreteTree.Along t T B) ∨
        ∃ T, (I.getType B).isLink = true ∧ I.getBaseContexts B = [T] ∧ ConcreteTree.Along t T A) ∧
      ∀ k, k ∈ a.dynamicCompatibleTypes ↔ k ∈ I.getInstances t A true := by
  obtain ⟨hdom, hspec⟩ := compatible_of_linkAnalysis ht hlinked
  obtain ⟨a, ha⟩ := (hdom A).mpr hA
  obtain ⟨b, hb⟩ := (hdom B).mpr hB
  have hca := hspec ha
  have hcb := hspec hb
  refine ⟨a, b, ha, hb, ?_, hca.static B, ?_, fun k => ?_⟩
  · rw [hca.staticLink, hcb.staticLink]
    refine or_congr ⟨ConcreteTree.Along.symm, ConcreteTree.Along.symm⟩ ?_
    simp only [or_comm]
  · rw [hca.staticLink, hca.static]
    refine or_congr_right ⟨?_, ?_⟩
    · rintro ⟨L, hL, T, hT, ⟨rfl, h⟩ | ⟨rfl, h⟩⟩
      · exact .inl ⟨T, (Interface.mem_links.mp hL).2, hT, h⟩
      · exact .inr ⟨T, (Interface.mem_links.mp hL).2, hT, h⟩
    · rintro (⟨T, hL, hT, h⟩ | ⟨T, hL, hT, h⟩)
      · exact ⟨A, Interface.mem_links.mpr ⟨hA, hL⟩, T, hT, .inl ⟨rfl, h⟩⟩
      · exact ⟨B, Interface.mem_links.mpr ⟨hB, hL⟩, T, hT, .inr ⟨rfl, h⟩⟩
  · rw [hca.dynamic, mem_getInstances_iff (Interface.mem_contexts.mp hA).2]

end Coherence

/-! ## A program with a link -/

/-- `action A; action B : A; link L : B;`. -/
def linking : Interface ℕ :=
  .ofDeclarations
    [⟨.eAbstractRoot .eInterfaceRoot, "", none, []⟩, ⟨.eAbstractRoot .eFileRoot, "root", some 0, []⟩,
      ⟨.eAbstractAction, "A", some 1, []⟩, ⟨.eAbstractAction, "B", some 1, [2]⟩,
      ⟨.eAbstractLink, "L", some 1, [3]⟩, ⟨.eAbstractDimension, "base", some 4, []⟩] (by decide)

/-- A session whose analyses succeed and have a property that can be tested. -/
theorem exists_session {ι : Type} [DecidableEq ι] (I : Interface ι) (root : ι) (fuel : ℕ)
    (P : ConcreteTree ι → Interface.Linked ι → Bool)
    (h : ((I.instanceAnalysis root fuel).toOption.bind fun t =>
      (I.linkAnalysis t).toOption.map (P t)) = some true) :
    ∃ t linked, I.instanceAnalysis root fuel = .ok t ∧ I.linkAnalysis t = .ok linked ∧
      P t linked = true := by
  obtain ⟨t, ht, h⟩ := Option.bind_eq_some_iff.mp h
  obtain ⟨linked, hlinked, hP⟩ := Option.map_eq_some_iff.mp h
  exact ⟨t, linked, toOption_eq_some.mp ht, toOption_eq_some.mp hlinked, hP⟩

/-- The link and the base of its target are compatible, and the dynamic types of the base are the concrete
actions of both. -/
theorem linking_coherent :
    ∃ t linked, linking.instanceAnalysis 0 5 = .ok t ∧ linking.linkAnalysis t = .ok linked ∧
      ∃ a b, linked.compatibility.getCompatibility 2 = .ok a ∧
        linked.compatibility.getCompatibility 4 = .ok b ∧
        (4 ∈ a.staticLinkCompatibleTypes ↔ 2 ∈ b.staticLinkCompatibleTypes) ∧
        ∀ k, k ∈ a.dynamicCompatibleTypes ↔ k ∈ linking.getInstances t 2 true := by
  obtain ⟨t, linked, ht, hlinked, _⟩ := exists_session linking 0 5 (fun _ _ => true) (by decide +kernel)
  obtain ⟨a, b, ha, hb, hsymm, -, -, hdynamic⟩ := compatibility_coherent ht hlinked
    (by decide +kernel : 2 ∈ linking.contexts) (by decide +kernel : 4 ∈ linking.contexts)
  exact ⟨t, linked, ht, hlinked, a, b, ha, hb, hsymm, hdynamic⟩

end EgLang.Compiler
