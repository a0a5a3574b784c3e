import EgLang.Compiler.Expansion
import EgLang.Compiler.Prune

/-!
# Growth of the tree

Both passes over the vector keep it a forest, and what they do to the tree at node 0 can be told from
the tree alone, but for the indices of the new nodes.
-/

namespace EgLang.Compiler

open EgLang.Library

set_option autoImplicit false

variable {ι κ : Type}

/-! ## Trees without indices -/

namespace NameTree

/-- The tree without its indices. -/
def forget (t : NameTree ℕ ι κ) : NameTree Unit ι κ := rename (fun _ => ()) t

/-- The leaves of a tree. -/
def leaves {σ : Type} : NameTree σ ι κ → List (Mark ι κ) :=
  RoseTree.fold fun a ls => if ls.isEmpty then [a.2] else ls.flatten

theorem leaves_leaf {σ : Type} (a : σ × Mark ι κ) : leaves (.node a []) = [a.2] :=
  RoseTree.fold_node _ a []

theorem mem_leaves {σ : Type} {a : σ × Mark ι κ} {ts : List (NameTree σ ι κ)} (hts : ts ≠ [])
    {m : Mark ι κ} : m ∈ leaves (.node a ts) ↔ ∃ t ∈ ts, m ∈ leaves t := by
  have hne : (ts.map leaves).isEmpty = false := by simpa using hts
  have hnode : leaves (.node a ts) = (ts.map leaves).flatten := by
    rw [leaves, RoseTree.fold_node]
    exact if_neg (by rw [← leaves, hne]; decide)
  rw [hnode, List.mem_flatten]
  simp only [List.mem_map, exists_exists_and_eq_and]

/-- A new leaf. -/
def newLeaf (isMember : Bool) (e : ElementPair ι κ) : NameTree Unit ι κ :=
  .node ((), ⟨e, isMember, false⟩) []

/-- Every leaf gets the children that it demands. -/
def growTree (demand : ElementPair ι κ → Option (NameResolution.Growth ι κ)) :
    NameTree Unit ι κ → NameTree Unit ι κ :=
  RoseTree.fold fun a ts =>
    if ts.isEmpty then
      match demand a.2.element with
      | some g => .node ((), { a.2 with isReference := a.2.isReference || g.isReference })
          (g.elements.map (newLeaf g.isMember))
      | none => .node a []
    else .node a ts

end NameTree

namespace NameResolution

open NameTree

/-! ## The forest -/

variable {nodes : Nodes ι κ}

theorem forest_add (h : IsForest nodes) {i : ℕ} (hi : i < nodes.length) (e : ElementPair ι κ)
    (m r : Bool) : IsForest (add nodes i e m r) := by
  -- a node of the new vector is an old one, with the new child where it is the parent, or the new one
  have hget : ∀ {j : ℕ} {node : Name ι κ}, (add nodes i e m r)[j]? = some node →
      (∃ old, nodes[j]? = some old ∧
        node.children = if i = j then old.children ++ [nodes.length] else old.children) ∨
      node.children = [] := fun {j node} hj => by
    rw [getElem?_add] at hj
    by_cases hlt : j < nodes.length
    · rw [List.getElem?_append_left hlt, List.getElem?_eq_getElem hlt] at hj
      obtain rfl := Option.some.inj hj
      refine .inl ⟨nodes[j], List.getElem?_eq_getElem hlt, ?_⟩
      split <;> rfl
    · rw [List.getElem?_append_right (by omega)] at hj
      have hzero : j - nodes.length = 0 := by
        by_contra hne
        rw [List.getElem?_eq_none (by simp; omega)] at hj
        cases hj
      rw [hzero] at hj
      obtain rfl := Option.some.inj hj
      have hij : i ≠ j := by omega
      exact .inr (by simp [hij])
  have hmem : ∀ {j : ℕ} {node : Name ι κ} {c : ℕ}, (add nodes i e m r)[j]? = some node →
      c ∈ node.children → (∃ old, nodes[j]? = some old ∧ c ∈ old.children) ∨
        j = i ∧ c = nodes.length := fun {j node c} hj hc => by
    rcases hget hj with ⟨old, hold, hchildren⟩ | hnil
    · rw [hchildren] at hc
      split at hc
      · rename_i hij
        rcases List.mem_append.mp hc with hc | hc
        · exact .inl ⟨old, hold, hc⟩
        · exact .inr ⟨hij.symm, List.mem_singleton.mp hc⟩
      · exact .inl ⟨old, hold, hc⟩
    · rw [hnil] at hc
      cases hc
  refine ⟨fun hj c hc => ?_, fun hj => ?_, fun hj hk hcj hck => ?_⟩
  · rw [length_add]
    rcases hmem hj hc with ⟨old, hold, hc⟩ | ⟨rfl, rfl⟩
    · have := h.child_lt hold c hc
      omega
    · omega
  · rcases hget hj with ⟨old, hold, hchildren⟩ | hnil
    · rw [hchildren]
      split
      · refine List.nodup_append.mpr ⟨h.children_nodup hold, List.nodup_singleton _, ?_⟩
        intro a ha b hb hab
        rw [List.mem_singleton.mp hb] at hab
        have := (h.child_lt hold a ha).2
        omega
      · exact h.children_nodup hold
    · rw [hnil]
      exact List.nodup_nil
  · rcases hmem hj hcj with ⟨a, ha, hca⟩ | ⟨rfl, rfl⟩
    · rcases hmem hk hck with ⟨b, hb, hcb⟩ | ⟨rfl, rfl⟩
      · exact h.parent_unique ha hb hca hcb
      · exact absurd (h.child_lt ha _ hca).2 (lt_irrefl _)
    · rcases hmem hk hck with ⟨b, hb, hcb⟩ | ⟨rfl, -⟩
      · exact absurd (h.child_lt hb _ hcb).2 (lt_irrefl _)
      · rfl

theorem forest_addAll (h : IsForest nodes) {i : ℕ} (hi : i < nodes.length)
    (es : List (ElementPair ι κ)) (m : Bool) : IsForest (addAll nodes i es m) := by
  induction es generalizing nodes with
  | nil => exact h
  | cons e es ih =>
    exact ih (forest_add h hi e m false) (by rw [length_add]; omega)

theorem shrunk_setReference (nodes : Nodes ι κ) (i : ℕ) : Shrunk nodes (setReference nodes i) :=
  shrunk_modify fun _ _ => ⟨.refl _, rfl, id⟩

variable {demand : ElementPair ι κ → Option (Growth ι κ)}

theorem forest_grow (h : IsForest nodes) : IsForest (grow demand nodes) := by
  have hone : ∀ (s : Nodes ι κ) (i : ℕ), IsForest s → IsForest (growAt demand s i) :=
    fun s i hs => by
      unfold growAt
      cases hi : s[i]? with
      | none => exact hs
      | some node =>
        have hlt : i < s.length := (List.getElem?_eq_some_iff.mp hi).1
        rw [Option.bind_some]
        split
        · split
          · have hset := shrunk_setReference s i
            exact forest_addAll (hset.forest hs) (by rw [hset.length]; exact hlt) _ _
          · exact forest_addAll hs hlt _ _
        · exact hs
  suffices hall : ∀ (is : List ℕ) (s : Nodes ι κ), IsForest s →
      IsForest (is.foldl (growAt demand) s) from hall _ nodes h
  intro is
  induction is with
  | nil => exact fun _ hs => hs
  | cons i is ih => exact fun s hs => ih _ (hone s i hs)

/-! ## The tree -/

theorem forget_node (i : ℕ) (m : Mark ι κ) (ts : List (NameTree ℕ ι κ)) :
    forget (.node (i, m) ts) = .node ((), m) (ts.map forget) :=
  rename_node _ _ ts

theorem growTree_node {a : Unit × Mark ι κ} {ts : List (NameTree Unit ι κ)} (hts : ts ≠ []) :
    growTree demand (.node a ts) = .node a (ts.map (growTree demand)) := by
  have hne : (ts.map (growTree demand)).isEmpty = false := by simpa using hts
  rw [growTree, RoseTree.fold_node]
  exact if_neg (by rw [← growTree, hne]; decide)

theorem growTree_leaf (a : Unit × Mark ι κ) : growTree demand (.node a []) =
    match demand a.2.element with
    | some g => .node ((), { a.2 with isReference := a.2.isReference || g.isReference })
        (g.elements.map (newLeaf g.isMember))
    | none => .node a [] := by
  rw [growTree, RoseTree.fold_node]
  rfl

/-- **A pass over the vector grows the tree** that stands in it. -/
theorem grow_stands (demand : ElementPair ι κ → Option (Growth ι κ)) {t : NameTree ℕ ι κ}
    (h : StandsIn nodes t) :
    ∃ t', StandsIn (grow demand nodes) t' ∧ t'.index = t.index ∧
      forget t' = growTree demand (forget t) := by
  induction h with
  | @node i node ts hget hchildren hstands ih =>
    have hg := grow_grown demand hget
    by_cases hts : ts = []
    · subst hts
      have hnil : node.children = [] := hchildren
      rw [GrownAt, demandOf, if_pos hnil] at hg
      rw [forget_node, List.map_nil, growTree_leaf]
      have helement : node.mark.element = node.element := rfl
      dsimp only
      rw [helement]
      cases hd : demand node.element with
      | none =>
        rw [hd] at hg
        exact ⟨_, .node hg hchildren (fun _ ht => absurd ht List.not_mem_nil), rfl, rfl⟩
      | some g =>
        rw [hd] at hg
        obtain ⟨base, -, hparent, hnew⟩ := hg
        -- the new children stand from `base` on
        let cs : List (NameTree ℕ ι κ) := g.elements.mapIdx fun k e =>
          .node (base + k, ⟨e, g.isMember, false⟩) []
        have hcs : List.range' base g.elements.length = cs.map RoseTree.index := by
          refine List.ext_getElem (by simp [cs]) fun k hk hk' => ?_
          simp [cs]
        have hforget : cs.map forget = g.elements.map (newLeaf g.isMember) := by
          refine List.ext_getElem (by simp [cs]) fun k hk hk' => ?_
          simp [cs, forget_node, newLeaf]
        refine ⟨.node (i, (g.parent node base).mark) cs,
          .node hparent hcs fun c hc => ?_, rfl, ?_⟩
        · obtain ⟨k, hk, rfl⟩ := List.mem_mapIdx.mp hc
          exact .node (hnew k hk) rfl fun _ ht => absurd ht List.not_mem_nil
        · rw [forget_node, hforget]
          rfl
    · have hkids : ∀ us : List (NameTree ℕ ι κ), (∀ u ∈ us, u ∈ ts) →
          ∃ vs : List (NameTree ℕ ι κ), vs.map RoseTree.index = us.map RoseTree.index ∧
            vs.map forget = us.map (growTree demand ∘ forget) ∧
            ∀ v ∈ vs, StandsIn (grow demand nodes) v := by
        intro us
        induction us with
        | nil => exact fun _ => ⟨[], rfl, rfl, fun _ hv => absurd hv List.not_mem_nil⟩
        | cons u us ihu =>
          intro hus
          obtain ⟨v, hv, hvi, hvf⟩ := ih u (hus u List.mem_cons_self)
          obtain ⟨vs, hvsi, hvsf, hvs⟩ := ihu fun w hw => hus w (List.mem_cons_of_mem u hw)
          refine ⟨v :: vs, ?_, ?_, List.forall_mem_cons.mpr ⟨hv, hvs⟩⟩
          · rw [List.map_cons, List.map_cons, hvi, hvsi]
          · rw [List.map_cons, List.map_cons, hvf, hvsf]
            rfl
      obtain ⟨vs, hvsi, hvsf, hvs⟩ := hkids ts fun _ hu => hu
      have hkeep : (grow demand nodes)[i]? = some node := by
        have hne : node.children ≠ [] := by rw [hchildren]; simpa using hts
        rwa [GrownAt, demandOf, if_neg hne] at hg
      refine ⟨.node (i, node.mark) vs, .node hkeep (hchildren.trans hvsi.symm) hvs, rfl, ?_⟩
      rw [forget_node, forget_node, hvsf, growTree_node (by simpa using hts), List.map_map]

/-- The leaves of a tree are the leaves of the vector that it reaches. -/
theorem mem_leaves_iff {t : NameTree ℕ ι κ} (h : StandsIn nodes t) {m : Mark ι κ} :
    m ∈ leaves (forget t) ↔ ∃ i ∈ t.indices, ∃ node, nodes[i]? = some node ∧
      node.children = [] ∧ node.mark = m := by
  induction h with
  | @node i node ts hget hchildren hstands ih =>
    rw [forget_node]
    by_cases hts : ts = []
    · subst hts
      rw [List.map_nil, leaves_leaf, List.mem_singleton]
      simp only [RoseTree.mem_indices_node, List.not_mem_nil, false_and, exists_false, or_false,
        exists_eq_left, hget, Option.some.injEq, exists_eq_left']
      exact ⟨fun hm => ⟨hchildren, hm.symm⟩, fun hm => hm.2.symm⟩
    · rw [mem_leaves (by simpa using hts)]
      constructor
      · rintro ⟨u, hu, hm⟩
        obtain ⟨c, hc, rfl⟩ := List.mem_map.mp hu
        obtain ⟨j, hj, x, hx, hnil, hmark⟩ := (ih c hc).mp hm
        exact ⟨j, RoseTree.mem_indices_node.mpr (.inr ⟨c, hc, hj⟩), x, hx, hnil, hmark⟩
      · rintro ⟨j, hj, x, hx, hnil, hmark⟩
        rcases RoseTree.mem_indices_node.mp hj with rfl | ⟨c, hc, hj⟩
        · rw [hget, Option.some.injEq] at hx
          subst hx
          rw [hchildren] at hnil
          exact absurd (List.map_eq_nil_iff.mp hnil) hts
        · exact ⟨forget c, List.mem_map_of_mem hc, (ih c hc).mpr ⟨j, hj, x, hx, hnil, hmark⟩⟩

end NameResolution
end EgLang.Compiler
