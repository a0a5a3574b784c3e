import EgLang.Library.RoseTree

/-!
# Trees in a vector

A vector of nodes that know their children by index. In a forest every child stands behind its
parent and has no other one, so that each index is the root of one tree, and no index occurs twice
in a tree.
-/

namespace EgLang.Library

set_option autoImplicit false

variable {α β : Type} (labelOf : α → β) (childrenOf : α → List ℕ)

/-- The children of each node stand behind it, and have no other parent. -/
structure Forest (nodes : List α) : Prop where
  child_lt : ∀ {i : ℕ} {a : α}, nodes[i]? = some a → ∀ c ∈ childrenOf a, i < c ∧ c < nodes.length
  children_nodup : ∀ {i : ℕ} {a : α}, nodes[i]? = some a → (childrenOf a).Nodup
  parent_unique : ∀ {i j : ℕ} {a b : α} {c : ℕ}, nodes[i]? = some a → nodes[j]? = some b →
    c ∈ childrenOf a → c ∈ childrenOf b → i = j

/-- The tree stands in the vector, the nodes being labelled by their indices. -/
inductive Stands (nodes : List α) : RoseTree (ℕ × β) → Prop
  | node {i : ℕ} {a : α} {ts : List (RoseTree (ℕ × β))} (hget : nodes[i]? = some a)
      (hchildren : childrenOf a = ts.map fun t => t.label.1)
      (hstands : ∀ t ∈ ts, Stands nodes t) : Stands nodes (.node (i, labelOf a) ts)

/-- The index of the root of a tree. -/
def RoseTree.index (t : RoseTree (ℕ × β)) : ℕ := t.label.1

/-- The indices in a tree. -/
def RoseTree.indices (t : RoseTree (ℕ × β)) : List ℕ := t.labels.map Prod.fst

@[simp] theorem RoseTree.index_node (i : ℕ) (b : β) (ts : List (RoseTree (ℕ × β))) :
    (RoseTree.node (i, b) ts).index = i := rfl

theorem RoseTree.indices_node (i : ℕ) (b : β) (ts : List (RoseTree (ℕ × β))) :
    (RoseTree.node (i, b) ts).indices = i :: (ts.map RoseTree.indices).flatten := by
  rw [indices, labels_node, List.map_cons, List.map_flatten, List.map_map]
  rfl

theorem RoseTree.mem_indices_node {i j : ℕ} {b : β} {ts : List (RoseTree (ℕ × β))} :
    j ∈ (RoseTree.node (i, b) ts).indices ↔ j = i ∨ ∃ t ∈ ts, j ∈ t.indices := by
  rw [indices_node, List.mem_cons, List.mem_flatten]
  simp only [List.mem_map, exists_exists_and_eq_and]

theorem RoseTree.index_mem_indices (t : RoseTree (ℕ × β)) : t.index ∈ t.indices := by
  cases t with
  | node a ts => exact RoseTree.mem_indices_node.mpr (.inl rfl)

variable {labelOf childrenOf} {nodes nodes' : List α}

/-- What a tree says of its root. -/
theorem Stands.get {t : RoseTree (ℕ × β)} (h : Stands labelOf childrenOf nodes t) :
    ∃ a, nodes[t.index]? = some a ∧ labelOf a = t.label.2 ∧
      childrenOf a = t.children.map RoseTree.index := by
  cases h with
  | node hget hchildren hstands => exact ⟨_, hget, rfl, hchildren⟩

theorem Stands.child {t c : RoseTree (ℕ × β)} (h : Stands labelOf childrenOf nodes t)
    (hc : c ∈ t.children) : Stands labelOf childrenOf nodes c := by
  cases h with
  | node hget hchildren hstands => exact hstands c hc

/-- The labels of a tree are what the vector says of its indices. -/
theorem Stands.mem_labels {t : RoseTree (ℕ × β)} (h : Stands labelOf childrenOf nodes t) {j : ℕ}
    {b : β} : (j, b) ∈ t.labels ↔ j ∈ t.indices ∧ ∃ a, nodes[j]? = some a ∧ labelOf a = b := by
  induction h with
  | @node i a ts hget hchildren hstands ih =>
    rw [RoseTree.mem_labels_node, RoseTree.mem_indices_node]
    constructor
    · rintro (heq | ⟨t, ht, hj⟩)
      · obtain ⟨rfl, rfl⟩ := Prod.mk.inj heq
        exact ⟨.inl rfl, a, hget, rfl⟩
      · obtain ⟨hi, hb⟩ := (ih t ht).mp hj
        exact ⟨.inr ⟨t, ht, hi⟩, hb⟩
    · rintro ⟨rfl | ⟨t, ht, hj⟩, a', ha', hb⟩
      · rw [hget, Option.some.injEq] at ha'
        subst ha'
        exact .inl (by rw [hb])
      · exact .inr ⟨t, ht, (ih t ht).mpr ⟨hj, a', ha', hb⟩⟩

/-- At most one tree stands at an index. -/
theorem Stands.unique {t t' : RoseTree (ℕ × β)} (h : Stands labelOf childrenOf nodes t)
    (h' : Stands labelOf childrenOf nodes t') (hi : t.index = t'.index) : t = t' := by
  induction h generalizing t' with
  | @node i a ts hget hchildren hstands ih =>
    cases h' with
    | @node i' a' ts' hget' hchildren' hstands' =>
      have hii : i = i' := hi
      subst hii
      rw [hget, Option.some.injEq] at hget'
      subst hget'
      have hts : ts = ts' := by
        have hmap := hchildren.symm.trans hchildren'
        clear hchildren hchildren' hi
        induction ts generalizing ts' with
        | nil => exact (List.map_eq_nil_iff.mp hmap.symm).symm
        | cons t ts ihts =>
          cases ts' with
          | nil => cases hmap
          | cons t' ts' =>
            rw [List.map_cons, List.map_cons, List.cons.injEq] at hmap
            have hhead := ih t List.mem_cons_self (hstands' t' List.mem_cons_self) hmap.1
            rw [hhead, ihts (fun s hs => hstands s (List.mem_cons_of_mem t hs))
              (fun s hs => ih s (List.mem_cons_of_mem t hs))
              (fun s hs => hstands' s (List.mem_cons_of_mem t' hs)) hmap.2]
      rw [hts]

/-- A tree stands wherever its indices do. -/
theorem Stands.congr {t : RoseTree (ℕ × β)} (h : Stands labelOf childrenOf nodes t)
    (heq : ∀ i ∈ t.indices, nodes'[i]? = nodes[i]?) : Stands labelOf childrenOf nodes' t := by
  induction h with
  | @node i a ts hget hchildren hstands ih =>
    refine .node ((heq i (RoseTree.mem_indices_node.mpr (.inl rfl))).trans hget) hchildren
      fun t ht => ih t ht fun j hj => heq j (RoseTree.mem_indices_node.mpr (.inr ⟨t, ht, hj⟩))

/-- The indices of a tree, but for its root, have their parent in the tree. -/
theorem Stands.parent {t : RoseTree (ℕ × β)} (h : Stands labelOf childrenOf nodes t) {j : ℕ}
    (hj : j ∈ t.indices) : j = t.index ∨
      ∃ i ∈ t.indices, ∃ a, nodes[i]? = some a ∧ j ∈ childrenOf a := by
  induction h with
  | @node i a ts hget hchildren hstands ih =>
    rcases RoseTree.mem_indices_node.mp hj with rfl | ⟨t, ht, hj⟩
    · exact .inl rfl
    · refine .inr ?_
      rcases ih t ht hj with rfl | ⟨k, hk, b, hb, hjb⟩
      · exact ⟨i, RoseTree.mem_indices_node.mpr (.inl rfl), a, hget,
          hchildren ▸ List.mem_map_of_mem ht⟩
      · exact ⟨k, RoseTree.mem_indices_node.mpr (.inr ⟨t, ht, hk⟩), b, hb, hjb⟩

/-- The indices of a tree lie from its root on, inside the vector. -/
theorem Stands.index_le (hf : Forest childrenOf nodes) {t : RoseTree (ℕ × β)}
    (h : Stands labelOf childrenOf nodes t) {j : ℕ} (hj : j ∈ t.indices) :
    t.index ≤ j ∧ j < nodes.length := by
  induction h with
  | @node i a ts hget hchildren hstands ih =>
    rcases RoseTree.mem_indices_node.mp hj with rfl | ⟨t, ht, hj⟩
    · exact ⟨le_rfl, (List.getElem?_eq_some_iff.mp hget).1⟩
    · obtain ⟨hle, hlt⟩ := ih t ht hj
      have hchild : t.index ∈ childrenOf a := hchildren ▸ List.mem_map_of_mem ht
      exact ⟨((hf.child_lt hget _ hchild).1.le).trans hle, hlt⟩

/-- No way down is longer than the vector. -/
theorem Stands.index_add_depth_le (hf : Forest childrenOf nodes) {t : RoseTree (ℕ × β)}
    (h : Stands labelOf childrenOf nodes t) : t.index + t.depth ≤ nodes.length := by
  induction h with
  | @node i a ts hget hchildren hstands ih =>
    have hi : i < nodes.length := (List.getElem?_eq_some_iff.mp hget).1
    have hd : (RoseTree.node (i, labelOf a) ts).depth ≤ nodes.length - i - 1 + 1 := by
      refine RoseTree.depth_le fun t ht => ?_
      have hlt := (hf.child_lt hget t.index (hchildren ▸ List.mem_map_of_mem ht)).1
      have := ih t ht
      omega
    show i + _ ≤ _
    omega

/-- Two trees with the same parent have no index in common. -/
theorem Stands.disjoint (hf : Forest childrenOf nodes) {i : ℕ} {a : α} {s t : RoseTree (ℕ × β)}
    (hget : nodes[i]? = some a) (hs : Stands labelOf childrenOf nodes s)
    (ht : Stands labelOf childrenOf nodes t) (his : s.index ∈ childrenOf a)
    (hit : t.index ∈ childrenOf a) (hne : s.index ≠ t.index) {j : ℕ} (hjs : j ∈ s.indices) :
    j ∉ t.indices := by
  -- an index in both has its parent in both, unless it is one of the two roots
  induction j using Nat.strong_induction_on with
  | _ j ih =>
    intro hjt
    rcases hs.parent hjs with rfl | ⟨k, hk, b, hb, hjb⟩
    · rcases ht.parent hjt with heq | ⟨k, hk, b, hb, hjb⟩
      · exact hne heq
      · have hik := hf.parent_unique hget hb his hjb
        have := (ht.index_le hf hk).1
        have := (hf.child_lt hget _ hit).1
        omega
    · rcases ht.parent hjt with rfl | ⟨k', hk', b', hb', hjb'⟩
      · have hik := hf.parent_unique hget hb hit hjb
        have := (hs.index_le hf hk).1
        have := (hf.child_lt hget _ his).1
        omega
      · obtain rfl := hf.parent_unique hb hb' hjb hjb'
        exact ih k (hf.child_lt hb j hjb).1 hk hk'

/-- **No index occurs twice** in a tree. -/
theorem Stands.indices_nodup (hf : Forest childrenOf nodes) {t : RoseTree (ℕ × β)}
    (h : Stands labelOf childrenOf nodes t) : t.indices.Nodup := by
  induction h with
  | @node i a ts hget hchildren hstands ih =>
    rw [RoseTree.indices_node, List.nodup_cons, List.nodup_flatten]
    have hmem : ∀ t ∈ ts, t.index ∈ childrenOf a := fun t ht => hchildren ▸ List.mem_map_of_mem ht
    refine ⟨fun hi => ?_, ?_, ?_⟩
    · obtain ⟨l, hl, hil⟩ := List.mem_flatten.mp hi
      obtain ⟨t, ht, rfl⟩ := List.mem_map.mp hl
      have := ((hstands t ht).index_le hf hil).1
      have := (hf.child_lt hget _ (hmem t ht)).1
      omega
    · exact List.forall_mem_map.mpr ih
    · have hnd : (ts.map RoseTree.index).Nodup := by
        have := hf.children_nodup hget
        rwa [hchildren] at this
      rw [List.pairwise_map]
      refine (List.pairwise_map.mp hnd).imp_of_mem fun hs ht hne j hjs hjt => ?_
      exact (hstands _ hs).disjoint hf hget (hstands _ ht) (hmem _ hs) (hmem _ ht) hne hjs hjt

end EgLang.Library
