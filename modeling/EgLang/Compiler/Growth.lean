import EgLang.Compiler.NameResolution

/-!
# Growth

Both passes over the vector of nodes give children to leaves, as each leaf's own element demands. A
pass visits every node that was there at its start once, and what it adds stands behind them.
-/

namespace EgLang.Compiler.NameResolution

set_option autoImplicit false

variable {ι κ : Type}

/-! ## Children are added -/

theorem length_add (nodes : Nodes ι κ) (i : ℕ) (e : ElementPair ι κ) (m r : Bool) :
    (add nodes i e m r).length = nodes.length + 1 := by
  simp [add]

theorem getElem?_add (nodes : Nodes ι κ) (i j : ℕ) (e : ElementPair ι κ) (m r : Bool) :
    (add nodes i e m r)[j]? = (fun node : Name ι κ => if i = j then
        { node with children := node.children ++ [nodes.length] } else node) <$>
      (nodes ++ [(⟨e, m, r, []⟩ : Name ι κ)])[j]? := by
  rw [add, List.getElem?_modify]

theorem length_addAll (nodes : Nodes ι κ) (i : ℕ) (es : List (ElementPair ι κ)) (m : Bool) :
    (addAll nodes i es m).length = nodes.length + es.length := by
  induction es generalizing nodes with
  | nil => rfl
  | cons e es ih =>
    show (addAll (add nodes i e m false) i es m).length = _
    rw [ih, length_add, List.length_cons]
    omega

theorem getElem?_addAll_of_ne {nodes : Nodes ι κ} {i j : ℕ} (es : List (ElementPair ι κ)) (m : Bool)
    (hj : j < nodes.length) (hne : j ≠ i) : (addAll nodes i es m)[j]? = nodes[j]? := by
  induction es generalizing nodes with
  | nil => rfl
  | cons e es ih =>
    show (addAll (add nodes i e m false) i es m)[j]? = _
    have hone : (add nodes i e m false)[j]? = nodes[j]? := by
      rw [getElem?_add, List.getElem?_append_left hj]
      simp [Ne.symm hne]
    rw [ih (by rw [length_add]; omega), hone]

theorem getElem?_addAll_self {nodes : Nodes ι κ} {i : ℕ} {node : Name ι κ}
    (es : List (ElementPair ι κ)) (m : Bool) (h : nodes[i]? = some node) :
    (addAll nodes i es m)[i]? = some { node with
      children := node.children ++ List.range' nodes.length es.length } := by
  have hi : i < nodes.length := (List.getElem?_eq_some_iff.mp h).1
  induction es generalizing nodes node with
  | nil => simpa [addAll] using h
  | cons e es ih =>
    show (addAll (add nodes i e m false) i es m)[i]? = _
    have hone : (add nodes i e m false)[i]? =
        some { node with children := node.children ++ [nodes.length] } := by
      rw [getElem?_add, List.getElem?_append_left hi, h]
      simp
    rw [ih hone (by rw [length_add]; omega), length_add, List.length_cons]
    simp [List.range'_succ]

theorem getElem?_addAll_new {nodes : Nodes ι κ} {i k : ℕ} (es : List (ElementPair ι κ)) (m : Bool)
    (hi : i < nodes.length) (hk : k < es.length) :
    (addAll nodes i es m)[nodes.length + k]? = some ⟨es[k], m, false, []⟩ := by
  induction es generalizing nodes k with
  | nil => cases hk
  | cons e es ih =>
    show (addAll (add nodes i e m false) i es m)[nodes.length + k]? = _
    cases k with
    | zero =>
      have hlt : nodes.length < (add nodes i e m false).length := by rw [length_add]; omega
      rw [Nat.add_zero, getElem?_addAll_of_ne es m hlt (by omega), getElem?_add,
        List.getElem?_append_right le_rfl]
      simp [Nat.ne_of_lt hi]
    | succ k =>
      have hk' : k < es.length := by simpa using hk
      have hnew := @ih (add nodes i e m false) k (by rw [length_add]; omega) hk'
      rw [length_add, Nat.add_assoc, Nat.add_comm 1 k] at hnew
      exact hnew

/-! ## Growth of one node and of all -/

/-- The children that a leaf gets. -/
structure Growth (ι κ : Type) where
  isReference : Bool
  isMember : Bool
  elements : List (ElementPair ι κ)

/-- The name of a leaf that has grown, its children standing from `base` on. -/
def Growth.parent (g : Growth ι κ) (node : Name ι κ) (base : ℕ) : Name ι κ :=
  ⟨node.element, node.isMember, node.isReference || g.isReference,
    List.range' base g.elements.length⟩

section Grow
variable (demand : ElementPair ι κ → Option (Growth ι κ))

/-- What a node demands: only leaves grow. -/
def demandOf (node : Name ι κ) : Option (Growth ι κ) :=
  if node.children = [] then demand node.element else none

/-- One node is visited. -/
def growAt (nodes : Nodes ι κ) (i : ℕ) : Nodes ι κ :=
  match nodes[i]?.bind (demandOf demand) with
  | some g => addAll (if g.isReference then setReference nodes i else nodes) i g.elements g.isMember
  | none => nodes

/-- All nodes are visited. -/
def grow (nodes : Nodes ι κ) : Nodes ι κ :=
  (List.range nodes.length).foldl (growAt demand) nodes

/-- A node that has been visited: it stands with its new children, or as before. -/
def GrownAt (node : Name ι κ) (size : ℕ) (nodes : Nodes ι κ) (i : ℕ) : Prop :=
  match demandOf demand node with
  | none => nodes[i]? = some node
  | some g => ∃ base, size ≤ base ∧ nodes[i]? = some (g.parent node base) ∧
      ∀ k (hk : k < g.elements.length),
        nodes[base + k]? = some ⟨g.elements[k], g.isMember, false, []⟩

variable {demand}

theorem demandOf_eq_some {node : Name ι κ} {g : Growth ι κ} :
    demandOf demand node = some g ↔ node.children = [] ∧ demand node.element = some g := by
  unfold demandOf
  split <;> simp_all

theorem length_growAt (nodes : Nodes ι κ) (i : ℕ) : nodes.length ≤ (growAt demand nodes i).length := by
  unfold growAt
  split
  · rw [length_addAll]
    split
    · simp [setReference]
    · omega
  · exact le_rfl

theorem getElem?_growAt_of_ne {nodes : Nodes ι κ} {i j : ℕ} (hj : j < nodes.length) (hne : j ≠ i) :
    (growAt demand nodes i)[j]? = nodes[j]? := by
  unfold growAt
  split
  · split
    · rw [getElem?_addAll_of_ne _ _ (by simpa [setReference] using hj) hne, setReference,
        List.getElem?_modify]
      simp [hne.symm]
    · exact getElem?_addAll_of_ne _ _ hj hne
  · rfl

theorem grownAt_growAt {nodes : Nodes ι κ} {i size : ℕ} {node : Name ι κ} (h : nodes[i]? = some node)
    (hsize : size ≤ nodes.length) : GrownAt demand node size (growAt demand nodes i) i := by
  have hi : i < nodes.length := (List.getElem?_eq_some_iff.mp h).1
  unfold GrownAt growAt
  rw [h, Option.bind_some]
  cases hd : demandOf demand node with
  | none => exact h
  | some g =>
    have hchildren := (demandOf_eq_some.mp hd).1
    refine ⟨nodes.length, hsize, ?_, fun k hk => ?_⟩
    · by_cases hr : g.isReference
      · have hset : (setReference nodes i)[i]? = some { node with isReference := true } := by
          simp [setReference, h]
        simp only [hr, if_true]
        rw [getElem?_addAll_self _ _ hset]
        simp [Growth.parent, hchildren, hr, setReference]
      · simp only [hr, Bool.false_eq_true, if_false]
        rw [getElem?_addAll_self _ _ h]
        simp [Growth.parent, hchildren, hr]
    · have hlen : (if g.isReference then setReference nodes i else nodes).length = nodes.length := by
        split <;> simp [setReference]
      have hnew := getElem?_addAll_new g.elements g.isMember (by rw [hlen]; exact hi) hk
      rw [hlen] at hnew
      exact hnew

/-- A later visit to another node keeps what a visit has done. -/
theorem GrownAt.growAt {nodes : Nodes ι κ} {i j size : ℕ} {node : Name ι κ}
    (h : GrownAt demand node size nodes i) (hne : i ≠ j) (hj : j < size) :
    GrownAt demand node size (growAt demand nodes j) i := by
  have hkeep : ∀ {k : ℕ} {x : Name ι κ}, nodes[k]? = some x → k ≠ j →
      (NameResolution.growAt demand nodes j)[k]? = some x := fun {k x} hk hkj => by
    rw [getElem?_growAt_of_ne (List.getElem?_eq_some_iff.mp hk).1 hkj, hk]
  unfold GrownAt at h ⊢
  cases hd : demandOf demand node with
  | none =>
    rw [hd] at h
    exact hkeep h hne
  | some g =>
    rw [hd] at h
    obtain ⟨base, hbase, hparent, hnew⟩ := h
    exact ⟨base, hbase, hkeep hparent hne, fun k hk => hkeep (hnew k hk) (by omega)⟩

/-- The nodes that have not been visited yet stand as before. -/
theorem growAt_waiting (demand : ElementPair ι κ → Option (Growth ι κ)) (nodes : Nodes ι κ) (n : ℕ) :
    nodes.length ≤ ((List.range n).foldl (growAt demand) nodes).length ∧
      ∀ i < nodes.length, n ≤ i →
        ((List.range n).foldl (growAt demand) nodes)[i]? = nodes[i]? := by
  induction n with
  | zero => exact ⟨le_rfl, fun _ _ _ => rfl⟩
  | succ n ih =>
    obtain ⟨hlen, hwait⟩ := ih
    rw [List.range_succ, List.foldl_append, List.foldl_cons, List.foldl_nil]
    refine ⟨hlen.trans (length_growAt _ _), fun i hi hn => ?_⟩
    rw [getElem?_growAt_of_ne (by omega) (by omega), hwait i hi (by omega)]

/-- **Every node has been visited once.** -/
theorem grow_grown (demand : ElementPair ι κ → Option (Growth ι κ)) {nodes : Nodes ι κ} {i : ℕ}
    {node : Name ι κ} (h : nodes[i]? = some node) :
    GrownAt demand node nodes.length (grow demand nodes) i := by
  have hi : i < nodes.length := (List.getElem?_eq_some_iff.mp h).1
  suffices hn : ∀ n ≤ nodes.length, i < n →
      GrownAt demand node nodes.length ((List.range n).foldl (growAt demand) nodes) i from
    hn _ le_rfl hi
  intro n
  induction n with
  | zero => exact fun _ hlt => absurd hlt i.not_lt_zero
  | succ n ih =>
    intro hle hlt
    obtain ⟨hlen, hwait⟩ := growAt_waiting demand nodes n
    rw [List.range_succ, List.foldl_append, List.foldl_cons, List.foldl_nil]
    rcases Nat.lt_succ_iff_lt_or_eq.mp hlt with hlt | rfl
    · exact (ih (by omega) hlt).growAt (by omega) (by omega)
    · exact grownAt_growAt ((hwait i hi le_rfl).trans h) hlen

/-- What stands behind the nodes that were there is what one of them demanded. -/
theorem grow_new {nodes : Nodes ι κ} {j : ℕ} {x : Name ι κ} (hj : nodes.length ≤ j)
    (h : (grow demand nodes)[j]? = some x) :
    ∃ node ∈ nodes, ∃ g, demandOf demand node = some g ∧ ∃ e ∈ g.elements,
      x = ⟨e, g.isMember, false, []⟩ := by
  suffices hn : ∀ n ≤ nodes.length,
      ((List.range n).foldl (growAt demand) nodes)[j]? = some x →
        ∃ node ∈ nodes, ∃ g, demandOf demand node = some g ∧ ∃ e ∈ g.elements,
          x = ⟨e, g.isMember, false, []⟩ from hn _ le_rfl h
  intro n
  induction n with
  | zero =>
    intro _ h
    exact absurd (List.getElem?_eq_some_iff.mp h).1 (by simpa using hj)
  | succ n ih =>
    intro hle h
    obtain ⟨hlen, hwait⟩ := growAt_waiting demand nodes n
    rw [List.range_succ, List.foldl_append, List.foldl_cons, List.foldl_nil] at h
    by_cases hold : j < ((List.range n).foldl (growAt demand) nodes).length
    · rw [getElem?_growAt_of_ne hold (by omega)] at h
      exact ih (by omega) h
    · -- the node is one of the children that have just been added
      have hn : n < nodes.length := hle
      generalize hs : (List.range n).foldl (growAt demand) nodes = s at h hold hlen hwait
      unfold growAt at h
      rw [hwait n hn le_rfl, List.getElem?_eq_getElem hn, Option.bind_some] at h
      cases hd : demandOf demand nodes[n] with
      | none =>
        rw [hd] at h
        exact absurd (List.getElem?_eq_some_iff.mp h).1 hold
      | some g =>
        rw [hd] at h
        dsimp only at h
        have hset : (if g.isReference then setReference s n else s).length = s.length := by
          split <;> simp [setReference]
        have hlt := (List.getElem?_eq_some_iff.mp h).1
        rw [length_addAll, hset] at hlt
        have hk : j - s.length < g.elements.length := by omega
        have hnew := getElem?_addAll_new g.elements g.isMember (by rw [hset]; exact hn.trans_le hlen) hk
        rw [hset, Nat.add_sub_cancel' (by omega)] at hnew
        exact ⟨nodes[n], List.getElem_mem hn, g, hd, _, List.getElem_mem _,
          Option.some.inj (h.symm.trans hnew)⟩

/-- What stands behind the nodes that were there is a leaf. -/
theorem grow_new_leaf {nodes : Nodes ι κ} {j : ℕ} {x : Name ι κ} (hj : nodes.length ≤ j)
    (h : (grow demand nodes)[j]? = some x) : x.children = [] := by
  obtain ⟨-, -, -, -, -, -, rfl⟩ := grow_new hj h
  rfl

/-- Nothing grows where nothing is demanded. -/
theorem grow_of_demandOf {nodes : Nodes ι κ} (h : ∀ node ∈ nodes, demandOf demand node = none) :
    grow demand nodes = nodes := by
  suffices hn : ∀ is : List ℕ, is.foldl (growAt demand) nodes = nodes from hn _
  intro is
  induction is with
  | nil => rfl
  | cons i is ih =>
    have hone : growAt demand nodes i = nodes := by
      unfold growAt
      cases hi : nodes[i]? with
      | none => rfl
      | some node => rw [Option.bind_some, h node (List.mem_of_getElem? hi)]
    rw [List.foldl_cons, hone, ih]

end Grow
end EgLang.Compiler.NameResolution
