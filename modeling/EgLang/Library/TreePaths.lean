import EgLang.Library.RoseTree

/-!
# Places and paths in rose trees

The nodes of a tree with their places, given by the numbers of the children on the way to them, and with
the labels above them; the paths from the root down; and when two labels lie on one of these.
-/

namespace EgLang.Library

set_option autoImplicit false

namespace RoseTree
variable {α β : Type}

/-! ## Places -/

/-- The trees below the nodes, with the numbers of the children on the way from the root. -/
def located : RoseTree α → List (List ℕ × RoseTree α)
  | .node a ts => ([], .node a ts) :: locatedFrom 0 ts
where
  locatedFrom : ℕ → List (RoseTree α) → List (List ℕ × RoseTree α)
    | _, [] => []
    | i, t :: ts => (located t).map (fun q => (i :: q.1, q.2)) ++ locatedFrom (i + 1) ts

variable {a b : α} {t s s' : RoseTree α} {ts : List (RoseTree α)} {p : List ℕ}

theorem mem_locatedFrom {i : ℕ} :
    (p, s) ∈ located.locatedFrom i ts ↔
      ∃ j t q, ts[j]? = some t ∧ (q, s) ∈ t.located ∧ p = (i + j) :: q := by
  induction ts generalizing i with
  | nil => simp [located.locatedFrom]
  | cons t ts ih =>
    rw [located.locatedFrom, List.mem_append, ih]
    constructor
    · rintro (h | ⟨j, u, q, hu, hq, rfl⟩)
      · obtain ⟨⟨q, u⟩, hq, heq⟩ := List.mem_map.mp h
        obtain ⟨rfl, rfl⟩ := Prod.mk.inj heq
        exact ⟨0, t, q, rfl, hq, rfl⟩
      · exact ⟨j + 1, u, q, hu, hq, by rw [Nat.add_right_comm, Nat.add_assoc]⟩
    · rintro ⟨j, u, q, hu, hq, rfl⟩
      cases j with
      | zero =>
        obtain rfl : t = u := by simpa using hu
        exact .inl (List.mem_map.mpr ⟨(q, s), hq, rfl⟩)
      | succ j => exact .inr ⟨j, u, q, hu, hq, by rw [Nat.add_right_comm, Nat.add_assoc]⟩

theorem mem_located_node :
    (p, s) ∈ (node a ts).located ↔ (p = [] ∧ s = node a ts) ∨
      ∃ i t q, ts[i]? = some t ∧ (q, s) ∈ t.located ∧ p = i :: q := by
  rw [located, List.mem_cons, mem_locatedFrom, Prod.mk.injEq]
  simp only [Nat.zero_add]

theorem self_mem_located (t : RoseTree α) : ([], t) ∈ t.located := by
  cases t with
  | node a ts => exact mem_located_node.mpr (.inl ⟨rfl, rfl⟩)

/-- There is one node at a place. -/
theorem located_unique (h : (p, s) ∈ t.located) (h' : (p, s') ∈ t.located) : s = s' := by
  induction t using tree_induction generalizing p with
  | step a ts ih =>
    rw [mem_located_node] at h h'
    rcases h with ⟨rfl, rfl⟩ | ⟨i, u, q, hu, hq, rfl⟩
    · rcases h' with ⟨-, rfl⟩ | ⟨_, _, _, -, -, h⟩
      · rfl
      · cases h
    · rcases h' with ⟨h, -⟩ | ⟨i', u', q', hu', hq', h⟩
      · cases h
      · obtain ⟨rfl, rfl⟩ := List.cons.inj h
        obtain rfl : u = u' := Option.some.inj (hu.symm.trans hu')
        exact ih u (List.mem_of_getElem? hu) hq hq'

theorem mem_subtrees_of_located (h : (p, s) ∈ t.located) : s ∈ t.subtrees := by
  induction t using tree_induction generalizing p with
  | step a ts ih =>
    rw [mem_located_node] at h
    rcases h with ⟨-, rfl⟩ | ⟨i, u, q, hu, hq, rfl⟩
    · exact mem_subtrees_self _
    · have hmem := List.mem_of_getElem? hu
      exact mem_subtrees_node.mpr (.inr ⟨u, hmem, ih u hmem hq⟩)

/-- The child of a node has the place below it. -/
theorem located_child {i : ℕ} (h : (p, s) ∈ t.located) (hi : s.children[i]? = some s') :
    (p ++ [i], s') ∈ t.located := by
  induction t using tree_induction generalizing p with
  | step a ts ih =>
    rw [mem_located_node] at h
    rcases h with ⟨rfl, rfl⟩ | ⟨j, u, q, hu, hq, rfl⟩
    · exact mem_located_node.mpr (.inr ⟨i, s', [], hi, self_mem_located s', rfl⟩)
    · exact mem_located_node.mpr
        (.inr ⟨j, u, q ++ [i], hu, ih u (List.mem_of_getElem? hu) hq, rfl⟩)

/-- The tree at a place. -/
def get? (t : RoseTree α) : List ℕ → Option (RoseTree α)
  | [] => some t
  | i :: p => t.children[i]?.bind fun u => u.get? p

@[simp] theorem get?_nil (t : RoseTree α) : t.get? [] = some t := rfl

theorem get?_cons (t : RoseTree α) (i : ℕ) (p : List ℕ) :
    t.get? (i :: p) = t.children[i]?.bind fun u => u.get? p := rfl

theorem get?_append (t : RoseTree α) (p q : List ℕ) :
    t.get? (p ++ q) = (t.get? p).bind fun u => u.get? q := by
  induction p generalizing t with
  | nil => rfl
  | cons i p ih =>
    rw [List.cons_append, get?_cons, get?_cons, Option.bind_assoc]
    exact congrArg _ (funext fun u => ih u)

theorem get?_concat (t : RoseTree α) (p : List ℕ) (i : ℕ) :
    t.get? (p ++ [i]) = (t.get? p).bind fun u => u.children[i]? := by
  rw [get?_append]
  refine congrArg _ (funext fun u => ?_)
  rw [get?_cons]
  simp only [get?_nil, Option.bind_fun_some]

theorem mem_located_iff : (p, s) ∈ t.located ↔ t.get? p = some s := by
  induction p generalizing t with
  | nil =>
    cases t with
    | node a ts => simp [mem_located_node, eq_comm]
  | cons i p ih =>
    cases t with
    | node a ts =>
      rw [mem_located_node, get?_cons, Option.bind_eq_some_iff, children_node]
      constructor
      · rintro (⟨h, -⟩ | ⟨j, u, q, hu, hq, h⟩)
        · cases h
        · obtain ⟨rfl, rfl⟩ := List.cons.inj h
          exact ⟨u, hu, ih.mp hq⟩
      · rintro ⟨u, hu, hp⟩
        exact .inr ⟨i, u, p, hu, ih.mpr hp, rfl⟩

/-- A place is listed once. -/
theorem nodup_located (t : RoseTree α) : (t.located.map Prod.fst).Nodup := by
  induction t using tree_induction with
  | step a ts ih =>
    have hfrom : ∀ i, ((located.locatedFrom i ts).map Prod.fst).Nodup := by
      intro i
      induction ts generalizing i with
      | nil => exact .nil
      | cons t ts ihts =>
        rw [located.locatedFrom, List.map_append, List.map_map]
        refine .append ?_ (ihts (fun u hu => ih u (List.mem_cons_of_mem t hu)) (i + 1)) ?_
        · have hnodup := (ih t List.mem_cons_self).map (f := (i :: ·)) (fun p q h => List.tail_eq_of_cons_eq h)
          rwa [List.map_map] at hnodup
        · intro p hp hp'
          obtain ⟨⟨q, u⟩, -, rfl⟩ := List.mem_map.mp hp
          obtain ⟨⟨_, s⟩, hs, rfl⟩ := List.mem_map.mp hp'
          obtain ⟨j, _, _, -, -, h⟩ := mem_locatedFrom.mp hs
          have : i = i + 1 + j := (List.cons.inj h).1
          omega
    rw [located, List.map_cons, List.nodup_cons]
    refine ⟨fun h => ?_, hfrom 0⟩
    obtain ⟨⟨_, s⟩, hs, rfl⟩ := List.mem_map.mp h
    obtain ⟨_, _, _, -, -, h⟩ := mem_locatedFrom.mp hs
    cases h

/-! ## Paths -/

/-- The nodes of a tree, each with the labels above it, the nearest first, and with the tree below. -/
def ways : RoseTree α → List α → List (List α × RoseTree α)
  | .node a ts, above => (above, .node a ts) :: waysAll ts (a :: above)
where
  waysAll : List (RoseTree α) → List α → List (List α × RoseTree α)
    | [], _ => []
    | t :: ts, above => ways t above ++ waysAll ts above

theorem mem_ways_node {w : List α × RoseTree α} {above : List α} :
    w ∈ (node a ts).ways above ↔ w = (above, node a ts) ∨ ∃ t ∈ ts, w ∈ t.ways (a :: above) := by
  rw [ways, List.mem_cons]
  refine or_congr_right ?_
  induction ts with
  | nil => simp [ways.waysAll]
  | cons t ts ih => rw [ways.waysAll, List.mem_append, ih, List.exists_mem_cons_iff]

/-- The labels of the nodes, in the same order. -/
theorem map_label_ways (t : RoseTree α) (above : List α) :
    (t.ways above).map (fun w => w.2.label) = t.labels := by
  induction t using tree_induction generalizing above with
  | step a ts ih =>
    rw [ways, labels_node, List.map_cons, label_node]
    refine congrArg (a :: ·) ?_
    induction ts with
    | nil => rfl
    | cons t ts ihts =>
      rw [ways.waysAll, List.map_append, ih t List.mem_cons_self, List.map_cons, List.flatten_cons,
        ihts fun u hu => ih u (List.mem_cons_of_mem t hu)]

/-- The paths from the root down to the nodes. -/
def rootPaths : RoseTree α → List (List α) :=
  fold fun a paths => [a] :: paths.flatten.map (a :: ·)

theorem mem_rootPaths_node {l : List α} :
    l ∈ (node a ts).rootPaths ↔ l = [a] ∨ ∃ t ∈ ts, ∃ l' ∈ t.rootPaths, l = a :: l' := by
  rw [rootPaths, fold_node, List.mem_cons, List.mem_map]
  refine or_congr_right ⟨?_, ?_⟩
  · rintro ⟨l', hl', rfl⟩
    obtain ⟨ls, hls, hl'⟩ := List.mem_flatten.mp hl'
    obtain ⟨t, ht, rfl⟩ := List.mem_map.mp hls
    exact ⟨t, ht, l', hl', rfl⟩
  · rintro ⟨t, ht, l', hl', rfl⟩
    exact ⟨l', List.mem_flatten.mpr ⟨_, List.mem_map_of_mem ht, hl'⟩, rfl⟩

/-- Every label lies on a path, and only labels do. -/
theorem mem_labels_iff : b ∈ t.labels ↔ ∃ l ∈ t.rootPaths, b ∈ l := by
  induction t using tree_induction with
  | step a ts ih =>
    rw [mem_labels_node]
    constructor
    · rintro (rfl | ⟨t, ht, hb⟩)
      · exact ⟨[b], mem_rootPaths_node.mpr (.inl rfl), List.mem_singleton_self b⟩
      · obtain ⟨l, hl, hb⟩ := (ih t ht).mp hb
        exact ⟨a :: l, mem_rootPaths_node.mpr (.inr ⟨t, ht, l, hl, rfl⟩), List.mem_cons_of_mem a hb⟩
    · rintro ⟨l, hl, hb⟩
      rcases mem_rootPaths_node.mp hl with rfl | ⟨t, ht, l', hl', rfl⟩
      · exact .inl (List.mem_singleton.mp hb)
      · rcases List.mem_cons.mp hb with rfl | hb
        · exact .inl rfl
        · exact .inr ⟨t, ht, (ih t ht).mpr ⟨l', hl', hb⟩⟩

/-- Two labels lie on one path from the root. -/
def OnePath (t : RoseTree α) (a b : α) : Prop := ∃ l ∈ t.rootPaths, a ∈ l ∧ b ∈ l

theorem OnePath.symm (h : t.OnePath a b) : t.OnePath b a := by
  obtain ⟨l, hl, ha, hb⟩ := h
  exact ⟨l, hl, hb, ha⟩

theorem OnePath.mem_labels (h : t.OnePath a b) : a ∈ t.labels := by
  obtain ⟨l, hl, ha, -⟩ := h
  exact mem_labels_iff.mpr ⟨l, hl, ha⟩

/-- Two labels lie on one path where one of them labels a node and the other one above or below it. -/
theorem exists_way_iff {above : List α} :
    (∃ w ∈ t.ways above, w.2.label = a ∧ (b ∈ w.1 ∨ b ∈ w.2.labels)) ↔
      (a ∈ t.labels ∧ b ∈ above) ∨ t.OnePath a b := by
  induction t using tree_induction generalizing above with
  | step c ts ih =>
    have hsplit : (∃ w ∈ (node c ts).ways above, w.2.label = a ∧ (b ∈ w.1 ∨ b ∈ w.2.labels)) ↔
        (c = a ∧ (b ∈ above ∨ b ∈ (node c ts).labels)) ∨
          ∃ t ∈ ts, (a ∈ t.labels ∧ b ∈ c :: above) ∨ t.OnePath a b := by
      simp only [mem_ways_node, or_and_right, exists_or, exists_eq_left, label_node]
      refine or_congr_right ⟨?_, ?_⟩
      · rintro ⟨w, ⟨t, ht, hw⟩, h⟩
        exact ⟨t, ht, (ih t ht).mp ⟨w, hw, h⟩⟩
      · rintro ⟨t, ht, h⟩
        obtain ⟨w, hw, h⟩ := (ih t ht).mpr h
        exact ⟨w, ⟨t, ht, hw⟩, h⟩
    have honePath : ∀ t ∈ ts, ∀ l ∈ t.rootPaths, c :: l ∈ (node c ts).rootPaths :=
      fun t ht l hl => mem_rootPaths_node.mpr (.inr ⟨t, ht, l, hl, rfl⟩)
    rw [hsplit]
    constructor
    · rintro (⟨rfl, hb | hb⟩ | ⟨t, ht, ⟨ha, hb⟩ | ⟨l, hl, ha, hb⟩⟩)
      · exact .inl ⟨label_mem_labels (node c ts), hb⟩
      · obtain ⟨l, hl, hb⟩ := mem_labels_iff.mp hb
        refine .inr ⟨l, hl, ?_, hb⟩
        rcases mem_rootPaths_node.mp hl with rfl | ⟨_, _, _, _, rfl⟩ <;> exact List.mem_cons_self
      · rcases List.mem_cons.mp hb with rfl | hb
        · obtain ⟨l, hl, ha⟩ := mem_labels_iff.mp ha
          exact .inr ⟨b :: l, honePath t ht l hl, List.mem_cons_of_mem b ha, List.mem_cons_self⟩
        · exact .inl ⟨mem_labels_node.mpr (.inr ⟨t, ht, ha⟩), hb⟩
      · exact .inr ⟨c :: l, honePath t ht l hl, List.mem_cons_of_mem c ha, List.mem_cons_of_mem c hb⟩
    · rintro (⟨ha, hb⟩ | ⟨l, hl, ha, hb⟩)
      · rcases mem_labels_node.mp ha with rfl | ⟨t, ht, ha⟩
        · exact .inl ⟨rfl, .inl hb⟩
        · exact .inr ⟨t, ht, .inl ⟨ha, List.mem_cons_of_mem c hb⟩⟩
      · rcases mem_rootPaths_node.mp hl with rfl | ⟨t, ht, l', hl', rfl⟩
        · rw [List.mem_singleton] at ha hb
          exact .inl ⟨ha.symm, .inr (mem_labels_node.mpr (.inl hb))⟩
        · rcases List.mem_cons.mp ha with rfl | ha'
          · exact .inl ⟨rfl, .inr (mem_labels_iff.mpr ⟨_, hl, hb⟩)⟩
          · rcases List.mem_cons.mp hb with rfl | hb'
            · exact .inr ⟨t, ht, .inl ⟨mem_labels_iff.mpr ⟨l', hl', ha'⟩, List.mem_cons_self⟩⟩
            · exact .inr ⟨t, ht, .inr ⟨l', hl', ha', hb'⟩⟩

end RoseTree
end EgLang.Library
