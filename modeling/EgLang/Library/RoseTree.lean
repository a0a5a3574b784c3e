import Mathlib.Data.List.Nodup
import Mathlib.Tactic

/-!
# Rose trees

Trees whose nodes carry a label and any number of children, with folds and the list of their labels.
-/

namespace EgLang.Library

set_option autoImplicit false

inductive RoseTree (α : Type)
  | node (label : α) (children : List (RoseTree α))

namespace RoseTree
variable {α β : Type}

def label : RoseTree α → α
  | .node a _ => a

def children : RoseTree α → List (RoseTree α)
  | .node _ ts => ts

@[simp] theorem label_node (a : α) (ts : List (RoseTree α)) : (node a ts).label = a := rfl

@[simp] theorem children_node (a : α) (ts : List (RoseTree α)) : (node a ts).children = ts := rfl

/-- Induction over a tree, with the hypothesis for every child. -/
@[elab_as_elim]
theorem tree_induction {P : RoseTree α → Prop}
    (step : ∀ a ts, (∀ t ∈ ts, P t) → P (.node a ts)) (t : RoseTree α) : P t :=
  @RoseTree.rec α P (fun ts => ∀ t ∈ ts, P t) step (fun _ h => absurd h List.not_mem_nil)
    (fun _ _ h hs t ht => (List.mem_cons.mp ht).elim (fun heq => heq ▸ h) (hs t)) t

/-! ## Folds -/

section Fold
variable (f : α → List β → β)

mutual

/-- A value for each node, from its label and the values of its children. -/
def fold : RoseTree α → β
  | .node a ts => f a (foldAll ts)

def foldAll : List (RoseTree α) → List β
  | [] => []
  | t :: ts => fold t :: foldAll ts

end

theorem foldAll_eq_map (ts : List (RoseTree α)) : foldAll f ts = ts.map (fold f) := by
  induction ts with
  | nil => rfl
  | cons t ts ih => rw [foldAll, ih, List.map_cons]

theorem fold_node (a : α) (ts : List (RoseTree α)) :
    fold f (.node a ts) = f a (ts.map (fold f)) := by
  rw [fold, foldAll_eq_map]

end Fold

/-! ## Labels -/

/-- The labels of a tree, the root first. -/
def labels : RoseTree α → List α :=
  fold fun a ls => a :: ls.flatten

theorem labels_node (a : α) (ts : List (RoseTree α)) :
    (node a ts).labels = a :: (ts.map labels).flatten :=
  fold_node _ a ts

theorem mem_labels_node {a b : α} {ts : List (RoseTree α)} :
    b ∈ (node a ts).labels ↔ b = a ∨ ∃ t ∈ ts, b ∈ t.labels := by
  rw [labels_node, List.mem_cons, List.mem_flatten]
  simp only [List.mem_map, exists_exists_and_eq_and]

theorem label_mem_labels (t : RoseTree α) : t.label ∈ t.labels := by
  cases t with
  | node a ts => exact mem_labels_node.mpr (.inl rfl)

/-- The trees below the nodes of a tree, the tree first. -/
def subtrees : RoseTree α → List (RoseTree α)
  | .node a ts => .node a ts :: subtreesAll ts
where
  subtreesAll : List (RoseTree α) → List (RoseTree α)
    | [] => []
    | t :: ts => subtrees t ++ subtreesAll ts

theorem mem_subtrees_node {a : α} {ts : List (RoseTree α)} {s : RoseTree α} :
    s ∈ (node a ts).subtrees ↔ s = node a ts ∨ ∃ t ∈ ts, s ∈ t.subtrees := by
  rw [subtrees, List.mem_cons]
  refine or_congr_right ?_
  induction ts with
  | nil => simp [subtrees.subtreesAll]
  | cons t ts ih => rw [subtrees.subtreesAll, List.mem_append, ih, List.exists_mem_cons_iff]

theorem mem_subtrees_self (t : RoseTree α) : t ∈ t.subtrees := by
  cases t with
  | node a ts => exact mem_subtrees_node.mpr (.inl rfl)

/-- The tree with other labels. -/
def map (f : α → β) : RoseTree α → RoseTree β :=
  fold fun a ts => .node (f a) ts

theorem map_node (f : α → β) (a : α) (ts : List (RoseTree α)) :
    (node a ts).map f = .node (f a) (ts.map (map f)) :=
  fold_node _ a ts

@[simp] theorem label_map (f : α → β) (t : RoseTree α) : (t.map f).label = f t.label := by
  cases t with
  | node a ts => rw [map_node, label_node, label_node]

theorem labels_map (f : α → β) (t : RoseTree α) : (t.map f).labels = t.labels.map f := by
  induction t using tree_induction with
  | step a ts ih =>
    rw [map_node, labels_node, labels_node, List.map_cons, List.map_flatten, List.map_map,
      List.map_map]
    exact congrArg (f a :: ·) (congrArg List.flatten (List.map_congr_left fun t ht => ih t ht))

/-- The number of nodes on a longest way down. -/
def depth : RoseTree α → ℕ :=
  fold fun _ ds => ds.foldr max 0 + 1

theorem depth_node (a : α) (ts : List (RoseTree α)) :
    (node a ts).depth = (ts.map depth).foldr max 0 + 1 :=
  fold_node _ a ts

theorem depth_lt_of_mem {a : α} {ts : List (RoseTree α)} {t : RoseTree α} (h : t ∈ ts) :
    t.depth < (node a ts).depth := by
  rw [depth_node, Nat.lt_succ_iff]
  induction ts with
  | nil => cases h
  | cons s ts ih =>
    rw [List.map_cons, List.foldr_cons]
    rcases List.mem_cons.mp h with rfl | h
    · exact le_max_left _ _
    · exact (ih h).trans (le_max_right _ _)

theorem depth_le {a : α} {ts : List (RoseTree α)} {n : ℕ} (h : ∀ t ∈ ts, t.depth ≤ n) :
    (node a ts).depth ≤ n + 1 := by
  rw [depth_node, Nat.add_le_add_iff_right]
  induction ts with
  | nil => exact n.zero_le
  | cons s ts ih =>
    rw [List.map_cons, List.foldr_cons]
    exact max_le (h s List.mem_cons_self) (ih fun t ht => h t (List.mem_cons_of_mem s ht))

end RoseTree
end EgLang.Library
