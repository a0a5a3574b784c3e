import EgLang.Compiler.NameResolution
import EgLang.Library.RoseTree

/-!
# The tree of resolution

Pruning as an operation on trees of names.
-/

namespace EgLang.Compiler

open EgLang.Library

set_option autoImplicit false

/-- What a name says of itself. -/
structure Mark (ι κ : Type) where
  element : ElementPair ι κ
  isMember : Bool
  isReference : Bool
deriving DecidableEq, Repr

def Name.mark {ι κ : Type} (node : Name ι κ) : Mark ι κ :=
  ⟨node.element, node.isMember, node.isReference⟩

/-- A tree of names; `σ` tells equal names apart. -/
abbrev NameTree (σ ι κ : Type) := RoseTree (σ × Mark ι κ)

namespace NameTree
variable {σ τ ι κ : Type}

/-- The membership flag of the root. -/
def isMember (t : NameTree σ ι κ) : Bool := t.label.2.isMember

/-- A reference node that has pruned its children. -/
def pruneReference (a : σ × Mark ι κ) (ts : List (NameTree σ ι κ)) : NameTree σ ι κ :=
  .node (a.1, { a.2 with isMember := a.2.isMember || ts.any isMember }) ts

/-- Any other node that has pruned its children. -/
def pruneBest (a : σ × Mark ι κ) (ts : List (NameTree σ ι κ)) : NameTree σ ι κ :=
  if ts.any isMember then .node (a.1, { a.2 with isMember := true }) (ts.filter isMember)
  else .node a ts

mutual

/-- `pruneBranches` on trees. -/
def prune : NameTree σ ι κ → NameTree σ ι κ
  | .node a ts =>
    if ts.isEmpty then .node a ts
    else if a.2.isReference then
      if a.2.isMember then .node a ts else pruneReference a (pruneAll ts)
    else pruneBest a (pruneAll ts)

def pruneAll : List (NameTree σ ι κ) → List (NameTree σ ι κ)
  | [] => []
  | t :: ts => prune t :: pruneAll ts

end

theorem pruneAll_eq_map (ts : List (NameTree σ ι κ)) : pruneAll ts = ts.map prune := by
  induction ts with
  | nil => rfl
  | cons t ts ih => rw [pruneAll, ih, List.map_cons]

/-- The four cases of pruning. -/
theorem prune_leaf (a : σ × Mark ι κ) : prune (.node a []) = .node a [] := by
  rw [prune]
  rfl

theorem prune_flagged {a : σ × Mark ι κ} (ts : List (NameTree σ ι κ))
    (hr : a.2.isReference = true) (hm : a.2.isMember = true) : prune (.node a ts) = .node a ts := by
  rw [prune, if_pos hr, if_pos hm, ite_self]

theorem prune_reference {a : σ × Mark ι κ} {ts : List (NameTree σ ι κ)} (hts : ts ≠ [])
    (hr : a.2.isReference = true) (hm : a.2.isMember = false) :
    prune (.node a ts) = pruneReference a (ts.map prune) := by
  rw [prune, if_neg (by simpa using hts), if_pos hr, if_neg (by simp [hm]), pruneAll_eq_map]

theorem prune_best {a : σ × Mark ι κ} {ts : List (NameTree σ ι κ)} (hts : ts ≠ [])
    (hr : a.2.isReference = false) : prune (.node a ts) = pruneBest a (ts.map prune) := by
  rw [prune, if_neg (by simpa using hts), if_neg (by simp [hr]), pruneAll_eq_map]

theorem label_pruneBest (a : σ × Mark ι κ) (ts : List (NameTree σ ι κ)) :
    (pruneBest a ts).label = (a.1, { a.2 with isMember := a.2.isMember || ts.any isMember }) := by
  unfold pruneBest
  by_cases h : ts.any isMember <;> simp [h]

/-- Pruning keeps the root, but for its membership flag. -/
theorem label_prune (t : NameTree σ ι κ) :
    (prune t).label.1 = t.label.1 ∧ (prune t).label.2.element = t.label.2.element ∧
      (prune t).label.2.isReference = t.label.2.isReference := by
  cases t with
  | node a ts =>
    by_cases hts : ts = []
    · subst hts
      rw [prune_leaf]
      exact ⟨rfl, rfl, rfl⟩
    · cases hr : a.2.isReference with
      | false =>
        rw [prune_best hts hr, label_pruneBest]
        exact ⟨rfl, rfl, rfl⟩
      | true =>
        cases hm : a.2.isMember with
        | false =>
          rw [prune_reference hts hr hm]
          exact ⟨rfl, rfl, rfl⟩
        | true =>
          rw [prune_flagged ts hr hm]
          exact ⟨rfl, rfl, rfl⟩

/-! ## Names do not matter -/

/-- Other names for the nodes. -/
def rename (f : σ → τ) (t : NameTree σ ι κ) : NameTree τ ι κ :=
  t.map fun a => (f a.1, a.2)

theorem rename_node (f : σ → τ) (a : σ × Mark ι κ) (ts : List (NameTree σ ι κ)) :
    rename f (.node a ts) = .node (f a.1, a.2) (ts.map (rename f)) :=
  RoseTree.map_node _ a ts

theorem isMember_rename (f : σ → τ) (t : NameTree σ ι κ) : isMember (rename f t) = isMember t := by
  rw [isMember, rename, RoseTree.label_map]
  rfl

theorem any_isMember_rename (f : σ → τ) (ts : List (NameTree σ ι κ)) :
    (ts.map (rename f)).any isMember = ts.any isMember := by
  rw [List.any_map]
  exact congrArg (List.any ts) (funext fun t => isMember_rename f t)

theorem filter_isMember_rename (f : σ → τ) (ts : List (NameTree σ ι κ)) :
    (ts.map (rename f)).filter isMember = (ts.filter isMember).map (rename f) := by
  rw [List.filter_map]
  exact congrArg (List.map (rename f))
    (congrArg (fun p => List.filter p ts) (funext fun t => isMember_rename f t))

theorem prune_rename (f : σ → τ) (t : NameTree σ ι κ) :
    prune (rename f t) = rename f (prune t) := by
  induction t using RoseTree.tree_induction with
  | step a ts ih =>
    have hmap : (ts.map (rename f)).map prune = (ts.map prune).map (rename f) := by
      rw [List.map_map, List.map_map]
      exact List.map_congr_left fun t ht => ih t ht
    rw [rename_node]
    by_cases hts : ts = []
    · subst hts
      rw [List.map_nil, prune_leaf, prune_leaf, rename_node, List.map_nil]
    · have hts' : ts.map (rename f) ≠ [] := by simpa using hts
      cases hr : a.2.isReference with
      | false =>
        rw [prune_best hts hr, prune_best hts' hr, hmap, pruneBest, pruneBest,
          any_isMember_rename, filter_isMember_rename]
        split <;> rw [rename_node]
      | true =>
        cases hm : a.2.isMember with
        | false =>
          rw [prune_reference hts hr hm, prune_reference hts' hr hm, hmap, pruneReference,
            pruneReference, any_isMember_rename, rename_node]
        | true => rw [prune_flagged ts hr hm, prune_flagged (a := (f a.1, a.2)) _ hr hm, rename_node]

end NameTree
end EgLang.Compiler
