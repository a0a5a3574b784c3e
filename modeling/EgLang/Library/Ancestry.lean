import Mathlib.Data.List.Basic
import Mathlib.Data.List.TakeWhile
import Mathlib.Tactic

/-!
# Ancestry in a hierarchy

A hierarchy in which every element knows its parent: the way up from an element, the nearest common
ancestor of two elements, and the instances of elements of which each has a number of instances in
one instance of its parent.
-/

namespace EgLang.Library

set_option autoImplicit false

/-! ## Instances -/

section Climb
variable {α : Type} (size : α → ℕ)

/-- The instance that an instance of the first of some elements lies in, each being the parent of the
one before. -/
def climb (es : List α) (i : ℕ) : ℕ := es.foldl (fun i e => i / size e) i

@[simp] theorem climb_nil (i : ℕ) : climb size [] i = i := rfl

@[simp] theorem climb_cons (e : α) (es : List α) (i : ℕ) :
    climb size (e :: es) i = climb size es (i / size e) := rfl

theorem climb_of_one {es : List α} (h : ∀ e ∈ es, size e = 1) (i : ℕ) : climb size es i = i := by
  induction es generalizing i with
  | nil => rfl
  | cons e es ih =>
    rw [List.forall_mem_cons] at h
    rw [climb_cons, h.1, Nat.div_one]
    exact ih h.2 i

theorem climb_eq_div (es : List α) (i : ℕ) : climb size es i = i / (es.map size).prod := by
  induction es generalizing i with
  | nil => simp
  | cons e es ih => rw [climb_cons, ih, List.map_cons, List.prod_cons, Nat.div_div_eq_div_mul]

/-- The instances that lie in one instance are a range. -/
theorem climb_eq_iff {es : List α} (h : ∀ e ∈ es, 0 < size e) {i x : ℕ} :
    climb size es x = i ↔ i * (es.map size).prod ≤ x ∧ x < (i + 1) * (es.map size).prod := by
  have hpos : 0 < (es.map size).prod := by
    refine List.prod_pos fun n hn => ?_
    obtain ⟨e, he, rfl⟩ := List.mem_map.mp hn
    exact h e he
  rw [climb_eq_div, ← Nat.le_div_iff_mul_le hpos, ← Nat.div_lt_iff_lt_mul hpos]
  omega

end Climb

/-! ## Hierarchies -/

/-- Elements that know their parents; the depth bounds every way up. -/
structure Hierarchy (α : Type) where
  parent : α → Option α
  depth : α → ℕ
  depth_parent : ∀ {e p : α}, parent e = some p → depth p < depth e

namespace Hierarchy
variable {α : Type} (t : Hierarchy α)

/-- From an element to the parents above it, as far as a depth. -/
def wayUpFrom : ℕ → α → List α
  | 0, e => [e]
  | n + 1, e =>
    match t.parent e with
    | none => [e]
    | some p => e :: wayUpFrom n p

/-- From an element up to the root above it. -/
def wayUp (e : α) : List α := t.wayUpFrom (t.depth e) e

/-- Induction from the roots down. -/
theorem induction {P : α → Prop} (step : ∀ e, (∀ p, t.parent e = some p → P p) → P e) (e : α) :
    P e := by
  generalize hn : t.depth e = n
  induction n using Nat.strong_induction_on generalizing e with
  | _ n ih =>
    subst hn
    exact step e fun p hp => ih _ (t.depth_parent hp) p rfl

theorem wayUpFrom_of_le {n m : ℕ} {e : α} (hn : t.depth e ≤ n) (hm : t.depth e ≤ m) :
    t.wayUpFrom n e = t.wayUpFrom m e := by
  induction n generalizing m e with
  | zero =>
    have hroot : t.parent e = none := by
      by_contra hne
      obtain ⟨p, hp⟩ := Option.ne_none_iff_exists'.mp hne
      have := t.depth_parent hp
      omega
    cases m with
    | zero => rfl
    | succ m => simp only [wayUpFrom, hroot]
  | succ n ih =>
    cases hp : t.parent e with
    | none =>
      cases m with
      | zero => simp only [wayUpFrom, hp]
      | succ m => simp only [wayUpFrom, hp]
    | some p =>
      have hdepth := t.depth_parent hp
      cases m with
      | zero => omega
      | succ m =>
        simp only [wayUpFrom, hp]
        rw [ih (m := m) (by omega) (by omega)]

theorem wayUp_root {e : α} (h : t.parent e = none) : t.wayUp e = [e] := by
  unfold wayUp
  cases hd : t.depth e with
  | zero => rfl
  | succ n => simp only [wayUpFrom, h]

theorem wayUp_child {e p : α} (h : t.parent e = some p) : t.wayUp e = e :: t.wayUp p := by
  have hdepth := t.depth_parent h
  unfold wayUp
  cases hd : t.depth e with
  | zero => omega
  | succ n =>
    simp only [wayUpFrom, h]
    rw [t.wayUpFrom_of_le (m := t.depth p) (by omega) le_rfl]

theorem exists_wayUp_eq_cons (e : α) : ∃ above, t.wayUp e = e :: above := by
  cases hp : t.parent e with
  | none => exact ⟨[], t.wayUp_root hp⟩
  | some p => exact ⟨_, t.wayUp_child hp⟩

theorem mem_wayUp_self (e : α) : e ∈ t.wayUp e := by
  cases h : t.parent e with
  | none => simp [t.wayUp_root h]
  | some p => simp [t.wayUp_child h]

theorem mem_wayUp_child {e p r : α} (h : t.parent e = some p) : r ∈ t.wayUp e ↔ r = e ∨ r ∈ t.wayUp p := by
  rw [t.wayUp_child h, List.mem_cons]

theorem mem_wayUp_root {e r : α} (h : t.parent e = none) : r ∈ t.wayUp e ↔ r = e := by
  rw [t.wayUp_root h, List.mem_singleton]

theorem depth_le {e r : α} (h : r ∈ t.wayUp e) : t.depth r ≤ t.depth e := by
  induction e using t.induction with
  | step e ih =>
    cases hp : t.parent e with
    | none => rw [(t.mem_wayUp_root hp).mp h]
    | some p =>
      rcases (t.mem_wayUp_child hp).mp h with rfl | h
      · exact le_rfl
      · exact (ih p hp h).trans (t.depth_parent hp).le

theorem mem_wayUp_trans {e r s : α} (h : r ∈ t.wayUp e) (h' : s ∈ t.wayUp r) : s ∈ t.wayUp e := by
  induction e using t.induction with
  | step e ih =>
    cases hp : t.parent e with
    | none =>
      rw [(t.mem_wayUp_root hp).mp h] at h'
      exact h'
    | some p =>
      rcases (t.mem_wayUp_child hp).mp h with rfl | h
      · exact h'
      · exact (t.mem_wayUp_child hp).mpr (.inr (ih p hp h))

/-! ## Nearest common ancestors -/

/-- The nearest of the common ancestors of two elements. -/
structure IsNearest (a b r : α) : Prop where
  left : r ∈ t.wayUp a
  right : r ∈ t.wayUp b
  nearest : ∀ s, s ∈ t.wayUp a → s ∈ t.wayUp b → s ∈ t.wayUp r

theorem isNearest_self (e : α) : t.IsNearest e e e :=
  ⟨t.mem_wayUp_self e, t.mem_wayUp_self e, fun _ h _ => h⟩

section DecidableEq
variable [DecidableEq α]

/-- The last of the elements that two ways down begin with in common. -/
def lastCommon : List α → List α → Option α
  | a :: as, b :: bs => if a = b then (lastCommon as bs).or (some a) else none
  | _, _ => none

theorem lastCommon_eq_some {as bs : List α} {r : α} (h : lastCommon as bs = some r) :
    ∃ ps xs ys, as = ps ++ r :: xs ∧ bs = ps ++ r :: ys ∧ lastCommon xs ys = none := by
  induction as generalizing bs with
  | nil => cases h
  | cons a as ih =>
    cases bs with
    | nil => cases h
    | cons b bs =>
      unfold lastCommon at h
      split at h
      · rename_i hab
        subst hab
        cases hrest : lastCommon as bs with
        | none =>
          rw [hrest] at h
          cases h
          exact ⟨[], as, bs, rfl, rfl, hrest⟩
        | some q =>
          rw [hrest] at h
          cases h
          obtain ⟨ps, xs, ys, hxs, hys, hnone⟩ := ih hrest
          exact ⟨a :: ps, xs, ys, by rw [hxs]; rfl, by rw [hys]; rfl, hnone⟩
      · cases h

theorem lastCommon_append {a : α} {ps xs ys : List α} :
    lastCommon (ps ++ a :: xs) (ps ++ a :: ys) ≠ none := by
  induction ps with
  | nil => simp [lastCommon]
  | cons p ps ih => simp [lastCommon]

end DecidableEq

/-- From the root above an element down to it. -/
def path (e : α) : List α := (t.wayUp e).reverse

theorem mem_path {e r : α} : r ∈ t.path e ↔ r ∈ t.wayUp e := List.mem_reverse

theorem wayUp_of_split {e s : α} {xs ps : List α} (h : t.wayUp e = xs ++ s :: ps) :
    t.wayUp s = s :: ps := by
  induction xs generalizing e with
  | nil =>
    rw [List.nil_append] at h
    have hhead : e = s := by
      cases hp : t.parent e with
      | none =>
        rw [t.wayUp_root hp] at h
        exact (List.cons.inj h).1
      | some p =>
        rw [t.wayUp_child hp] at h
        exact (List.cons.inj h).1
    rw [← hhead, h, hhead]
  | cons x xs ih =>
    cases hp : t.parent e with
    | none =>
      rw [t.wayUp_root hp] at h
      simp at h
    | some p =>
      rw [t.wayUp_child hp] at h
      exact ih (List.cons.inj h).2

theorem path_of_split {e s : α} {ps xs : List α} (h : t.path e = ps ++ s :: xs) :
    t.path s = ps ++ [s] := by
  have hway : t.wayUp e = xs.reverse ++ s :: ps.reverse := by
    rw [← List.reverse_reverse (t.wayUp e), ← path, h]
    simp
  rw [path, t.wayUp_of_split hway]
  simp

theorem mem_wayUp_of_split {e s q : α} {ps xs : List α} (h : t.path e = ps ++ s :: xs)
    (hq : q ∈ ps ++ [s]) : q ∈ t.wayUp s := by
  rw [← t.mem_path, t.path_of_split h]
  exact hq

variable [DecidableEq α]

/-- The last common element of the ways down to two elements is their nearest common ancestor. -/
theorem isNearest_of_lastCommon {a b r : α} (h : lastCommon (t.path a) (t.path b) = some r) :
    t.IsNearest a b r := by
  obtain ⟨ps, xs, ys, ha, hb, hnone⟩ := lastCommon_eq_some h
  refine ⟨t.mem_path.mp ?_, t.mem_path.mp ?_, fun s hsa hsb => ?_⟩
  · rw [ha]
    exact List.mem_append_right ps List.mem_cons_self
  · rw [hb]
    exact List.mem_append_right ps List.mem_cons_self
  · by_contra hs
    have hout : s ∉ ps ++ [r] := fun hin => hs (t.mem_wayUp_of_split ha hin)
    have hxs : s ∈ xs := by
      rw [← t.mem_path, ha, List.append_cons] at hsa
      exact (List.mem_append.mp hsa).resolve_left hout
    have hys : s ∈ ys := by
      rw [← t.mem_path, hb, List.append_cons] at hsb
      exact (List.mem_append.mp hsb).resolve_left hout
    -- the ways down to `s` agree, so they go on together behind `r`
    obtain ⟨xs₁, xs₂, rfl⟩ := List.append_of_mem hxs
    obtain ⟨ys₁, ys₂, rfl⟩ := List.append_of_mem hys
    have hsplita : t.path a = (ps ++ r :: xs₁) ++ s :: xs₂ := by simp [ha]
    have hsplitb : t.path b = (ps ++ r :: ys₁) ++ s :: ys₂ := by simp [hb]
    have hsame := t.path_of_split hsplita
    rw [t.path_of_split hsplitb] at hsame
    have heq : xs₁ = ys₁ := by simpa using hsame.symm
    rw [heq] at hnone
    exact lastCommon_append hnone

theorem lastCommon_ne_none {a b r : α} (ha : (t.path a).head? = some r)
    (hb : (t.path b).head? = some r) : lastCommon (t.path a) (t.path b) ≠ none := by
  obtain ⟨xs, hxs⟩ := List.head?_eq_some_iff.mp ha
  obtain ⟨ys, hys⟩ := List.head?_eq_some_iff.mp hb
  rw [hxs, hys, ← List.nil_append (r :: xs), ← List.nil_append (r :: ys)]
  exact lastCommon_append

/-! ## Ways up to an ancestor -/

/-- From an element up to below an ancestor. -/
def below (r e : α) : List α := (t.wayUp e).takeWhile (· ≠ r)

@[simp] theorem below_self (e : α) : t.below e e = [] := by
  unfold below
  cases h : t.parent e with
  | none => simp [t.wayUp_root h]
  | some p => simp [t.wayUp_child h]

theorem below_child {r e p : α} (hne : e ≠ r) (h : t.parent e = some p) :
    t.below r e = e :: t.below r p := by
  unfold below
  rw [t.wayUp_child h, List.takeWhile_cons_of_pos (by simpa using hne)]

/-- The way up goes on from an ancestor. -/
theorem wayUp_eq_below_append {r e : α} (h : r ∈ t.wayUp e) : t.wayUp e = t.below r e ++ t.wayUp r := by
  induction e using t.induction with
  | step e ih =>
    by_cases hself : e = r
    · rw [hself, below_self, List.nil_append]
    · cases hp : t.parent e with
      | none => exact absurd ((t.mem_wayUp_root hp).mp h).symm hself
      | some p =>
        have hmem := ((t.mem_wayUp_child hp).mp h).resolve_left (Ne.symm hself)
        rw [t.below_child hself hp, t.wayUp_child hp, ih p hp hmem, List.cons_append]

variable (size : α → ℕ)

/-- Instances of two elements lie in the same instance of their nearest common ancestor, and the second
is its only one. -/
structure Moves (a : α) (i : ℕ) (b : α) (j : ℕ) (r : α) : Prop where
  nearest : t.IsNearest a b r
  only : ∀ e ∈ t.below r b, size e = 1
  same : climb size (t.below r a) i = climb size (t.below r b) j

end Hierarchy
end EgLang.Library
