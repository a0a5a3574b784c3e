import EgLang.Library.RoseTree
import EgLang.Library.StepSystem
import Mathlib.Logic.Relation
import Mathlib.Order.WellFounded
import Mathlib.Data.Fintype.Sets
import Mathlib.Data.Finite.Defs

/-!
# Recursions that need fuel

A recursion whose calls need not go down is computed with fuel, and stops with an error of its own when
the fuel has run out. More fuel then never changes another result, and there is enough fuel for an
argument when no way down from it goes on forever. The plainest such recursion unfolds a successor
function into a tree.
-/

namespace EgLang.Library

set_option autoImplicit false

/-! ## Ways that end -/

section Acyclic
variable {α : Type} {R : α → α → Prop} {a b : α}

/-- No element that can be reached from `a` lies below itself. -/
def AcyclicFrom (R : α → α → Prop) (a : α) : Prop :=
  ∀ b, Relation.ReflTransGen R a b → ¬ Relation.TransGen R b b

/-- In a finite relation without a cycle every way down ends. -/
theorem AcyclicFrom.acc {l : List α} (hl : ∀ {a b}, R a b → b ∈ l) (h : AcyclicFrom R a) :
    Acc (fun b a => R a b) a := by
  let S := {b // Relation.ReflTransGen R a b}
  have hfinite : Finite S := by
    refine Set.Finite.subset (List.finite_toSet (a :: l)) ?_
    intro b hb
    rcases Relation.ReflTransGen.cases_tail hb with rfl | ⟨c, -, hc⟩
    · exact List.mem_cons_self
    · exact List.mem_cons_of_mem a (hl hc)
  let below : S → S → Prop := fun x y => Relation.TransGen R y.1 x.1
  have : IsTrans S below := ⟨fun _ _ _ hxy hyz => hyz.trans hxy⟩
  have : Std.Irrefl below := ⟨fun x => h x.1 x.2⟩
  have hwf : WellFounded below := Finite.wellFounded_of_trans_of_irrefl below
  have hacc : ∀ x : S, Acc (fun b a => R a b) x.1 := by
    intro x
    induction x using hwf.induction with
    | _ x ih => exact Acc.intro _ fun b hb => ih ⟨b, x.2.tail hb⟩ (.single hb)
  exact hacc ⟨a, .refl⟩

/-- Where every way down ends there is no cycle. -/
theorem acyclicFrom_of_acc (h : Acc (fun b a => R a b) a) : AcyclicFrom R a := by
  have hirrefl : ∀ b, Acc (fun b a => R a b) b → ¬ Relation.TransGen R b b := by
    intro b hb hcycle
    induction hb with
    | intro b _ ih =>
      obtain ⟨c, hbc, hcb⟩ := Relation.TransGen.head'_iff.mp hcycle
      exact ih c hbc (Relation.TransGen.tail' hcb hbc)
  intro b hr
  refine hirrefl b ?_
  induction hr with
  | refl => exact h
  | tail _ hlast ih => exact ih.inv hlast

end Acyclic

/-! ## Fuel -/

section Fuel
variable {α : Type} {P : ℕ → α → Prop}

/-- Enough fuel for each of some arguments is enough fuel for all of them. -/
theorem exists_common_fuel {l : List α} (mono : ∀ {n m a}, n ≤ m → P n a → P m a)
    (h : ∀ a ∈ l, ∃ n, P n a) : ∃ n, ∀ a ∈ l, P n a := by
  induction l with
  | nil => exact ⟨0, fun a ha => absurd ha List.not_mem_nil⟩
  | cons a l ih =>
    rw [List.forall_mem_cons] at h
    obtain ⟨n, hn⟩ := h.1
    obtain ⟨m, hm⟩ := ih h.2
    refine ⟨max n m, fun b hb => ?_⟩
    rcases List.mem_cons.mp hb with rfl | hb
    · exact mono (le_max_left n m) hn
    · exact mono (le_max_right n m) (hm b hb)

/-- Where every call needs fuel and passes less of it on, fuel that is enough bounds every way down. -/
theorem acc_of_fuel {R : α → α → Prop} (zero : ∀ a, ¬ P 0 a)
    (succ : ∀ {n a b}, P (n + 1) a → R a b → P n b) {n : ℕ} {a : α} (h : P n a) :
    Acc (fun b a => R a b) a := by
  induction n generalizing a with
  | zero => exact absurd h (zero a)
  | succ n ih => exact Acc.intro a fun b hb => ih (succ h hb)

end Fuel

/-! ## More fuel -/

section Improves
variable {ε α β σ : Type} {e : ε}

/-- The second result is the first, unless the first is the error `e`. -/
def Improves (e : ε) (x y : Except ε α) : Prop := x = .error e ∨ x = y

theorem Improves.refl (x : Except ε α) : Improves e x x := .inr rfl

theorem Improves.trans {x y z : Except ε α} (h : Improves e x y) (h' : Improves e y z) :
    Improves e x z := by
  rcases h with rfl | rfl
  · exact .inl rfl
  · exact h'

theorem Improves.eq {x y : Except ε α} (h : Improves e x y) (hx : x ≠ .error e) : y = x :=
  (h.resolve_left hx).symm

theorem Improves.ne_error {x y : Except ε α} (h : Improves e x y) (hx : x ≠ .error e) :
    y ≠ .error e := by
  rw [h.eq hx]
  exact hx

theorem Improves.bind {x y : Except ε α} {f g : α → Except ε β} (h : Improves e x y)
    (hfg : ∀ a, Improves e (f a) (g a)) : Improves e (x >>= f) (y >>= g) := by
  rcases h with rfl | rfl
  · exact .inl rfl
  · cases x with
    | error e' => exact .inr rfl
    | ok a => exact hfg a

theorem Improves.threadM {f g : σ → α → Except ε (σ × β)} {xs : List α}
    (h : ∀ x ∈ xs, ∀ s, Improves e (f s x) (g s x)) (s : σ) :
    Improves e (threadM f xs s) (threadM g xs s) := by
  induction xs generalizing s with
  | nil => exact .refl _
  | cons x xs ih =>
    rw [List.forall_mem_cons] at h
    exact (h.1 s).bind fun r => (ih h.2 r.1).bind fun _ => .refl _

theorem Improves.mapM {f g : α → Except ε β} {xs : List α}
    (h : ∀ x ∈ xs, Improves e (f x) (g x)) : Improves e (xs.mapM f) (xs.mapM g) := by
  induction xs with
  | nil => exact .refl _
  | cons x xs ih =>
    rw [List.forall_mem_cons] at h
    rw [List.mapM_cons, List.mapM_cons]
    exact h.1.bind fun r => (ih h.2).bind fun _ => .refl _

/-- What more fuel by one improves, more fuel improves. -/
theorem improves_of_le {f : ℕ → Except ε α} (h : ∀ n, Improves e (f n) (f (n + 1))) {n m : ℕ}
    (hnm : n ≤ m) : Improves e (f n) (f m) := by
  induction hnm with
  | refl => exact .refl _
  | step _ ih => exact ih.trans (h _)

end Improves

/-! ## Unfolding -/

section Unfold
variable {ε α : Type} (e : ε) (next : α → List α)

/-- The tree of all ways down from an element. -/
def unfold : ℕ → α → Except ε (RoseTree α)
  | 0, _ => .error e
  | n + 1, a => do
    let ts ← (next a).mapM (unfold n)
    return .node a ts

/-- The children of every node of a tree are its successors, in their order. -/
def Unfolds (t : RoseTree α) : Prop := ∀ s ∈ t.subtrees, s.children.map RoseTree.label = next s.label

variable {e next} {n m : ℕ} {a b : α} {t t' : RoseTree α}

theorem unfolds_node {ts : List (RoseTree α)} :
    Unfolds next (.node a ts) ↔ ts.map RoseTree.label = next a ∧ ∀ t ∈ ts, Unfolds next t := by
  simp only [Unfolds, RoseTree.mem_subtrees_node, forall_eq_or_imp, RoseTree.children_node,
    RoseTree.label_node]
  refine and_congr_right' ⟨fun h t ht s hs => h s ⟨t, ht, hs⟩, fun h s hs => ?_⟩
  obtain ⟨t, ht, hs⟩ := hs
  exact h t ht s hs

/-- A successor function unfolds in one way only. -/
theorem Unfolds.unique (h : Unfolds next t) (h' : Unfolds next t') (heq : t.label = t'.label) :
    t = t' := by
  induction t using RoseTree.tree_induction generalizing t' with
  | step a ts ih =>
    cases t' with
    | node a' ts' =>
      rw [unfolds_node] at h h'
      rw [RoseTree.label_node, RoseTree.label_node] at heq
      subst heq
      have hmap : ts.map RoseTree.label = ts'.map RoseTree.label := h.1.trans h'.1.symm
      have hlen : ts.length = ts'.length := by simpa using congrArg List.length hmap
      congr 1
      refine List.ext_getElem hlen fun i hi hi' => ?_
      refine ih _ (List.getElem_mem hi) (h.2 _ (List.getElem_mem hi)) (h'.2 _ (List.getElem_mem hi')) ?_
      have := congrArg (·[i]?) hmap
      simpa [hi, hi'] using this

/-- The labels of an unfolded tree are all that can be reached. -/
theorem Unfolds.mem_labels (h : Unfolds next t) :
    b ∈ t.labels ↔ Relation.ReflTransGen (fun a b => b ∈ next a) t.label b := by
  induction t using RoseTree.tree_induction with
  | step a ts ih =>
    rw [unfolds_node] at h
    rw [RoseTree.mem_labels_node, RoseTree.label_node]
    refine ⟨fun hb => ?_, fun hb => ?_⟩
    · rcases hb with rfl | ⟨t, ht, hb⟩
      · exact .refl
      · refine .head ?_ ((ih t ht (h.2 t ht)).mp hb)
        rw [← h.1]
        exact List.mem_map_of_mem ht
    · rcases Relation.ReflTransGen.cases_head hb with rfl | ⟨c, hc, hb⟩
      · exact .inl rfl
      · rw [← h.1] at hc
        obtain ⟨t, ht, rfl⟩ := List.mem_map.mp hc
        exact .inr ⟨t, ht, (ih t ht (h.2 t ht)).mpr hb⟩

theorem unfold_improves (n : ℕ) (a : α) : Improves e (unfold e next n a) (unfold e next (n + 1) a) := by
  induction n generalizing a with
  | zero => exact .inl rfl
  | succ n ih => exact (Improves.mapM fun b _ => ih b).bind fun _ => .refl _

theorem unfold_succ_eq_ok :
    unfold e next (n + 1) a = .ok t ↔
      ∃ ts, List.Forall₂ (fun b s => unfold e next n b = .ok s) (next a) ts ∧ t = .node a ts := by
  rw [unfold, except_bind_ok]
  simp only [mapM_eq_ok]
  refine exists_congr fun ts => and_congr_right' ?_
  exact ⟨fun h => (Except.ok.inj h).symm, fun h => congrArg _ h.symm⟩

theorem label_of_unfold (h : unfold e next n a = .ok t) : t.label = a := by
  cases n with
  | zero => cases h
  | succ n =>
    obtain ⟨ts, -, rfl⟩ := unfold_succ_eq_ok.mp h
    rfl

theorem unfolds_of_unfold (h : unfold e next n a = .ok t) : Unfolds next t := by
  induction n generalizing a t with
  | zero => cases h
  | succ n ih =>
    obtain ⟨ts, hts, rfl⟩ := unfold_succ_eq_ok.mp h
    rw [unfolds_node]
    refine ⟨?_, fun s hs => ?_⟩
    · refine List.ext_getElem? fun i => ?_
      rw [List.getElem?_map]
      rcases Nat.lt_or_ge i (next a).length with hi | hi
      · have hi' : i < ts.length := hts.length_eq ▸ hi
        have := label_of_unfold (List.Forall₂.get hts hi hi')
        simpa [hi, hi'] using this
      · rw [List.getElem?_eq_none hi, List.getElem?_eq_none (hts.length_eq ▸ hi), Option.map_none]
    · obtain ⟨i, hi, rfl⟩ := List.getElem_of_mem hs
      exact ih (List.Forall₂.get hts (hts.length_eq ▸ hi) hi)

/-- An unfolding ends in no other way than with a tree. -/
theorem unfold_ok_or (n : ℕ) (a : α) : (∃ t, unfold e next n a = .ok t) ∨ unfold e next n a = .error e := by
  induction n generalizing a with
  | zero => exact .inr rfl
  | succ n ih =>
    rw [unfold]
    rcases mapM_ok_or fun b _ => ih b with ⟨ts, hts⟩ | herr
    · rw [hts]
      exact .inl ⟨_, rfl⟩
    · rw [herr]
      exact .inr rfl

/-- Unfolding ends exactly where every way down ends. -/
theorem exists_unfold_iff : (∃ n t, unfold e next n a = .ok t) ↔ Acc (fun b a => b ∈ next a) a := by
  refine ⟨?_, fun h => ?_⟩
  · rintro ⟨n, t, h⟩
    refine acc_of_fuel (P := fun n a => ∃ t, unfold e next n a = .ok t)
      (R := fun a b => b ∈ next a) ?_ ?_ ⟨t, h⟩
    · rintro a ⟨t, ht⟩
      cases ht
    · rintro n a b ⟨t, ht⟩ hb
      obtain ⟨ts, hts, -⟩ := unfold_succ_eq_ok.mp ht
      obtain ⟨i, hi, rfl⟩ := List.getElem_of_mem hb
      exact ⟨_, List.Forall₂.get hts hi (hts.length_eq ▸ hi)⟩
  · induction h with
    | intro a _ ih =>
      have hmono : ∀ {n m : ℕ} {b : α}, n ≤ m → (∃ t, unfold e next n b = .ok t) →
          ∃ t, unfold e next m b = .ok t := by
        rintro n m b hnm ⟨t, ht⟩
        refine ⟨t, ?_⟩
        rw [(improves_of_le (fun n => unfold_improves n b) hnm).eq (by rw [ht]; simp), ht]
      obtain ⟨n, hn⟩ := exists_common_fuel (P := fun n b => ∃ t, unfold e next n b = .ok t) hmono ih
      have : Nonempty (RoseTree α) := ⟨.node a []⟩
      choose! f hf using hn
      refine ⟨n + 1, .node a ((next a).map f), unfold_succ_eq_ok.mpr ⟨_, ?_, rfl⟩⟩
      rw [List.forall₂_map_right_iff, List.forall₂_same]
      exact hf

end Unfold
end EgLang.Library
