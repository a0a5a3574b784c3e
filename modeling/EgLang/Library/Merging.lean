import Mathlib.Data.List.Sort
import Mathlib.Data.List.Perm.Basic
import Mathlib.Logic.Relation
import Mathlib.Tactic

/-!
# Classes that are merged, and lost

A partition that grows while the vertices of a directed graph are visited one after another: a visit
merges the classes in which the vertex and its neighbours are found, or makes a new class of them when
none is found. Two of them found in one class make the visit lose that class, and a neighbour that is not
found while another is stays outside.
-/

namespace EgLang.Library

set_option autoImplicit false

open Relation

namespace Merging
variable {κ : Type*}

/-! ## One visit -/

section Visit
variable (R : κ → κ → Prop) (c : κ) (N : List κ)

/-- The vertex and its neighbours. -/
def Hit (x : κ) : Prop := x = c ∨ x ∈ N

/-- The member of a class in which one of them is found. -/
def Touched (a : κ) : Prop := ∃ x, Hit c N x ∧ R x a

/-- Two of them are in one class. -/
def Clash : Prop := ∃ x y, Hit c N x ∧ Hit c N y ∧ x ≠ y ∧ R x y

/-- None of them is in a class. -/
def Fresh : Prop := ∀ x, Hit c N x → ¬ R x x

/-- The classes after the merging: those that are not touched, and, unless two classes that were to be
merged were one, the union of those that are touched. -/
def merge (a b : κ) : Prop :=
  R a b ∧ ¬ Touched R c N a ∨
    ¬ Fresh R c N ∧ ¬ Clash R c N ∧ (Touched R c N a ∨ a = c) ∧ (Touched R c N b ∨ b = c)

/-- The classes after the visit. -/
def visit (a b : κ) : Prop := merge R c N a b ∨ Fresh R c N ∧ Hit c N a ∧ Hit c N b

end Visit

/-- `R` relates the members of each class, and nothing else. -/
structure Classes (R : κ → κ → Prop) : Prop where
  symm : ∀ {a b}, R a b → R b a
  trans : ∀ {a b c}, R a b → R b c → R a c

variable {R S : κ → κ → Prop} {c : κ} {N : List κ} {a b x : κ}

theorem hit_self : Hit c N c := .inl rfl

theorem Hit.of_mem (h : x ∈ N) : Hit c N x := .inr h

/-- The vertex is in a class after a visit that finds no two in one class. -/
theorem visit_self (hclash : ¬ Clash R c N) : visit R c N c c := by
  by_cases hfresh : Fresh R c N
  · exact .inr ⟨hfresh, hit_self, hit_self⟩
  · exact .inl (.inr ⟨hfresh, hclash, .inr rfl, .inr rfl⟩)

namespace Classes
variable (hR : Classes R)
include hR

theorem left (h : R a b) : R a a := hR.trans h (hR.symm h)

theorem right (h : R a b) : R b b := hR.trans (hR.symm h) h

theorem touched (h : Touched R c N a) (hab : R a b) : Touched R c N b := by
  obtain ⟨x, hx, hxa⟩ := h
  exact ⟨x, hx, hR.trans hxa hab⟩

theorem touched_iff (hab : R a b) : Touched R c N a ↔ Touched R c N b :=
  ⟨fun h => hR.touched h hab, fun h => hR.touched h (hR.symm hab)⟩

theorem not_fresh (h : Touched R c N a) : ¬ Fresh R c N := by
  obtain ⟨x, hx, hxa⟩ := h
  exact fun hfresh => hfresh x hx (hR.left hxa)

theorem merge : Classes (merge R c N) where
  symm := by
    rintro a b (⟨hab, hnot⟩ | ⟨hfresh, hclash, ha, hb⟩)
    · exact .inl ⟨hR.symm hab, fun h => hnot ((hR.touched_iff hab).mpr h)⟩
    · exact .inr ⟨hfresh, hclash, hb, ha⟩
  trans := by
    rintro a b d (⟨hab, hnot⟩ | ⟨hfresh, hclash, ha, hb⟩) (⟨hbd, hnot'⟩ | ⟨-, -, hb', hd⟩)
    · exact .inl ⟨hR.trans hab hbd, hnot⟩
    · rcases hb' with hb' | rfl
      · exact absurd ((hR.touched_iff hab).mpr hb') hnot
      · exact absurd ⟨b, hit_self, hR.symm hab⟩ hnot
    · rcases hb with hb | rfl
      · exact absurd hb hnot'
      · exact absurd ⟨b, hit_self, hR.left hbd⟩ hnot'
    · exact .inr ⟨hfresh, hclash, ha, hd⟩

/-- When nothing is found there is nothing to merge. -/
theorem merge_of_fresh (hfresh : Fresh R c N) : Merging.merge R c N a b ↔ R a b := by
  constructor
  · rintro (⟨hab, -⟩ | ⟨hnot, -⟩)
    · exact hab
    · exact absurd hfresh hnot
  · exact fun hab => .inl ⟨hab, fun h => hR.not_fresh h hfresh⟩

/-- A fresh class has no member of another. -/
theorem not_hit (hfresh : Fresh R c N) (hab : R a b) : ¬ Hit c N a :=
  fun hit => hfresh a hit (hR.left hab)

theorem visit : Classes (visit R c N) where
  symm := by
    rintro a b (hab | ⟨hfresh, ha, hb⟩)
    · exact .inl (hR.merge.symm hab)
    · exact .inr ⟨hfresh, hb, ha⟩
  trans := by
    rintro a b d (hab | ⟨hfresh, ha, hb⟩) (hbd | ⟨hfresh', hb', hd⟩)
    · exact .inl (hR.merge.trans hab hbd)
    · rw [hR.merge_of_fresh hfresh'] at hab
      exact absurd hb' (hR.not_hit hfresh' (hR.symm hab))
    · rw [hR.merge_of_fresh hfresh] at hbd
      exact absurd hb (hR.not_hit hfresh hbd)
    · exact .inr ⟨hfresh, ha, hd⟩

/-- A visit that finds no two in one class keeps what was in one class. -/
theorem visit_mono (hclash : ¬ Clash R c N) (hab : R a b) : Merging.visit R c N a b := by
  by_cases ha : Touched R c N a
  · exact .inl (.inr ⟨hR.not_fresh ha, hclash, .inl ha, .inl (hR.touched ha hab)⟩)
  · exact .inl (.inl ⟨hab, ha⟩)

/-- A visit that finds two in one class loses every class that it touches. -/
theorem visit_clash (hclash : Clash R c N) :
    Merging.visit R c N a b ↔ R a b ∧ ¬ Touched R c N a := by
  obtain ⟨x, y, hx, hy, hne, hxy⟩ := hclash
  constructor
  · rintro ((h | ⟨-, hnot, -⟩) | ⟨hfresh, -⟩)
    · exact h
    · exact absurd ⟨x, y, hx, hy, hne, hxy⟩ hnot
    · exact absurd (hR.left hxy) (hfresh x hx)
  · exact fun h => .inl (.inl h)

/-- So is a neighbour that was found. -/
theorem visit_found (hclash : ¬ Clash R c N) (hb : b ∈ N) (hfound : R b b) :
    Merging.visit R c N c b :=
  have ht : Touched R c N b := ⟨b, .of_mem hb, hfound⟩
  .inl (.inr ⟨hR.not_fresh ht, hclash, .inr rfl, .inl ht⟩)

end Classes

/-! ## One more neighbour -/

theorem hit_concat : Hit c (N ++ [b]) x ↔ Hit c N x ∨ x = b := by
  unfold Hit
  rw [List.mem_append, List.mem_singleton, or_assoc]

theorem touched_concat : Touched R c (N ++ [b]) a ↔ Touched R c N a ∨ R b a := by
  constructor
  · rintro ⟨x, hx, hxa⟩
    rcases hit_concat.mp hx with hx | rfl
    · exact .inl ⟨x, hx, hxa⟩
    · exact .inr hxa
  · rintro (⟨x, hx, hxa⟩ | hba)
    · exact ⟨x, hit_concat.mpr (.inl hx), hxa⟩
    · exact ⟨b, hit_concat.mpr (.inr rfl), hba⟩

theorem fresh_concat : Fresh R c (N ++ [b]) ↔ Fresh R c N ∧ ¬ R b b := by
  constructor
  · exact fun h => ⟨fun x hx => h x (hit_concat.mpr (.inl hx)), h b (hit_concat.mpr (.inr rfl))⟩
  · rintro ⟨hfresh, hb⟩ x hx
    rcases hit_concat.mp hx with hx | rfl
    · exact hfresh x hx
    · exact hb

theorem clash_concat (hR : Classes R) (hb : ¬ Hit c N b) :
    Clash R c (N ++ [b]) ↔ Clash R c N ∨ Touched R c N b := by
  constructor
  · rintro ⟨x, y, hx, hy, hne, hxy⟩
    rcases hit_concat.mp hx with hx' | hxb <;> rcases hit_concat.mp hy with hy' | hyb
    · exact .inl ⟨x, y, hx', hy', hne, hxy⟩
    · exact .inr ⟨x, hx', hyb ▸ hxy⟩
    · exact .inr ⟨y, hy', hR.symm (hxb ▸ hxy)⟩
    · exact absurd (hxb.trans hyb.symm) hne
  · rintro (⟨x, y, hx, hy, hne, hxy⟩ | ⟨x, hx, hxb⟩)
    · exact ⟨x, y, hit_concat.mpr (.inl hx), hit_concat.mpr (.inl hy), hne, hxy⟩
    · exact ⟨x, b, hit_concat.mpr (.inl hx), hit_concat.mpr (.inr rfl), fun h => hb (h ▸ hx), hxb⟩

/-- What is in a class after a visit. -/
theorem visit_domain (h : visit R c N a b) : R a b ∨ (∃ x, R x a) ∨ Hit c N a := by
  rcases h with (⟨hab, -⟩ | ⟨-, -, ⟨x, -, hxa⟩ | rfl, -⟩) | ⟨-, ha, -⟩
  · exact .inl hab
  · exact .inr (.inl ⟨x, hxa⟩)
  · exact .inr (.inr hit_self)
  · exact .inr (.inr ha)

/-- A visit joins nothing that is not joined by `U`, if it uses edges of `U` only. -/
theorem visit_sound {U : κ → κ → Prop} (hR : Classes R) (hsound : ∀ {a b}, R a b → EqvGen U a b)
    (hused : ∀ b ∈ N, Fresh R c N ∨ R b b → EqvGen U c b) (h : visit R c N a b) : EqvGen U a b := by
  have htouched : ∀ {a}, Touched R c N a ∨ a = c → EqvGen U c a := by
    rintro a (⟨x, rfl | hx, hxa⟩ | rfl)
    · exact hsound hxa
    · exact (hused x hx (.inr (hR.left hxa))).trans _ _ _ (hsound hxa)
    · exact .refl a
  rcases h with (⟨hab, -⟩ | ⟨-, -, ha, hb⟩) | ⟨hfresh, ha, hb⟩
  · exact hsound hab
  · exact ((htouched ha).symm _ _).trans _ _ _ (htouched hb)
  · have hhit : ∀ {a}, Hit c N a → EqvGen U c a := by
      rintro a (rfl | ha)
      · exact .refl a
      · exact hused a ha (.inl hfresh)
    exact ((hhit ha).symm _ _).trans _ _ _ (hhit hb)

/-! ## All visits -/

variable (next : κ → List κ)

/-- The classes after visiting the vertices of a list; there are none at first. -/
def visits (l : List κ) : κ → κ → Prop :=
  l.foldl (fun R c => visit R c (next c)) fun _ _ => False

/-- The edges from the vertices of a list. -/
def Edge (l : List κ) (a b : κ) : Prop := a ∈ l ∧ b ∈ next a

variable {next} {l l₁ l₂ : List κ} {v : κ}

@[simp] theorem visits_nil : visits next [] = fun _ _ => False := rfl

theorem visits_concat : visits next (l ++ [v]) = visit (visits next l) v (next v) := by
  rw [visits, List.foldl_append, List.foldl_cons, List.foldl_nil]
  rfl

theorem visits_append (h : visits next l₁ = fun _ _ => False) :
    visits next (l₁ ++ l₂) = visits next l₂ := by
  rw [visits, List.foldl_append]
  change l₂.foldl _ (visits next l₁) = _
  rw [h]
  rfl

theorem classes_visits (l : List κ) : Classes (visits next l) := by
  induction l using List.reverseRecOn with
  | nil => exact ⟨fun h => h, fun h _ => h⟩
  | append_singleton l v ih =>
    rw [visits_concat]
    exact ih.visit

/-- What is in a class has been visited, or is a neighbour of something that has. -/
theorem visits_domain (h : visits next l a b) : a ∈ l ∨ ∃ v, Edge next l v a := by
  induction l using List.reverseRecOn generalizing a b with
  | nil => exact absurd h id
  | append_singleton l v ih =>
    have hold : ∀ {a b}, visits next l a b → a ∈ l ++ [v] ∨ ∃ u, Edge next (l ++ [v]) u a := by
      intro a b hab
      rcases ih hab with ha | ⟨u, hu, ha⟩
      · exact .inl (List.mem_append_left _ ha)
      · exact .inr ⟨u, List.mem_append_left _ hu, ha⟩
    rw [visits_concat] at h
    rcases visit_domain h with hab | ⟨x, hxa⟩ | rfl | ha
    · exact hold hab
    · exact hold ((classes_visits l).symm hxa)
    · exact .inl (by simp)
    · exact .inr ⟨v, by simp, ha⟩

/-- What has been visited and lost, and is a neighbour of nothing that is still to be visited, does not
come back. -/
theorem visits_lost (h : ∀ b, ¬ visits next l₁ a b) (hvisit : a ∉ l₂)
    (hedge : ∀ v ∈ l₂, a ∉ next v) : ∀ b, ¬ visits next (l₁ ++ l₂) a b := by
  induction l₂ using List.reverseRecOn with
  | nil => simpa using h
  | append_singleton l₂ v ih =>
    rw [List.mem_append, List.mem_singleton, not_or] at hvisit
    have hgone := ih hvisit.1 fun u hu => hedge u (List.mem_append_left _ hu)
    intro b hab
    rw [← List.append_assoc, visits_concat] at hab
    rcases visit_domain hab with hab | ⟨x, hxa⟩ | rfl | ha
    · exact hgone b hab
    · exact hgone x ((classes_visits _).symm hxa)
    · exact hvisit.2 rfl
    · exact hedge v (by simp) ha

/-- Visits that only use edges of `U` join nothing that is not joined by `U`. -/
theorem visits_sound {U : κ → κ → Prop} (h₁ : ∀ {a b}, visits next l₁ a b → EqvGen U a b)
    (hedge : ∀ v ∈ l₂, ∀ b ∈ next v, EqvGen U v b) (h : visits next (l₁ ++ l₂) a b) :
    EqvGen U a b := by
  induction l₂ using List.reverseRecOn generalizing a b with
  | nil => exact h₁ (by simpa using h)
  | append_singleton l₂ v ih =>
    rw [← List.append_assoc, visits_concat] at h
    refine visit_sound (classes_visits _) (ih fun u hu => hedge u (List.mem_append_left _ hu)) ?_ h
    exact fun b hb _ => hedge v (by simp) b hb

/-- Nothing is joined that is not connected. -/
theorem eqvGen_of_visits (h : visits next l a b) : EqvGen (Edge next l) a b := by
  have hnil : visits next ([] ++ l) a b := by simpa using h
  refine visits_sound (fun h => absurd h id) (fun v hv b hb => ?_) hnil
  exact .rel _ _ ⟨hv, hb⟩

/-- What is connected is joined, if the ends of each edge are. -/
theorem eq_or_of_eqvGen {U : κ → κ → Prop} (hR : Classes R) (hU : ∀ {a b}, U a b → R a b)
    (h : EqvGen U a b) : a = b ∨ R a b := by
  induction h with
  | rel a b hab => exact .inr (hU hab)
  | refl a => exact .inl rfl
  | symm a b _ ih =>
    rcases ih with rfl | hab
    · exact .inl rfl
    · exact .inr (hR.symm hab)
  | trans a b c _ _ ih₁ ih₂ =>
    rcases ih₁ with rfl | hab
    · exact ih₂
    · rcases ih₂ with rfl | hbc
      · exact .inr hab
      · exact .inr (hR.trans hab hbc)

/-- Visiting the vertices of some components only yields the classes there. -/
theorem visits_filter {K : κ → Prop} [DecidablePred K]
    (hK : ∀ v ∈ l, ∀ b ∈ next v, (K v ↔ K b)) :
    visits next (l.filter K) a b ↔ visits next l a b ∧ K a := by
  induction l using List.reverseRecOn generalizing a b with
  | nil => simp
  | append_singleton l v ih =>
    have ih' : ∀ {a b}, visits next (l.filter K) a b ↔ visits next l a b ∧ K a :=
      ih fun u hu => hK u (List.mem_append_left _ hu)
    have hv := hK v (by simp)
    have hhit : ∀ {x}, Hit v (next v) x → (K v ↔ K x) := by
      rintro x (rfl | hx)
      · exact Iff.rfl
      · exact hv x hx
    have hkeep : ∀ {a b}, visits next l a b → (K a ↔ K b) := by
      intro a b hab
      have h := eqvGen_of_visits hab
      clear hab
      induction h with
      | rel a b hab => exact hK a (List.mem_append_left _ hab.1) b hab.2
      | refl a => exact Iff.rfl
      | symm a b _ ih => exact ih.symm
      | trans a b c _ _ ih₁ ih₂ => exact ih₁.trans ih₂
    rw [List.filter_append, visits_concat]
    by_cases hKv : K v
    · have htouched : ∀ {a}, Touched (visits next (l.filter K)) v (next v) a ↔
          Touched (visits next l) v (next v) a := by
        intro a
        refine exists_congr fun x => and_congr_right fun hx => ?_
        rw [ih', and_iff_left ((hhit hx).mp hKv)]
      have hfresh : Fresh (visits next (l.filter K)) v (next v) ↔
          Fresh (visits next l) v (next v) := by
        refine forall_congr' fun x => forall_congr' fun hx => ?_
        rw [ih', and_iff_left ((hhit hx).mp hKv)]
      have hclash : Clash (visits next (l.filter K)) v (next v) ↔
          Clash (visits next l) v (next v) := by
        refine exists_congr fun x => exists_congr fun y => and_congr_right fun hx => ?_
        rw [ih', and_iff_left ((hhit hx).mp hKv)]
      have hin : ∀ {a}, Touched (visits next l) v (next v) a ∨ a = v → K a := by
        rintro a (⟨x, hx, hxa⟩ | rfl)
        · exact (hkeep hxa).mp ((hhit hx).mp hKv)
        · exact hKv
      rw [List.filter_cons_of_pos (by simpa using hKv), List.filter_nil, visits_concat]
      simp only [visit, merge, ih', htouched, hfresh, hclash]
      constructor
      · rintro ((⟨⟨hab, hKa⟩, hnot⟩ | ⟨hf, hc, ha, hb⟩) | ⟨hf, ha, hb⟩)
        · exact ⟨.inl (.inl ⟨hab, hnot⟩), hKa⟩
        · exact ⟨.inl (.inr ⟨hf, hc, ha, hb⟩), hin ha⟩
        · exact ⟨.inr ⟨hf, ha, hb⟩, (hhit ha).mp hKv⟩
      · rintro ⟨(⟨hab, hnot⟩ | ⟨hf, hc, ha, hb⟩) | ⟨hf, ha, hb⟩, hKa⟩
        · exact .inl (.inl ⟨⟨hab, hKa⟩, hnot⟩)
        · exact .inl (.inr ⟨hf, hc, ha, hb⟩)
        · exact .inr ⟨hf, ha, hb⟩
    · have hout : ∀ {a}, Touched (visits next l) v (next v) a ∨ a = v → ¬ K a := by
        rintro a (⟨x, hx, hxa⟩ | rfl) hKa
        · exact hKv ((hhit hx).mpr ((hkeep hxa).mpr hKa))
        · exact hKv hKa
      rw [List.filter_cons_of_neg (by simpa using hKv), List.filter_nil, List.append_nil, ih']
      constructor
      · rintro ⟨hab, hKa⟩
        exact ⟨.inl (.inl ⟨hab, fun ht => hout (.inl ht) hKa⟩), hKa⟩
      · rintro ⟨(⟨hab, -⟩ | ⟨-, -, ha, -⟩) | ⟨-, ha, -⟩, hKa⟩
        · exact ⟨hab, hKa⟩
        · exact absurd hKa (hout ha)
        · exact absurd ((hhit ha).mpr hKa) hKv

end Merging

end EgLang.Library
