import EgLang.Compiler.LinkAnalysis

/-!
# The sets of contexts

The sets that link analysis builds are classes that are merged: adding a context is a visit of it.
-/

namespace EgLang.Compiler

open EgLang.Library EgLang.Library.Merging

set_option autoImplicit false

namespace ContextSets
variable {ι : Type}

/-- The two are in one set. -/
def Together (s : ContextSets ι) (a b : ι) : Prop :=
  ∃ p ∈ s.sets, a ∈ s.contents p ∧ b ∈ s.contents p

/-- The sets are disjoint, none is empty, and new ones get other pointers. -/
structure Wf (s : ContextSets ι) : Prop where
  nodup : s.sets.Nodup
  allocated : ∀ p ∈ s.sets, p < s.allocated
  nonempty : ∀ p ∈ s.sets, (s.contents p).Nonempty
  unique : ∀ {p q a}, p ∈ s.sets → q ∈ s.sets → a ∈ s.contents p → a ∈ s.contents q → p = q

variable {s t : ContextSets ι} {p q : ℕ} {a b c : ι}

theorem Wf.classes (h : s.Wf) : Classes s.Together where
  symm := by
    rintro a b ⟨p, hp, ha, hb⟩
    exact ⟨p, hp, hb, ha⟩
  trans := by
    rintro a b c ⟨p, hp, ha, hb⟩ ⟨q, hq, hb', hc⟩
    obtain rfl := h.unique hp hq hb hb'
    exact ⟨p, hp, ha, hc⟩

/-- The members of a set are those together with one of them. -/
theorem Wf.mem_contents (h : s.Wf) (hp : p ∈ s.sets) (ha : a ∈ s.contents p) :
    b ∈ s.contents p ↔ s.Together a b := by
  constructor
  · exact fun hb => ⟨p, hp, ha, hb⟩
  · rintro ⟨q, hq, ha', hb⟩
    obtain rfl := h.unique hp hq ha ha'
    exact hb

variable [DecidableEq ι]

/-! ## The operations -/

theorem Wf.insert (h : s.Wf) (hp : p ∈ s.sets) (hc : ¬ s.Together c c) : (s.insert p c).Wf where
  nodup := h.nodup
  allocated := h.allocated
  nonempty := by
    intro q hq
    by_cases hqp : q = p
    · subst hqp
      simp [ContextSets.insert]
    · simpa [ContextSets.insert, Function.update_of_ne hqp] using h.nonempty q hq
  unique := by
    have hcq : ∀ {q}, q ∈ s.sets → c ∉ s.contents q := fun hq hcq => hc ⟨_, hq, hcq, hcq⟩
    intro q r a hq hr ha hb
    by_cases hqp : q = p <;> by_cases hrp : r = p
    · exact hqp.trans hrp.symm
    · subst hqp
      simp only [ContextSets.insert, Function.update_self, Function.update_of_ne hrp,
        Finset.mem_insert] at ha hb
      rcases ha with rfl | ha
      · exact absurd hb (hcq hr)
      · exact h.unique hq hr ha hb
    · subst hrp
      simp only [ContextSets.insert, Function.update_self, Function.update_of_ne hqp,
        Finset.mem_insert] at ha hb
      rcases hb with rfl | hb
      · exact absurd ha (hcq hq)
      · exact h.unique hq hr ha hb
    · simp only [ContextSets.insert, Function.update_of_ne hqp, Function.update_of_ne hrp] at ha hb
      exact h.unique hq hr ha hb

theorem Wf.together_insert (h : s.Wf) (hp : p ∈ s.sets) (hb : b ∈ s.contents p) {x y : ι} :
    (s.insert p c).Together x y ↔ s.Together x y ∧ ¬ s.Together b x ∨
      (s.Together b x ∨ x = c) ∧ (s.Together b y ∨ y = c) := by
  have hmem : ∀ {x}, x ∈ Insert.insert c (s.contents p) ↔ s.Together b x ∨ x = c := by
    intro x
    rw [Finset.mem_insert, h.mem_contents hp hb, or_comm]
  constructor
  · rintro ⟨q, hq, hx, hy⟩
    by_cases hqp : q = p
    · subst hqp
      simp only [ContextSets.insert, Function.update_self] at hx hy
      exact .inr ⟨hmem.mp hx, hmem.mp hy⟩
    · simp only [ContextSets.insert, Function.update_of_ne hqp] at hx hy
      refine .inl ⟨⟨q, hq, hx, hy⟩, fun hbx => hqp ?_⟩
      exact h.unique hq hp hx ((h.mem_contents hp hb).mpr hbx)
  · rintro (⟨⟨q, hq, hx, hy⟩, hbx⟩ | ⟨hx, hy⟩)
    · have hqp : q ≠ p := by
        rintro rfl
        exact hbx ⟨q, hq, hb, hx⟩
      refine ⟨q, hq, ?_, ?_⟩ <;> simp only [ContextSets.insert, Function.update_of_ne hqp]
      · exact hx
      · exact hy
    · refine ⟨p, hp, ?_, ?_⟩ <;> simp only [ContextSets.insert, Function.update_self]
      · exact hmem.mpr hx
      · exact hmem.mpr hy

theorem Wf.merge (h : s.Wf) (hq : q ∈ s.sets) : (s.merge p q).Wf where
  nodup := h.nodup.erase q
  allocated r hr := h.allocated r (List.mem_of_mem_erase hr)
  nonempty := by
    intro r hr
    have hr' := h.nonempty r (List.mem_of_mem_erase hr)
    by_cases hrp : r = p
    · subst hrp
      simpa [ContextSets.merge] using hr'.mono Finset.subset_union_left
    · simpa [ContextSets.merge, Function.update_of_ne hrp] using hr'
  unique := by
    have hmem : ∀ {r a}, r ∈ s.sets.erase q → r ≠ p → a ∈ s.contents r →
        p ∈ s.sets.erase q → a ∈ s.contents p ∪ s.contents q → False := by
      intro r a hr hrp ha hp hapq
      obtain ⟨hrq, hr⟩ := (h.nodup.mem_erase_iff).mp hr
      rcases Finset.mem_union.mp hapq with hap | haq
      · exact hrp (h.unique hr (List.mem_of_mem_erase hp) ha hap)
      · exact hrq (h.unique hr hq ha haq)
    intro r t a hr ht ha hb
    by_cases hrp : r = p <;> by_cases htp : t = p
    · exact hrp.trans htp.symm
    · subst hrp
      simp only [ContextSets.merge, Function.update_self, Function.update_of_ne htp] at ha hb
      exact (hmem ht htp hb hr ha).elim
    · subst htp
      simp only [ContextSets.merge, Function.update_self, Function.update_of_ne hrp] at ha hb
      exact (hmem hr hrp ha ht hb).elim
    · simp only [ContextSets.merge, Function.update_of_ne hrp, Function.update_of_ne htp] at ha hb
      exact h.unique (List.mem_of_mem_erase hr) (List.mem_of_mem_erase ht) ha hb

/-- Merging a set into one that is not itself, and still among the sets. -/
theorem Wf.together_merge (h : s.Wf) (hp : p ∈ s.sets) (hq : q ∈ s.sets) (hpq : p ≠ q)
    {x y : ι} : (s.merge p q).Together x y ↔
      s.Together x y ∧ ¬ (x ∈ s.contents p ∨ x ∈ s.contents q) ∨
        (x ∈ s.contents p ∨ x ∈ s.contents q) ∧ (y ∈ s.contents p ∨ y ∈ s.contents q) := by
  have hp' : p ∈ s.sets.erase q := (List.mem_erase_of_ne hpq).mpr hp
  constructor
  · rintro ⟨r, hr, hx, hy⟩
    by_cases hrp : r = p
    · subst hrp
      simp only [ContextSets.merge, Function.update_self, Finset.mem_union] at hx hy
      exact .inr ⟨hx, hy⟩
    · simp only [ContextSets.merge, Function.update_of_ne hrp] at hx hy
      obtain ⟨hrq, hr⟩ := (h.nodup.mem_erase_iff).mp hr
      refine .inl ⟨⟨r, hr, hx, hy⟩, ?_⟩
      rintro (hxp | hxq)
      · exact hrp (h.unique hr hp hx hxp)
      · exact hrq (h.unique hr hq hx hxq)
  · rintro (⟨⟨r, hr, hx, hy⟩, hnot⟩ | ⟨hx, hy⟩)
    · have hrp : r ≠ p := by
        rintro rfl
        exact hnot (.inl hx)
      have hrq : r ≠ q := by
        rintro rfl
        exact hnot (.inr hx)
      refine ⟨r, (List.mem_erase_of_ne hrq).mpr hr, ?_, ?_⟩ <;>
        simp only [ContextSets.merge, Function.update_of_ne hrp]
      · exact hx
      · exact hy
    · refine ⟨p, hp', ?_, ?_⟩ <;>
        simp only [ContextSets.merge, Function.update_self, Finset.mem_union]
      · exact hx
      · exact hy

/-- Merging a set into itself, or into one that is no longer among the sets, loses it. -/
theorem Wf.together_merge_lost (h : s.Wf) (hq : q ∈ s.sets) (hp : p = q ∨ p ∉ s.sets) {x y : ι} :
    (s.merge p q).Together x y ↔ s.Together x y ∧ x ∉ s.contents q := by
  have hne : ∀ {r}, r ∈ s.sets.erase q → r ≠ p := by
    rintro r hr rfl
    obtain ⟨hrq, hr⟩ := (h.nodup.mem_erase_iff).mp hr
    rcases hp with rfl | hp
    · exact hrq rfl
    · exact hp hr
  constructor
  · rintro ⟨r, hr, hx, hy⟩
    simp only [ContextSets.merge, Function.update_of_ne (hne hr)] at hx hy
    obtain ⟨hrq, hr⟩ := (h.nodup.mem_erase_iff).mp hr
    exact ⟨⟨r, hr, hx, hy⟩, fun hxq => hrq (h.unique hr hq hx hxq)⟩
  · rintro ⟨⟨r, hr, hx, hy⟩, hnot⟩
    have hrq : r ≠ q := by
      rintro rfl
      exact hnot hx
    have hr' := (List.mem_erase_of_ne hrq).mpr hr
    refine ⟨r, hr', ?_, ?_⟩ <;> simp only [ContextSets.merge, Function.update_of_ne (hne hr')]
    · exact hx
    · exact hy

theorem Wf.construct {contexts : List ι} (h : s.Wf) (hne : contexts ≠ [])
    (hnew : ∀ c ∈ contexts, ¬ s.Together c c) : (s.construct contexts).Wf where
  nodup := by
    refine List.nodup_append.mpr ⟨h.nodup, List.nodup_singleton _, fun p hp q hq => ?_⟩
    rw [List.mem_singleton] at hq
    have := h.allocated p hp
    omega
  allocated := by
    intro p hp
    rw [ContextSets.construct, List.mem_append, List.mem_singleton] at hp
    rcases hp with hp | rfl
    · exact Nat.lt_succ_of_lt (h.allocated p hp)
    · exact Nat.lt_succ_self _
  nonempty := by
    intro p hp
    rw [ContextSets.construct, List.mem_append, List.mem_singleton] at hp
    rcases hp with hp | rfl
    · have hne := (h.allocated p hp).ne
      simpa [ContextSets.construct, Function.update_of_ne hne] using h.nonempty p hp
    · simpa [ContextSets.construct] using hne
  unique := by
    have hold : ∀ {p a}, p ∈ s.sets → a ∈ (s.construct contexts).contents p → a ∈ s.contents p := by
      intro p a hp ha
      have hne := (h.allocated p hp).ne
      simpa [ContextSets.construct, Function.update_of_ne hne] using ha
    have hfresh : ∀ {a}, a ∈ (s.construct contexts).contents s.allocated → a ∈ contexts := by
      intro a ha
      simpa [ContextSets.construct] using ha
    intro p q a hp hq ha hb
    rw [ContextSets.construct, List.mem_append, List.mem_singleton] at hp hq
    rcases hp with hp | rfl <;> rcases hq with hq | rfl
    · exact h.unique hp hq (hold hp ha) (hold hq hb)
    · exact absurd ⟨p, hp, hold hp ha, hold hp ha⟩ (hnew a (hfresh hb))
    · exact absurd ⟨q, hq, hold hq hb, hold hq hb⟩ (hnew a (hfresh ha))
    · rfl

theorem Wf.together_construct {contexts : List ι} (h : s.Wf) {x y : ι} :
    (s.construct contexts).Together x y ↔ s.Together x y ∨ x ∈ contexts ∧ y ∈ contexts := by
  constructor
  · rintro ⟨p, hp, hx, hy⟩
    rw [ContextSets.construct, List.mem_append, List.mem_singleton] at hp
    rcases hp with hp | rfl
    · have hne := (h.allocated p hp).ne
      simp only [ContextSets.construct, Function.update_of_ne hne] at hx hy
      exact .inl ⟨p, hp, hx, hy⟩
    · simp only [ContextSets.construct, Function.update_self, List.mem_toFinset] at hx hy
      exact .inr ⟨hx, hy⟩
  · rintro (⟨p, hp, hx, hy⟩ | ⟨hx, hy⟩)
    · have hne := (h.allocated p hp).ne
      refine ⟨p, List.mem_append_left _ hp, ?_, ?_⟩ <;>
        simp only [ContextSets.construct, Function.update_of_ne hne]
      · exact hx
      · exact hy
    · refine ⟨s.allocated, List.mem_append_right _ (List.mem_singleton_self _), ?_, ?_⟩ <;>
        simp only [ContextSets.construct, Function.update_self, List.mem_toFinset]
      · exact hx
      · exact hy

end ContextSets

/-! ## Adding a context -/

namespace LinkAnalysis
variable {ι : Type} [DecidableEq ι] {s : ContextSets ι} {c b : ι} {N : List ι} {p : ℕ}

theorem find_eq_some (h : find s b = some p) : p ∈ s.sets ∧ b ∈ s.contents p :=
  ⟨List.mem_of_find?_eq_some h, by simpa using List.find?_some h⟩

theorem find_eq_none : find s b = none ↔ ¬ s.Together b b := by
  unfold find ContextSets.Together
  rw [List.find?_eq_none]
  simp

/-- How far the loop over the bases has come: nothing has been found; or one set takes the others in; or
two were in one set, and what is found goes into a set that is lost. -/
inductive Joining (s : ContextSets ι) (c : ι) (N : List ι) : ContextSets ι × Option ℕ → Prop
  | none (hfresh : Fresh s.Together c N) : Joining s c N (s, none)
  | live {t : ContextSets ι} {p : ℕ} (hwf : t.Wf) (hp : p ∈ t.sets)
      (hfresh : ¬ Fresh s.Together c N) (hclash : ¬ Clash s.Together c N)
      (hcontents : ∀ a, a ∈ t.contents p ↔ Touched s.Together c N a ∨ a = c)
      (htogether : ∀ a b, t.Together a b ↔ merge s.Together c N a b) : Joining s c N (t, some p)
  | lost {t : ContextSets ι} {p : ℕ} (hwf : t.Wf) (hp : p ∉ t.sets) (hclash : Clash s.Together c N)
      (htogether : ∀ a b, t.Together a b ↔ s.Together a b ∧ ¬ Touched s.Together c N a) :
      Joining s c N (t, some p)

theorem joining_nil (h : s.Wf) : Joining s c [] (s, find s c) := by
  have hhit : ∀ {x}, Hit c ([] : List ι) x ↔ x = c := by simp [Hit]
  have htouched : ∀ {a}, Touched s.Together c [] a ↔ s.Together c a := by simp [Touched, hhit]
  cases hfind : find s c with
  | none =>
    refine .none fun x hx => ?_
    rw [hhit.mp hx]
    exact find_eq_none.mp hfind
  | some p =>
    obtain ⟨hp, hc⟩ := find_eq_some hfind
    have hfresh : ¬ Fresh s.Together c [] := fun h => h c hit_self ⟨p, hp, hc, hc⟩
    have hclash : ¬ Clash s.Together c [] := by
      rintro ⟨x, y, hx, hy, hne, -⟩
      exact hne ((hhit.mp hx).trans (hhit.mp hy).symm)
    have hself : ∀ {a}, Touched s.Together c [] a ∨ a = c ↔ s.Together c a := by
      intro a
      rw [htouched]
      refine or_iff_left_of_imp ?_
      rintro rfl
      exact ⟨p, hp, hc, hc⟩
    refine .live h hp hfresh hclash (fun a => ?_) fun a b => ?_
    · rw [hself, h.mem_contents hp hc]
    · unfold merge
      rw [hself, hself, htouched]
      constructor
      · intro hab
        by_cases hca : s.Together c a
        · exact .inr ⟨hfresh, hclash, hca, h.classes.trans hca hab⟩
        · exact .inl ⟨hab, hca⟩
      · rintro (⟨hab, -⟩ | ⟨-, -, hca, hcb⟩)
        · exact hab
        · exact h.classes.trans (h.classes.symm hca) hcb

omit [DecidableEq ι] in
/-- The loop passes over a base that is not found. -/
theorem Joining.skip {state : ContextSets ι × Option ℕ} (h : s.Wf) (hN : ¬ Hit c N b)
    (hj : Joining s c N state) (hb : ¬ state.1.Together b b) : Joining s c (N ++ [b]) state := by
  have hR := h.classes
  cases hj with
  | none hfresh => exact .none (fresh_concat.mpr ⟨hfresh, hb⟩)
  | @live t p hwf hp hfresh hclash hcontents htogether =>
    -- the base is in no set at all, since those that are touched are all there
    have hbb : ¬ s.Together b b := by
      intro hbb
      refine hb ((htogether b b).mpr ?_)
      by_cases ht : Touched s.Together c N b
      · exact .inr ⟨hfresh, hclash, .inl ht, .inl ht⟩
      · exact .inl ⟨hbb, ht⟩
    have htouched : ∀ {a}, Touched s.Together c (N ++ [b]) a ↔ Touched s.Together c N a := by
      intro a
      rw [touched_concat, or_iff_left fun hba => hbb (hR.left hba)]
    have hclash' : Clash s.Together c (N ++ [b]) ↔ Clash s.Together c N := by
      rw [clash_concat hR hN, or_iff_left]
      rintro ⟨x, -, hxb⟩
      exact hbb (hR.right hxb)
    have hfresh' : Fresh s.Together c (N ++ [b]) ↔ Fresh s.Together c N := by
      rw [fresh_concat, and_iff_left hbb]
    refine .live hwf hp (hfresh'.not.mpr hfresh) (hclash'.not.mpr hclash) (fun a => ?_) fun a b' => ?_
    · rw [htouched, hcontents]
    · rw [htogether]
      unfold merge
      rw [htouched, htouched, hclash', hfresh']
  | @lost t p hwf hp hclash htogether =>
    refine .lost hwf hp ((clash_concat hR hN).mpr (.inl hclash)) fun a b' => ?_
    rw [htogether, touched_concat]
    refine and_congr_right fun _ => not_congr ⟨.inl, ?_⟩
    rintro (ht | hba)
    · exact ht
    · by_contra hnot
      refine hb ((htogether b b).mpr ⟨hR.left hba, fun ht => hnot (hR.touched ht hba)⟩)

/-- The loop finds a base. -/
theorem Joining.found {state : ContextSets ι × Option ℕ} (h : s.Wf) (hN : ¬ Hit c N b)
    (hj : Joining s c N state) (hfind : find state.1 b = some p) :
    Joining s c (N ++ [b]) (addBase c state b) := by
  have hR := h.classes
  obtain ⟨hp, hb⟩ := find_eq_some hfind
  unfold addBase
  rw [hfind]
  cases hj with
  | none hfresh =>
    have hbb : s.Together b b := ⟨p, hp, hb, hb⟩
    have hcc : ¬ s.Together c c := hfresh c hit_self
    have htouched : ∀ {a}, Touched s.Together c (N ++ [b]) a ↔ s.Together b a := by
      intro a
      rw [touched_concat, or_iff_right]
      exact fun ht => hR.not_fresh ht hfresh
    have hfresh' : ¬ Fresh s.Together c (N ++ [b]) := fun h' => (fresh_concat.mp h').2 hbb
    have hclash' : ¬ Clash s.Together c (N ++ [b]) := by
      rw [clash_concat hR hN]
      rintro (⟨x, y, hx, -, -, hxy⟩ | ht)
      · exact hfresh x hx (hR.left hxy)
      · exact hR.not_fresh ht hfresh
    refine .live (h.insert hp hcc) hp hfresh' hclash' (fun a => ?_) fun x y => ?_
    · rw [htouched, ← h.mem_contents hp hb]
      simp only [ContextSets.insert, Function.update_self, Finset.mem_insert]
      exact or_comm
    · rw [h.together_insert hp hb]
      unfold merge
      rw [htouched, htouched, and_iff_right hfresh', and_iff_right hclash']
  | @live t q hwf hq hfresh hclash hcontents htogether =>
    have hfresh' : ¬ Fresh s.Together c (N ++ [b]) := fun h' => hfresh (fresh_concat.mp h').1
    by_cases hbt : Touched s.Together c N b
    · -- the base is in the set that takes the others in, which is merged with itself and lost
      have hbq : b ∈ t.contents q := (hcontents b).mpr (.inl hbt)
      obtain rfl := hwf.unique hp hq hb hbq
      have hlost : p ∉ (t.merge p p).sets := hwf.nodup.not_mem_erase
      refine .lost (hwf.merge hp) hlost ((clash_concat hR hN).mpr (.inr hbt)) fun x y => ?_
      have htouched : Touched s.Together c (N ++ [b]) x ↔ Touched s.Together c N x := by
        rw [touched_concat, or_iff_left_of_imp fun hbx => hR.touched hbt hbx]
      rw [hwf.together_merge_lost hp (.inl rfl), htogether, hcontents, htouched]
      unfold merge
      constructor
      · rintro ⟨⟨hxy, hnot⟩ | ⟨-, -, hx, -⟩, hnot'⟩
        · exact ⟨hxy, hnot⟩
        · exact absurd hx hnot'
      · rintro ⟨hxy, hnot⟩
        refine ⟨.inl ⟨hxy, hnot⟩, ?_⟩
        rintro (hx | rfl)
        · exact hnot hx
        · exact hnot ⟨x, hit_self, hR.left hxy⟩
    · have hbc : b ≠ c := fun hbc => hN (.inl hbc)
      have hbb : s.Together b b := by
        rcases (htogether b b).mp ⟨p, hp, hb, hb⟩ with ⟨hbb, -⟩ | ⟨-, -, hbt' | hbc', -⟩
        · exact hbb
        · exact absurd hbt' hbt
        · exact absurd hbc' hbc
      have hqp : q ≠ p := by
        rintro rfl
        exact ((hcontents b).mp hb).elim hbt hbc
      have hclash' : ¬ Clash s.Together c (N ++ [b]) := by
        rw [clash_concat hR hN]
        exact fun h' => h'.elim hclash hbt
      -- the other set is the class of the base
      have hclass : ∀ {x}, x ∈ t.contents p ↔ s.Together b x := by
        intro x
        rw [hwf.mem_contents hp hb, htogether]
        constructor
        · rintro (⟨hbx, -⟩ | ⟨-, -, hbt' | hbc', -⟩)
          · exact hbx
          · exact absurd hbt' hbt
          · exact absurd hbc' hbc
        · exact fun hbx => .inl ⟨hbx, hbt⟩
      have hunion : ∀ {x}, x ∈ t.contents q ∨ x ∈ t.contents p ↔
          Touched s.Together c (N ++ [b]) x ∨ x = c := by
        intro x
        rw [hcontents, hclass, touched_concat, or_right_comm]
      have hq' : q ∈ (t.merge q p).sets := (List.mem_erase_of_ne hqp).mpr hq
      refine .live (hwf.merge hp) hq' hfresh' hclash' (fun x => ?_) fun x y => ?_
      · rw [← hunion]
        simp only [ContextSets.merge, Function.update_self, Finset.mem_union]
      · rw [hwf.together_merge hq hp hqp, hunion, hunion, htogether]
        unfold merge
        constructor
        · rintro (⟨⟨hxy, -⟩ | ⟨-, -, hx, -⟩, hnot⟩ | ⟨hx, hy⟩)
          · exact .inl ⟨hxy, fun hx => hnot (.inl hx)⟩
          · refine absurd (hx.imp_left fun ht => ?_) hnot
            exact touched_concat.mpr (.inl ht)
          · exact .inr ⟨hfresh', hclash', hx, hy⟩
        · rintro (⟨hxy, hnot⟩ | ⟨-, -, hx, hy⟩)
          · refine .inl ⟨.inl ⟨hxy, fun ht => hnot (touched_concat.mpr (.inl ht))⟩, ?_⟩
            rintro (ht | rfl)
            · exact hnot ht
            · exact hnot ⟨x, hit_self, hR.left hxy⟩
          · exact .inr ⟨hx, hy⟩
  | @lost t q hwf hq hclash htogether =>
    obtain ⟨hbb, hbt⟩ := (htogether b b).mp ⟨p, hp, hb, hb⟩
    have hlost : q ∉ (t.merge q p).sets := fun h' => hq (List.mem_of_mem_erase h')
    refine .lost (hwf.merge hp) hlost ((clash_concat hR hN).mpr (.inl hclash)) fun x y => ?_
    have hclass : x ∈ t.contents p ↔ s.Together b x := by
      rw [hwf.mem_contents hp hb, htogether, and_iff_left hbt]
    rw [hwf.together_merge_lost hp (.inr hq), htogether, hclass, touched_concat, not_or, and_assoc]

theorem addBase_joining {state : ContextSets ι × Option ℕ} (h : s.Wf) (hN : ¬ Hit c N b)
    (hj : Joining s c N state) : Joining s c (N ++ [b]) (addBase c state b) := by
  cases hfind : find state.1 b with
  | none =>
    have hskip : addBase c state b = state := by
      unfold addBase
      rw [hfind]
    rw [hskip]
    exact hj.skip h hN (find_eq_none.mp hfind)
  | some p => exact hj.found h hN hfind

theorem foldl_addBase (h : s.Wf) (hnodup : N.Nodup) (hc : c ∉ N) :
    Joining s c N (N.foldl (addBase c) (s, find s c)) := by
  induction N using List.reverseRecOn with
  | nil => exact joining_nil h
  | append_singleton N b ih =>
    obtain ⟨hN, -, hdisjoint⟩ := List.nodup_append.mp hnodup
    rw [List.mem_append, List.mem_singleton, not_or] at hc
    rw [List.foldl_append, List.foldl_cons, List.foldl_nil]
    refine addBase_joining h ?_ (ih hN hc.1)
    rintro (hbc | hb)
    · exact hc.2 hbc.symm
    · exact hdisjoint b hb b (List.mem_singleton_self b) rfl

/-- Adding a context that is not its own base is a visit of it. -/
theorem addAction_visit {I : Interface ι} (h : s.Wf) (hc : c ∉ I.getBaseContexts c) :
    (addAction I s c).Wf ∧
      (addAction I s c).Together = visit s.Together c (I.getBaseContexts c) := by
  have hj := foldl_addBase h (I.bases_nodup c) hc
  unfold addAction
  dsimp only
  generalize (I.getBaseContexts c).foldl (addBase c) (s, find s c) = state at hj
  cases hj with
  | none hfresh =>
    have hnew : ∀ x ∈ c :: I.getBaseContexts c, ¬ s.Together x x := by
      intro x hx
      exact hfresh x (List.mem_cons.mp hx)
    refine ⟨h.construct (List.cons_ne_nil _ _) hnew, ?_⟩
    funext x y
    refine propext ?_
    rw [h.together_construct, List.mem_cons, List.mem_cons, visit,
      h.classes.merge_of_fresh hfresh, and_iff_right hfresh]
    rfl
  | live hwf hp hfresh hclash hcontents htogether =>
    refine ⟨hwf, ?_⟩
    funext x y
    refine propext ?_
    rw [htogether, visit, or_iff_left fun h' => hfresh h'.1]
  | lost hwf hp hclash htogether =>
    refine ⟨hwf, ?_⟩
    funext x y
    refine propext ?_
    rw [htogether, h.classes.visit_clash hclash]

end LinkAnalysis

end EgLang.Compiler
