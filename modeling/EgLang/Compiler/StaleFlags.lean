import EgLang.Compiler.Prune

/-!
# Membership flags of earlier elements

The nodes with an index from `size` on are those of the path element that has just been added; they
are leaves. Pruning is compared with pruning after all other membership flags have been cleared.
-/

namespace EgLang.Compiler.NameTree

open EgLang.Library NameResolution

set_option autoImplicit false

variable {σ ι κ : Type}

/-! ## What a tree holds -/

/-- A membership flag stands somewhere in the tree. -/
def isFlagged (t : NameTree σ ι κ) : Bool := t.labels.any fun a => a.2.isMember

/-- The path element was matched in the tree. -/
def isMatched (size : ℕ) (t : NameTree ℕ ι κ) : Bool := t.labels.any fun a => size ≤ a.1

/-- The path element was matched in the tree as a member. -/
def isMatchedAsMember (size : ℕ) (t : NameTree ℕ ι κ) : Bool :=
  t.labels.any fun a => decide (size ≤ a.1) && a.2.isMember

/-- The membership flags of earlier elements are cleared. -/
def clearFlags (size : ℕ) (t : NameTree ℕ ι κ) : NameTree ℕ ι κ :=
  t.map fun a => (a.1, { a.2 with isMember := decide (size ≤ a.1) && a.2.isMember })

theorem any_labels_node (p : σ × Mark ι κ → Bool) (a : σ × Mark ι κ) (ts : List (NameTree σ ι κ)) :
    (RoseTree.node a ts).labels.any p = (p a || ts.any fun t => t.labels.any p) := by
  rw [RoseTree.labels_node, List.any_cons, List.any_flatten, List.any_map]
  rfl

theorem isFlagged_node (a : σ × Mark ι κ) (ts : List (NameTree σ ι κ)) :
    isFlagged (.node a ts) = (a.2.isMember || ts.any isFlagged) :=
  any_labels_node _ a ts

theorem isMatchedAsMember_node (size : ℕ) (a : ℕ × Mark ι κ) (ts : List (NameTree ℕ ι κ)) :
    isMatchedAsMember size (.node a ts) =
      (decide (size ≤ a.1) && a.2.isMember || ts.any (isMatchedAsMember size)) :=
  any_labels_node _ a ts

theorem clearFlags_node (size : ℕ) (a : ℕ × Mark ι κ) (ts : List (NameTree ℕ ι κ)) :
    clearFlags size (.node a ts) =
      .node (a.1, { a.2 with isMember := decide (size ≤ a.1) && a.2.isMember })
        (ts.map (clearFlags size)) :=
  RoseTree.map_node _ a ts

theorem isFlagged_clearFlags (size : ℕ) (t : NameTree ℕ ι κ) :
    isFlagged (clearFlags size t) = isMatchedAsMember size t := by
  rw [isFlagged, clearFlags, RoseTree.labels_map, List.any_map]
  rfl

theorem isFlagged_of_isMatchedAsMember {size : ℕ} {t : NameTree ℕ ι κ}
    (h : isMatchedAsMember size t = true) : isFlagged t = true := by
  obtain ⟨a, ha, hm⟩ := List.any_eq_true.mp h
  exact List.any_eq_true.mpr ⟨a, ha, (Bool.and_eq_true_iff.mp hm).2⟩

theorem indices_clearFlags (size : ℕ) (t : NameTree ℕ ι κ) :
    (clearFlags size t).indices = t.indices := by
  rw [RoseTree.indices, RoseTree.indices, clearFlags, RoseTree.labels_map, List.map_map]
  rfl

/-- Pruning brings every flag up to the root. -/
theorem isMember_prune (t : NameTree σ ι κ) : isMember (prune t) = isFlagged t := by
  induction t using RoseTree.tree_induction with
  | step a ts ih =>
    rw [isFlagged_node]
    have hkids : (ts.map prune).any isMember = ts.any isFlagged := by
      rw [List.any_map, Bool.eq_iff_iff, List.any_eq_true, List.any_eq_true]
      refine exists_congr fun t => and_congr_right fun ht => ?_
      rw [Function.comp_apply, ih t ht]
    by_cases hts : ts = []
    · subst hts
      rw [prune_leaf, List.any_nil, Bool.or_false]
      rfl
    · cases hr : a.2.isReference with
      | false =>
        rw [prune_best hts hr, isMember, label_pruneBest, hkids]
      | true =>
        cases hm : a.2.isMember with
        | false =>
          rw [prune_reference hts hr hm, pruneReference, hkids, ← hm]
          rfl
        | true =>
          rw [prune_flagged ts hr hm, Bool.true_or]
          exact hm

/-! ## What pruning keeps -/

variable {size j : ℕ} {a : ℕ × Mark ι κ} {ts : List (NameTree ℕ ι κ)}

theorem mem_prune_reference (hr : a.2.isReference = true) (hm : a.2.isMember = false) :
    j ∈ (prune (.node a ts)).indices ↔ j = a.1 ∨ ∃ c ∈ ts, j ∈ (prune c).indices := by
  by_cases hts : ts = []
  · subst hts
    rw [prune_leaf, RoseTree.mem_indices_node]
    simp
  · rw [prune_reference hts hr hm, pruneReference, RoseTree.mem_indices_node]
    simp

/-- A node that is no reference keeps the children with a flag, or all where there is none. -/
def Kept (p : NameTree ℕ ι κ → Bool) (ts : List (NameTree ℕ ι κ)) (c : NameTree ℕ ι κ) : Prop :=
  p c = true ∨ ∀ d ∈ ts, p d = false

theorem mem_prune_best (hr : a.2.isReference = false) :
    j ∈ (prune (.node a ts)).indices ↔
      j = a.1 ∨ ∃ c ∈ ts, Kept isFlagged ts c ∧ j ∈ (prune c).indices := by
  by_cases hts : ts = []
  · subst hts
    rw [prune_leaf, RoseTree.mem_indices_node]
    simp
  rw [prune_best hts hr, pruneBest]
  by_cases hany : (ts.map prune).any isMember = true
  · obtain ⟨u, hu, hmu⟩ := List.any_eq_true.mp hany
    obtain ⟨d, hd, rfl⟩ := List.mem_map.mp hu
    rw [isMember_prune] at hmu
    have hkept : ∀ c, Kept isFlagged ts c ↔ isFlagged c = true := fun c =>
      ⟨fun h => h.elim id fun hno => absurd hmu (by rw [hno d hd]; decide), .inl⟩
    rw [if_pos hany, RoseTree.mem_indices_node]
    simp only [List.mem_filter, List.mem_map, hkept]
    refine or_congr_right ⟨?_, ?_⟩
    · rintro ⟨_, ⟨⟨c, hc, rfl⟩, hm⟩, hj⟩
      exact ⟨c, hc, by rwa [isMember_prune] at hm, hj⟩
    · rintro ⟨c, hc, hm, hj⟩
      exact ⟨prune c, ⟨⟨c, hc, rfl⟩, by rwa [isMember_prune]⟩, hj⟩
  · have hkept : ∀ c, Kept isFlagged ts c := fun c => .inr fun d hd => by
      by_contra hd'
      refine hany (List.any_eq_true.mpr ⟨prune d, List.mem_map_of_mem hd, ?_⟩)
      rwa [isMember_prune, ← Bool.not_eq_false]
    rw [if_neg hany, RoseTree.mem_indices_node]
    simp [hkept]

/-- What clear pruning keeps, the new nodes being leaves. -/
theorem mem_prune_clearFlags (hnew : ts ≠ [] → a.1 < size) :
    j ∈ (prune (clearFlags size (.node a ts))).indices ↔ j = a.1 ∨
      ∃ c ∈ ts, (a.2.isReference = true ∨ Kept (isMatchedAsMember size) ts c) ∧
        j ∈ (prune (clearFlags size c)).indices := by
  by_cases hts : ts = []
  · subst hts
    rw [clearFlags_node, List.map_nil, prune_leaf, RoseTree.mem_indices_node]
    simp
  have hclear : clearFlags size (.node a ts) =
      .node (a.1, ⟨a.2.element, false, a.2.isReference⟩) (ts.map (clearFlags size)) := by
    have hold : decide (size ≤ a.1) = false := decide_eq_false (by have := hnew hts; omega)
    rw [clearFlags_node, hold, Bool.false_and]
  rw [hclear]
  cases hr : a.2.isReference with
  | true =>
    rw [mem_prune_reference rfl rfl]
    simp
  | false =>
    rw [mem_prune_best rfl]
    have hkept : ∀ c, Kept isFlagged (ts.map (clearFlags size)) (clearFlags size c) ↔
        Kept (isMatchedAsMember size) ts c := fun c => by
      simp only [Kept, List.forall_mem_map, isFlagged_clearFlags]
    simp [hkept]

/-! ## Where flags do no harm -/

/-- The new nodes are leaves. -/
inductive NewLeaves (size : ℕ) : NameTree ℕ ι κ → Prop
  | node {a : ℕ × Mark ι κ} {ts : List (NameTree ℕ ι κ)} (hnew : ts ≠ [] → a.1 < size)
      (hts : ∀ t ∈ ts, NewLeaves size t) : NewLeaves size (.node a ts)

/-- There is nothing to prune: the children of a node that is no reference all hold a match as a
member, or none does. -/
inductive Settled (size : ℕ) : NameTree ℕ ι κ → Prop
  | node {a : ℕ × Mark ι κ} {ts : List (NameTree ℕ ι κ)}
      (hkept : a.2.isReference = false → ∀ c ∈ ts, Kept (isMatchedAsMember size) ts c)
      (hts : ∀ t ∈ ts, Settled size t) : Settled size (.node a ts)

/-- The flags of earlier elements do no harm: there is nothing to prune below a reference that has
one, and elsewhere they stand only below children that are kept anyway. -/
inductive Harmless (size : ℕ) : NameTree ℕ ι κ → Prop
  | flagged {a : ℕ × Mark ι κ} {ts : List (NameTree ℕ ι κ)} (hr : a.2.isReference = true)
      (hm : a.2.isMember = true) (hts : ∀ t ∈ ts, Settled size t) : Harmless size (.node a ts)
  | reference {a : ℕ × Mark ι κ} {ts : List (NameTree ℕ ι κ)} (hr : a.2.isReference = true)
      (hm : a.2.isMember = false) (hts : ∀ t ∈ ts, Harmless size t) : Harmless size (.node a ts)
  | matched {a : ℕ × Mark ι κ} {ts : List (NameTree ℕ ι κ)} {c : NameTree ℕ ι κ}
      (hr : a.2.isReference = false) (hc : c ∈ ts) (hmatched : isMatchedAsMember size c = true)
      (hflags : ∀ t ∈ ts, isFlagged t = true → isMatchedAsMember size t = true)
      (hts : ∀ t ∈ ts, isMatchedAsMember size t = true → Harmless size t) :
      Harmless size (.node a ts)
  | unmatched {a : ℕ × Mark ι κ} {ts : List (NameTree ℕ ι κ)} (hr : a.2.isReference = false)
      (hnone : ∀ t ∈ ts, isMatchedAsMember size t = false)
      (hflags : (∀ t ∈ ts, isFlagged t = true) ∨ ∀ t ∈ ts, isFlagged t = false)
      (hts : ∀ t ∈ ts, Harmless size t) : Harmless size (.node a ts)

/-! ## The same tree -/

/-- Siblings have no index in common. -/
theorem eq_of_mem_indices (hnd : (RoseTree.node a ts).indices.Nodup) {c d : NameTree ℕ ι κ}
    (hc : c ∈ ts) (hd : d ∈ ts) (hjc : j ∈ c.indices) (hjd : j ∈ d.indices) : c = d := by
  by_contra hne
  have : Std.Symm fun s t : NameTree ℕ ι κ => ∀ i ∈ s.indices, i ∉ t.indices :=
    ⟨fun s t h i hi ht => h i ht hi⟩
  exact (apart_of_nodup hnd).1.siblings.forall hc hd hne j hjc hjd

/-- Two ways to keep children come to the same, exactly if they do for each child. -/
theorem children_iff (hnd : (RoseTree.node a ts).indices.Nodup) {P Q : NameTree ℕ ι κ → Prop}
    {A B : NameTree ℕ ι κ → NameTree ℕ ι κ} (hA : ∀ c, ∀ i ∈ (A c).indices, i ∈ c.indices)
    (hB : ∀ c, ∀ i ∈ (B c).indices, i ∈ c.indices) (hAi : ∀ c, c.index ∈ (A c).indices)
    (hBi : ∀ c, c.index ∈ (B c).indices) :
    (∀ i, (i = a.1 ∨ ∃ c ∈ ts, P c ∧ i ∈ (A c).indices) ↔
        (i = a.1 ∨ ∃ c ∈ ts, Q c ∧ i ∈ (B c).indices)) ↔
      ∀ c ∈ ts, (P c ↔ Q c) ∧ (P c → ∀ i, i ∈ (A c).indices ↔ i ∈ (B c).indices) := by
  constructor
  · intro h c hc
    -- seen from one child, the others are not there
    have hone : ∀ i ∈ c.indices, P c ∧ i ∈ (A c).indices ↔ Q c ∧ i ∈ (B c).indices := fun i hi => by
      have hroot : i ≠ a.1 := fun heq => (apart_of_nodup hnd).1.parent c hc (heq ▸ hi)
      have hi' := h i
      simp only [hroot, false_or] at hi'
      constructor
      · intro hp
        obtain ⟨d, hd, hq, hid⟩ := hi'.mp ⟨c, hc, hp⟩
        rw [eq_of_mem_indices hnd hc hd hi (hB d i hid)]
        exact ⟨hq, hid⟩
      · intro hq
        obtain ⟨d, hd, hp, hid⟩ := hi'.mpr ⟨c, hc, hq⟩
        rw [eq_of_mem_indices hnd hc hd hi (hA d i hid)]
        exact ⟨hp, hid⟩
    have hpq : P c ↔ Q c := by
      have := hone c.index c.index_mem_indices
      simpa only [hAi c, hBi c, and_true] using this
    refine ⟨hpq, fun hp i => ⟨fun hi => ?_, fun hi => ?_⟩⟩
    · exact ((hone i (hA c i hi)).mp ⟨hp, hi⟩).2
    · exact ((hone i (hB c i hi)).mpr ⟨hpq.mp hp, hi⟩).2
  · intro h i
    refine or_congr_right (exists_congr fun c => and_congr_right fun hc => ?_)
    obtain ⟨hpq, hsame⟩ := h c hc
    constructor
    · exact fun hp => ⟨hpq.mp hp.1, (hsame hp.1 i).mp hp.2⟩
    · exact fun hq => ⟨hpq.mpr hq.1, (hsame (hpq.mpr hq.1) i).mpr hq.2⟩

theorem index_mem_prune (t : NameTree ℕ ι κ) : t.index ∈ (prune t).indices := by
  rw [← index_prune t]
  exact (prune t).index_mem_indices

theorem mem_indices_of_clear (size : ℕ) (t : NameTree ℕ ι κ) :
    ∀ i ∈ (prune (clearFlags size t)).indices, i ∈ t.indices := fun i hi => by
  rw [← indices_clearFlags size t]
  exact indices_prune _ i hi

theorem index_mem_clear (size : ℕ) (t : NameTree ℕ ι κ) :
    t.index ∈ (prune (clearFlags size t)).indices := by
  have hindex : (clearFlags size t).index = t.index := by
    rw [RoseTree.index, clearFlags, RoseTree.label_map]
    rfl
  rw [← hindex]
  exact index_mem_prune _

/-- Clear pruning keeps all of a tree exactly if there is nothing to prune. -/
theorem settled_iff {t : NameTree ℕ ι κ} (hnew : NewLeaves size t) (hnd : t.indices.Nodup) :
    (∀ i, i ∈ t.indices ↔ i ∈ (prune (clearFlags size t)).indices) ↔ Settled size t := by
  induction hnew with
  | @node a ts hnew hts ih =>
    have hnds := (apart_of_nodup hnd).2
    have hall : ∀ i, i ∈ (RoseTree.node a ts).indices ↔
        i = a.1 ∨ ∃ c ∈ ts, True ∧ i ∈ (id c).indices := fun i => by
      rw [RoseTree.mem_indices_node]
      simp
    simp only [hall, mem_prune_clearFlags hnew]
    rw [children_iff hnd (A := id) (fun _ _ => id) (mem_indices_of_clear size)
      RoseTree.index_mem_indices (index_mem_clear size)]
    constructor
    · intro h
      refine .node (fun hr c hc => ?_) fun c hc => (ih c hc (hnds c hc)).mp ((h c hc).2 trivial)
      exact ((h c hc).1.mp trivial).resolve_left (by rw [hr]; decide)
    · rintro ⟨hkept, hsettled⟩ c hc
      refine ⟨iff_of_true trivial ?_, fun _ => (ih c hc (hnds c hc)).mpr (hsettled c hc)⟩
      cases hr : a.2.isReference with
      | true => exact .inl rfl
      | false => exact .inr (hkept hr c hc)

/-- With and without the flags of earlier elements the same children are kept. -/
theorem kept_iff : (∀ c ∈ ts, Kept isFlagged ts c ↔ Kept (isMatchedAsMember size) ts c) ↔
    (∃ c ∈ ts, isMatchedAsMember size c = true) ∧
        (∀ c ∈ ts, isFlagged c = true → isMatchedAsMember size c = true) ∨
      (∀ c ∈ ts, isMatchedAsMember size c = false) ∧
        ((∀ c ∈ ts, isFlagged c = true) ∨ ∀ c ∈ ts, isFlagged c = false) := by
  constructor
  · intro h
    by_cases hm : ∃ c ∈ ts, isMatchedAsMember size c = true
    · refine .inl ⟨hm, fun c hc hf => ?_⟩
      obtain ⟨d, hd, hmd⟩ := hm
      exact ((h c hc).mp (.inl hf)).resolve_right fun hno => absurd hmd (by rw [hno d hd]; decide)
    · have hnone : ∀ c ∈ ts, isMatchedAsMember size c = false := fun c hc => by
        rw [← Bool.not_eq_true]
        exact fun hmc => hm ⟨c, hc, hmc⟩
      refine .inr ⟨hnone, ?_⟩
      by_cases hf : ∀ c ∈ ts, isFlagged c = false
      · exact .inr hf
      · exact .inl fun c hc => ((h c hc).mpr (.inr hnone)).resolve_right hf
  · rintro (⟨⟨d, hd, hmd⟩, hflags⟩ | ⟨hnone, hflags⟩) c hc
    · constructor
      · rintro (hf | hno)
        · exact .inl (hflags c hc hf)
        · exact absurd (isFlagged_of_isMatchedAsMember hmd) (by rw [hno d hd]; decide)
      · rintro (hm | hno)
        · exact .inl (isFlagged_of_isMatchedAsMember hm)
        · exact absurd hmd (by rw [hno d hd]; decide)
    · exact iff_of_true (hflags.elim (fun hall => .inl (hall c hc)) .inr) (.inr hnone)

/-- **Pruning keeps what clear pruning keeps** exactly if the flags of earlier elements do no
harm. -/
theorem harmless_iff {t : NameTree ℕ ι κ} (hnew : NewLeaves size t) (hnd : t.indices.Nodup) :
    (∀ i, i ∈ (prune t).indices ↔ i ∈ (prune (clearFlags size t)).indices) ↔ Harmless size t := by
  induction hnew with
  | @node a ts hnew hts ih =>
    have hnds := (apart_of_nodup hnd).2
    cases hr : a.2.isReference with
    | true =>
      cases hm : a.2.isMember with
      | true =>
        -- nothing is pruned below
        rw [prune_flagged ts hr hm, settled_iff (.node hnew hts) hnd]
        constructor
        · rintro ⟨-, hts⟩
          exact .flagged hr hm hts
        · intro h
          cases h with
          | flagged _ _ hts => exact .node (fun hr' => absurd hr (by rw [hr']; decide)) hts
          | reference _ hm' _ => exact absurd hm (by rw [hm']; decide)
          | matched hr' => exact absurd hr (by rw [hr']; decide)
          | unmatched hr' => exact absurd hr (by rw [hr']; decide)
      | false =>
        have hall : ∀ i, i ∈ (prune (.node a ts)).indices ↔
            i = a.1 ∨ ∃ c ∈ ts, True ∧ i ∈ (prune c).indices := fun i => by
          rw [mem_prune_reference hr hm]
          simp
        simp only [hall, mem_prune_clearFlags hnew]
        rw [children_iff hnd indices_prune (mem_indices_of_clear size) index_mem_prune
          (index_mem_clear size)]
        constructor
        · exact fun h => .reference hr hm fun c hc =>
            (ih c hc (hnds c hc)).mp ((h c hc).2 trivial)
        · intro h c hc
          refine ⟨iff_of_true trivial (.inl hr), fun _ => (ih c hc (hnds c hc)).mpr ?_⟩
          cases h with
          | flagged _ hm' _ => exact absurd hm (by rw [hm']; decide)
          | reference _ _ hts => exact hts c hc
          | matched hr' => exact absurd hr (by rw [hr']; decide)
          | unmatched hr' => exact absurd hr (by rw [hr']; decide)
    | false =>
      have hall : ∀ i, i ∈ (prune (clearFlags size (.node a ts))).indices ↔ i = a.1 ∨
          ∃ c ∈ ts, Kept (isMatchedAsMember size) ts c ∧ i ∈ (prune (clearFlags size c)).indices :=
        fun i => by
          rw [mem_prune_clearFlags hnew, hr]
          simp
      simp only [hall, mem_prune_best hr]
      rw [children_iff hnd indices_prune (mem_indices_of_clear size) index_mem_prune
        (index_mem_clear size)]
      constructor
      · intro h
        rcases kept_iff.mp fun c hc => (h c hc).1 with ⟨⟨d, hd, hmd⟩, hflags⟩ | ⟨hnone, hflags⟩
        · refine .matched hr hd hmd hflags fun c hc hm => (ih c hc (hnds c hc)).mp ((h c hc).2 ?_)
          exact .inl (isFlagged_of_isMatchedAsMember hm)
        · exact .unmatched hr hnone hflags fun c hc => (ih c hc (hnds c hc)).mp
            ((h c hc).2 (hflags.elim (fun hall => .inl (hall c hc)) .inr))
      · intro h
        cases h with
        | flagged hr' => exact absurd hr (by rw [hr']; decide)
        | reference hr' => exact absurd hr (by rw [hr']; decide)
        | @matched _ _ d _ hd hmd hflags hts =>
          have hkept := kept_iff.mpr (.inl ⟨⟨d, hd, hmd⟩, hflags⟩)
          refine fun c hc => ⟨hkept c hc, fun hf => (ih c hc (hnds c hc)).mpr (hts c hc ?_)⟩
          exact ((hkept c hc).mp hf).resolve_right fun hno => absurd hmd (by rw [hno d hd]; decide)
        | unmatched _ hnone hflags hts =>
          have hkept := kept_iff.mpr (.inr ⟨hnone, hflags⟩)
          exact fun c hc => ⟨hkept c hc, fun _ => (ih c hc (hnds c hc)).mpr (hts c hc)⟩

/-! ## What is left -/

/-- No node that is no reference has a child that holds a match as a member beside a child that
holds other matches only. -/
inductive Decided (size : ℕ) : NameTree ℕ ι κ → Prop
  | node {a : ℕ × Mark ι κ} {ts : List (NameTree ℕ ι κ)}
      (hmatch : a.2.isReference = false → ∀ c ∈ ts, ∀ d ∈ ts, isMatchedAsMember size c = true →
        isMatched size d = true → isMatchedAsMember size d = true)
      (hts : ∀ t ∈ ts, Decided size t) : Decided size (.node a ts)

theorem Settled.decided {t : NameTree ℕ ι κ} (h : Settled size t) : Decided size t := by
  induction h with
  | @node a ts hkept hts ih =>
    refine .node (fun hr c hc d hd hmc _ => ?_) ih
    exact (hkept hr d hd).resolve_right fun hno => absurd hmc (by rw [hno c hc]; decide)

/-- Pruning removes no match as a member, and makes none. -/
theorem isMatchedAsMember_prune {t : NameTree ℕ ι κ} (hnew : NewLeaves size t) :
    isMatchedAsMember size (prune t) = isMatchedAsMember size t := by
  induction hnew with
  | @node a ts hnew hts ih =>
    by_cases hnil : ts = []
    · subst hnil
      rw [prune_leaf]
    have hold : decide (size ≤ a.1) = false := decide_eq_false (by have := hnew hnil; omega)
    have hany : (ts.map prune).any (isMatchedAsMember size) = ts.any (isMatchedAsMember size) := by
      rw [List.any_map, Bool.eq_iff_iff, List.any_eq_true, List.any_eq_true]
      refine exists_congr fun t => and_congr_right fun ht => ?_
      rw [Function.comp_apply, ih t ht]
    cases hr : a.2.isReference with
    | true =>
      cases hm : a.2.isMember with
      | true => rw [prune_flagged ts hr hm]
      | false =>
        rw [prune_reference hnil hr hm, pruneReference, isMatchedAsMember_node,
          isMatchedAsMember_node, hold, hany, Bool.false_and, Bool.false_and]
    | false =>
      rw [prune_best hnil hr, pruneBest]
      split
      · have hfilter : ((ts.map prune).filter isMember).any (isMatchedAsMember size) =
            (ts.map prune).any (isMatchedAsMember size) := by
          rw [Bool.eq_iff_iff, List.any_eq_true, List.any_eq_true]
          refine exists_congr fun u => ⟨fun hu => ⟨(List.mem_filter.mp hu.1).1, hu.2⟩, fun hu => ?_⟩
          obtain ⟨t, ht, rfl⟩ := List.mem_map.mp hu.1
          refine ⟨List.mem_filter.mpr ⟨hu.1, ?_⟩, hu.2⟩
          rw [isMember_prune]
          exact isFlagged_of_isMatchedAsMember ((ih t ht).symm.trans hu.2)
        rw [isMatchedAsMember_node, isMatchedAsMember_node, hold, hfilter, hany, Bool.false_and,
          Bool.false_and]
      · rw [isMatchedAsMember_node, isMatchedAsMember_node, hany]

/-- **Where flags do no harm** pruning decides every node. -/
theorem Harmless.decided {t : NameTree ℕ ι κ} (hnew : NewLeaves size t) (h : Harmless size t) :
    Decided size (prune t) := by
  induction h with
  | @flagged a ts hr hm hts =>
    rw [prune_flagged ts hr hm]
    exact .node (fun hr' => absurd hr (by rw [hr']; decide)) fun t ht => (hts t ht).decided
  | @reference a ts hr hm hts ih =>
    cases hnew with
    | node _ hnews =>
      have hkids : ∀ u ∈ ts.map prune, Decided size u := List.forall_mem_map.mpr fun t ht =>
        ih t ht (hnews t ht)
      by_cases hnil : ts = []
      · subst hnil
        rw [prune_leaf]
        exact .node (fun hr' => absurd hr (by rw [hr']; decide)) fun t ht => absurd ht List.not_mem_nil
      · rw [prune_reference hnil hr hm]
        exact .node (fun hr' => absurd (hr.symm.trans hr') (by decide)) hkids
  | @matched a ts c hr hc hmatched hflags hts ih =>
    cases hnew with
    | node _ hnews =>
      have hany : (ts.map prune).any isMember = true := by
        refine List.any_eq_true.mpr ⟨prune c, List.mem_map_of_mem hc, ?_⟩
        rw [isMember_prune]
        exact isFlagged_of_isMatchedAsMember hmatched
      -- every child that is kept holds a match as a member
      have hkids : ∀ u ∈ (ts.map prune).filter isMember,
          isMatchedAsMember size u = true ∧ Decided size u := fun u hu => by
        obtain ⟨hu, hmu⟩ := List.mem_filter.mp hu
        obtain ⟨t, ht, rfl⟩ := List.mem_map.mp hu
        rw [isMember_prune] at hmu
        have hmt := hflags t ht hmu
        exact ⟨(isMatchedAsMember_prune (hnews t ht)).trans hmt, ih t ht hmt (hnews t ht)⟩
      rw [prune_best (List.ne_nil_of_mem hc) hr, pruneBest, if_pos hany]
      exact .node (fun _ _ _ d hd _ _ => (hkids d hd).1) fun u hu => (hkids u hu).2
  | @unmatched a ts hr hnone hflags hts ih =>
    cases hnew with
    | node _ hnews =>
      have hkids : ∀ u ∈ ts.map prune, isMatchedAsMember size u = false ∧ Decided size u :=
        List.forall_mem_map.mpr fun t ht =>
          ⟨(isMatchedAsMember_prune (hnews t ht)).trans (hnone t ht), ih t ht (hnews t ht)⟩
      have hsome : ∀ {b : ℕ × Mark ι κ} {us : List (NameTree ℕ ι κ)},
          (∀ u ∈ us, u ∈ ts.map prune) → Decided size (.node b us) := fun {_ us} hus =>
        .node (fun _ c hc _ _ hmc _ => absurd hmc (by rw [(hkids c (hus c hc)).1]; decide))
          fun u hu => (hkids u (hus u hu)).2
      by_cases hnil : ts = []
      · subst hnil
        rw [prune_leaf]
        exact hsome fun u hu => absurd hu List.not_mem_nil
      · rw [prune_best hnil hr, pruneBest]
        split
        · exact hsome fun u hu => (List.mem_filter.mp hu).1
        · exact hsome fun u hu => hu

end EgLang.Compiler.NameTree
