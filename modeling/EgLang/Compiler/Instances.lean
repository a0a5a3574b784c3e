import EgLang.Compiler.Derivation

/-!
# Instances

`getElementVector` collects each concrete instance of its interface elements once.
-/

namespace EgLang.Compiler.DerivationAnalysis

set_option autoImplicit false

variable {ι κ : Type} (analysis : DerivationAnalysis ι κ)

/-- An action is no reference dimension. -/
theorem isEGType_of_isAction {e : Option κ} (h : analysis.isAction e = true) :
    analysis.isEGType e = false := by
  cases e with
  | none => cases h
  | some d =>
    rw [isAction] at h
    unfold isEGType getContextTypes
    cases hk : analysis.kind d with
    | action context => simp [hk]
    | userDimension types => rw [hk] at h; cases h
    | generatedDimension => rw [hk] at h; cases h

variable [DecidableEq ι] [DecidableEq κ]

theorem enterInstance_seconds (t : ι) (result : List (ElementPair ι κ)) (e : κ) :
    (analysis.enterInstance t result e).map ElementPair.second =
      if some e ∈ result.map ElementPair.second then result.map ElementPair.second
      else result.map ElementPair.second ++ [some e] := by
  have hany : result.any (fun p => p.second = some e) = true ↔
      some e ∈ result.map ElementPair.second := by
    rw [List.any_eq_true, List.mem_map]
    simp only [decide_eq_true_eq]
  unfold enterInstance
  by_cases h : result.any fun p => p.second = some e
  · rw [if_pos h, if_pos (hany.mp h), List.map_map]
    refine List.map_congr_left fun p _ => ?_
    show (if p.second = some e then _ else p : ElementPair ι κ).second = p.second
    split <;> rfl
  · rw [if_neg h, if_neg (mt hany.mpr h), List.map_append]
    rfl

/-- The concrete elements entered for one interface element after another. -/
theorem enter_seconds (t : ι) (es : List κ) {result : List (ElementPair ι κ)}
    (h : (result.map ElementPair.second).Nodup) :
    ((es.foldl (analysis.enterInstance t) result).map ElementPair.second).Nodup ∧
      ∀ k, k ∈ (es.foldl (analysis.enterInstance t) result).map ElementPair.second ↔
        k ∈ result.map ElementPair.second ∨ ∃ e ∈ es, some e = k := by
  induction es generalizing result with
  | nil => exact ⟨h, fun k => by simp⟩
  | cons e es ih =>
    have hone := analysis.enterInstance_seconds t result e
    by_cases he : some e ∈ result.map ElementPair.second
    · rw [if_pos he] at hone
      obtain ⟨hnd, hmem⟩ := @ih (analysis.enterInstance t result e) (hone ▸ h)
      refine ⟨hnd, fun k => (hmem k).trans ?_⟩
      rw [hone]
      simp only [List.mem_cons, exists_eq_or_imp]
      refine ⟨fun hk => hk.imp_right .inr, ?_⟩
      rintro (hk | rfl | hk)
      · exact .inl hk
      · exact .inl he
      · exact .inr hk
    · rw [if_neg he] at hone
      obtain ⟨hnd, hmem⟩ := @ih (analysis.enterInstance t result e) (by
        rw [hone, List.nodup_append]
        exact ⟨h, List.nodup_singleton _, fun a ha b hb hab =>
          he (List.mem_singleton.mp hb ▸ hab ▸ ha)⟩)
      refine ⟨hnd, fun k => (hmem k).trans ?_⟩
      rw [hone, List.mem_append, List.mem_singleton]
      simp only [List.mem_cons, exists_eq_or_imp, or_assoc, eq_comm (a := k)]

theorem collect_seconds (types : List ι) (bIncludeInherited : Bool)
    {result : List (ElementPair ι κ)} (h : (result.map ElementPair.second).Nodup) :
    ((types.foldl (fun result t => (analysis.getInstances t bIncludeInherited).foldl
        (analysis.enterInstance t) result) result).map ElementPair.second).Nodup ∧
      ∀ k, k ∈ (types.foldl (fun result t => (analysis.getInstances t bIncludeInherited).foldl
        (analysis.enterInstance t) result) result).map ElementPair.second ↔
          k ∈ result.map ElementPair.second ∨
            ∃ t ∈ types, ∃ e ∈ analysis.getInstances t bIncludeInherited, some e = k := by
  induction types generalizing result with
  | nil => exact ⟨h, fun k => by simp⟩
  | cons t types ih =>
    obtain ⟨hnd, hmem⟩ := analysis.enter_seconds t (analysis.getInstances t bIncludeInherited) h
    obtain ⟨hnd', hmem'⟩ := ih hnd
    refine ⟨hnd', fun k => (hmem' k).trans ?_⟩
    rw [hmem]
    simp only [List.mem_cons, exists_eq_or_imp, or_assoc]

/-- **Each concrete instance once.** -/
theorem getElementVector_instances (types : List ι) (bIncludeInherited : Bool) :
    ((analysis.getElementVector types bIncludeInherited).map ElementPair.second).Nodup ∧
      ∀ k, k ∈ (analysis.getElementVector types bIncludeInherited).map ElementPair.second ↔
        ∃ t ∈ types, ∃ e ∈ analysis.getInstances t bIncludeInherited, some e = k := by
  obtain ⟨hnd, hmem⟩ := @collect_seconds _ _ analysis _ _ types bIncludeInherited [] List.nodup_nil
  exact ⟨hnd, fun k => (hmem k).trans (by simp)⟩

/-- The instances as a list. -/
theorem exists_instances (types : List ι) (bIncludeInherited : Bool) :
    ∃ ks : List κ,
      (analysis.getElementVector types bIncludeInherited).map ElementPair.second = ks.map some ∧
        ks.Nodup ∧ ∀ k, k ∈ ks ↔ ∃ t ∈ types, k ∈ analysis.getInstances t bIncludeInherited := by
  obtain ⟨hnd, hmem⟩ := analysis.getElementVector_instances types bIncludeInherited
  generalize (analysis.getElementVector types bIncludeInherited).map ElementPair.second = l
    at hnd hmem ⊢
  have hl : l ∈ Set.range (List.map (some : κ → Option κ)) := by
    rw [Set.range_list_map]
    intro k hk
    obtain ⟨t, -, e, -, rfl⟩ := (hmem k).mp hk
    exact ⟨e, rfl⟩
  obtain ⟨l, rfl⟩ := hl
  refine ⟨l, rfl, List.Nodup.of_map _ hnd, fun k => ?_⟩
  have hk := hmem (some k)
  simpa using hk

/-- There are instances where some interface element has one. -/
theorem getElementVector_ne_nil {types : List ι} {bIncludeInherited : Bool} :
    analysis.getElementVector types bIncludeInherited ≠ [] ↔
      ∃ t ∈ types, analysis.getInstances t bIncludeInherited ≠ [] := by
  have hmem := (analysis.getElementVector_instances types bIncludeInherited).2
  refine ⟨fun h => ?_, ?_⟩
  · obtain ⟨p, hp⟩ := List.exists_mem_of_ne_nil _ h
    obtain ⟨t, ht, e, he, -⟩ := (hmem p.second).mp (List.mem_map_of_mem hp)
    exact ⟨t, ht, List.ne_nil_of_mem he⟩
  · rintro ⟨t, ht, h⟩ hnil
    obtain ⟨e, he⟩ := List.exists_mem_of_ne_nil _ h
    have := (hmem (some e)).mpr ⟨t, ht, e, he, rfl⟩
    rw [hnil] at this
    cases this

/-- The instances of the context types of a dimension are actions. -/
theorem isAction_of_reference {e : Option κ} {p : ElementPair ι κ}
    (hp : p ∈ analysis.getElementVector (analysis.getContextTypes e) true) :
    analysis.isAction p.second = true := by
  obtain ⟨t, ht, k, hk, heq⟩ := ((analysis.getElementVector_instances _ _).2 p.second).mp
    (List.mem_map_of_mem hp)
  have hcontext : analysis.isContext t = true := by
    cases e with
    | none => cases ht
    | some d =>
      rw [getContextTypes] at ht
      split at ht
      · rename_i types hkind
        exact analysis.contextTypes_isContext hkind t ht
      · cases ht
  rw [getInstances, hcontext, Bool.and_self, if_pos rfl, List.mem_map] at hk
  obtain ⟨q, hq, rfl⟩ := hk
  rw [← heq]
  exact analysis.inheritance_isAction (List.mem_filter.mp hq).1

end EgLang.Compiler.DerivationAnalysis
