import EgLang.Compiler.TypedReferences

/-!
# Type soundness

The generated conversions yield null or a reference of their type, and so do all conversions but those into
variants that are given a reference of another type.
-/

namespace EgLang.Compiler

open Library

set_option autoImplicit false

/-! ## Running a switch -/

namespace ConversionSwitch
variable {index : ConcreteIndex} {read : Dimensions} {s : ConversionSwitch} {data source : Reference}

/-- The case that is labelled with the type is run. -/
theorem execute_case (hlabels : s.labels.Nodup) {c : ConversionCase}
    (hc : c ∈ s.fromLinks ++ s.toLinks) (htype : source.type = index.getIndex c.label) :
    s.execute index read data source = c.execute index read data source := by
  have hnodup : ((s.fromLinks ++ s.toLinks).map ConversionCase.label).Nodup := by
    rw [List.map_append]
    exact (List.nodup_append'.mp hlabels).1
  rw [execute]
  cases hfind : (s.fromLinks ++ s.toLinks).find? fun c => source.type = index.getIndex c.label with
  | none => exact absurd htype (by simpa using List.find?_eq_none.mp hfind c hc)
  | some c' =>
    have hlabel : c'.label = c.label := by
      have htype' : source.type = index.getIndex c'.label := by simpa using List.find?_some hfind
      exact index.injective (htype'.symm.trans htype)
    rw [List.inj_on_of_nodup_map hnodup (List.mem_of_find?_eq_some hfind) hc hlabel]

/-- Without a case the reference is copied when its type is one of the type. -/
theorem execute_direct
    (hcases : ∀ c ∈ s.fromLinks ++ s.toLinks, source.type ≠ index.getIndex c.label) :
    s.execute index read data source =
      if ∃ k ∈ s.direct, source.type = index.getIndex k then source else invalidate data := by
  have hfind : (s.fromLinks ++ s.toLinks).find?
      (fun c => source.type = index.getIndex c.label) = none := by
    rw [List.find?_eq_none]
    exact fun c hc => by simpa using hcases c hc
  rw [execute, hfind]

end ConversionSwitch

section Soundness
variable {ι : Type} [DecidableEq ι] {I : Interface ι} {t : ConcreteTree ι} {root S : ι} {fuel : ℕ}
  {linked : Interface.Linked ι} {index : ConcreteIndex} {read : Dimensions} {data value r : Reference}

/-! ## The switch of a type -/

theorem hasType_iff {c : Compatibility ι} {s : ConversionSwitch}
    (hc : linked.compatibility.getCompatibility S = .ok c)
    (h : I.generateConversion t linked S = .ok (some s)) :
    Interface.HasType linked index S value ↔ ∃ k ∈ s.direct, value.type = index.getIndex k := by
  obtain ⟨-, -, hdirect⟩ := generateConversion_eq_some hc h
  rw [Interface.HasType, hdirect]
  simp only [Finset.mem_sort]
  constructor
  · rintro ⟨c', hc', hk⟩
    obtain rfl : c' = c := Except.ok.inj (hc'.symm.trans hc)
    exact hk
  · exact fun hk => ⟨c, hc, hk⟩

omit [DecidableEq ι] in
theorem readLinkBase_accessor {d : List ℕ} {a : Accessor}
    (h : Interface.readLinkBase linked d = .ok a) : a = .linkBase d := by
  rw [Interface.readLinkBase] at h
  split at h
  · exact (Except.ok.inj h).symm
  · cases h

omit [DecidableEq ι] in
theorem readLinkReference_eq_ok_iff {group : Option (LinkGroup ι (List ℕ))} {k : List ℕ} {a : Accessor} :
    Interface.readLinkReference group k = .ok a ↔
      ∃ g, group = some g ∧ k ∈ g.concreteTargets ∧ a = .linkReference k g.name := by
  cases group with
  | none => simp [Interface.readLinkReference]
  | some g =>
    rw [Interface.readLinkReference]
    split
    · rename_i hk
      simp [hk, eq_comm]
    · rename_i hk
      simp [hk]

/-- The cases with an inner switch are those for links. -/
theorem linkedTo_iff {c : Compatibility ι} {s : ConversionSwitch}
    (hc : linked.compatibility.getCompatibility S = .ok c)
    (h : I.generateConversion t linked S = .ok (some s)) :
    I.LinkedTo t linked index read S value r ↔ ∃ e ∈ s.fromLinks ++ s.toLinks,
      value.type = index.getIndex e.label ∧ r = read e.accessor value.inst := by
  obtain ⟨hfrom, hto, -⟩ := generateConversion_eq_some hc h
  constructor
  · rintro ⟨c', hc', hlink⟩
    obtain rfl : c' = c := Except.ok.inj (hc'.symm.trans hc)
    rcases hlink with ⟨k, hk, htype, d, hd, rfl⟩ | ⟨k, hk, htype, group, hgroup, rfl⟩
    · obtain ⟨e, he, hcase⟩ := exists_mem_of_mapM hfrom ((Finset.mem_sort _).mpr hk)
      obtain ⟨d', a, hd', ha, rfl⟩ := fromLinkCase_eq_ok.mp hcase
      obtain rfl : d' = d := Except.ok.inj (hd'.symm.trans hd)
      refine ⟨_, List.mem_append_left _ he, htype, ?_⟩
      rw [readLinkBase_accessor ha]
    · obtain ⟨e, he, hcase⟩ := exists_mem_of_mapM hto ((Finset.mem_sort _).mpr hk)
      obtain ⟨a, ha, rfl⟩ := toLinkCase_eq_ok.mp hcase
      obtain ⟨group', hgroup', -, rfl⟩ := readLinkReference_eq_ok_iff.mp ha
      obtain rfl := Option.some.inj (hgroup.symm.trans hgroup')
      exact ⟨_, List.mem_append_right _ he, htype, rfl⟩
  · rintro ⟨e, he, htype, rfl⟩
    refine ⟨c, hc, ?_⟩
    rcases List.mem_append.mp he with he | he
    · obtain ⟨k, hk, hcase⟩ := exists_of_mem_mapM hfrom he
      obtain ⟨d, a, hd, ha, rfl⟩ := fromLinkCase_eq_ok.mp hcase
      refine .inl ⟨k, (Finset.mem_sort _).mp hk, htype, d, hd, ?_⟩
      rw [readLinkBase_accessor ha]
    · obtain ⟨k, hk, hcase⟩ := exists_of_mem_mapM hto he
      obtain ⟨a, ha, rfl⟩ := toLinkCase_eq_ok.mp hcase
      obtain ⟨group, hgroup, -, rfl⟩ := readLinkReference_eq_ok_iff.mp ha
      exact .inr ⟨k, (Finset.mem_sort _).mp hk, htype, group, hgroup, rfl⟩

/-- The inner switches have the labels of the direct conversion. -/
theorem labels_of_mem {c : Compatibility ι} {s : ConversionSwitch} {e : ConversionCase}
    (hc : linked.compatibility.getCompatibility S = .ok c)
    (h : I.generateConversion t linked S = .ok (some s)) (he : e ∈ s.fromLinks ++ s.toLinks) :
    e.labels = s.direct := by
  obtain ⟨hfrom, hto, -⟩ := generateConversion_eq_some hc h
  rcases List.mem_append.mp he with he | he
  · obtain ⟨k, -, hcase⟩ := exists_of_mem_mapM hfrom he
    obtain ⟨_, _, -, -, rfl⟩ := fromLinkCase_eq_ok.mp hcase
    rfl
  · obtain ⟨k, -, hcase⟩ := exists_of_mem_mapM hto he
    obtain ⟨_, -, rfl⟩ := toLinkCase_eq_ok.mp hcase
    rfl

/-- Without a switch there are no instances. -/
theorem not_hasType_of_none (h : I.generateConversion t linked S = .ok none) :
    ¬ Interface.HasType linked index S value := by
  rw [Interface.generateConversion, except_bind_ok] at h
  obtain ⟨c, hc, h⟩ := h
  split at h
  · rename_i hempty
    rintro ⟨c', hc', k, hk, -⟩
    obtain rfl : c' = c := Except.ok.inj (hc'.symm.trans hc)
    rw [hempty] at hk
    exact absurd hk (Finset.notMem_empty k)
  · simp only [except_bind_ok] at h
    obtain ⟨_, -, _, -, h⟩ := h
    cases Except.ok.inj h

theorem conversion_eq_ok {s : Option ConversionSwitch} (h : I.conversion t linked S = .ok s) :
    I.generateConversion t linked S = .ok s := by
  rw [Interface.conversion] at h
  split at h
  · cases h
  · exact mapError_eq_ok.mp h

/-! ## The conversion of a type -/

section Generated
variable {s : Option ConversionSwitch} (ht : I.instanceAnalysis root fuel = .ok t)
  (hlinked : I.linkAnalysis t = .ok linked) (hs : I.conversion t linked S = .ok s)
include ht hlinked hs

/-- The session has the switch of the type, and it is well formed. -/
theorem exists_compatibility : ∃ c, linked.compatibility.getCompatibility S = .ok c ∧
    ∀ w ∈ s, I.WellFormed t linked w := by
  have h := conversion_eq_ok hs
  obtain ⟨c, hc, -⟩ := except_bind_ok.mp h
  have hS := ((compatible_of_linkAnalysis ht hlinked).1 S).mp ⟨c, hc⟩
  obtain ⟨s', hs', hwf⟩ := generateConversion_wellFormed ht hlinked hS
  obtain rfl : s' = s := Except.ok.inj (hs'.symm.trans h)
  exact ⟨c, hc, hwf⟩

/-- A reference of the type is kept. -/
theorem generated_of_hasType (hvalue : Interface.HasType linked index S value) :
    generated index read s data value = value := by
  obtain ⟨c, hc, hwf⟩ := exists_compatibility ht hlinked hs
  cases s with
  | none => exact absurd hvalue (not_hasType_of_none (conversion_eq_ok hs))
  | some w =>
    have hk := (hasType_iff hc (conversion_eq_ok hs)).mp hvalue
    have hlabels := (hwf w rfl).labels
    rw [ConversionSwitch.labels, ← List.map_append, List.nodup_append'] at hlabels
    rw [generated, ConversionSwitch.execute_direct, if_pos hk]
    intro e he htype
    obtain ⟨k, hk, hvalue⟩ := hk
    have hlabel : e.label = k := index.injective (htype.symm.trans hvalue)
    exact hlabels.2.2 (List.mem_map_of_mem he) (hlabel ▸ hk)

/-- A link becomes what it refers to, when that is of the type, and null else. -/
theorem generated_of_linkedTo (hlink : I.LinkedTo t linked index read S value r) :
    (Interface.HasType linked index S r → generated index read s data value = r) ∧
      (¬ Interface.HasType linked index S r → IsNull (generated index read s data value)) := by
  obtain ⟨c, hc, hwf⟩ := exists_compatibility ht hlinked hs
  cases s with
  | none =>
    exact ⟨fun h => absurd h (not_hasType_of_none (conversion_eq_ok hs)),
      fun _ => isNull_invalidate data⟩
  | some w =>
    have h := conversion_eq_ok hs
    obtain ⟨e, he, htype, rfl⟩ := (linkedTo_iff hc h).mp hlink
    have hlabels : e.labels = w.direct := labels_of_mem hc h he
    rw [generated, ConversionSwitch.execute_case (hwf w rfl).labels he htype, ConversionCase.execute,
      hlabels, hasType_iff hc h]
    refine ⟨fun hr => if_pos hr, fun hr => ?_⟩
    show IsNull (if _ then _ else _)
    rw [if_neg hr]
    exact isNull_invalidate data

/-- Anything else becomes null. -/
theorem isNull_generated (hvalue : ¬ Interface.HasType linked index S value)
    (hlink : ∀ r, ¬ I.LinkedTo t linked index read S value r) :
    IsNull (generated index read s data value) := by
  obtain ⟨c, hc, -⟩ := exists_compatibility ht hlinked hs
  cases s with
  | none => exact isNull_invalidate data
  | some w =>
    have h := conversion_eq_ok hs
    rw [hasType_iff hc h] at hvalue
    rw [generated, ConversionSwitch.execute_direct, if_neg hvalue]
    · exact isNull_invalidate data
    · intro e he htype
      exact hlink _ ((linkedTo_iff hc h).mpr ⟨e, he, htype, rfl⟩)

end Generated

/-! ## Conversions -/

section Conversions
variable (ht : I.instanceAnalysis root fuel = .ok t) (hlinked : I.linkAnalysis t = .ok linked)

theorem Converted.fits_of_not_isNull {target : StaticType ι}
    (h : I.Converted t linked index read target value r) (hr : ¬ IsNull r) :
    Interface.Fits linked index target r := by
  cases h with
  | fits h => exact h
  | link h hS hlink htype =>
    cases target with
    | interface S =>
      obtain rfl := List.mem_singleton.mp hS
      exact htype
    | variant Ts => exact ⟨_, hS, htype⟩
    | event => trivial
  | null h hlink hnull => exact absurd hnull hr

include ht hlinked

/-- The generated conversion makes what it has to. -/
theorem converted_generated {s : Option ConversionSwitch} (hs : I.conversion t linked S = .ok s) :
    I.Converted t linked index read (.interface S) value (generated index read s data value) := by
  by_cases hvalue : Interface.HasType linked index S value
  · rw [generated_of_hasType ht hlinked hs hvalue]
    exact .fits hvalue
  by_cases hlink : ∃ r, I.LinkedTo t linked index read S value r ∧ Interface.HasType linked index S r
  · obtain ⟨r, hlink, hr⟩ := hlink
    rw [(generated_of_linkedTo ht hlinked hs hlink).1 hr]
    exact .link hvalue (List.mem_singleton_self S) hlink hr
  · push Not at hlink
    refine .null hvalue (fun S' hS' r hr htype => ?_) ?_
    · obtain rfl := List.mem_singleton.mp hS'
      exact absurd htype (hlink r hr)
    · by_cases hsome : ∃ r, I.LinkedTo t linked index read S value r
      · obtain ⟨r, hr⟩ := hsome
        exact (generated_of_linkedTo ht hlinked hs hr).2 (hlink r hr)
      · push Not at hsome
        exact isNull_generated ht hlinked hs hvalue hsome

/-- The conversion of an event to a type fails just when it has neither the type nor a link to something of
the type. -/
theorem isNull_generated_iff {s : Option ConversionSwitch} (hs : I.conversion t linked S = .ok s)
    (hvalue : ¬ IsNull value) :
    IsNull (generated index read s data value) ↔ ¬ Interface.HasType linked index S value ∧
      ∀ r, I.LinkedTo t linked index read S value r → Interface.HasType linked index S r →
        IsNull r := by
  constructor
  · intro hnull
    refine ⟨fun htype => ?_, fun r hlink htype => ?_⟩
    · rw [generated_of_hasType ht hlinked hs htype] at hnull
      exact hvalue hnull
    · rwa [(generated_of_linkedTo ht hlinked hs hlink).1 htype] at hnull
  · rintro ⟨htype, hlink⟩
    have h := @converted_generated _ _ _ _ _ _ _ _ index read data value ht hlinked _ hs
    generalize generated index read s data value = r at h
    cases h with
    | fits h => exact absurd h htype
    | link h hS hr hrtype =>
      obtain rfl := List.mem_singleton.mp hS
      exact hlink _ hr hrtype
    | null h hr hnull => exact hnull

theorem runtimeTypeCheck_eq_false_iff {Ts : List ι} {switches : List (Option ConversionSwitch)}
    (h : Ts.mapM (I.conversion t linked) = .ok switches) (hvalue : ¬ IsNull value) :
    Interface.runtimeTypeCheck index read switches value = false ↔
      ¬ Interface.Fits linked index (.variant Ts) value ∧ ∀ S ∈ Ts, ∀ r,
        I.LinkedTo t linked index read S value r → Interface.HasType linked index S r →
          IsNull r := by
  have hchecks : Interface.runtimeTypeCheck index read switches value = false ↔
      ∀ S ∈ Ts, ∀ s, I.conversion t linked S = .ok s → IsNull (generated index read s .null value) := by
    rw [Interface.runtimeTypeCheck, List.any_eq_false]
    simp only [decide_eq_true_eq, not_not]
    constructor
    · intro hall S hS s hs
      obtain ⟨s', hs', hok⟩ := exists_mem_of_mapM h hS
      obtain rfl : s' = s := Except.ok.inj (hok.symm.trans hs)
      exact hall s' hs'
    · intro hall s hs
      obtain ⟨S, hS, hok⟩ := exists_of_mem_mapM h hs
      exact hall S hS s hok
  rw [hchecks]
  constructor
  · intro hall
    refine ⟨?_, fun S hS => ?_⟩
    · rintro ⟨S, hS, htype⟩
      obtain ⟨s, -, hs⟩ := exists_mem_of_mapM h hS
      exact ((isNull_generated_iff ht hlinked hs hvalue).mp (hall S hS s hs)).1 htype
    · obtain ⟨s, -, hs⟩ := exists_mem_of_mapM h hS
      exact ((isNull_generated_iff ht hlinked hs hvalue).mp (hall S hS s hs)).2
  · rintro ⟨htype, hlink⟩ S hS s hs
    exact (isNull_generated_iff ht hlinked hs hvalue).mpr ⟨fun h => htype ⟨S, hS, h⟩, hlink S hS⟩

omit ht hlinked in
/-- A reference is copied well when it is null or fits. -/
theorem copied_sound_iff {target : StaticType ι} :
    ((¬ IsNull value → Interface.Fits linked index target value) ∧
        (¬ IsNull value → I.Converted t linked index read target value value)) ↔
      IsNull value ∨ Interface.Fits linked index target value := by
  constructor
  · exact fun h => (em _).imp_right h.1
  · rintro (hnull | htype)
    · exact ⟨fun hvalue => absurd hnull hvalue, fun hvalue => absurd hnull hvalue⟩
    · exact ⟨fun _ => htype, fun _ => .fits htype⟩

/-- The variant that is made from an event. -/
theorem variant_of_event_sound_iff {Ts : List ι} {switches : List (Option ConversionSwitch)}
    (h : Ts.mapM (I.conversion t linked) = .ok switches)
    (hr : r = if IsNull value ∨ Interface.runtimeTypeCheck index read switches value = false
      then invalidate data else value) :
    ((¬ IsNull r → Interface.Fits linked index (.variant Ts) r) ∧
        (¬ IsNull value → I.Converted t linked index read (.variant Ts) value r)) ↔
      IsNull value ∨ Interface.Fits linked index (.variant Ts) value ∨ ∀ S ∈ Ts, ∀ r,
        I.LinkedTo t linked index read S value r → Interface.HasType linked index S r →
          IsNull r := by
  by_cases hvalue : IsNull value
  · rw [if_pos (.inl hvalue)] at hr
    subst hr
    exact iff_of_true ⟨fun hr => absurd (isNull_invalidate data) hr, fun hr => absurd hvalue hr⟩
      (.inl hvalue)
  have hcheck := @runtimeTypeCheck_eq_false_iff _ _ _ _ _ _ _ index read _ ht hlinked _ _ h hvalue
  by_cases hfalse : Interface.runtimeTypeCheck index read switches value = false
  · obtain ⟨htype, hlink⟩ := hcheck.mp hfalse
    rw [if_pos (.inr hfalse)] at hr
    subst hr
    exact iff_of_true ⟨fun hr => absurd (isNull_invalidate data) hr,
      fun _ => .null htype hlink (isNull_invalidate data)⟩ (.inr (.inr hlink))
  · -- the check has passed: for the type of the reference or for that of a link
    rw [if_neg (not_or.mpr ⟨hvalue, hfalse⟩)] at hr
    subst hr
    rw [copied_sound_iff]
    refine or_congr_right ⟨Or.inl, ?_⟩
    rintro (htype | hlink)
    · exact htype
    · by_contra htype
      exact hfalse (hcheck.mpr ⟨htype, hlink⟩)

/-- **Conversions.** A conversion of a sound value yields a sound value, and what it has to, just when it is
admissible. -/
theorem convert_sound_iff {target source : StaticType ι}
    (hsource : ¬ IsNull value → Interface.Fits linked index source value)
    (h : I.convert t linked index read target source data value = .ok r) :
    ((¬ IsNull r → Interface.Fits linked index target r) ∧
        (¬ IsNull value → I.Converted t linked index read target value r)) ↔
      I.Admissible t linked index read target source value := by
  unfold Interface.convert at h
  split at h
  · rename_i hsame
    obtain rfl := Except.ok.inj h
    subst hsame
    have hcopied : IsNull value ∨ Interface.Fits linked index target value :=
      (em _).imp_right hsource
    refine iff_of_true (copied_sound_iff.mpr hcopied) ?_
    cases target with
    | variant Ts => exact hcopied.imp_right Or.inl
    | _ => trivial
  cases target with
  | event =>
    obtain rfl := Except.ok.inj h
    exact iff_of_true (copied_sound_iff.mpr (.inr trivial)) trivial
  | interface S =>
    dsimp only at h
    split at h
    · obtain ⟨s, hs, h⟩ := except_bind_ok.mp h
      obtain rfl := Except.ok.inj h
      have hconverted := @converted_generated _ _ _ _ _ _ _ _ index read data value ht hlinked _ hs
      exact iff_of_true ⟨Converted.fits_of_not_isNull hconverted, fun _ => hconverted⟩ trivial
    · cases h
  | variant Ts =>
    dsimp only at h
    split at h
    · rename_i hevent
      obtain ⟨switches, hswitches, h⟩ := except_bind_ok.mp h
      rw [variant_of_event_sound_iff ht hlinked hswitches (Except.ok.inj h).symm]
      simp only [Interface.Admissible, hevent, true_and]
    · rename_i hevent
      split at h
      · obtain rfl := Except.ok.inj h
        rw [copied_sound_iff]
        simp only [Interface.Admissible, hevent, false_and, or_false]
      · cases h

end Conversions

/-! ## Programs -/

section Programs
variable {ν : Type} [DecidableEq ν] {typeOf : ν → StaticType ι} {s s' : ν → Reference}
  {i : Interface.Statement ν × Dimensions}
  (ht : I.instanceAnalysis root fuel = .ok t) (hlinked : I.linkAnalysis t = .ok linked)

omit [DecidableEq ι] in
/-- A state stays sound when the variable that changes does. -/
theorem sound_update_iff (hs : Interface.Sound linked index typeOf s) {v : ν} :
    Interface.Sound linked index typeOf (Function.update s v r) ↔
      (¬ IsNull r → Interface.Fits linked index (typeOf v) r) := by
  constructor
  · intro h
    have hv := h v
    rwa [Function.update_self] at hv
  · intro hr w
    by_cases hw : w = v
    · subst hw
      rwa [Function.update_self]
    · rw [Function.update_of_ne hw]
      exact hs w

include ht hlinked

theorem execute_sound_iff (hs : Interface.Sound linked index typeOf s)
    (h : I.execute t linked index typeOf s i = .ok s') :
    (Interface.Sound linked index typeOf s' ∧ I.Faithful t linked index typeOf s i s') ↔
      I.Allowed t linked index typeOf s i := by
  obtain ⟨statement, read⟩ := i
  have hconvert : ∀ {target source : ν} {data r : Reference},
      I.convert t linked index read (typeOf target) (typeOf source) data (s source) = .ok r →
      statement.operands = some (target, source) → s' = Function.update s target r →
      ((Interface.Sound linked index typeOf s' ∧
        I.Faithful t linked index typeOf s (statement, read) s') ↔
          I.Allowed t linked index typeOf s (statement, read)) := by
    rintro target source data r hr hoperands rfl
    rw [Interface.Faithful, Interface.Allowed, hoperands, sound_update_iff hs]
    simp only [Option.mem_some_iff, forall_eq', Function.update_self]
    exact convert_sound_iff ht hlinked (hs source) hr
  cases statement with
  | declare target =>
    obtain rfl := Except.ok.inj h
    refine iff_of_true ⟨(sound_update_iff hs).mpr fun hr => absurd rfl hr, ?_⟩ ?_
    · rintro p ⟨⟩
    · rintro p ⟨⟩
  | receive target reference =>
    rw [Interface.execute] at h
    dsimp only at h
    split at h
    · rename_i hevent
      obtain rfl := Except.ok.inj h
      refine iff_of_true ⟨(sound_update_iff hs).mpr fun _ => ?_, ?_⟩ ?_
      · rw [hevent]
        trivial
      · rintro p ⟨⟩
      · rintro p ⟨⟩
    · cases h
  | construct target source =>
    obtain ⟨r, hr, h⟩ := except_bind_ok.mp h
    exact hconvert hr rfl (Except.ok.inj h).symm
  | assign target source =>
    obtain ⟨r, hr, h⟩ := except_bind_ok.mp h
    exact hconvert hr rfl (Except.ok.inj h).symm

/-- **Type soundness.** In a run from a sound state whose conversions into variants are admissible every
reference that is not null has a runtime type of its static type; and from there a statement keeps that, and
converts as it has to, just when its conversion is admissible. -/
theorem references_sound {s₀ : ν → Reference} (h₀ : Interface.Sound linked index typeOf s₀)
    (h : Reaches (I.execute t linked index typeOf) (I.Allowed t linked index typeOf) s₀ s) :
    Interface.Sound linked index typeOf s ∧ ∀ i s', I.execute t linked index typeOf s i = .ok s' →
      ((Interface.Sound linked index typeOf s' ∧ I.Faithful t linked index typeOf s i s') ↔
        I.Allowed t linked index typeOf s i) := by
  have hs : Interface.Sound linked index typeOf s :=
    Steps.invariant (Interface.Sound linked index typeOf) h h₀ fun s i s' hs hallowed hok =>
      ((execute_sound_iff ht hlinked hs hok).mpr hallowed).1
  exact ⟨hs, fun i s' hok => execute_sound_iff ht hlinked hs hok⟩

end Programs

end Soundness

/-! ## An event, an `A` and a `Var< B >` -/

section Sample
variable {ι : Type} [DecidableEq ι]

instance (linked : Interface.Linked ι) (index : ConcreteIndex) (S : ι) (value : Reference) :
    Decidable (Interface.HasType linked index S value) :=
  decidable_of_iff ((linked.compatibility.getCompatibility S).toOption.any fun c =>
      decide (∃ k ∈ c.dynamicCompatibleTypes, value.type = index.getIndex k)) <| by
    rw [Interface.HasType]
    cases linked.compatibility.getCompatibility S <;> simp [Except.toOption]

end Sample

def linkingIndex : ConcreteIndex where
  getIndex k := Encodable.encode k
  injective _ _ h := Encodable.encode_injective (Int.ofNat_inj.mp h)

def linkingTypes : Fin 3 → StaticType ℕ := ![.event, .interface 2, .variant [3]]

/-- The base dimensions hold a `B`. -/
def linkingDimensions : Dimensions := fun _ _ => ⟨0, linkingIndex.getIndex [0, 1], 1⟩

/-- A reference to the concrete action at a place. -/
def instanceOf (k : List ℕ) : Reference := ⟨0, linkingIndex.getIndex k, 1⟩

section Runs
variable {t : ConcreteTree ℕ} {linked : Interface.Linked ℕ}

/-- An event, an `A` from it and a `Var< B >` from that. -/
theorem reaches_through_type
    {guard : (Fin 3 → Reference) → Interface.Statement (Fin 3) × Dimensions → Prop} {value r : Reference}
    (hstatic : linking.isConvertibleType linked 2 3 = true)
    (h : linking.convert t linked linkingIndex linkingDimensions (.interface 2) .event .null value = .ok r)
    (hreceive : ∀ s, guard s (.receive 0 value, linkingDimensions))
    (hfirst : ∀ s, guard s (.construct 1 0, linkingDimensions))
    (hsecond : ∀ s, s 1 = r → guard s (.construct 2 1, linkingDimensions)) :
    ∃ s, Reaches (linking.execute t linked linkingIndex linkingTypes) guard (fun _ => .null) s ∧
      s 2 = r := by
  let s₁ : Fin 3 → Reference := Function.update (fun _ => .null) 0 value
  let s₂ := Function.update s₁ 1 r
  have h₁ : linking.execute t linked linkingIndex linkingTypes (fun _ => .null)
      (.receive 0 value, linkingDimensions) = .ok s₁ := rfl
  have h₂ : linking.execute t linked linkingIndex linkingTypes s₁
      (.construct 1 0, linkingDimensions) = .ok s₂ := except_bind_ok.mpr ⟨r, h, rfl⟩
  have h₃ : linking.execute t linked linkingIndex linkingTypes s₂
      (.construct 2 1, linkingDimensions) = .ok (Function.update s₂ 2 r) := by
    refine except_bind_ok.mpr ⟨r, ?_, rfl⟩
    refine (if_neg (by decide)).trans (if_pos (t := Except.ok r) ?_)
    exact List.any_eq_true.mpr ⟨3, List.mem_singleton_self 3, hstatic⟩
  exact ⟨_, .head ⟨_, hreceive _, h₁⟩ (.head ⟨_, hfirst _, h₂⟩ (.single ⟨_, hsecond s₂ rfl, h₃⟩)),
    Function.update_self _ _ _⟩

/-- An event, and a `Var< B >` from it. -/
theorem reaches_from_event {value : Reference} {s : Option ConversionSwitch}
    (hs : linking.conversion t linked 3 = .ok s) (hvalue : ¬ IsNull value)
    (h : ¬ IsNull (generated linkingIndex linkingDimensions s .null value)) :
    ∃ u, Reaches (linking.execute t linked linkingIndex linkingTypes) (fun _ _ => True)
      (fun _ => .null) u ∧ u 2 = value := by
  obtain ⟨s₁, h₁, h₀⟩ : ∃ s₁, linking.execute t linked linkingIndex linkingTypes (fun _ => .null)
      (.receive 0 value, linkingDimensions) = .ok s₁ ∧ s₁ 0 = value := ⟨_, rfl, rfl⟩
  have h₂ : linking.execute t linked linkingIndex linkingTypes s₁
      (.construct 2 0, linkingDimensions) = .ok (Function.update s₁ 2 value) := by
    refine except_bind_ok.mpr ⟨value, ?_, rfl⟩
    show linking.convert t linked linkingIndex linkingDimensions (.variant [3]) .event .null (s₁ 0) = _
    rw [h₀]
    refine except_bind_ok.mpr ⟨[s], mapM_eq_ok.mpr (.cons hs .nil), ?_⟩
    refine congrArg Except.ok (if_neg ?_)
    rintro (hnull | hfalse)
    · exact hvalue hnull
    · refine h ?_
      simpa [Interface.runtimeTypeCheck] using hfalse
  exact ⟨_, .head ⟨_, trivial, h₁⟩ (.single ⟨_, trivial, h₂⟩), Function.update_self _ _ _⟩

/-- A state that has something of another type in the variant. -/
theorem not_sound {s : Fin 3 → Reference} {value : Reference} (hs : s 2 = value)
    (hvalue : ¬ IsNull value) (htype : ¬ Interface.HasType linked linkingIndex 3 value) :
    ¬ Interface.Sound linked linkingIndex linkingTypes s := by
  intro hsound
  obtain ⟨S, hS, h⟩ := hsound 2 (hs ▸ hvalue)
  obtain rfl := List.mem_singleton.mp hS
  exact htype (hs ▸ h)

/-- The conversion of an event to a type of the program. -/
theorem exists_conversion (ht : linking.instanceAnalysis 0 5 = .ok t)
    (hlinked : linking.linkAnalysis t = .ok linked) {S : ℕ} (hS : S ∈ linking.contexts)
    (hfunction : (linking.getType S).isFunction = false) {value : Reference} :
    ∃ s, linking.conversion t linked S = .ok s ∧
      linking.convert t linked linkingIndex linkingDimensions (.interface S) .event .null value =
        .ok (generated linkingIndex linkingDimensions s .null value) := by
  obtain ⟨s, hs, -⟩ := generateConversion_wellFormed ht hlinked hS
  have hconversion : linking.conversion t linked S = .ok s := by
    rw [Interface.conversion, if_neg (by rw [hfunction]; exact Bool.false_ne_true), hs]
    rfl
  exact ⟨s, hconversion, except_bind_ok.mpr ⟨s, hconversion, rfl⟩⟩

end Runs

/-- An `A` that is no `B` goes into the variant as it is, and so does a link from an event. -/
theorem variant_unsound :
    ∃ t linked, linking.instanceAnalysis 0 5 = .ok t ∧ linking.linkAnalysis t = .ok linked ∧
      Interface.Sound linked linkingIndex linkingTypes (fun _ => .null) ∧
      (∃ s, Reaches (linking.execute t linked linkingIndex linkingTypes) (fun _ _ => True)
          (fun _ => .null) s ∧ s 2 = instanceOf [0, 0] ∧
            ¬ Interface.Sound linked linkingIndex linkingTypes s) ∧
      ∃ s, Reaches (linking.execute t linked linkingIndex linkingTypes) (fun _ _ => True)
          (fun _ => .null) s ∧ s 2 = instanceOf [0, 2] ∧
            ¬ Interface.Sound linked linkingIndex linkingTypes s := by
  obtain ⟨t, linked, ht, hlinked, hfacts⟩ := exists_session linking 0 5
    (fun t linked => linking.isConvertibleType linked 2 3 &&
      decide (Interface.HasType linked linkingIndex 2 (instanceOf [0, 0]) ∧
        ¬ Interface.HasType linked linkingIndex 3 (instanceOf [0, 0]) ∧
        ¬ Interface.HasType linked linkingIndex 3 (instanceOf [0, 2]) ∧
        Interface.HasType linked linkingIndex 3 (instanceOf [0, 1])) &&
      (linked.compatibility.getCompatibility 3).toOption.any
        (fun c : Compatibility ℕ => decide ([0, 2] ∈ c.dynamicCompatibleFromLinkTypes)) &&
      decide ((linking.getConcreteLinkBaseDimension t [0, 2]).toOption = some [0, 2, 0]))
    (by decide +kernel)
  simp only [Bool.and_eq_true, decide_eq_true_eq, toOption_eq_some, Option.any_eq_true] at hfacts
  obtain ⟨⟨⟨hstatic, hA, hA', hL, hB⟩, c, hc, hfrom⟩, hbase⟩ := hfacts
  have hnull : ∀ k, ¬ IsNull (instanceOf k) := fun k h => absurd h Nat.one_ne_zero
  refine ⟨t, linked, ht, hlinked, fun v hv => absurd rfl hv, ?_, ?_⟩
  · obtain ⟨w, hw, hconvert⟩ := @exists_conversion _ _ ht hlinked 2
      (by decide +kernel) (by decide +kernel) (instanceOf [0, 0])
    rw [generated_of_hasType ht hlinked hw hA] at hconvert
    obtain ⟨s, hs, hvalue⟩ := @reaches_through_type _ _ (fun _ _ => True) _ _ hstatic hconvert
      (fun _ => trivial) (fun _ => trivial) (fun _ _ => trivial)
    exact ⟨s, hs, hvalue, not_sound hvalue (hnull _) hA'⟩
  · obtain ⟨w, hw, -⟩ := @exists_conversion _ _ ht hlinked 3
      (by decide +kernel) (by decide +kernel) (instanceOf [0, 2])
    have hlink : linking.LinkedTo t linked linkingIndex linkingDimensions 3 (instanceOf [0, 2])
        (instanceOf [0, 1]) :=
      ⟨c, hc, .inl ⟨[0, 2], hfrom, rfl, [0, 2, 0], hbase, rfl⟩⟩
    obtain ⟨s, hs, hvalue⟩ := reaches_from_event hw (hnull [0, 2]) (by
      rw [(generated_of_linkedTo ht hlinked hw hlink).1 hB]
      exact hnull _)
    exact ⟨s, hs, hvalue, not_sound hvalue (hnull _) hL⟩

/-- An event with a `B` becomes an `A`, and that goes into the variant. -/
theorem linking_sound :
    ∃ t linked s, linking.instanceAnalysis 0 5 = .ok t ∧ linking.linkAnalysis t = .ok linked ∧
      Reaches (linking.execute t linked linkingIndex linkingTypes)
        (linking.Allowed t linked linkingIndex linkingTypes) (fun _ => .null) s ∧
      s 2 = instanceOf [0, 1] ∧ Interface.Sound linked linkingIndex linkingTypes s := by
  obtain ⟨t, linked, ht, hlinked, hfacts⟩ := exists_session linking 0 5
    (fun t linked => linking.isConvertibleType linked 2 3 &&
      decide (Interface.HasType linked linkingIndex 2 (instanceOf [0, 1]) ∧
        Interface.HasType linked linkingIndex 3 (instanceOf [0, 1]))) (by decide +kernel)
  simp only [Bool.and_eq_true, decide_eq_true_eq] at hfacts
  obtain ⟨hstatic, hA, hB⟩ := hfacts
  obtain ⟨w, hw, hconvert⟩ := @exists_conversion _ _ ht hlinked 2
    (by decide +kernel) (by decide +kernel) (instanceOf [0, 1])
  rw [generated_of_hasType ht hlinked hw hA] at hconvert
  obtain ⟨s, hs, hvalue⟩ := @reaches_through_type _ _
    (linking.Allowed t linked linkingIndex linkingTypes) _ _ hstatic hconvert
    (by rintro s p ⟨⟩) (by rintro s p ⟨⟩; trivial)
    (by
      rintro s hs p ⟨⟩
      exact .inr (.inl ⟨3, List.mem_singleton_self 3, hs ▸ hB⟩))
  have hnull : Interface.Sound linked linkingIndex linkingTypes fun _ => .null :=
    fun v hv => absurd rfl hv
  exact ⟨t, linked, s, ht, hlinked, hs, hvalue, (references_sound ht hlinked hnull hs).1⟩

end EgLang.Compiler
