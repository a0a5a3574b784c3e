import EgLang.Runtime.Names

/-! # When generated names clash

The names of actions, the names of buffers and the names of the data members of a buffer are distinct
exactly when no two identifiers on the way to two actions run together into the same words, and no
identifier together with one of the fixed suffixes reads as another name.
-/

namespace EgLang.Runtime
open Library
set_option autoImplicit false

/-! ## Data members -/

/-- What the name of the data member of a generated dimension has after the name of the action and an
underscore. -/
def suffixOf : DimensionType → Option String
  | .eActionStopCycle => some "cycle"
  | .eActionReference => some "reference"
  | .eActionState => some "state"
  | .eActionAllocator pAction => pAction.map (· ++ "_allocator")
  | .eLinkReference pLinkGroup => (pLinkGroup.filter (· ≠ "")).map ("link_" ++ ·)
  | .eLinkReferenceCount => some "link_ref_count"

/-- The names of two generated dimensions of an action are the same text. -/
def SameSuffix : DimensionType → DimensionType → Prop
  | .eActionAllocator (some identifier), .eLinkReference (some name)
  | .eLinkReference (some name), .eActionAllocator (some identifier) =>
    identifier ++ "_allocator" = "link_" ++ name
  | .eLinkReference (some name), .eLinkReferenceCount
  | .eLinkReferenceCount, .eLinkReference (some name) => name = "ref_count"
  | t, t' => t = t'

theorem append_allocator_ne {s : String} (identifier : String) (hs : s.toList.getLast? ≠ some 'r') :
    identifier ++ "_allocator" ≠ s := by
  rintro rfl
  apply hs
  rw [String.toList_append, List.getLast?_append]
  rfl

theorem link_append_ne {s : String} (name : String) (hs : s.toList.head? ≠ some 'l') :
    "link_" ++ name ≠ s := by
  rintro rfl
  apply hs
  rw [String.toList_append]
  rfl

theorem suffixOf_cases {t : DimensionType} {s : String} (h : suffixOf t = some s) :
    (t = .eActionStopCycle ∧ s = "cycle") ∨ (t = .eActionReference ∧ s = "reference") ∨
      (t = .eActionState ∧ s = "state") ∨ (t = .eLinkReferenceCount ∧ s = "link_ref_count") ∨
      (∃ identifier, t = .eActionAllocator (some identifier) ∧ s = identifier ++ "_allocator") ∨
      ∃ name, t = .eLinkReference (some name) ∧ s = "link_" ++ name := by
  cases t with
  | eActionStopCycle => simpa [suffixOf, eq_comm] using h
  | eActionReference => simpa [suffixOf, eq_comm] using h
  | eActionState => simpa [suffixOf, eq_comm] using h
  | eLinkReferenceCount => simpa [suffixOf, eq_comm] using h
  | eActionAllocator pAction =>
    obtain ⟨identifier, rfl, rfl⟩ := Option.map_eq_some_iff.mp h
    simp
  | eLinkReference pLinkGroup =>
    obtain ⟨name, hname, rfl⟩ := Option.map_eq_some_iff.mp h
    obtain ⟨rfl, -⟩ := Option.filter_eq_some_iff.mp hname
    simp

theorem suffix_eq_iff {t t' : DimensionType} {s s' : String} (h : suffixOf t = some s)
    (h' : suffixOf t' = some s') : s = s' ↔ SameSuffix t t' := by
  have hallocator : ∀ s ∈ ["cycle", "reference", "state", "link_ref_count"],
      ∀ identifier : String, identifier ++ "_allocator" ≠ s := by
    intro s hs identifier
    apply append_allocator_ne
    revert s
    decide
  have hlink : ∀ s ∈ ["cycle", "reference", "state"], ∀ name : String, "link_" ++ name ≠ s := by
    intro s hs name
    apply link_append_ne
    revert s
    decide
  have hcount : ∀ name : String, "link_" ++ name = "link_ref_count" ↔ name = "ref_count" :=
    fun name => @String.append_right_inj "link_" name "ref_count"
  have hcount' : ∀ name : String, "link_ref_count" = "link_" ++ name ↔ name = "ref_count" :=
    fun name => eq_comm.trans (hcount name)
  have hswap : ∀ identifier name : String, "link_" ++ name = identifier ++ "_allocator" ↔
      identifier ++ "_allocator" = "link_" ++ name := fun _ _ => eq_comm
  simp only [List.forall_mem_cons, List.not_mem_nil, false_implies, implies_true,
    and_true] at hallocator hlink
  obtain ⟨hcycle, hreference, hstate, hrefcount⟩ := hallocator
  obtain ⟨hcycle', hreference', hstate'⟩ := hlink
  rcases suffixOf_cases h with ⟨rfl, rfl⟩ | ⟨rfl, rfl⟩ | ⟨rfl, rfl⟩ | ⟨rfl, rfl⟩ | ⟨i, rfl, rfl⟩ |
      ⟨n, rfl, rfl⟩ <;>
    rcases suffixOf_cases h' with ⟨rfl, rfl⟩ | ⟨rfl, rfl⟩ | ⟨rfl, rfl⟩ | ⟨rfl, rfl⟩ | ⟨i', rfl, rfl⟩ |
      ⟨n', rfl, rfl⟩ <;>
    simp [SameSuffix, hcycle, hreference, hstate, hrefcount, hcycle', hreference', hstate', hcount, hcount',
      hswap, (hcycle _).symm, (hreference _).symm, (hstate _).symm, (hrefcount _).symm,
      (hcycle' _).symm, (hreference' _).symm, (hstate' _).symm]

theorem dataMemberName_generated {base : String} {t : DimensionType} {n : String}
    (h : dataMemberName base (.dimensionGenerated t) = .ok n) :
    ∃ s, suffixOf t = some s ∧ n = base ++ ("_" ++ s) := by
  cases t with
  | eActionStopCycle => exact ⟨_, rfl, (Except.ok.inj h).symm⟩
  | eActionReference => exact ⟨_, rfl, (Except.ok.inj h).symm⟩
  | eActionState => exact ⟨_, rfl, (Except.ok.inj h).symm⟩
  | eLinkReferenceCount => exact ⟨_, rfl, (Except.ok.inj h).symm⟩
  | eActionAllocator pAction =>
    cases pAction with
    | none => cases h
    | some identifier =>
      refine ⟨_, rfl, (Except.ok.inj h).symm.trans ?_⟩
      rw [String.append_assoc, String.append_assoc]
  | eLinkReference pLinkGroup =>
    cases pLinkGroup with
    | none => cases h
    | some name =>
      simp only [dataMemberName] at h
      split at h
      · cases h
      · next hne =>
        refine ⟨"link_" ++ name, by simp [suffixOf, hne], (Except.ok.inj h).symm.trans ?_⟩
        rw [String.append_assoc, ← @String.append_assoc "_"]
        rfl

/-- The data members of two dimensions of an action have one name. -/
def SameMember : Element → Element → Prop
  | .dimensionUser identifier _, .dimensionUser identifier' _ => identifier = identifier'
  | .dimensionGenerated t, .dimensionGenerated t' => SameSuffix t t'
  | _, _ => False

theorem user_ne_generated {path : List String} {t : DimensionType} {identifier n : String}
    (h : dataMemberName (generateName 'g' path) (.dimensionGenerated t) = .ok n) :
    generateName 'm' [identifier] ≠ n := by
  obtain ⟨s, -, rfl⟩ := dataMemberName_generated h
  intro heq
  have hhead := congrArg (fun s : String => s.toList.head?) heq
  simp [toList_generateName] at hhead

theorem dataMemberName_eq_iff {path : List String} {e e' : Element} {n n' : String}
    (he : e.isAction = false) (he' : e'.isAction = false)
    (h : dataMemberName (generateName 'g' path) e = .ok n)
    (h' : dataMemberName (generateName 'g' path) e' = .ok n') : n = n' ↔ SameMember e e' := by
  cases e with
  | action identifier context size => cases he
  | dimensionUser identifier simple =>
    obtain rfl := Except.ok.inj h
    cases e' with
    | action identifier' context size => cases he'
    | dimensionUser identifier' simple' =>
      obtain rfl := Except.ok.inj h'
      rw [← String.toList_inj, toList_generateName, toList_generateName]
      simp [joined, SameMember, String.toList_inj]
    | dimensionGenerated t' => exact iff_of_false (user_ne_generated h') id
  | dimensionGenerated t =>
    cases e' with
    | action identifier' context size => cases he'
    | dimensionUser identifier' simple' =>
      obtain rfl := Except.ok.inj h'
      exact iff_of_false (fun heq => user_ne_generated h heq.symm) id
    | dimensionGenerated t' =>
      obtain ⟨s, hs, rfl⟩ := dataMemberName_generated h
      obtain ⟨s', hs', rfl⟩ := dataMemberName_generated h'
      rw [String.append_right_inj, String.append_right_inj, suffix_eq_iff hs hs']
      rfl

/-! ## Trees of accepted programs -/

/-- An action has one dimension of the type at most. -/
def DimensionType.isSingle : DimensionType → Bool
  | .eActionStopCycle | .eActionReference | .eActionState | .eLinkReferenceCount => true
  | .eActionAllocator _ | .eLinkReference _ => false

/-- What the instance analysis keeps different among the dimensions of an action: the identifiers of user
dimensions, which override each other, and the generated dimensions an action has one of. -/
def Different : Element → Element → Prop
  | .dimensionUser identifier _, .dimensionUser identifier' _ => identifier ≠ identifier'
  | .dimensionGenerated t, .dimensionGenerated t' => t.isSingle = true → t ≠ t'
  | _, _ => True

/-- Two generated dimensions of an action whose names are the same: two allocators of equally named
actions, two references of equally named link groups, an allocator and a link reference whose names run
together, or the reference of a link group that is named like the reference count. -/
def Clash : Element → Element → Prop
  | .dimensionGenerated (.eActionAllocator (some identifier)),
    .dimensionGenerated (.eActionAllocator (some identifier')) => identifier = identifier'
  | .dimensionGenerated (.eLinkReference (some name)),
    .dimensionGenerated (.eLinkReference (some name')) => name = name'
  | .dimensionGenerated (.eActionAllocator (some identifier)),
    .dimensionGenerated (.eLinkReference (some name))
  | .dimensionGenerated (.eLinkReference (some name)),
    .dimensionGenerated (.eActionAllocator (some identifier)) =>
    identifier ++ "_allocator" = "link_" ++ name
  | .dimensionGenerated (.eLinkReference (some name)), .dimensionGenerated .eLinkReferenceCount
  | .dimensionGenerated .eLinkReferenceCount, .dimensionGenerated (.eLinkReference (some name)) =>
    name = "ref_count"
  | _, _ => False

theorem sameMember_iff_clash {base : String} {e e' : Element} (h : Different e e')
    (hok : ∃ n, dataMemberName base e = .ok n) (hok' : ∃ n, dataMemberName base e' = .ok n) :
    SameMember e e' ↔ Clash e e' := by
  cases e with
  | action identifier context size => simp [SameMember, Clash]
  | dimensionUser identifier simple =>
    cases e' with
    | action identifier' context size => simp [SameMember, Clash]
    | dimensionUser identifier' simple' => exact iff_of_false h id
    | dimensionGenerated t' => simp [SameMember, Clash]
  | dimensionGenerated t =>
    cases e' with
    | action identifier' context size => simp [SameMember, Clash]
    | dimensionUser identifier' simple' => simp [SameMember, Clash]
    | dimensionGenerated t' =>
      obtain ⟨n, hn⟩ := hok
      obtain ⟨n', hn'⟩ := hok'
      obtain ⟨s, hs, -⟩ := dataMemberName_generated hn
      obtain ⟨s', hs', -⟩ := dataMemberName_generated hn'
      rcases suffixOf_cases hs with ⟨rfl, -⟩ | ⟨rfl, -⟩ | ⟨rfl, -⟩ | ⟨rfl, -⟩ | ⟨i, rfl, -⟩ |
          ⟨m, rfl, -⟩ <;>
        rcases suffixOf_cases hs' with ⟨rfl, -⟩ | ⟨rfl, -⟩ | ⟨rfl, -⟩ | ⟨rfl, -⟩ | ⟨i', rfl, -⟩ |
          ⟨m', rfl, -⟩ <;>
        simp [SameMember, SameSuffix, Clash, Different, DimensionType.isSingle] at h ⊢

theorem Clash.isSimple {e e' : Element} (h : Clash e e') : e.isSimple = true ∧ e'.isSimple = true := by
  unfold Clash at h
  split at h
  all_goals first | exact ⟨rfl, rfl⟩ | cases h

theorem Clash.isAction {e e' : Element} (h : Clash e e') : e.isAction = false ∧ e'.isAction = false := by
  unfold Clash at h
  split at h
  all_goals first | exact ⟨rfl, rfl⟩ | cases h

theorem Clash.sameMember {e e' : Element} (h : Clash e e') : SameMember e e' := by
  unfold Clash at h
  split at h
  all_goals first | cases h | skip
  all_goals simp_all [SameMember, SameSuffix]

/-- The concrete tree of an accepted program: actions below the root have identifiers, and the dimensions
of an action are different. -/
structure NamedTree extends InstanceTree where
  identifier_ne_empty : ∀ s ∈ root.subtrees, ∀ c ∈ s.children, c.label.isAction = true →
    c.label.getIdentifier ≠ ""
  different : ∀ s ∈ root.subtrees, (s.children.map RoseTree.label).Pairwise Different

namespace NamedTree
variable (p : NamedTree)

/-- An action has a dimension that is simple, or one that is not. -/
def HasDimension (k : List ℕ) (simple : Bool) : Prop :=
  ∃ i s, p.root.get? (k ++ [i]) = some s ∧ s.label.isAction = false ∧ s.label.isSimple = simple

/-- Distinct actions have distinct names and distinct buffers, and the data members of a buffer have
distinct names. -/
structure NamesInjective (layout : Layout) : Prop where
  actions : ∀ k k', p.IsAction k → p.IsAction k' → k ≠ k' → p.getName k ≠ p.getName k'
  buffers : ∀ b ∈ layout.buffers, ∀ b' ∈ layout.buffers, b.context ≠ b'.context →
    b.name ≠ b'.name ∧ b.variableName ≠ b'.variableName
  members : ∀ b ∈ layout.buffers, (b.dataMembers.map DataMember.name).Nodup

/-- The identifiers on the way to distinct actions have different words; those on the way to an action
with a simple dimension are not those of an action with one that is not simple, with `complex` after
them; and no two generated dimensions of an action clash. -/
structure IdentifiersApart : Prop where
  paths : ∀ k k', p.IsAction k → p.IsAction k' → k ≠ k' →
    pathWords (p.identifiers k) ≠ pathWords (p.identifiers k')
  complex : ∀ k k', p.HasDimension k false → p.HasDimension k' true →
    pathWords (p.identifiers k') ≠ pathWords (p.identifiers k) ++ ["complex".toList]
  members : ∀ k s, p.root.get? k = some s → s.label.isAction = true →
    (s.children.map RoseTree.label).Pairwise fun e e' => ¬ Clash e e'

variable {p}

/-! ## Actions -/

theorem identifiersAt_ne_empty {t s : ElementTree} {k : List ℕ}
    (hleaf : ∀ s ∈ t.subtrees, s.label.isAction = false → s.children = [])
    (hne : ∀ s ∈ t.subtrees, ∀ c ∈ s.children, c.label.isAction = true → c.label.getIdentifier ≠ "")
    (hk : t.get? k = some s) (hs : s.label.isAction = true) : ∀ x ∈ identifiersAt t k, x ≠ "" := by
  induction k generalizing t with
  | nil => simp [identifiersAt]
  | cons i k ih =>
    rw [RoseTree.get?_cons] at hk
    obtain ⟨c, hc, hk⟩ := Option.bind_eq_some_iff.mp hk
    have hmem : c ∈ t.children := List.mem_of_getElem? hc
    have hsubtrees : ∀ u ∈ c.subtrees, u ∈ t.subtrees := by
      intro u hu
      cases t with
      | node a ts => exact RoseTree.mem_subtrees_node.mpr (.inr ⟨c, hmem, hu⟩)
    have haction : c.label.isAction = true := by
      cases hlabel : c.label.isAction with
      | true => rfl
      | false =>
        -- a dimension has nothing below it
        have hempty := hleaf c (hsubtrees c (RoseTree.mem_subtrees_self c)) hlabel
        cases k with
        | nil =>
          obtain rfl := Option.some.inj hk
          rw [hs] at hlabel
          cases hlabel
        | cons j k =>
          rw [RoseTree.get?_cons, hempty] at hk
          cases hk
    intro x hx
    rw [identifiersAt, hc] at hx
    rcases List.mem_cons.mp hx with rfl | hx
    · exact hne t (RoseTree.mem_subtrees_self t) c hmem haction
    · exact ih (fun u hu => hleaf u (hsubtrees u hu)) (fun u hu => hne u (hsubtrees u hu)) hk x hx

theorem getName_inj {k k' : List ℕ} (hk : p.IsAction k) (hk' : p.IsAction k') :
    p.getName k = p.getName k' ↔ pathWords (p.identifiers k) = pathWords (p.identifiers k') := by
  have hne : ∀ {k}, p.IsAction k → ∀ x ∈ p.identifiers k, x ≠ "" := by
    rintro k ⟨s, hs, haction⟩
    exact identifiersAt_ne_empty p.dimension_leaf p.identifier_ne_empty hs haction
  exact foldl_name_inj (hne hk) (hne hk')

/-! ## Data members of an action -/

/-- The dimensions of an action, by their places among its children. -/
theorem getElem?_label {k : List ℕ} {s₀ s : ElementTree} {i : ℕ} (hk : p.root.get? k = some s₀)
    (hs : p.root.get? (k ++ [i]) = some s) : (s₀.children.map RoseTree.label)[i]? = some s.label := by
  rw [RoseTree.get?_concat, hk] at hs
  rw [List.getElem?_map]
  exact congrArg (Option.map RoseTree.label) hs

/-- Two dimensions of an action whose data members have one name clash. -/
theorem clash_of_name_eq {k : List ℕ} {s₀ s s' : ElementTree} {i j : ℕ} {n : String}
    (hk : p.root.get? k = some s₀) (hs : p.root.get? (k ++ [i]) = some s)
    (hs' : p.root.get? (k ++ [j]) = some s') (hij : i < j)
    (hdimension : s.label.isAction = false) (hdimension' : s'.label.isAction = false)
    (hn : dataMemberName (generateName 'g' (p.identifiers k)) s.label = .ok n)
    (hn' : dataMemberName (generateName 'g' (p.identifiers k)) s'.label = .ok n) :
    Clash s.label s'.label := by
  have hpairwise := p.different s₀ (InstanceTree.subtree_of_get? hk)
  rw [List.pairwise_iff_getElem] at hpairwise
  obtain ⟨hi, hgeti⟩ := List.getElem?_eq_some_iff.mp (getElem?_label hk hs)
  obtain ⟨hj, hgetj⟩ := List.getElem?_eq_some_iff.mp (getElem?_label hk hs')
  have hdifferent := hpairwise i j hi hj hij
  rw [hgeti, hgetj] at hdifferent
  rw [← sameMember_iff_clash hdifferent ⟨n, hn⟩ ⟨n, hn'⟩]
  exact (dataMemberName_eq_iff hdimension hdimension' hn hn').mp rfl

/-! ## Buffers -/

theorem pathWords_complex (path : List String) (simple : Bool) :
    pathWords (path ++ complexSuffix simple) =
      pathWords path ++ if simple then [] else ["complex".toList] := by
  rw [pathWords_append]
  cases simple <;> rfl

section Layout
variable {layout : Layout} (h : p.fullProgramAnalysis = .ok layout)
include h

/-- The data member of a dimension is in the buffer of its action and kind. -/
theorem exists_member {k : List ℕ} {i : ℕ} {s : ElementTree} (hs : p.root.get? (k ++ [i]) = some s)
    (hdimension : s.label.isAction = false) : ∃ b ∈ layout.buffers, b.context = k ∧
      b.simple = s.label.isSimple ∧ ∃ m ∈ b.dataMembers, m.dimension = k ++ [i] := by
  have htotal := InstanceTree.total_of_fullProgramAnalysis h
  obtain ⟨m, hm, hplace⟩ := List.mem_map.mp ((htotal.dimensions _).mpr ⟨s, hs, hdimension⟩)
  obtain ⟨b, hb, hm⟩ := List.mem_flatMap.mp hm
  obtain ⟨j, s', hplace', hs', -, hsimple⟩ := (htotal.buffers b hb).members m hm
  have hsame : s' = s := by
    rw [hplace, hs] at hs'
    exact (Option.some.inj hs').symm
  have hcontext : b.context = k := (List.append_inj_left' (hplace'.symm.trans hplace) rfl)
  exact ⟨b, hb, hcontext, hsame ▸ hsimple, m, hm, hplace⟩

/-- A buffer has an action that has a dimension of its kind. -/
theorem hasDimension_of_buffer {b : Buffer} (hb : b ∈ layout.buffers) :
    p.HasDimension b.context b.simple := by
  have htotal := InstanceTree.total_of_fullProgramAnalysis h
  have hnamed := (InstanceTree.named_of_fullProgramAnalysis h).1 b hb
  obtain ⟨m, hm⟩ := List.exists_mem_of_ne_nil _ hnamed.nonempty
  obtain ⟨i, s, hplace, hs, -, hsimple⟩ := (htotal.buffers b hb).members m hm
  obtain ⟨s', hs', hdimension⟩ := (htotal.dimensions m.dimension).mp
    (List.mem_map_of_mem (List.mem_flatMap.mpr ⟨b, hb, hm⟩))
  have hsame : s' = s := Option.some.inj (hs'.symm.trans hs)
  exact ⟨i, s, hplace ▸ hs, hsame ▸ hdimension, hsimple.symm⟩

theorem buffer_name_inj {b b' : Buffer} (hb : b ∈ layout.buffers) (hb' : b' ∈ layout.buffers) :
    (b.name = b'.name ↔ pathWords (p.identifiers b.context ++ complexSuffix b.simple) =
        pathWords (p.identifiers b'.context ++ complexSuffix b'.simple)) ∧
      (b.variableName = b'.variableName ↔ b.name = b'.name) := by
  have hnamed := (InstanceTree.named_of_fullProgramAnalysis h).1 b hb
  have hnamed' := (InstanceTree.named_of_fullProgramAnalysis h).1 b' hb'
  rw [hnamed.name, hnamed'.name, hnamed.variableName, hnamed'.variableName, generateName_inj,
    generateName_inj]
  exact ⟨Iff.rfl, Iff.rfl⟩

/-- The buffers of distinct actions have distinct names. -/
theorem buffers_of_apart (hapart : p.IdentifiersApart) {b b' : Buffer} (hb : b ∈ layout.buffers)
    (hb' : b' ∈ layout.buffers) (hne : b.context ≠ b'.context) : b.name ≠ b'.name := by
  have htotal := InstanceTree.total_of_fullProgramAnalysis h
  have hpaths := hapart.paths _ _ (htotal.buffers b hb).context (htotal.buffers b' hb').context hne
  have hdimension := hasDimension_of_buffer h hb
  have hdimension' := hasDimension_of_buffer h hb'
  rw [ne_eq, (buffer_name_inj h hb hb').1]
  intro heq
  cases hsimple : b.simple <;> cases hsimple' : b'.simple <;>
    rw [hsimple] at hdimension heq <;> rw [hsimple'] at hdimension' heq <;>
    rw [pathWords_complex, pathWords_complex] at heq
  · exact hpaths (List.append_cancel_right heq)
  · exact hapart.complex _ _ hdimension hdimension' (by simpa using heq.symm)
  · exact hapart.complex _ _ hdimension' hdimension (by simpa using heq)
  · exact hpaths (List.append_cancel_right heq)

theorem members_of_apart (hapart : p.IdentifiersApart) {b : Buffer} (hb : b ∈ layout.buffers) :
    (b.dataMembers.map DataMember.name).Nodup := by
  have htotal := InstanceTree.total_of_fullProgramAnalysis h
  have hnamed := (InstanceTree.named_of_fullProgramAnalysis h).1 b hb
  obtain ⟨s₀, hs₀, haction⟩ := (htotal.buffers b hb).context
  have hall : ∀ m ∈ b.dataMembers, m ∈ layout.buffers.flatMap Buffer.dataMembers :=
    fun m hm => List.mem_flatMap.mpr ⟨b, hb, hm⟩
  have hplaces : (b.dataMembers.map DataMember.dimension).Nodup :=
    htotal.once.sublist (List.Sublist.map _ (List.sublist_flatten_of_mem (List.mem_map_of_mem hb)))
  -- where the data member of a dimension stands
  have hplace : ∀ m ∈ b.dataMembers, ∃ i s, m.dimension = b.context ++ [i] ∧
      p.root.get? (b.context ++ [i]) = some s ∧ s.label.isAction = false ∧
        dataMemberName (generateName 'g' (p.identifiers b.context)) s.label = .ok m.name := by
    intro m hm
    obtain ⟨i, s, hi, hs, -⟩ := (htotal.buffers b hb).members m hm
    obtain ⟨s', hs', hdimension⟩ := (htotal.dimensions m.dimension).mp (List.mem_map_of_mem (hall m hm))
    obtain ⟨s'', hs'', hname⟩ := hnamed.members m hm
    obtain rfl : s' = s := Option.some.inj (hs'.symm.trans hs)
    obtain rfl : s'' = s' := Option.some.inj (hs''.symm.trans hs')
    exact ⟨i, s'', hi, hi ▸ hs, hdimension, hname⟩
  rw [List.nodup_map_iff_inj_on (hplaces.of_map _)]
  intro m hm m' hm' hname
  obtain ⟨i, s, hi, hs, hdimension, hn⟩ := hplace m hm
  obtain ⟨j, s', hj, hs', hdimension', hn'⟩ := hplace m' hm'
  have hnot : ∀ {i j : ℕ} {s s' : ElementTree}, p.root.get? (b.context ++ [i]) = some s →
      p.root.get? (b.context ++ [j]) = some s' → i < j → ¬ Clash s.label s'.label := by
    intro i j s s' hs hs' hij
    have hpairwise := hapart.members _ _ hs₀ haction
    rw [List.pairwise_iff_getElem] at hpairwise
    obtain ⟨hi, hgeti⟩ := List.getElem?_eq_some_iff.mp (getElem?_label hs₀ hs)
    obtain ⟨hj, hgetj⟩ := List.getElem?_eq_some_iff.mp (getElem?_label hs₀ hs')
    have hclash := hpairwise i j hi hj hij
    rwa [hgeti, hgetj] at hclash
  rcases lt_trichotomy i j with hij | hij | hij
  · exact absurd (clash_of_name_eq hs₀ hs hs' hij hdimension hdimension' hn (hname ▸ hn'))
      (hnot hs hs' hij)
  · exact List.inj_on_of_nodup_map hplaces hm hm' (by rw [hi, hj, hij])
  · exact absurd (clash_of_name_eq hs₀ hs' hs hij hdimension' hdimension hn' (hname ▸ hn))
      (hnot hs' hs hij)

/-- Two dimensions that clash have data members of one name in one buffer. -/
theorem not_clash_of_members
    (hmembers : ∀ b ∈ layout.buffers, (b.dataMembers.map DataMember.name).Nodup) {k : List ℕ}
    {s₀ : ElementTree} (hk : p.root.get? k = some s₀) :
    (s₀.children.map RoseTree.label).Pairwise fun e e' => ¬ Clash e e' := by
  have htotal := InstanceTree.total_of_fullProgramAnalysis h
  obtain ⟨hnamed, hslots⟩ := InstanceTree.named_of_fullProgramAnalysis h
  rw [List.pairwise_iff_getElem]
  intro i j hi hj hij hclash
  obtain ⟨s, hs, hlabel⟩ : ∃ s, p.root.get? (k ++ [i]) = some s ∧
      s.label = (s₀.children.map RoseTree.label)[i] := by
    rw [List.length_map] at hi
    refine ⟨s₀.children[i], ?_, by simp⟩
    rw [RoseTree.get?_concat, hk]
    exact List.getElem?_eq_getElem hi
  obtain ⟨s', hs', hlabel'⟩ : ∃ s, p.root.get? (k ++ [j]) = some s ∧
      s.label = (s₀.children.map RoseTree.label)[j] := by
    rw [List.length_map] at hj
    refine ⟨s₀.children[j], ?_, by simp⟩
    rw [RoseTree.get?_concat, hk]
    exact List.getElem?_eq_getElem hj
  rw [← hlabel, ← hlabel'] at hclash
  obtain ⟨hsimple, hsimple'⟩ := hclash.isSimple
  obtain ⟨hdimension, hdimension'⟩ := hclash.isAction
  obtain ⟨b, hb, hcontext, hkind, m, hm, hplace⟩ := exists_member h hs hdimension
  obtain ⟨b', hb', hcontext', hkind', m', hm', hplace'⟩ := exists_member h hs' hdimension'
  obtain rfl : b = b' := by
    refine List.inj_on_of_nodup_map hslots hb hb' ?_
    show (b.context, b.simple) = (b'.context, b'.simple)
    rw [hcontext, hcontext', hkind, hkind', hsimple, hsimple']
  obtain ⟨u, hu, hname⟩ := (hnamed b hb).members m hm
  obtain ⟨u', hu', hname'⟩ := (hnamed b hb).members m' hm'
  obtain rfl : u = s := Option.some.inj ((hplace ▸ hu).symm.trans hs)
  obtain rfl : u' = s' := Option.some.inj ((hplace' ▸ hu').symm.trans hs')
  have hsame : m.name = m'.name :=
    (dataMemberName_eq_iff hdimension hdimension' hname hname').mpr hclash.sameMember
  have heq : m = m' := List.inj_on_of_nodup_map (hmembers b hb) hm hm' hsame
  rw [heq, hplace'] at hplace
  have hij' : j = i := by simpa using hplace
  omega

/-- **Main result.** The generated names of an accepted program are distinct exactly when its identifiers
are apart. -/
theorem namesInjective_iff : p.NamesInjective layout ↔ p.IdentifiersApart := by
  have htotal := InstanceTree.total_of_fullProgramAnalysis h
  constructor
  · intro hinj
    refine ⟨fun k k' hk hk' hne => ?_, fun k k' hk hk' heq => ?_, fun k s hs haction => ?_⟩
    · rw [ne_eq, ← getName_inj hk hk']
      exact hinj.actions k k' hk hk' hne
    · obtain ⟨i, s, hs, hdimension, hsimple⟩ := hk
      obtain ⟨i', s', hs', hdimension', hsimple'⟩ := hk'
      obtain ⟨b, hb, rfl, hkind, -⟩ := exists_member h hs hdimension
      obtain ⟨b', hb', rfl, hkind', -⟩ := exists_member h hs' hdimension'
      have hne : b.context ≠ b'.context := by
        intro hsame
        rw [hsame] at heq
        have hlength := congrArg List.length heq
        simp at hlength
      refine (hinj.buffers b hb b' hb' hne).1 ((buffer_name_inj h hb hb').1.mpr ?_)
      rw [pathWords_complex, pathWords_complex, hkind, hkind', hsimple, hsimple', heq]
      simp
    · exact not_clash_of_members h hinj.members hs
  · intro hapart
    refine ⟨fun k k' hk hk' hne => ?_, fun b hb b' hb' hne => ?_, fun b hb => ?_⟩
    · rw [ne_eq, getName_inj hk hk']
      exact hapart.paths k k' hk hk' hne
    · have hname := buffers_of_apart h hapart hb hb' hne
      exact ⟨hname, fun hvariable => hname ((buffer_name_inj h hb hb').2.mp hvariable)⟩
    · exact members_of_apart h hapart hb

end Layout

end NamedTree

/-! ## Identifiers that run together -/

/-- An action with the dimensions that an executable one has. -/
def executable (identifier : String) (children : List ElementTree) : ElementTree :=
  .node (.action identifier .action 1)
    ([.eActionStopCycle, .eActionReference, .eActionState].map
      (fun type => .node (.dimensionGenerated type) []) ++ children)

/-- An action `A_B`, and an action `B` of an action `A`. -/
def underscored : ElementTree :=
  .node (.action "root" (.root .interfaceRoot) 1)
    [.node (.action "root" (.root .fileRoot) 1)
      [executable "A_B" [], executable "A" [executable "B" []]]]

def NamedTree.underscored : NamedTree where
  root := Runtime.underscored
  root_action := rfl
  dimension_leaf := by
    simp [Runtime.underscored, executable, RoseTree.subtrees, RoseTree.subtrees.subtreesAll,
      Element.isAction]
  size_pos := by
    simp [Runtime.underscored, executable, RoseTree.subtrees, RoseTree.subtrees.subtreesAll,
      Element.isAction, Element.size]
  generated_ok := by
    simp [Runtime.underscored, executable, RoseTree.subtrees, RoseTree.subtrees.subtreesAll,
      dataMemberName]
  identifier_ne_empty := by
    simp [Runtime.underscored, executable, RoseTree.subtrees, RoseTree.subtrees.subtreesAll,
      Element.isAction, Element.getIdentifier]
  different := by
    simp [Runtime.underscored, executable, RoseTree.subtrees, RoseTree.subtrees.subtreesAll, Different,
      DimensionType.isSingle]

namespace NamedTree

/-- The theorem at this program. -/
theorem namesInjective_underscored : ∃ layout, underscored.fullProgramAnalysis = .ok layout ∧
    (underscored.NamesInjective layout ↔ underscored.IdentifiersApart) := by
  obtain ⟨layout, h, -⟩ := exists_ok (x := underscored.fullProgramAnalysis) (P := fun _ => True)
    (by decide +kernel)
  exact ⟨layout, h, namesInjective_iff h⟩

/-- Both actions are named `root_A_B`. -/
theorem underscored_clash : ∃ layout, underscored.fullProgramAnalysis = .ok layout ∧
    ¬ underscored.NamesInjective layout := by
  obtain ⟨layout, h, -⟩ := exists_ok (x := underscored.fullProgramAnalysis) (P := fun _ => True)
    (by decide +kernel)
  refine ⟨layout, h, fun hinj => ?_⟩
  have hname : underscored.getName [0, 0] = underscored.getName [0, 1, 3] := by decide +kernel
  exact hinj.actions [0, 0] [0, 1, 3] ⟨_, rfl, rfl⟩ ⟨_, rfl, rfl⟩ (by decide) hname

end NamedTree
end EgLang.Runtime
