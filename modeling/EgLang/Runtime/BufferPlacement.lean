import EgLang.Runtime.Layout

/-! # Every dimension is placed once

The analysis of a tree gives each dimension one data member, in one buffer of the action it belongs to, and
each buffer the product of the local domain sizes on the way to its action.
-/

namespace EgLang.Runtime
open Library
set_option autoImplicit false

/-! ## The buffers of one action -/

section Buffers
variable {new : Bool → Buffer} {buffers : List Buffer} {m : DataMember}

theorem flatMap_push (hnodup : (buffers.map Buffer.simple).Nodup)
    (hmem : m.simple ∈ buffers.map Buffer.simple) :
    ((buffers.map fun b => if b.simple = m.simple then b.push m else b).flatMap Buffer.dataMembers).Perm
      (buffers.flatMap Buffer.dataMembers ++ [m]) := by
  induction buffers with
  | nil => cases hmem
  | cons b buffers ih =>
    rw [List.map_cons, List.nodup_cons] at hnodup
    rw [List.map_cons, List.flatMap_cons, List.flatMap_cons]
    by_cases hb : b.simple = m.simple
    · have hrest : (buffers.map fun b => if b.simple = m.simple then b.push m else b) = buffers := by
        refine (List.map_congr_left fun b' hb' => ?_).trans (List.map_id _)
        refine if_neg fun h => hnodup.1 ?_
        rw [hb, ← h]
        exact List.mem_map_of_mem hb'
      rw [if_pos hb, hrest]
      show ((b.dataMembers ++ [m]) ++ _).Perm _
      rw [List.append_assoc, List.append_assoc]
      exact List.perm_append_comm.append_left b.dataMembers
    · rw [if_neg hb, List.append_assoc]
      refine (ih hnodup.2 ?_).append_left b.dataMembers
      rw [List.map_cons, List.mem_cons] at hmem
      exact hmem.resolve_left fun h => hb h.symm

theorem map_simple_push :
    (buffers.map fun b => if b.simple = m.simple then b.push m else b).map Buffer.simple =
      buffers.map Buffer.simple := by
  rw [List.map_map]
  refine List.map_congr_left fun b _ => ?_
  show (if b.simple = m.simple then b.push m else b).simple = b.simple
  split <;> rfl

/-- The buffers of an action: each of one kind, and all as they are made. -/
structure BuffersOf (new : Bool → Buffer) (buffers : List Buffer) (ms : List DataMember) : Prop where
  kinds : (buffers.map Buffer.simple).Nodup
  members : (buffers.flatMap Buffer.dataMembers).Perm ms
  fields : ∀ b ∈ buffers, { b with dataMembers := [] } = new b.simple
  simple : ∀ b ∈ buffers, ∀ m ∈ b.dataMembers, m.simple = b.simple

variable (hnew : ∀ simple, (new simple).simple = simple ∧ (new simple).dataMembers = [])
include hnew

theorem BuffersOf.add {ms : List DataMember} (h : BuffersOf new buffers ms) :
    BuffersOf new (addDataMember new buffers m) (ms ++ [m]) := by
  rw [addDataMember]
  split
  · rename_i hmem
    obtain ⟨b, hb, hsimple⟩ := hmem
    have hmem : m.simple ∈ buffers.map Buffer.simple := hsimple ▸ List.mem_map_of_mem hb
    constructor
    · rw [map_simple_push]
      exact h.kinds
    · exact (flatMap_push h.kinds hmem).trans (h.members.append_right [m])
    · intro b' hb'
      obtain ⟨b, hb, rfl⟩ := List.mem_map.mp hb'
      have hfields := h.fields b hb
      split <;> exact hfields
    · intro b' hb' m' hm'
      obtain ⟨b, hb, rfl⟩ := List.mem_map.mp hb'
      split at hm'
      · rename_i hkind
        rw [if_pos hkind]
        rcases List.mem_append.mp hm' with hm' | hm'
        · exact h.simple b hb m' hm'
        · rw [List.mem_singleton.mp hm']
          exact hkind.symm
      · rename_i hkind
        rw [if_neg hkind]
        exact h.simple b hb m' hm'
  · rename_i hmem
    obtain ⟨hsimple, hempty⟩ := hnew m.simple
    constructor
    · rw [List.map_append, List.nodup_append']
      refine ⟨h.kinds, List.nodup_singleton _, fun k hk hk' => hmem ?_⟩
      obtain ⟨b, hb, rfl⟩ := List.mem_map.mp hk
      exact ⟨b, hb, (List.mem_singleton.mp hk').trans hsimple⟩
    · rw [List.flatMap_append, List.flatMap_singleton]
      refine h.members.append (.of_eq ?_)
      show (new m.simple).dataMembers ++ [m] = [m]
      rw [hempty, List.nil_append]
    · intro b hb
      rcases List.mem_append.mp hb with hb | hb
      · exact h.fields b hb
      · obtain rfl := List.mem_singleton.mp hb
        show { new m.simple with dataMembers := [] } = new (new m.simple).simple
        rw [hsimple, ← hempty]
    · intro b hb m' hm'
      rcases List.mem_append.mp hb with hb | hb
      · exact h.simple b hb m' hm'
      · obtain rfl := List.mem_singleton.mp hb
        have hm' : m' ∈ (new m.simple).dataMembers ++ [m] := hm'
        rw [hempty, List.nil_append, List.mem_singleton] at hm'
        rw [hm']
        exact hsimple.symm

theorem buffersOf_foldl (ms : List DataMember) :
    BuffersOf new (ms.foldl (addDataMember new) []) ms := by
  have hloop : ∀ (buffers : List Buffer) (done : List DataMember), BuffersOf new buffers done →
      BuffersOf new (ms.foldl (addDataMember new) buffers) (done ++ ms) := by
    induction ms with
    | nil =>
      intro buffers done h
      rwa [List.append_nil]
    | cons m ms ih =>
      intro buffers done h
      have hrest := ih _ _ (h.add hnew (m := m))
      rwa [List.append_assoc] at hrest
  refine hloop [] [] ⟨.nil, .nil, ?_, ?_⟩
  · intro b hb
    cases hb
  · intro b hb
    cases hb

end Buffers

/-! ## Sizes -/

namespace InstanceTree
variable {p : InstanceTree} {k : List ℕ}

theorem getTotalDomainSize_concat (k : List ℕ) (i : ℕ) :
    p.getTotalDomainSize (k ++ [i]) = p.getTotalDomainSize k * p.getLocalDomainSize (k ++ [i]) := by
  rw [getTotalDomainSize, List.reverse_concat, totalDomainSizeUp, List.reverse_cons, List.reverse_reverse]
  rfl

/-- The total domain size is the product of the local ones on the path from the root. -/
theorem getTotalDomainSize_eq_prod (k : List ℕ) :
    p.getTotalDomainSize k = (k.inits.map p.getLocalDomainSize).prod := by
  induction k using List.reverseRecOn with
  | nil => exact (List.prod_singleton).symm
  | append_singleton k i ih =>
    rw [getTotalDomainSize_concat, ih, List.inits_append, List.map_append, List.prod_append]
    simp

theorem getLocalDomainSize_of_get? {s : ElementTree} (h : p.root.get? k = some s) :
    p.getLocalDomainSize k = s.label.size := by
  rw [getLocalDomainSize, h, Option.map_some, Option.getD_some]

theorem subtree_of_get? {s : ElementTree} (h : p.root.get? k = some s) : s ∈ p.root.subtrees :=
  RoseTree.mem_subtrees_of_located (RoseTree.mem_located_iff.mpr h)

/-! ## The recursion -/

/-- A buffer that the tree asks for. -/
structure Fits (p : InstanceTree) (b : Buffer) : Prop where
  context : ∃ s, p.root.get? b.context = some s ∧ s.label.isAction = true
  size : b.size = p.getTotalDomainSize b.context
  members : ∀ m ∈ b.dataMembers, ∃ i s, m.dimension = b.context ++ [i] ∧
    p.root.get? m.dimension = some s ∧ m.simple = s.label.isSimple ∧ b.simple = s.label.isSimple

/-- What a part of the analysis adds to the layout: the data members of the dimensions at some places. -/
def Adds (p : InstanceTree) (places : List (List ℕ)) (l l' : Layout) : Prop :=
  ∃ buffers members, l'.buffers = l.buffers ++ buffers ∧
    l'.dimensionMap = l.dimensionMap ++ members.map (fun m => (m.dimension, m)) ∧
    (buffers.flatMap Buffer.dataMembers).Perm members ∧
    (members.map DataMember.dimension).Perm places ∧ ∀ b ∈ buffers, p.Fits b

theorem Adds.refl (l : Layout) : p.Adds [] l l :=
  ⟨[], [], by simp, by simp, .nil, .nil, fun b hb => by cases hb⟩

theorem Adds.trans {ps qs : List (List ℕ)} {l l' l'' : Layout} (h : p.Adds ps l l')
    (h' : p.Adds qs l' l'') : p.Adds (ps ++ qs) l l'' := by
  obtain ⟨bs, ms, hb, hm, hbm, hmp, hfits⟩ := h
  obtain ⟨bs', ms', hb', hm', hbm', hmp', hfits'⟩ := h'
  refine ⟨bs ++ bs', ms ++ ms', ?_, ?_, ?_, ?_, ?_⟩
  · rw [hb', hb, List.append_assoc]
  · rw [hm', hm, List.append_assoc, List.map_append]
  · rw [List.flatMap_append]
    exact hbm.append hbm'
  · rw [List.map_append]
    exact hmp.append hmp'
  · intro b hb
    rcases List.mem_append.mp hb with hb | hb
    · exact hfits b hb
    · exact hfits' b hb

theorem Adds.perm {ps qs : List (List ℕ)} {l l' : Layout} (h : p.Adds ps l l') (hperm : ps.Perm qs) :
    p.Adds qs l l' := by
  obtain ⟨bs, ms, hb, hm, hbm, hmp, hfits⟩ := h
  exact ⟨bs, ms, hb, hm, hbm, hmp.trans hperm, hfits⟩

theorem mem_dimensionsFrom {i : ℕ} {ts : List ElementTree} {e : List ℕ × Element} :
    e ∈ dimensionsFrom k i ts ↔
      ∃ j t, ts[j]? = some t ∧ t.label.isAction = false ∧ e = (k ++ [i + j], t.label) := by
  induction ts generalizing i with
  | nil => simp [dimensionsFrom]
  | cons t ts ih =>
    have hsplit : (∃ j u, (t :: ts)[j]? = some u ∧ u.label.isAction = false ∧
        e = (k ++ [i + j], u.label)) ↔ (t.label.isAction = false ∧ e = (k ++ [i], t.label)) ∨
          ∃ j u, ts[j]? = some u ∧ u.label.isAction = false ∧ e = (k ++ [i + 1 + j], u.label) := by
      constructor
      · rintro ⟨j, u, hu, haction, rfl⟩
        cases j with
        | zero =>
          obtain rfl : t = u := by simpa using hu
          exact .inl ⟨haction, rfl⟩
        | succ j => exact .inr ⟨j, u, hu, haction, by rw [Nat.add_right_comm, Nat.add_assoc]⟩
      · rintro (⟨haction, rfl⟩ | ⟨j, u, hu, haction, rfl⟩)
        · exact ⟨0, t, rfl, haction, rfl⟩
        · exact ⟨j + 1, u, hu, haction, by rw [Nat.add_right_comm, Nat.add_assoc]⟩
    rw [hsplit, dimensionsFrom]
    cases haction : t.label.isAction with
    | true => simpa using ih
    | false => simpa using or_congr_right ih

/-- An action adds the data members of its own dimensions. -/
theorem adds_layoutAction {path : List String} {szSize : ℕ} {label : Element} {ts : List ElementTree}
    {l l' : Layout} (hk : p.root.get? k = some (.node label ts)) (haction : label.isAction = true)
    (hsize : szSize * label.size = p.getTotalDomainSize k)
    (h : layoutAction k path szSize label ts l = .ok l') :
    p.Adds ((dimensionsFrom k 0 ts).map Prod.fst) l l' := by
  rw [layoutAction, except_bind_ok] at h
  obtain ⟨ms, hms, h⟩ := h
  split at h
  · cases h
  obtain rfl := Except.ok.inj h
  have hmember : ∀ {e m}, makeDataMember (generateName 'g' path) e = .ok m →
      m.dimension = e.1 ∧ m.simple = e.2.isSimple := by
    intro e m hm
    obtain ⟨name, -, hm⟩ := except_bind_ok.mp hm
    obtain rfl := Except.ok.inj hm
    exact ⟨rfl, rfl⟩
  have hdimension : ms.map DataMember.dimension = (dimensionsFrom k 0 ts).map Prod.fst :=
    map_of_mapM (fun hm => (hmember hm).1) hms
  have hbuffers := @buffersOf_foldl (newBuffer k path (szSize * label.size))
    (fun _ => ⟨rfl, rfl⟩) ms
  refine ⟨_, ms, rfl, rfl, hbuffers.members, .of_eq hdimension, fun b hb => ?_⟩
  have hfields := hbuffers.fields b hb
  have hcontext : b.context = k := congrArg Buffer.context hfields
  refine ⟨⟨.node label ts, hcontext ▸ hk, haction⟩, ?_, fun m hm => ?_⟩
  · rw [hcontext, ← hsize]
    exact congrArg Buffer.size hfields
  · have hmem : m ∈ ms := hbuffers.members.subset (List.mem_flatMap.mpr ⟨b, hb, hm⟩)
    obtain ⟨e, he, hm'⟩ := exists_of_mem_mapM hms hmem
    obtain ⟨j, t, ht, -, rfl⟩ := mem_dimensionsFrom.mp he
    obtain ⟨hplace, hsimple⟩ := hmember hm'
    rw [Nat.zero_add] at hplace
    refine ⟨j, t, by rw [hplace, hcontext], ?_, hsimple, ?_⟩
    · rw [hplace, RoseTree.get?_concat, hk]
      exact ht
    · rw [← hbuffers.simple b hb m hm, hsimple]

/-! ## The places of the dimensions -/

/-- The places of the dimensions of a tree. -/
def dimensionPlaces (t : ElementTree) : List (List ℕ) :=
  (t.located.filter fun e => !e.2.label.isAction).map Prod.fst

/-- The places of the dimensions below the actions of a list of trees. -/
def actionPlaces (i : ℕ) : List ElementTree → List (List ℕ)
  | [] => []
  | t :: ts =>
    (if t.label.isAction then (dimensionPlaces t).map (i :: ·) else []) ++ actionPlaces (i + 1) ts

theorem mem_dimensionPlaces {t : ElementTree} {q : List ℕ} :
    q ∈ dimensionPlaces t ↔ ∃ s, t.get? q = some s ∧ s.label.isAction = false := by
  simp [dimensionPlaces, RoseTree.mem_located_iff]

theorem nodup_dimensionPlaces (t : ElementTree) : (dimensionPlaces t).Nodup :=
  (RoseTree.nodup_located t).sublist (List.filter_sublist.map _)

theorem dimensionPlaces_leaf {t : ElementTree} (haction : t.label.isAction = false)
    (hleaf : t.children = []) : dimensionPlaces t = [[]] := by
  cases t with
  | node a ts =>
    obtain rfl : ts = [] := hleaf
    rw [dimensionPlaces, RoseTree.located, List.filter_cons_of_pos (by simpa using haction)]
    rfl

/-- The dimensions below an action are its own, and those below the actions among its children. -/
theorem perm_dimensionPlaces {label : Element} {ts : List ElementTree} (haction : label.isAction = true)
    (hleaf : ∀ t ∈ ts, t.label.isAction = false → t.children = []) :
    ((dimensionsFrom k 0 ts).map Prod.fst ++ (actionPlaces 0 ts).map (k ++ ·)).Perm
      ((dimensionPlaces (.node label ts)).map (k ++ ·)) := by
  have hfrom : ∀ i, ((dimensionsFrom k i ts).map Prod.fst ++ (actionPlaces i ts).map (k ++ ·)).Perm
      (((RoseTree.located.locatedFrom i ts).filter fun e => !e.2.label.isAction).map
        fun e => k ++ e.1) := by
    intro i
    induction ts generalizing i with
    | nil => exact .nil
    | cons t ts ih =>
      have hrest := ih (fun u hu => hleaf u (List.mem_cons_of_mem t hu)) (i + 1)
      have hhead : (((t.located.map fun q => (i :: q.1, q.2)).filter fun e => !e.2.label.isAction).map
          fun e => k ++ e.1) = ((dimensionPlaces t).map (i :: ·)).map (k ++ ·) := by
        rw [List.filter_map, List.map_map, dimensionPlaces, List.map_map, List.map_map]
        rfl
      rw [RoseTree.located.locatedFrom, List.filter_append, List.map_append, hhead, dimensionsFrom,
        actionPlaces]
      cases ht : t.label.isAction with
      | true =>
        simp only [if_true, List.map_append]
        rw [← List.append_assoc]
        refine (List.perm_append_comm.append_right _).trans ?_
        rw [List.append_assoc]
        exact hrest.append_left _
      | false =>
        rw [dimensionPlaces_leaf ht (hleaf t List.mem_cons_self ht)]
        exact hrest.cons _
  refine (hfrom 0).trans (.of_eq ?_)
  rw [dimensionPlaces, RoseTree.located, List.filter_cons_of_neg (by simp [haction]), List.map_map]
  rfl

/-! ## The whole analysis -/

theorem leaf_of_dimension {s : ElementTree} (hk : p.root.get? k = some s)
    (haction : s.label.isAction = false) : s.children = [] :=
  p.dimension_leaf s (subtree_of_get? hk) haction

theorem leaf_of_get? {s t : ElementTree} (hk : p.root.get? k = some s) (ht : t ∈ s.children)
    (haction : t.label.isAction = false) : t.children = [] := by
  obtain ⟨i, hi⟩ := List.mem_iff_getElem?.mp ht
  refine leaf_of_dimension (p := p) (k := k ++ [i]) ?_ haction
  rw [RoseTree.get?_concat, hk]
  exact hi

/-- The recursion adds the data members of the dimensions below an action. -/
theorem adds_recurseInstances {path : List String} {szSize : ℕ} {t : ElementTree} {l l' : Layout}
    (hk : p.root.get? k = some t) (haction : t.label.isAction = true)
    (hsize : szSize * t.label.size = p.getTotalDomainSize k)
    (h : recurseInstances k path szSize t l = .ok l') :
    p.Adds ((dimensionPlaces t).map (k ++ ·)) l l' := by
  induction t using RoseTree.tree_induction generalizing k path szSize l l' with
  | step label ts ih =>
    have hchildren : ∀ {us : List ElementTree} {i : ℕ} {l l' : Layout}, (∀ u ∈ us, u ∈ ts) →
        (∀ j u, us[j]? = some u → p.root.get? (k ++ [i + j]) = some u) →
        recurseChildren k path (szSize * label.size) i us l = .ok l' →
        p.Adds ((actionPlaces i us).map (k ++ ·)) l l' := by
      intro us
      induction us with
      | nil =>
        intro i l l' _ _ h
        obtain rfl := Except.ok.inj h
        exact .refl l
      | cons u us ihus =>
        intro i l l' hmem hplace h
        have hu : p.root.get? (k ++ [i]) = some u := hplace 0 u rfl
        have hrest : ∀ {l₁}, recurseChildren k path (szSize * label.size) (i + 1) us l₁ = .ok l' →
            p.Adds ((actionPlaces (i + 1) us).map (k ++ ·)) l₁ l' :=
          ihus (fun v hv => hmem v (List.mem_cons_of_mem u hv)) fun j v hv => by
            have := hplace (j + 1) v hv
            rwa [← Nat.add_assoc, Nat.add_right_comm] at this
        rw [recurseChildren] at h
        rw [actionPlaces, List.map_append]
        cases hlabel : u.label with
        | action identifier context size =>
          rw [hlabel] at h
          obtain ⟨l₁, hl₁, h⟩ := except_bind_ok.mp h
          have hadds := ih u (hmem u List.mem_cons_self) hu (by rw [hlabel]; rfl)
            (by
              rw [getTotalDomainSize_concat, hsize.symm, getLocalDomainSize_of_get? hu]
              rfl) hl₁
          refine .trans (hadds.perm (.of_eq ?_)) (hrest h)
          rw [Element.isAction, if_pos rfl, List.map_map]
          exact List.map_congr_left fun q _ => by simp
        | dimensionUser identifier simple =>
          rw [hlabel] at h
          exact hrest h
        | dimensionGenerated type =>
          rw [hlabel] at h
          exact hrest h
    rw [recurseInstances, except_bind_ok] at h
    obtain ⟨l₁, hl₁, h⟩ := h
    have hown := adds_layoutAction hk haction hsize hl₁
    have hbelow := hchildren (fun u hu => hu) (fun j u hu => by
      rw [Nat.zero_add, RoseTree.get?_concat, hk]
      exact hu) h
    exact (hown.trans hbelow).perm
      (perm_dimensionPlaces haction fun t ht => leaf_of_get? hk ht)

/-! ## When the analysis succeeds -/

/-- No root above the projects has a dimension. -/
def UpperRootsEmpty (t : ElementTree) : Prop :=
  ∀ s ∈ t.subtrees, s.label.isUpperRoot = true → ∀ c ∈ s.children, c.label.isAction = true

theorem dimensionsFrom_eq_nil {i : ℕ} {ts : List ElementTree} :
    dimensionsFrom k i ts = [] ↔ ∀ c ∈ ts, c.label.isAction = true := by
  induction ts generalizing i with
  | nil => simp [dimensionsFrom]
  | cons t ts ih =>
    rw [dimensionsFrom, List.forall_mem_cons]
    cases t.label.isAction with
    | true => simpa using ih
    | false => simp

theorem exists_layoutAction_iff {path : List String} {szSize : ℕ} {label : Element}
    {ts : List ElementTree} {l : Layout}
    (hnames : ∀ t ∈ ts, ∀ strBaseVariable, ∃ name, dataMemberName strBaseVariable t.label = .ok name) :
    (∃ l', layoutAction k path szSize label ts l = .ok l') ↔
      (label.isUpperRoot = true → ∀ c ∈ ts, c.label.isAction = true) := by
  obtain ⟨ms, hms⟩ : ∃ ms, (dimensionsFrom k 0 ts).mapM (makeDataMember (generateName 'g' path)) =
      .ok ms := by
    refine exists_mapM fun e he => ?_
    obtain ⟨j, t, ht, -, rfl⟩ := mem_dimensionsFrom.mp he
    obtain ⟨name, hname⟩ := hnames t (List.mem_of_getElem? ht) (generateName 'g' path)
    exact ⟨_, except_bind_ok.mpr ⟨name, hname, rfl⟩⟩
  have hempty : ms = [] ↔ ∀ c ∈ ts, c.label.isAction = true := by
    rw [← dimensionsFrom_eq_nil (k := k) (i := 0), ← List.length_eq_zero_iff,
      ← List.length_eq_zero_iff, (mapM_eq_ok.mp hms).length_eq]
  rw [layoutAction, hms, ← hempty]
  show (∃ l', (if ms ≠ [] ∧ label.isUpperRoot = true then _ else _) = _) ↔ _
  split
  · rename_i h
    exact iff_of_false (fun ⟨l', hl'⟩ => by cases hl') fun himp => h.1 (himp h.2)
  · rename_i h
    refine iff_of_true ⟨_, rfl⟩ fun hroot => ?_
    by_contra hms
    exact h ⟨hms, hroot⟩

/-- The recursion succeeds just on the trees without these. -/
theorem exists_recurseInstances_iff {path : List String} {szSize : ℕ} {t : ElementTree} {l : Layout}
    (hleaf : ∀ s ∈ t.subtrees, s.label.isAction = false → s.children = [])
    (hnames : ∀ s ∈ t.subtrees, ∀ strBaseVariable,
      ∃ name, dataMemberName strBaseVariable s.label = .ok name) :
    (∃ l', recurseInstances k path szSize t l = .ok l') ↔ UpperRootsEmpty t := by
  induction t using RoseTree.tree_induction generalizing k path szSize l with
  | step label ts ih =>
    have hsubtrees : ∀ u ∈ ts, ∀ s ∈ u.subtrees, s ∈ (RoseTree.node label ts).subtrees :=
      fun u hu s hs => RoseTree.mem_subtrees_node.mpr (.inr ⟨u, hu, hs⟩)
    have hchildren : ∀ {us : List ElementTree} {i : ℕ} {l : Layout}, (∀ u ∈ us, u ∈ ts) →
        ((∃ l', recurseChildren k path (szSize * label.size) i us l = .ok l') ↔
          ∀ u ∈ us, UpperRootsEmpty u) := by
      intro us
      induction us with
      | nil => exact fun _ => iff_of_true ⟨_, rfl⟩ fun u hu => absurd hu List.not_mem_nil
      | cons u us ihus =>
        intro i l hmem
        have hrest := fun {l : Layout} => ihus (i := i + 1) (l := l)
          fun v hv => hmem v (List.mem_cons_of_mem u hv)
        have hu := hmem u List.mem_cons_self
        rw [recurseChildren, List.forall_mem_cons]
        -- a dimension has nothing below it
        have hdimension : u.label.isAction = false → UpperRootsEmpty u := by
          intro haction s hs hroot
          have hu' := hleaf u (hsubtrees u hu u (RoseTree.mem_subtrees_self u)) haction
          cases u with
          | node a vs =>
            obtain rfl : vs = [] := hu'
            rcases RoseTree.mem_subtrees_node.mp hs with rfl | ⟨v, hv, -⟩
            · exact fun c hc => absurd hc List.not_mem_nil
            · cases hv
        cases hlabel : u.label with
        | action identifier context size =>
          have hinstances := fun {l : Layout} => @ih u hu (k ++ [i]) (path ++ [identifier])
            (szSize * label.size) l (fun s hs => hleaf s (hsubtrees u hu s hs))
            (fun s hs => hnames s (hsubtrees u hu s hs))
          rw [← hinstances (l := l)]
          simp only [except_bind_ok]
          constructor
          · rintro ⟨l', l₁, hl₁, hl'⟩
            exact ⟨⟨l₁, hl₁⟩, hrest.mp ⟨l', hl'⟩⟩
          · rintro ⟨⟨l₁, hl₁⟩, hus⟩
            obtain ⟨l', hl'⟩ := hrest.mpr hus
            exact ⟨l', l₁, hl₁, hl'⟩
        | dimensionUser identifier simple =>
          exact hrest.trans (and_iff_right (hdimension (by rw [hlabel]; rfl))).symm
        | dimensionGenerated type =>
          exact hrest.trans (and_iff_right (hdimension (by rw [hlabel]; rfl))).symm
    have hsplit : UpperRootsEmpty (.node label ts) ↔
        (label.isUpperRoot = true → ∀ c ∈ ts, c.label.isAction = true) ∧ ∀ u ∈ ts, UpperRootsEmpty u := by
      constructor
      · intro h
        exact ⟨h (.node label ts) (RoseTree.mem_subtrees_self _),
          fun u hu s hs => h s (hsubtrees u hu s hs)⟩
      · rintro ⟨hown, hbelow⟩ s hs
        rcases RoseTree.mem_subtrees_node.mp hs with rfl | ⟨u, hu, hs⟩
        · exact hown
        · exact hbelow u hu s hs
    have hown := fun {l : Layout} => @exists_layoutAction_iff k path szSize label _ l
      (fun u hu => hnames u (hsubtrees u hu u (RoseTree.mem_subtrees_self u)))
    rw [hsplit, ← hown (l := l), recurseInstances]
    simp only [except_bind_ok]
    constructor
    · rintro ⟨l', l₁, hl₁, hl'⟩
      exact ⟨⟨l₁, hl₁⟩, (hchildren fun u hu => hu).mp ⟨l', hl'⟩⟩
    · rintro ⟨⟨l₁, hl₁⟩, hts⟩
      obtain ⟨l', hl'⟩ := (hchildren fun u hu => hu).mpr hts
      exact ⟨l', l₁, hl₁, hl'⟩

/-! ## The layout of a tree -/

/-- The element with a key, when no two have the same. -/
theorem find?_key_eq_some {α κ : Type} [DecidableEq κ] {key : α → κ} {xs : List α} {x : α} {a : κ}
    (h : (xs.map key).Nodup) : xs.find? (fun y => key y = a) = some x ↔ x ∈ xs ∧ key x = a := by
  constructor
  · exact fun hx => ⟨List.mem_of_find?_eq_some hx, by simpa using List.find?_some hx⟩
  · rintro ⟨hx, rfl⟩
    cases hy : xs.find? (fun y => key y = key x) with
    | none => exact absurd (List.find?_eq_none.mp hy x hx) (by simp)
    | some y =>
      have hkey : key y = key x := by simpa using List.find?_some hy
      rw [List.inj_on_of_nodup_map h (List.mem_of_find?_eq_some hy) hx hkey]

/-- Every dimension has one data member, the map finds it, and every buffer is one that the tree asks
for. -/
structure Total (p : InstanceTree) (layout : Layout) : Prop where
  once : ((layout.buffers.flatMap Buffer.dataMembers).map DataMember.dimension).Nodup
  dimensions : ∀ k, k ∈ (layout.buffers.flatMap Buffer.dataMembers).map DataMember.dimension ↔
    ∃ s, p.root.get? k = some s ∧ s.label.isAction = false
  map : ∀ k m, layout.getDataMember k = some m ↔
    m ∈ layout.buffers.flatMap Buffer.dataMembers ∧ m.dimension = k
  buffers : ∀ b ∈ layout.buffers, p.Fits b

theorem exists_fullProgramAnalysis_iff :
    (∃ layout, p.fullProgramAnalysis = .ok layout) ↔ UpperRootsEmpty p.root :=
  exists_recurseInstances_iff p.dimension_leaf p.generated_ok

theorem total_of_fullProgramAnalysis {layout : Layout} (h : p.fullProgramAnalysis = .ok layout) :
    p.Total layout := by
  obtain ⟨bs, ms, hbuffers, hmap, hmembers, hplaces, hfits⟩ :=
    adds_recurseInstances (k := []) rfl p.root_action (Nat.one_mul _) h
  rw [List.nil_append] at hbuffers hmap
  subst hbuffers
  have hperm : ((layout.buffers.flatMap Buffer.dataMembers).map DataMember.dimension).Perm
      (dimensionPlaces p.root) := by
    refine (hmembers.map _).trans (hplaces.trans (.of_eq ?_))
    exact (List.map_congr_left fun q _ => List.nil_append q).trans (List.map_id _)
  have hnodup := hperm.nodup_iff.mpr (nodup_dimensionPlaces p.root)
  refine ⟨hnodup, fun k => ?_, fun k m => ?_, hfits⟩
  · rw [hperm.mem_iff, mem_dimensionPlaces]
  · rw [Layout.getDataMember, hmap, List.find?_map, Option.map_map, hmembers.mem_iff]
    have hms : (ms.map DataMember.dimension).Nodup := (hmembers.map _).nodup_iff.mp hnodup
    show (ms.find? fun m => m.dimension = k).map id = some m ↔ _
    rw [Option.map_id_apply, find?_key_eq_some hms]

end InstanceTree

end EgLang.Runtime
