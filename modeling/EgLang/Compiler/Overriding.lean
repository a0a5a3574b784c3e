import EgLang.Compiler.Instantiation

/-!
# Override resolution

What `collateOverrides` does with the declarations of an inheritance tree: the first one of an
identifier gets the child, and every later one is mapped to it.
-/

namespace EgLang.Compiler

open Library

set_option autoImplicit false

namespace Interface
variable {ι : Type} (I : Interface ι)

/-! ## Inheritance trees -/

/-- The contexts next to a context in its inheritance tree. -/
def inherited (pContext : ι) : List ι :=
  if (I.getType pContext).isLink || (I.getType pContext).isFunction then []
  else I.getBaseContexts pContext

/-- No base is a link, so the inheritance tree unfolds the base contexts. -/
theorem constructInheritanceTree_eq (fuel : ℕ) (c : ι) :
    I.constructInheritanceTree fuel c = unfold .unfinished I.inherited fuel c := by
  induction fuel generalizing c with
  | zero => rfl
  | succ fuel ih =>
    rw [constructInheritanceTree, unfold, inherited]
    split
    · rfl
    · refine congrArg (· >>= _) (mapM_congr fun b hb => ?_)
      simp only [I.base_not_link hb, Bool.false_eq_true, if_false, ih]

/-! ## Declarations -/

/-- The kind of the child that is made from an element. -/
def memberKind (e : ι) : MemberKind := if (I.getType e).isContext then .action else .dimension

/-- The members of a context that children are made from. -/
def entries (c : ι) : List ι := I.members .action c ++ I.members .dimension c

variable {I} {c e : ι} {k : MemberKind} {s : String}

theorem memberKind_of_mem (h : e ∈ I.members k c) : I.memberKind e = k := by
  cases k with
  | action =>
    rw [members, List.mem_filter, collateActions, List.mem_filter] at h
    rw [memberKind, if_pos (ElementType.isContext_of_isMemberAction h.1.2)]
  | dimension =>
    rw [members, collateDimensions, List.mem_filter, decide_eq_true_eq] at h
    rw [memberKind, h.2]
    rfl

theorem not_object_of_mem (h : e ∈ I.members k c) : I.getType e ≠ .eAbstractObject := by
  intro htype
  cases k with
  | action =>
    rw [members, List.mem_filter, collateActions, List.mem_filter, htype] at h
    cases h.1.2
  | dimension =>
    rw [members, collateDimensions, List.mem_filter, htype] at h
    cases h.2

theorem mem_entries : e ∈ I.entries c ↔ ∃ k, e ∈ I.members k c := by
  rw [entries, List.mem_append]
  refine ⟨fun h => h.elim (fun h => ⟨_, h⟩) fun h => ⟨_, h⟩, ?_⟩
  rintro ⟨k, h⟩
  cases k with
  | action => exact .inl h
  | dimension => exact .inr h

theorem filter_entries : (I.entries c).filter (fun e => I.memberKind e = k) = I.members k c := by
  have hother : ∀ {k' : MemberKind}, k' ≠ k →
      (I.members k' c).filter (fun e => I.memberKind e = k) = [] := by
    intro k' hne
    rw [List.filter_eq_nil_iff]
    intro e he
    rw [memberKind_of_mem he]
    simpa using hne
  have hsame : (I.members k c).filter (fun e => I.memberKind e = k) = I.members k c := by
    rw [List.filter_eq_self]
    intro e he
    simpa using memberKind_of_mem he
  rw [entries, List.filter_append]
  cases k with
  | action => rw [hsame, hother (by decide), List.append_nil]
  | dimension => rw [hsame, hother (by decide), List.nil_append]

variable (I) in
/-- The first declaration of an identifier in a list of contexts. -/
def firstDeclaration (cs : List ι) (k : MemberKind) (s : String) : Option ι :=
  (cs.flatMap (I.members k)).find? fun e => I.getIdentifier e = s

variable (I) in
/-- An element asks for the child of an identifier. -/
def Asks (k : MemberKind) (s : String) (e : ι) : Bool :=
  decide (I.memberKind e = k ∧ I.getIdentifier e = s)

theorem find?_entries (cs : List ι) (k : MemberKind) (s : String) :
    (cs.flatMap I.entries).find? (I.Asks k s) = I.firstDeclaration cs k s := by
  rw [firstDeclaration]
  have : cs.flatMap (I.members k) = (cs.flatMap I.entries).filter fun e => I.memberKind e = k := by
    rw [List.filter_flatMap]
    exact congrArg (fun f => cs.flatMap f) (funext fun c => filter_entries.symm)
  rw [this, List.find?_filter]
  simp only [decide_eq_true_eq]
  rfl

end Interface

/-! ## Collating -/

section Collating
variable {ι : Type} {I : Interface ι} {st st' st'' : Overrides ι} {e : ι} {k : MemberKind} {s : String}

/-- Children are added at the end, and entries stay. -/
structure Overrides.Grows (st st' : Overrides ι) : Prop where
  children : st.children <+: st'.children
  instances : ∀ {k s i}, st.instances k s = some i → st'.instances k s = some i

theorem Overrides.Grows.refl (st : Overrides ι) : st.Grows st := ⟨List.prefix_rfl, id⟩

theorem Overrides.Grows.trans (h : st.Grows st') (h' : st'.Grows st'') : st.Grows st'' :=
  ⟨h.children.trans h'.children, fun hi => h'.instances (h.instances hi)⟩

theorem Overrides.Grows.getElem? {i : ℕ} (h : st.Grows st') (hi : st.children[i]? = some e) :
    st'.children[i]? = some e := by
  obtain ⟨es, hes⟩ := h.children
  obtain ⟨hlt, -⟩ := List.getElem?_eq_some_iff.mp hi
  rw [← hes, List.getElem?_append_left hlt]
  exact hi

/-- The maps lead from an identifier to the child that is made from the first of some elements that asks
for it; a child that no entry leads to is an object, and every object has a child. -/
structure Overrides.Collated (I : Interface ι) (es : List ι) (st : Overrides ι) : Prop where
  found : ∀ {k s i}, st.instances k s = some i →
    ∃ e, st.children[i]? = some e ∧ es.find? (I.Asks k s) = some e
  missing : ∀ {k s}, st.instances k s = none → es.find? (I.Asks k s) = none
  child : ∀ {i e}, st.children[i]? = some e →
    st.instances (I.memberKind e) (I.getIdentifier e) = some i ∨ I.getType e = .eAbstractObject
  mem : ∀ {e}, e ∈ st.children → e ∈ es
  object : ∀ {e}, e ∈ es → I.getType e = .eAbstractObject → e ∈ st.children

namespace Interface

theorem asks_self : I.Asks (I.memberKind e) (I.getIdentifier e) e = true := by simp [Asks]

theorem makeChild_grows : st.Grows (I.makeChild k st e) := by
  refine ⟨List.prefix_append _ _, ?_⟩
  intro k' s' i hi
  rw [makeChild]
  simp [hi]

theorem makeChild_collated {es : List ι} (h : st.Collated I es)
    (he : st.instances (I.memberKind e) (I.getIdentifier e) = none ∨
      I.getType e = .eAbstractObject) :
    (I.makeChild (I.memberKind e) st e).Collated I (es ++ [e]) where
  found {k s i} hi := by
    rw [List.find?_append]
    cases hold : st.instances k s with
    | some j =>
      obtain ⟨e', hj, hfind⟩ := h.found hold
      rw [makeChild_grows.instances hold, Option.some.injEq] at hi
      subst hi
      exact ⟨e', makeChild_grows.getElem? hj, by rw [hfind, Option.some_or]⟩
    | none =>
      simp only [makeChild, hold, and_true, Option.ite_none_right_eq_some, Option.some.injEq] at hi
      obtain ⟨⟨rfl, rfl⟩, rfl⟩ := hi
      refine ⟨e, by simp [makeChild], ?_⟩
      rw [h.missing hold, Option.none_or, List.find?_cons_of_pos asks_self]
  missing {k s} hnone := by
    have hold : st.instances k s = none := by
      cases hold : st.instances k s with
      | none => rfl
      | some j =>
        rw [makeChild_grows.instances hold] at hnone
        cases hnone
    simp only [makeChild, hold, and_true, ite_eq_right_iff, reduceCtorEq, imp_false] at hnone
    have hask : ¬ I.Asks k s e = true := by
      rw [Asks, decide_eq_true_eq]
      exact fun hask => hnone ⟨hask.1.symm, hask.2.symm⟩
    rw [List.find?_append, h.missing hold, List.find?_cons_of_neg hask]
    rfl
  child {i e'} hi := by
    rcases Nat.lt_or_ge i st.children.length with hlt | hge
    · rw [makeChild, List.getElem?_append_left hlt] at hi
      exact (h.child hi).imp_left makeChild_grows.instances
    · rw [makeChild, List.getElem?_append_right hge, List.getElem?_singleton,
        Option.ite_none_right_eq_some, Option.some.injEq] at hi
      obtain ⟨hzero, rfl⟩ := hi
      obtain rfl : i = st.children.length := by omega
      refine he.imp_left fun hnone => ?_
      simp [makeChild, hnone]
  mem he' := List.mem_append.mpr ((List.mem_append.mp he').imp_left h.mem)
  object he' htype := List.mem_append.mpr ((List.mem_append.mp he').imp_left (h.object · htype))

/-! ## One inheritance node -/

variable {es ms objects : List ι} {is : List ℕ} {c : ι} {node : InheritanceNode ι}

theorem constructMember_spec {i : ℕ} (he : I.memberKind e = k)
    (hobject : I.getType e ≠ .eAbstractObject) (h : st.Collated I es)
    (hc : I.constructMember k st e = .ok (st', i)) :
    st'.Collated I (es ++ [e]) ∧ st.Grows st' ∧ st'.instances k (I.getIdentifier e) = some i := by
  subst he
  rw [constructMember] at hc
  cases hold : st.instances (I.memberKind e) (I.getIdentifier e) with
  | some j =>
    simp only [hold, Except.ok.injEq, Prod.mk.injEq] at hc
    obtain ⟨rfl, rfl⟩ := hc
    obtain ⟨e', -, hfind⟩ := h.found hold
    refine ⟨⟨fun hi => ?_, fun hnone => ?_, h.child, fun he => List.mem_append_left _ (h.mem he),
      fun he htype => ?_⟩, .refl st, hold⟩
    · obtain ⟨e'', hi, hfind⟩ := h.found hi
      exact ⟨e'', hi, by rw [List.find?_append, hfind, Option.some_or]⟩
    · rename_i k s
      have hask : ¬ I.Asks k s e = true := by
        rw [Asks, decide_eq_true_eq]
        rintro ⟨rfl, rfl⟩
        rw [hold] at hnone
        cases hnone
      rw [List.find?_append, h.missing hnone, List.find?_cons_of_neg hask]
      rfl
    · rcases List.mem_append.mp he with he | he
      · exact h.object he htype
      · rw [List.mem_singleton.mp he] at htype
        exact absurd htype hobject
  | none =>
    simp only [hold, Except.ok.injEq, Prod.mk.injEq] at hc
    obtain ⟨rfl, rfl⟩ := hc
    exact ⟨makeChild_collated h (.inl hold), makeChild_grows, by simp [makeChild, hold]⟩

theorem constructMembers_spec (hms : ms = I.members k c) (h : st.Collated I es)
    (hc : threadM (I.constructMember k) ms st = .ok (st', is)) :
    st'.Collated I (es ++ ms) ∧ st.Grows st' ∧
      List.Forall₂ (fun e i => st'.instances k (I.getIdentifier e) = some i) ms is := by
  subst hms
  exact threadM_rule .refl .trans (fun hg hi => hg.instances hi)
    (fun hx hs hf => constructMember_spec (memberKind_of_mem hx) (not_object_of_mem hx) hs hf) h hc

/-- Where an inheritance node leads: to the hoisted objects, then for each member to the child that the
map has for its identifier. -/
structure Leads (I : Interface ι) (objects : List ι) (c : ι) (node : InheritanceNode ι)
    (st : Overrides ι) : Prop where
  context : node.context = c
  places : ∀ k, ∃ hoisted is, node.places k = hoisted ++ is ∧
    (∀ i ∈ hoisted, ∃ e ∈ objects, st.children[i]? = some e) ∧
    List.Forall₂ (fun e i => st.instances k (I.getIdentifier e) = some i) (I.members k c) is

theorem Leads.grows (h : Leads I objects c node st) (hg : st.Grows st') :
    Leads I objects c node st' := by
  refine ⟨h.context, fun k => ?_⟩
  obtain ⟨hoisted, is, hplaces, hhoisted, his⟩ := h.places k
  refine ⟨hoisted, is, hplaces, fun i hi => ?_, his.imp fun e i hi => hg.instances hi⟩
  obtain ⟨e, he, hi⟩ := hhoisted i hi
  exact ⟨e, he, hg.getElem? hi⟩

/-- What asks for a child is found among the hoisted objects, or among the declarations. -/
theorem find?_declarations {cs : List ι} (hne : cs ≠ []) :
    (cs.flatMap fun b => objects ++ I.entries b).find? (I.Asks k s) =
      (objects.find? (I.Asks k s)).or (I.firstDeclaration cs k s) := by
  rw [List.find?_flatMap, ← find?_entries, List.find?_flatMap]
  cases hfind : objects.find? (I.Asks k s) with
  | none => simp only [List.find?_append, hfind, Option.none_or]
  | some o =>
    cases cs with
    | nil => exact absurd rfl hne
    | cons b cs => simp only [List.findSome?_cons, List.find?_append, hfind, Option.some_or]

variable [DecidableEq ι]

theorem constructObject_spec {i : ℕ} (he : I.getType e = .eAbstractObject) (h : st.Collated I es)
    (hc : I.constructObject st e = .ok (st', i)) :
    st'.Collated I (es ++ [e]) ∧ st.Grows st' ∧ st'.children[i]? = some e := by
  have hkind : I.memberKind e = .action := by
    rw [memberKind, he]
    rfl
  rw [constructObject] at hc
  split at hc
  · cases hc
  · obtain ⟨rfl, rfl⟩ := Prod.mk.inj (Except.ok.inj hc)
    have hmade := makeChild_collated h (.inr he)
    rw [hkind] at hmade
    have hg : st.Grows (I.makeChild .action st e) := makeChild_grows
    exact ⟨⟨hmade.found, hmade.missing, hmade.child, hmade.mem, hmade.object⟩,
      ⟨hg.children, hg.instances⟩, by simp [makeChild]⟩

theorem constructObjects_spec (hobjects : ∀ e ∈ objects, I.getType e = .eAbstractObject)
    (h : st.Collated I es) (hc : threadM I.constructObject objects st = .ok (st', is)) :
    st'.Collated I (es ++ objects) ∧ st.Grows st' ∧
      List.Forall₂ (fun e i => st'.children[i]? = some e) objects is :=
  threadM_rule .refl .trans (fun hg hi => hg.getElem? hi)
    (fun hx hs hf => constructObject_spec (hobjects _ hx) hs hf) h hc

theorem collateNode_spec (hobjects : ∀ e ∈ objects, I.getType e = .eAbstractObject)
    (h : st.Collated I es) (hc : I.collateNode objects st c = .ok (st', node)) :
    st'.Collated I (es ++ (objects ++ I.entries c)) ∧ st.Grows st' ∧
      Leads I objects c node st' := by
  simp only [collateNode, except_bind_ok, Prod.exists] at hc
  obtain ⟨st₁, hoisted, h₁, st₂, actions, h₂, st₃, dimensions, h₃, hok⟩ := hc
  obtain ⟨rfl, rfl⟩ := Prod.mk.inj (Except.ok.inj hok)
  obtain ⟨hc₁, hg₁, hhoisted⟩ := constructObjects_spec hobjects h h₁
  obtain ⟨hc₂, hg₂, hactions⟩ := constructMembers_spec rfl hc₁ h₂
  obtain ⟨hc₃, hg₃, hdimensions⟩ := constructMembers_spec rfl hc₂ h₃
  rw [List.append_assoc, List.append_assoc] at hc₃
  refine ⟨hc₃, (hg₁.trans hg₂).trans hg₃, rfl, fun k => ?_⟩
  cases k with
  | action =>
    refine ⟨hoisted, actions, rfl, fun i hi => ?_, hactions.imp fun e i hi => hg₃.instances hi⟩
    obtain ⟨j, hj, rfl⟩ := List.getElem_of_mem hi
    have hj' : j < objects.length := hhoisted.length_eq ▸ hj
    exact ⟨_, List.getElem_mem hj', (hg₂.trans hg₃).getElem? (List.Forall₂.get hhoisted hj' hj)⟩
  | dimension => exact ⟨[], dimensions, rfl, fun i hi => absurd hi List.not_mem_nil, hdimensions⟩

/-! ## The inheritance tree -/

/-- The nodes are collated in the order of the tree. -/
theorem collateOverrides_labels {t : RoseTree ι} {nodes : RoseTree (InheritanceNode ι)}
    (h : I.collateOverrides objects t st = .ok (st', nodes)) :
    threadM (I.collateNode objects) t.labels st = .ok (st', nodes.labels) ∧
      nodes.map InheritanceNode.context = t := by
  induction t using RoseTree.tree_induction generalizing st st' nodes with
  | step c ts ih =>
    rw [collateOverrides, RoseTree.fold_node] at h
    simp only [except_bind_ok, Prod.exists] at h
    obtain ⟨st₁, node, hnode, st₂, rest, hrest, hok⟩ := h
    obtain ⟨rfl, rfl⟩ := Prod.mk.inj (Except.ok.inj hok)
    have hall : threadM (I.collateNode objects) (ts.map RoseTree.labels).flatten st₁ =
          .ok (st₂, (rest.map RoseTree.labels).flatten) ∧
        rest.map (RoseTree.map InheritanceNode.context) = ts := by
      clear hnode hok
      induction ts generalizing st₁ rest with
      | nil =>
        obtain ⟨rfl, rfl⟩ := threadM_nil.mp hrest
        exact ⟨rfl, rfl⟩
      | cons t ts ihts =>
        obtain ⟨st₃, n, ns, ht, hts, rfl⟩ := threadM_cons.mp hrest
        obtain ⟨hlabels, hmap⟩ := ih t List.mem_cons_self ht
        obtain ⟨hlabels', hmap'⟩ := ihts (fun s hs => ih s (List.mem_cons_of_mem t hs)) _ _ hts
        refine ⟨?_, by rw [List.map_cons, hmap, hmap']⟩
        rw [List.map_cons, List.map_cons, List.flatten_cons, List.flatten_cons]
        exact threadM_append hlabels hlabels'
    have hcontext : node.context = c := by
      simp only [collateNode, except_bind_ok, Prod.exists] at hnode
      obtain ⟨_, _, _, _, _, _, _, _, _, hok⟩ := hnode
      rw [← (Prod.mk.inj (Except.ok.inj hok)).2]
    rw [RoseTree.labels_node, RoseTree.labels_node, RoseTree.map_node, hall.2, hcontext]
    exact ⟨threadM_cons.mpr ⟨_, _, _, hnode, hall.1, rfl⟩, rfl⟩

theorem collateOverrides_spec (hobjects : ∀ e ∈ objects, I.getType e = .eAbstractObject)
    {t : RoseTree ι} {nodes : RoseTree (InheritanceNode ι)} (hst : st.Collated I [])
    (h : I.collateOverrides objects t st = .ok (st', nodes)) :
    st'.Collated I (t.labels.flatMap fun c => objects ++ I.entries c) ∧
      List.Forall₂ (fun c node => Leads I objects c node st') t.labels nodes.labels := by
  have hstart : st.Collated I (([] : List ι).flatMap fun c => objects ++ I.entries c) := hst
  have hrule := threadM_rule (I := fun done st => st.Collated I (done.flatMap fun c =>
      objects ++ I.entries c)) (R := Overrides.Grows)
    (Q := fun c node st => Leads I objects c node st) .refl .trans (fun hg h => h.grows hg)
    (fun {done x s t y} _ hs hf => by
      rw [List.flatMap_append, List.flatMap_singleton]
      exact collateNode_spec hobjects hs hf) hstart (collateOverrides_labels h).1
  exact ⟨hrule.1, hrule.2.2⟩

end Interface
end Collating
end EgLang.Compiler
