import EgLang.Compiler.Overriding

/-!
# The concrete tree

Every concrete action of a built tree is made by one call of `constructInstance`. Its members are
resolved: the first declaration of an identifier has the one child for it, and every inheritance node
leads to that child. Objects that are hoisted to a root are children of it besides; where one has the
identifier of a member action, the members are not resolved.
-/

namespace EgLang.Compiler

open Library

set_option autoImplicit false

namespace Interface
variable {ι : Type} (I : Interface ι)

/-! ## Resolved members -/

/-- The child at a place is made from an element, and is no object that is hoisted. -/
def IsChild (children : List (ConcreteTree ι)) (k : MemberKind) (i : ℕ) (e : ι) : Prop :=
  ∃ t, children[i]? = some t ∧ t.label.kind = k ∧ t.label.element = e ∧
    I.getType e ≠ .eAbstractObject

/-- The child at a place is an object that is hoisted. -/
def isHoisted (children : List (ConcreteTree ι)) (i : ℕ) : Bool :=
  children[i]?.any fun t => I.getType t.label.element = .eAbstractObject

/-- The members of a concrete action are resolved along the tree of the contexts it inherits. -/
structure Resolved (pContext : ι) (inheritance : RoseTree (InheritanceNode ι))
    (children : List (ConcreteTree ι)) : Prop where
  /-- the inheritance tree is that of the context of the action -/
  context : inheritance.label.context = pContext
  inherits : Unfolds I.inherited (inheritance.map InheritanceNode.context)
  /-- there is at most one child for an identifier -/
  unique : ∀ {k i j e e'}, I.IsChild children k i e → I.IsChild children k j e' →
    I.getIdentifier e = I.getIdentifier e' → i = j
  /-- which is made from the first declaration of the identifier -/
  first : ∀ {k i e}, I.IsChild children k i e →
    I.firstDeclaration (inheritance.labels.map InheritanceNode.context) k (I.getIdentifier e) = some e
  /-- and every node leads from its own members to the children for their identifiers -/
  mapped : ∀ node ∈ inheritance.labels, ∀ k,
    List.Forall₂ (fun m i => ∃ e, I.IsChild children k i e ∧ I.getIdentifier e = I.getIdentifier m)
      (I.members k node.context) ((node.places k).filter fun i => !I.isHoisted children i)

variable [DecidableEq ι]

/-- No object that is hoisted to the context has the identifier of a member action that the context
has or inherits. -/
def Unclashing (objects : List ι) (pContext : ι) : Prop :=
  ∀ o ∈ I.hoisted objects pContext,
    ∀ b, Relation.ReflTransGen (fun a b => b ∈ I.inherited a) pContext b →
      ∀ m ∈ I.members .action b, I.getIdentifier m ≠ I.getIdentifier o

/-! ## One call -/

variable {I} {objects cs cs' : List ι} {fuel : ℕ} {c e : ι} {t : ConcreteTree ι}

theorem constructInstance_succ (h : I.constructInstance objects (fuel + 1) cs c = .ok (cs', t)) :
    ∃ inheritance st nodes ts, unfold InstanceFault.unfinished I.inherited (fuel + 1) c = .ok inheritance ∧
      I.collateOverrides (I.hoisted objects c) inheritance ⟨[], fun _ _ => none, cs⟩ =
        .ok (st, nodes) ∧
      threadM (I.constructChild (I.constructInstance objects fuel)) st.children
        st.constructedObjects = .ok (cs', ts) ∧
      t = .node (.action c nodes) ts := by
  rw [constructInstance, constructInheritanceTree_eq] at h
  simp only [except_bind_ok, Prod.exists] at h
  obtain ⟨inheritance, hinh, st, nodes, hst, cs'', ts, hts, hok⟩ := h
  obtain ⟨rfl, rfl⟩ := Prod.mk.inj (Except.ok.inj hok)
  exact ⟨inheritance, st, nodes, ts, hinh, hst, hts, rfl⟩

theorem label_of_constructInstance (h : I.constructInstance objects fuel cs c = .ok (cs', t)) :
    t.label.element = c ∧ t.label.kind = .action := by
  cases fuel with
  | zero => cases h
  | succ fuel =>
    obtain ⟨_, _, _, _, -, -, -, rfl⟩ := constructInstance_succ h
    exact ⟨rfl, rfl⟩

/-- A child of an instance is made from its element. -/
theorem label_of_constructChild
    (h : I.constructChild (I.constructInstance objects fuel) cs e = .ok (cs', t)) :
    t.label.element = e ∧ t.label.kind = I.memberKind e := by
  rw [constructChild] at h
  rw [memberKind]
  split at h
  · rename_i hcontext
    rw [if_pos hcontext]
    exact label_of_constructInstance h
  · rename_i hcontext
    rw [if_neg hcontext]
    obtain ⟨-, rfl⟩ := Prod.mk.inj (Except.ok.inj h)
    exact ⟨rfl, rfl⟩

theorem labels_of_constructChildren {es : List ι} {ts : List (ConcreteTree ι)}
    (h : threadM (I.constructChild (I.constructInstance objects fuel)) es cs = .ok (cs', ts)) :
    List.Forall₂ (fun e t => t.label.element = e ∧ t.label.kind = I.memberKind e) es ts := by
  refine (threadM_rounds h).imp ?_
  rintro e t ⟨cs, cs', h⟩
  exact label_of_constructChild h

/-- Every concrete action of a tree is made by a call. -/
theorem exists_constructInstance {s : ConcreteTree ι}
    (h : I.constructInstance objects fuel cs c = .ok (cs', t)) (hs : s ∈ t.subtrees)
    (hkind : s.label.kind = .action) :
    ∃ fuel cs cs', I.constructInstance objects fuel cs s.label.element = .ok (cs', s) := by
  induction fuel generalizing cs cs' c t with
  | zero => cases h
  | succ fuel ih =>
    obtain ⟨_, st, _, ts, -, -, hts, rfl⟩ := constructInstance_succ h
    rcases RoseTree.mem_subtrees_node.mp hs with rfl | ⟨t, ht, hs⟩
    · exact ⟨fuel + 1, cs, cs', h⟩
    · obtain ⟨e, -, cs₁, cs₂, he⟩ := exists_round hts ht
      rw [constructChild] at he
      split at he
      · exact ih he hs
      · obtain ⟨-, rfl⟩ := Prod.mk.inj (Except.ok.inj he)
        rcases RoseTree.mem_subtrees_node.mp hs with rfl | ⟨_, hmem, -⟩
        · cases hkind
        · cases hmem

/-! ## The members of one instance -/

/-- What a call leaves: the children are those of some overrides that the declarations of the inheritance
tree were collated in. -/
structure Constructed (I : Interface ι) (objects : List ι) (c : ι)
    (nodes : RoseTree (InheritanceNode ι)) (ts : List (ConcreteTree ι)) (st : Overrides ι) : Prop where
  context : nodes.label.context = c
  inherits : Unfolds I.inherited (nodes.map InheritanceNode.context)
  collated : st.Collated I ((nodes.labels.map InheritanceNode.context).flatMap fun b =>
    I.hoisted objects c ++ I.entries b)
  leads : ∀ node ∈ nodes.labels, Leads I (I.hoisted objects c) node.context node st
  children : List.Forall₂ (fun e t => t.label.element = e ∧ t.label.kind = I.memberKind e)
    st.children ts

theorem find?_contexts {k : MemberKind} {s : String} (nodes : RoseTree (InheritanceNode ι)) :
    ((nodes.labels.map InheritanceNode.context).flatMap fun b =>
        I.hoisted objects c ++ I.entries b).find? (I.Asks k s) =
      ((I.hoisted objects c).find? (I.Asks k s)).or
        (I.firstDeclaration (nodes.labels.map InheritanceNode.context) k s) := by
  refine find?_declarations fun hnil => ?_
  have hlabels := List.map_eq_nil_iff.mp hnil
  have hmem := RoseTree.label_mem_labels nodes
  rw [hlabels] at hmem
  cases hmem

theorem type_of_mem_hoisted (hobjects : ∀ o ∈ objects, I.getType o = .eAbstractObject)
    (h : e ∈ I.hoisted objects c) : I.getType e = .eAbstractObject := by
  rw [hoisted] at h
  split at h
  · exact hobjects e (List.mem_of_mem_filter h)
  · cases h

theorem exists_constructed (hobjects : ∀ o ∈ objects, I.getType o = .eAbstractObject)
    {nodes : RoseTree (InheritanceNode ι)} {ts : List (ConcreteTree ι)} {c' : ι}
    (h : I.constructInstance objects fuel cs c = .ok (cs', .node (.action c' nodes) ts)) :
    ∃ st, Constructed I objects c nodes ts st := by
  cases fuel with
  | zero => cases h
  | succ fuel =>
    obtain ⟨inheritance, st, nodes', ts', hinh, hst, hts, hnode⟩ := constructInstance_succ h
    obtain ⟨hlabel, rfl⟩ := RoseTree.node.inj hnode
    obtain ⟨-, rfl⟩ := Concrete.action.inj hlabel
    have hempty : Overrides.Collated I [] ⟨[], fun _ _ => none, cs⟩ := by
      constructor <;> simp
    obtain ⟨hcollated, hleads⟩ := collateOverrides_spec
      (fun e he => type_of_mem_hoisted hobjects he) hempty hst
    obtain ⟨-, hmap⟩ := collateOverrides_labels hst
    have hlabels : nodes.labels.map InheritanceNode.context = inheritance.labels := by
      rw [← RoseTree.labels_map, hmap]
    refine ⟨st, ?_, ?_, ?_, fun node hnode => ?_, labels_of_constructChildren hts⟩
    · rw [← RoseTree.label_map InheritanceNode.context, hmap, label_of_unfold hinh]
    · rw [hmap]
      exact unfolds_of_unfold hinh
    · rw [hlabels]
      exact hcollated
    · obtain ⟨i, hi, rfl⟩ := List.getElem_of_mem hnode
      have hlead := List.Forall₂.get hleads (hleads.length_eq ▸ hi) hi
      rw [List.get_eq_getElem, List.get_eq_getElem] at hlead
      rw [hlead.context]
      exact hlead

namespace Constructed
variable {nodes : RoseTree (InheritanceNode ι)} {ts : List (ConcreteTree ι)} {st : Overrides ι}
  {k : MemberKind} {i : ℕ} {s : String}

theorem isChild_iff (h : Constructed I objects c nodes ts st) :
    I.IsChild ts k i e ↔
      st.children[i]? = some e ∧ I.memberKind e = k ∧ I.getType e ≠ .eAbstractObject := by
  constructor
  · rintro ⟨t, hi, rfl, rfl, hobject⟩
    obtain ⟨hlt, rfl⟩ := List.getElem?_eq_some_iff.mp hi
    have hlt' : i < st.children.length := h.children.length_eq ▸ hlt
    obtain ⟨helement, hkind⟩ := List.Forall₂.get h.children hlt' hlt
    rw [List.get_eq_getElem, List.get_eq_getElem] at helement hkind
    rw [helement] at hobject ⊢
    exact ⟨List.getElem?_eq_getElem hlt', hkind.symm, hobject⟩
  · rintro ⟨hi, rfl, hobject⟩
    obtain ⟨hlt, rfl⟩ := List.getElem?_eq_some_iff.mp hi
    have hlt' : i < ts.length := h.children.length_eq ▸ hlt
    obtain ⟨helement, hkind⟩ := List.Forall₂.get h.children hlt hlt'
    exact ⟨_, List.getElem?_eq_getElem hlt', hkind, helement, hobject⟩

/-- A dimension is no object that is hoisted. -/
theorem isChild_of_dimension (h : Constructed I objects c nodes ts st) {t : ConcreteTree ι}
    (hi : ts[i]? = some t) (hkind : t.label.kind = .dimension) :
    I.IsChild ts .dimension i t.label.element := by
  refine ⟨t, hi, hkind, rfl, fun htype => ?_⟩
  obtain ⟨hlt, rfl⟩ := List.getElem?_eq_some_iff.mp hi
  obtain ⟨helement, hmember⟩ := List.Forall₂.get h.children (h.children.length_eq ▸ hlt) hlt
  rw [List.get_eq_getElem, List.get_eq_getElem] at helement hmember
  rw [hkind, memberKind, ← helement, htype] at hmember
  cases hmember

theorem isHoisted_eq (h : Constructed I objects c nodes ts st) (hi : st.children[i]? = some e) :
    I.isHoisted ts i = decide (I.getType e = .eAbstractObject) := by
  obtain ⟨hlt, rfl⟩ := List.getElem?_eq_some_iff.mp hi
  have hlt' : i < ts.length := h.children.length_eq ▸ hlt
  obtain ⟨helement, -⟩ := List.Forall₂.get h.children hlt hlt'
  rw [List.get_eq_getElem, List.get_eq_getElem] at helement
  rw [isHoisted, List.getElem?_eq_getElem hlt', Option.any_some, helement]

/-- A child that is no object is the one that the maps have for its identifier. -/
theorem instances_of_isChild (h : Constructed I objects c nodes ts st) (hi : I.IsChild ts k i e) :
    st.instances k (I.getIdentifier e) = some i := by
  obtain ⟨he, rfl, hobject⟩ := h.isChild_iff.mp hi
  exact (h.collated.child he).resolve_right hobject

theorem unique (h : Constructed I objects c nodes ts st) {j : ℕ} {e' : ι}
    (hi : I.IsChild ts k i e) (hj : I.IsChild ts k j e')
    (heq : I.getIdentifier e = I.getIdentifier e') : i = j := by
  have hi := h.instances_of_isChild hi
  rw [heq, h.instances_of_isChild hj] at hi
  exact (Option.some.inj hi).symm

theorem first (h : Constructed I objects c nodes ts st)
    (hobjects : ∀ o ∈ objects, I.getType o = .eAbstractObject) (hi : I.IsChild ts k i e) :
    I.firstDeclaration (nodes.labels.map InheritanceNode.context) k (I.getIdentifier e) = some e := by
  obtain ⟨e', he', hfind⟩ := h.collated.found (h.instances_of_isChild hi)
  obtain ⟨hi, -, hobject⟩ := h.isChild_iff.mp hi
  obtain rfl : e = e' := Option.some.inj (hi.symm.trans he')
  rw [find?_contexts] at hfind
  cases ho : (I.hoisted objects c).find? (I.Asks k (I.getIdentifier e)) with
  | none => rwa [ho, Option.none_or] at hfind
  | some o =>
    rw [ho, Option.some_or, Option.some.injEq] at hfind
    subst hfind
    exact absurd (type_of_mem_hoisted hobjects (List.mem_of_find?_eq_some ho)) hobject

/-- A member that no hoisted object takes the identifier of is mapped to the child for it. -/
theorem isChild_of_instances (h : Constructed I objects c nodes ts st)
    (hs : ∀ o ∈ I.hoisted objects c, ¬ I.Asks k s o = true) (hi : st.instances k s = some i) :
    ∃ e, I.IsChild ts k i e ∧ I.getIdentifier e = s := by
  obtain ⟨e, he, hfind⟩ := h.collated.found hi
  rw [find?_contexts, List.find?_eq_none.mpr hs, Option.none_or, ← find?_entries] at hfind
  have hask := List.find?_some hfind
  rw [Asks, decide_eq_true_eq] at hask
  obtain ⟨b, -, hb⟩ := List.mem_flatMap.mp (List.mem_of_find?_eq_some hfind)
  obtain ⟨k', hk'⟩ := mem_entries.mp hb
  exact ⟨e, h.isChild_iff.mpr ⟨he, hask.1, not_object_of_mem hk'⟩, hask.2⟩

theorem mapped (h : Constructed I objects c nodes ts st)
    (hobjects : ∀ o ∈ objects, I.getType o = .eAbstractObject) {node : InheritanceNode ι}
    (hnode : node ∈ nodes.labels)
    (hs : ∀ m ∈ I.members k node.context, ∀ o ∈ I.hoisted objects c,
      ¬ I.Asks k (I.getIdentifier m) o = true) :
    List.Forall₂ (fun m i => ∃ e, I.IsChild ts k i e ∧ I.getIdentifier e = I.getIdentifier m)
      (I.members k node.context) ((node.places k).filter fun i => !I.isHoisted ts i) := by
  obtain ⟨hoisted, is, hplaces, hhoisted, his⟩ := (h.leads node hnode).places k
  have hchildren : List.Forall₂ (fun m i => ∃ e, I.IsChild ts k i e ∧
      I.getIdentifier e = I.getIdentifier m) (I.members k node.context) is := by
    refine List.forall₂_iff_get.mpr ⟨his.length_eq, fun i hi hi' => ?_⟩
    exact h.isChild_of_instances (hs _ (List.get_mem _ _)) (List.Forall₂.get his hi hi')
  have hfirst : hoisted.filter (fun i => !I.isHoisted ts i) = [] := by
    rw [List.filter_eq_nil_iff]
    intro i hi
    obtain ⟨o, ho, hio⟩ := hhoisted i hi
    rw [h.isHoisted_eq hio, type_of_mem_hoisted hobjects ho]
    decide
  have hrest : is.filter (fun i => !I.isHoisted ts i) = is := by
    rw [List.filter_eq_self]
    intro i hi
    obtain ⟨j, hj, rfl⟩ := List.getElem_of_mem hi
    obtain ⟨e, he, -⟩ := List.Forall₂.get hchildren (hchildren.length_eq ▸ hj) hj
    obtain ⟨hi, -, hobject⟩ := h.isChild_iff.mp he
    rw [List.get_eq_getElem] at hi
    rw [h.isHoisted_eq hi, decide_eq_false hobject]
    rfl
  rw [hplaces, List.filter_append, hfirst, hrest, List.nil_append]
  exact hchildren

theorem mem_contexts_iff (h : Constructed I objects c nodes ts st) {b : ι} :
    b ∈ nodes.labels.map InheritanceNode.context ↔
      Relation.ReflTransGen (fun a b => b ∈ I.inherited a) c b := by
  rw [← RoseTree.labels_map, h.inherits.mem_labels, RoseTree.label_map, h.context]

/-- The members of an instance are resolved when no hoisted object has the identifier of one. -/
theorem resolved_iff (h : Constructed I objects c nodes ts st)
    (hobjects : ∀ o ∈ objects, I.getType o = .eAbstractObject) :
    I.Resolved c nodes ts ↔ I.Unclashing objects c := by
  have haction : ∀ o ∈ I.hoisted objects c, I.memberKind o = .action := by
    intro o ho
    rw [memberKind, type_of_mem_hoisted hobjects ho]
    rfl
  constructor
  · intro hresolved o ho b hb m hm heq
    obtain ⟨node, hnode, rfl⟩ := List.mem_map.mp (h.mem_contexts_iff.mpr hb)
    have hmapped := hresolved.mapped node hnode .action
    obtain ⟨j, hj, rfl⟩ := List.getElem_of_mem hm
    obtain ⟨e, he, hid⟩ := List.Forall₂.get hmapped hj (hmapped.length_eq ▸ hj)
    rw [List.get_eq_getElem, heq] at hid
    obtain ⟨e', he', hfind⟩ := h.collated.found (h.instances_of_isChild he)
    obtain ⟨hi, -, hobject⟩ := h.isChild_iff.mp he
    obtain rfl : e = e' := Option.some.inj (hi.symm.trans he')
    rw [find?_contexts] at hfind
    cases hfirst : (I.hoisted objects c).find? (I.Asks .action (I.getIdentifier e)) with
    | none =>
      refine List.find?_eq_none.mp hfirst o ho ?_
      rw [Asks, decide_eq_true_eq]
      exact ⟨haction o ho, hid.symm⟩
    | some o' =>
      rw [hfirst, Option.some_or, Option.some.injEq] at hfind
      subst hfind
      exact hobject (type_of_mem_hoisted hobjects (List.mem_of_find?_eq_some hfirst))
  · intro hclash
    refine ⟨h.context, h.inherits, h.unique, h.first hobjects, fun node hnode k => ?_⟩
    refine h.mapped hobjects hnode fun m hm o ho hask => ?_
    rw [Asks, decide_eq_true_eq, haction o ho] at hask
    obtain ⟨rfl, hid⟩ := hask
    exact hclash o ho node.context (h.mem_contexts_iff.mp (List.mem_map_of_mem hnode)) m hm hid.symm

end Constructed

/-! ## Whole trees -/

theorem type_of_mem_allObjects {root : ι} (h : e ∈ I.allObjects root) :
    I.getType e = .eAbstractObject := by
  rw [allObjects, List.mem_filter] at h
  cases htype : I.getType e <;> rw [htype] at h <;> first | rfl | simp [ElementType.isObject, ElementType.isRoot] at h

theorem constructInstance_of_analysis {root : ι} (h : I.instanceAnalysis root fuel = .ok t) :
    ∃ cs, I.constructInstance (I.allObjects root) fuel [] root = .ok (cs, t) := by
  rw [instanceAnalysis, except_bind_ok] at h
  obtain ⟨r, hr, h⟩ := h
  split at h
  · obtain rfl := Except.ok.inj h
    exact ⟨r.1, hr⟩
  · cases h

theorem exists_constructed_of_analysis {root : ι} (h : I.instanceAnalysis root fuel = .ok t)
    {nodes : RoseTree (InheritanceNode ι)} {ts : List (ConcreteTree ι)}
    (hs : .node (.action c nodes) ts ∈ t.subtrees) :
    ∃ st, Constructed I (I.allObjects root) c nodes ts st := by
  obtain ⟨cs, hcs⟩ := constructInstance_of_analysis h
  obtain ⟨fuel', cs₁, cs₂, hcall⟩ := exists_constructInstance hcs hs rfl
  exact exists_constructed (fun o => type_of_mem_allObjects) hcall

/-- **Override resolution.** In a tree that was built, the members of a concrete action are resolved
exactly when no object that is hoisted to its context has the identifier of a member action. -/
theorem resolved_iff_unclashing {root : ι} (h : I.instanceAnalysis root fuel = .ok t)
    {nodes : RoseTree (InheritanceNode ι)} {ts : List (ConcreteTree ι)}
    (hs : .node (.action c nodes) ts ∈ t.subtrees) :
    I.Resolved c nodes ts ↔ I.Unclashing (I.allObjects root) c := by
  obtain ⟨st, hst⟩ := exists_constructed_of_analysis h hs
  exact hst.resolved_iff fun o => type_of_mem_allObjects

/-- An action of some tree, with what the tree has below it. -/
theorem exists_action (I : Interface ι) (root : ι) (fuel : ℕ) (c : ι) (es : List ι)
    (h : (I.instanceAnalysis root fuel).toOption.any (fun t => decide (t.labels.map Concrete.element = es ∧
      ∃ s ∈ t.subtrees, s.label.kind = .action ∧ s.label.element = c)) = true) :
    ∃ t, I.instanceAnalysis root fuel = .ok t ∧ t.labels.map Concrete.element = es ∧
      ∃ nodes ts, .node (.action c nodes) ts ∈ t.subtrees := by
  obtain ⟨t, ht, hlabels, s, hs, hkind, helement⟩ := exists_ok h
  refine ⟨t, ht, hlabels, ?_⟩
  cases s with
  | node label ts =>
    cases label with
    | dimension e => cases hkind
    | action c' nodes =>
      obtain rfl : c' = c := helement
      exact ⟨nodes, ts, hs⟩

end Interface

/-- `action B { action M; dim d; } action C : B { action M; } action D : C, B { dim d; }`. -/
def overriding : Interface ℕ :=
  .ofDeclarations
    [⟨.eAbstractRoot .eInterfaceRoot, "", none, []⟩, ⟨.eAbstractRoot .eFileRoot, "root", some 0, []⟩,
      ⟨.eAbstractAction, "B", some 1, []⟩, ⟨.eAbstractAction, "M", some 2, []⟩,
      ⟨.eAbstractDimension, "d", some 2, []⟩, ⟨.eAbstractAction, "C", some 1, [2]⟩,
      ⟨.eAbstractAction, "M", some 5, []⟩, ⟨.eAbstractAction, "D", some 1, [5, 2]⟩,
      ⟨.eAbstractDimension, "d", some 7, []⟩] (by decide)

/-- The children of `D` are its own dimension and the action `M` of `C`. -/
theorem overriding_resolved :
    ∃ t, overriding.instanceAnalysis 0 5 = .ok t ∧
      t.labels.map Concrete.element = [0, 1, 2, 3, 4, 5, 6, 4, 7, 8, 6] ∧
        ∃ nodes ts, .node (.action 7 nodes) ts ∈ t.subtrees ∧ overriding.Resolved 7 nodes ts := by
  obtain ⟨t, ht, hlabels, nodes, ts, hs⟩ := overriding.exists_action 0 5 7
    [0, 1, 2, 3, 4, 5, 6, 4, 7, 8, 6] (by decide +kernel)
  refine ⟨t, ht, hlabels, nodes, ts, hs, (Interface.resolved_iff_unclashing ht hs).mpr ?_⟩
  have hnone : overriding.hoisted (overriding.allObjects 0) 7 = [] := by decide +kernel
  intro o ho
  rw [hnone] at ho
  cases ho

/-! ## An object that takes the place of an action -/

/-- `action X; action A { object X; }`. -/
def shadowed : Interface ℕ :=
  .ofDeclarations
    [⟨.eAbstractRoot .eInterfaceRoot, "", none, []⟩, ⟨.eAbstractRoot .eFileRoot, "root", some 0, []⟩,
      ⟨.eAbstractAction, "X", some 1, []⟩, ⟨.eAbstractAction, "A", some 1, []⟩,
      ⟨.eAbstractObject, "X", some 3, []⟩] (by decide)

/-- The concrete actions of the root are made from the object and from `A`; there is none for the action
`X`, which the inheritance node of the root maps to the object. -/
theorem shadowed_unresolved :
    ∃ t, shadowed.instanceAnalysis 0 5 = .ok t ∧ t.labels.map Concrete.element = [0, 1, 4, 3] ∧
      ∃ nodes ts, .node (.action 1 nodes) ts ∈ t.subtrees ∧ ¬ shadowed.Resolved 1 nodes ts := by
  obtain ⟨t, ht, hlabels, nodes, ts, hs⟩ := shadowed.exists_action 0 5 1 [0, 1, 4, 3]
    (by decide +kernel)
  refine ⟨t, ht, hlabels, nodes, ts, hs, ?_⟩
  obtain ⟨st, hst⟩ := Interface.exists_constructed_of_analysis ht hs
  rw [hst.resolved_iff fun o => Interface.type_of_mem_allObjects]
  exact fun hclash => hclash 4 (by decide +kernel) 1 .refl 2 (by decide +kernel) rfl

end EgLang.Compiler
