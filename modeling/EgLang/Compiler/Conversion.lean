import EgLang.Compiler.Coherence
import Mathlib.Data.Finset.Sort
import Mathlib.Data.List.Lex

/-!
# Generated conversions

The switch that `SpecialMemberFunctionVisitor::generateConversion` prints for an interface type, as data:
the cases in the order of the text, each inner switch with the function that it reads. Every switch of a
program whose analyses succeed is well formed.
-/

namespace EgLang.Compiler

open Library

set_option autoImplicit false

/-- What `read` calls: the accessor function of a link base dimension, or of the link dimension of a
target. -/
inductive Accessor
  | linkBase (dimension : List ℕ)
  | linkReference (target : List ℕ) (linkName : String)
deriving DecidableEq, Repr

/-- A case with an inner switch over the type of what an accessor reads. -/
structure ConversionCase where
  label : List ℕ
  accessor : Accessor
  labels : List (List ℕ)
deriving DecidableEq, Repr

/-- The switch over the type of the reference that is converted. -/
structure ConversionSwitch where
  fromLinks : List ConversionCase
  toLinks : List ConversionCase
  direct : List (List ℕ)
deriving DecidableEq, Repr

namespace ConversionSwitch

/-- All case labels of the outer switch. -/
def labels (s : ConversionSwitch) : List (List ℕ) :=
  s.fromLinks.map ConversionCase.label ++ s.toLinks.map ConversionCase.label ++ s.direct

end ConversionSwitch

/-- The children of the concrete action at a place that are user dimensions, with their places. -/
def ConcreteTree.userDimensions {ι : Type} (t : ConcreteTree ι) (pAction : List ℕ) : List (List ℕ × ι) :=
  match t.located.find? fun e => e.1 = pAction with
  | none => []
  | some e => (e.2.children.zipIdx.filter fun c => c.1.label.kind = .dimension).map fun c =>
      (pAction ++ [c.2], c.1.label.element)

namespace Interface
variable {ι : Type} [DecidableEq ι] (I : Interface ι) (t : ConcreteTree ι)

/-- `concrete::Action::getLinkBaseDimension`, and the verification of its caller that there is one. -/
def getConcreteLinkBaseDimension (pAction : List ℕ) : Except SessionFault (List ℕ) :=
  match (t.userDimensions pAction).filter fun d => I.getIdentifier d.2 = linkDimension with
  | [] => .error .noLinkBaseDimension
  | [pDimension] => .ok pDimension.1
  | _ => .error .severalLinkBaseDimensions

variable (linked : Linked ι)

/-- `getDimensionAccessorFunctionName` of a user dimension. -/
def readLinkBase (pDimension : List ℕ) : Except SessionFault Accessor :=
  if pDimension ∈ linked.linkBaseDimensions then .ok (.linkBase pDimension)
  else .error .noLinkGroup

/-- `LinkAnalysis::getLinkGroup`. -/
def getLinkGroup (pLink : ι) : Option (LinkGroup ι (List ℕ)) :=
  linked.groups.find? fun group => pLink ∈ group.links

/-- The link dimension that the dimension map of a group has for a target. -/
def readLinkReference (pLinkGroup : Option (LinkGroup ι (List ℕ))) (pTarget : List ℕ) :
    Except SessionFault Accessor :=
  match pLinkGroup with
  | none => .error .noLinkGroup
  | some group =>
    if pTarget ∈ group.concreteTargets then .ok (.linkReference pTarget group.name)
    else .error .noDimension

/-- A case of the conversion from links. -/
def fromLinkCase (labels : List (List ℕ)) (pCompatible : List ℕ) :
    Except SessionFault ConversionCase := do
  let pDimension ← I.getConcreteLinkBaseDimension t pCompatible
  let accessor ← readLinkBase linked pDimension
  return ⟨pCompatible, accessor, labels⟩

/-- A case of the conversion to links. -/
def toLinkCase (pLinkGroup : Option (LinkGroup ι (List ℕ))) (labels : List (List ℕ))
    (pCompatible : List ℕ) : Except SessionFault ConversionCase := do
  let accessor ← readLinkReference pLinkGroup pCompatible
  return ⟨pCompatible, accessor, labels⟩

/-- `generateConversion`; there is no switch for a type without instances. -/
def generateConversion (pContext : ι) : Except SessionFault (Option ConversionSwitch) := do
  let compatibility ← linked.compatibility.getCompatibility pContext
  if compatibility.dynamicCompatibleTypes = ∅ then
    return none
  let direct := compatibility.dynamicCompatibleTypes.sort
  let fromLinks ← compatibility.dynamicCompatibleFromLinkTypes.sort.mapM
    (I.fromLinkCase t linked direct)
  let toLinks ← compatibility.dynamicCompatibleToLinkTypes.sort.mapM
    (toLinkCase (getLinkGroup linked pContext) direct)
  return some ⟨fromLinks, toLinks, direct⟩

/-- A switch compiles, and reads dimensions that are there. -/
structure WellFormed (s : ConversionSwitch) : Prop where
  labels : s.labels.Nodup
  inner : ∀ c ∈ s.fromLinks ++ s.toLinks, c.labels.Nodup
  linkBase : ∀ c ∈ s.fromLinks, ∃ d, c.accessor = .linkBase d ∧
    ∃ e, (d, e) ∈ t.userDimensions c.label ∧ I.getIdentifier e = linkDimension
  linkReference : ∀ c ∈ s.toLinks, ∃ group ∈ linked.groups,
    c.accessor = .linkReference c.label group.name ∧ c.label ∈ group.concreteTargets

end Interface

/-! ## Concrete links -/

section Links
variable {ι : Type} [DecidableEq ι] {I : Interface ι} {t : ConcreteTree ι} {root A L T : ι} {fuel : ℕ}
  {k : List ℕ} {linked : Interface.Linked ι}

/-- A concrete action that derives from a link is a concrete link. -/
theorem located_of_derives_link (ht : I.instanceAnalysis root fuel = .ok t)
    (hlink : (I.getType L).isLink = true) (h : ConcreteTree.Derives t k L) :
    ∃ inheritance ts, (k, .node (.action L inheritance) ts) ∈ t.located ∧
      inheritance.map InheritanceNode.context = .node L [] := by
  obtain ⟨s, c, inheritance, hs, hlabel, hL⟩ := h
  obtain ⟨hunfolds, hroot⟩ := unfolds_of_located ht hs hlabel
  have halone := eq_node_of_link hunfolds hL hlink
  cases s with
  | node label ts =>
    obtain rfl : label = .action c inheritance := hlabel
    rw [halone, RoseTree.label_node] at hroot
    subst hroot
    exact ⟨inheritance, ts, hs, halone⟩

theorem eq_of_derives_link (ht : I.instanceAnalysis root fuel = .ok t)
    (hlink : (I.getType L).isLink = true) (h : ConcreteTree.Derives t k L)
    (hA : ConcreteTree.Derives t k A) : A = L := by
  obtain ⟨inheritance, ts, hs, halone⟩ := located_of_derives_link ht hlink h
  obtain ⟨s, c, inheritance', hs', hlabel, hA⟩ := hA
  obtain rfl := RoseTree.located_unique hs hs'
  obtain ⟨rfl, rfl⟩ := Concrete.action.inj hlabel
  rw [halone] at hA
  rcases RoseTree.mem_labels_node.mp hA with h | ⟨_, h, -⟩
  · exact h
  · cases h

omit [DecidableEq ι] in
theorem target_not_link (hT : I.getBaseContexts L = [T]) : (I.getType T).isLink = false :=
  I.base_not_link (c := L) (by simp [hT])

/-! ## The base dimension of a link -/

omit [DecidableEq ι] in
theorem getLinkBaseDimension_eq_ok {d : ι} (h : I.getLinkBaseDimension L = .ok d) {e : ι} :
    e ∈ I.members .dimension L ∧ I.getIdentifier e = Interface.linkDimension ↔ e = d := by
  rw [Interface.getLinkBaseDimension] at h
  split at h
  · cases h
  · rename_i d' hd
    obtain rfl := Except.ok.inj h
    rw [← List.mem_singleton (a := e), ← hd, List.mem_filter, decide_eq_true_eq]
    rfl
  · cases h

omit [DecidableEq ι] in
theorem mem_userDimensions {s : ConcreteTree ι} (hs : (k, s) ∈ t.located) {d : List ℕ} {e : ι} :
    (d, e) ∈ t.userDimensions k ↔ ∃ i c, s.children[i]? = some c ∧
      c.label.kind = .dimension ∧ c.label.element = e ∧ d = k ++ [i] := by
  have hfind : t.located.find? (fun e => e.1 = k) = some (k, s) := by
    cases hf : t.located.find? (fun e => e.1 = k) with
    | none => exact absurd (List.find?_eq_none.mp hf (k, s) hs) (by simp)
    | some p =>
      obtain rfl : p.1 = k := by simpa using List.find?_some hf
      rw [RoseTree.located_unique hs (List.mem_of_find?_eq_some hf)]
  rw [ConcreteTree.userDimensions, hfind]
  simp only [List.mem_map, List.mem_filter, List.mem_zipIdx_iff_getElem?, decide_eq_true_eq,
    Prod.mk.injEq, Prod.exists]
  constructor
  · rintro ⟨c, i, ⟨hi, hkind⟩, rfl, rfl⟩
    exact ⟨i, c, hi, hkind, rfl, rfl⟩
  · rintro ⟨i, c, hi, hkind, rfl, rfl⟩
    exact ⟨c, i, ⟨hi, hkind⟩, rfl, rfl⟩

omit [DecidableEq ι] in
theorem nodup_userDimensions (k : List ℕ) : (t.userDimensions k).Nodup := by
  rw [ConcreteTree.userDimensions]
  split
  · exact .nil
  · rename_i e _
    refine .of_map Prod.fst ?_
    rw [List.map_map]
    have hplaces : ((e.2.children.zipIdx.filter fun c => c.1.label.kind = .dimension).map
        Prod.snd).Nodup := by
      refine List.Nodup.sublist (List.filter_sublist.map _) ?_
      rw [List.zipIdx_map_snd]
      exact List.nodup_range'
    have hnodup := hplaces.map (f := fun i => k ++ [i]) fun i j h => by simpa using h
    rw [List.map_map] at hnodup
    exact hnodup

/-- The dimensions that the links found a base dimension for, in an analysis that succeeds. -/
theorem linkBaseDimensions_of_linkAnalysis (h : I.linkAnalysis t = .ok linked)
    (hL : L ∈ I.links) : ∃ d, I.getLinkBaseDimension L = .ok d ∧
      ∀ k ∈ I.getInstances t d false, k ∈ linked.linkBaseDimensions := by
  simp only [Interface.linkAnalysis, except_bind_ok, mapError_eq_ok] at h
  obtain ⟨groups, hgroups, dimensions, hdimensions, m, -, hlinked⟩ := h
  obtain rfl := Except.ok.inj hlinked
  have hmem : L ∈ groups.flatMap LinkGroup.links := by
    rw [List.mem_flatMap, (LinkAnalysis.links_of_calculateGroups hgroups).1 L]
    exact Interface.mem_links.mp hL
  rw [mapM_eq_ok] at hdimensions
  obtain ⟨i, hi, rfl⟩ := List.getElem_of_mem hmem
  have hi' : i < dimensions.length := hdimensions.length_eq ▸ hi
  refine ⟨dimensions[i], List.Forall₂.get hdimensions hi hi', fun k hk => ?_⟩
  exact List.mem_flatMap.mpr ⟨_, List.getElem_mem hi', hk⟩

/-- A concrete link has one base dimension, which knows its link group. -/
theorem readLinkBase_eq_ok (ht : I.instanceAnalysis root fuel = .ok t)
    (hlinked : I.linkAnalysis t = .ok linked) (hL : L ∈ I.links) (h : ConcreteTree.Derives t k L) :
    ∃ d e, I.getConcreteLinkBaseDimension t k = .ok d ∧
      Interface.readLinkBase linked d = .ok (.linkBase d) ∧ (d, e) ∈ t.userDimensions k ∧
        I.getIdentifier e = Interface.linkDimension := by
  have hlink := (Interface.mem_links.mp hL).2
  obtain ⟨nodes, ts, hs, halone⟩ := located_of_derives_link ht hlink h
  obtain ⟨st, hst⟩ := Interface.exists_constructed_of_analysis ht (RoseTree.mem_subtrees_of_located hs)
  obtain ⟨base, hbase, hinstances⟩ := linkBaseDimensions_of_linkAnalysis hlinked hL
  obtain ⟨hmem, hid⟩ := (getLinkBaseDimension_eq_ok hbase).mpr rfl
  have hcontexts : nodes.labels.map InheritanceNode.context = [L] := by
    rw [← RoseTree.labels_map, halone]
    rfl
  obtain ⟨node, hnode⟩ : ∃ node, nodes.labels = [node] :=
    List.length_eq_one_iff.mp (by simpa using congrArg List.length hcontexts)
  have hcontext : node.context = L := by simpa [hnode] using hcontexts
  -- the node of the link maps the dimension to a child
  have hobjects : ∀ o ∈ I.allObjects root, I.getType o = .eAbstractObject :=
    fun o => Interface.type_of_mem_allObjects
  have hmapped := hst.mapped (k := .dimension) hobjects (hnode ▸ List.mem_singleton_self node)
    (fun m _ o ho hask => by
      rw [Interface.Asks, Interface.memberKind, Interface.type_of_mem_hoisted hobjects ho] at hask
      simp [ElementType.isContext] at hask)
  rw [hcontext] at hmapped
  obtain ⟨j, hj, hbase'⟩ := List.getElem_of_mem hmem
  obtain ⟨e, he, heid⟩ := List.Forall₂.get hmapped hj (hmapped.length_eq ▸ hj)
  rw [List.get_eq_getElem, hbase', hid] at heid
  generalize ((node.places .dimension).filter fun i => !I.isHoisted ts i).get _ = i at he
  -- every child of the identifier is made from the dimension, and there is one
  have hfirst : ∀ {i' : ℕ} {e' : ι}, I.IsChild ts .dimension i' e' →
      I.getIdentifier e' = Interface.linkDimension → e' = base := by
    intro i' e' he' hid'
    have hdeclared := hst.first hobjects he'
    rw [hcontexts, Interface.firstDeclaration, List.flatMap_singleton] at hdeclared
    exact (getLinkBaseDimension_eq_ok hbase).mp ⟨List.mem_of_find?_eq_some hdeclared, hid'⟩
  obtain rfl := hfirst he heid
  have hdimensions : ∀ {d : List ℕ} {e' : ι}, (d, e') ∈ t.userDimensions k ∧
      I.getIdentifier e' = Interface.linkDimension ↔ (d, e') = (k ++ [i], e) := by
    intro d e'
    rw [mem_userDimensions hs]
    constructor
    · rintro ⟨⟨i', c, hc, hkind, rfl, rfl⟩, hid'⟩
      have hchild := hst.isChild_of_dimension hc hkind
      rw [hfirst hchild hid', hst.unique hchild he (by rw [hid', heid])]
    · intro heq
      obtain ⟨rfl, rfl⟩ := Prod.mk.inj heq
      obtain ⟨c, hc, hkind, helement, -⟩ := he
      exact ⟨⟨i, c, hc, hkind, helement, rfl⟩, heid⟩
  have hfilter : (t.userDimensions k).filter
      (fun d => I.getIdentifier d.2 = Interface.linkDimension) = [(k ++ [i], e)] := by
    refine List.perm_singleton.mp ((List.perm_ext_iff_of_nodup ?_ (List.nodup_singleton _)).mpr ?_)
    · exact (nodup_userDimensions k).filter _
    · rintro ⟨d, e'⟩
      rw [List.mem_filter, decide_eq_true_eq, hdimensions, List.mem_singleton]
  obtain ⟨hmemd, -⟩ := hdimensions.mpr rfl
  refine ⟨k ++ [i], e, ?_, ?_, hmemd, heid⟩
  · rw [Interface.getConcreteLinkBaseDimension, hfilter]
  · obtain ⟨c, hc, -, helement, -⟩ := he
    refine if_pos (hinstances _ ?_)
    rw [Interface.getInstances, Bool.false_and, if_neg Bool.false_ne_true, List.mem_map]
    refine ⟨(e, k ++ [i]), List.mem_filter.mpr ⟨?_, decide_eq_true rfl⟩, rfl⟩
    exact List.mem_map.mpr ⟨_, RoseTree.located_child hs hc, by rw [helement]⟩

/-! ## The switch -/

/-- The group of a link has the instances of the target of the link. -/
theorem readLinkReference_eq_ok (hlinked : I.linkAnalysis t = .ok linked) (hL : L ∈ I.links)
    (hT : I.getBaseContexts L = [T]) (h : ConcreteTree.Derives t k T) :
    ∃ group ∈ linked.groups, k ∈ group.concreteTargets ∧
      Interface.readLinkReference (Interface.getLinkGroup linked L) k =
        .ok (.linkReference k group.name) := by
  simp only [Interface.linkAnalysis, except_bind_ok, mapError_eq_ok] at hlinked
  obtain ⟨groups, hgroups, dimensions, -, m, -, hok⟩ := hlinked
  obtain rfl := Except.ok.inj hok
  obtain ⟨hlinks, htargets⟩ := LinkAnalysis.links_of_calculateGroups hgroups
  obtain ⟨g, hg, hLg⟩ := (hlinks L).mpr (Interface.mem_links.mp hL)
  rw [Interface.getLinkGroup]
  cases hfind : groups.find? (fun group => L ∈ group.links) with
  | none => exact absurd (List.find?_eq_none.mp hfind g hg) (by simpa using hLg)
  | some group =>
    have hgroup := List.mem_of_find?_eq_some hfind
    obtain ⟨T', hT', hinstances⟩ := htargets group hgroup L (by simpa using List.find?_some hfind)
    obtain rfl : T' = T := by simpa [hT] using hT'.symm
    have hk : k ∈ group.concreteTargets := hinstances k ((mem_getInstances_iff
      (I.base_isContext (c := L) (by simp [hT]))).mpr h)
    exact ⟨group, hgroup, hk, if_pos hk⟩

section Cases
variable {labels : List (List ℕ)} {c : ConversionCase}

omit [DecidableEq ι] in
theorem fromLinkCase_eq_ok :
    I.fromLinkCase t linked labels k = .ok c ↔ ∃ d a, I.getConcreteLinkBaseDimension t k = .ok d ∧
      Interface.readLinkBase linked d = .ok a ∧ c = ⟨k, a, labels⟩ := by
  simp only [Interface.fromLinkCase, except_bind_ok]
  refine exists_congr fun d => ⟨?_, ?_⟩
  · rintro ⟨hd, a, ha, h⟩
    exact ⟨a, hd, ha, (Except.ok.inj h).symm⟩
  · rintro ⟨a, hd, ha, rfl⟩
    exact ⟨hd, a, ha, rfl⟩

omit [DecidableEq ι] in
theorem toLinkCase_eq_ok {group : Option (LinkGroup ι (List ℕ))} :
    Interface.toLinkCase group labels k = .ok c ↔ ∃ a, Interface.readLinkReference group k = .ok a ∧
      c = ⟨k, a, labels⟩ := by
  rw [Interface.toLinkCase, except_bind_ok]
  refine exists_congr fun a => and_congr_right fun _ => ?_
  exact ⟨fun h => (Except.ok.inj h).symm, fun h => congrArg _ h.symm⟩

end Cases

/-- What a switch consists of. -/
theorem generateConversion_eq_some {c : Compatibility ι} {s : ConversionSwitch}
    (hc : linked.compatibility.getCompatibility A = .ok c)
    (h : I.generateConversion t linked A = .ok (some s)) :
    c.dynamicCompatibleFromLinkTypes.sort.mapM (I.fromLinkCase t linked s.direct) = .ok s.fromLinks ∧
      c.dynamicCompatibleToLinkTypes.sort.mapM
        (Interface.toLinkCase (Interface.getLinkGroup linked A) s.direct) = .ok s.toLinks ∧
      s.direct = c.dynamicCompatibleTypes.sort := by
  rw [Interface.generateConversion, except_bind_ok] at h
  obtain ⟨c', hc', h⟩ := h
  obtain rfl : c' = c := Except.ok.inj (hc'.symm.trans hc)
  split at h
  · cases Except.ok.inj h
  · simp only [except_bind_ok] at h
    obtain ⟨fromLinks, hfrom, toLinks, hto, h⟩ := h
    obtain rfl := Option.some.inj (Except.ok.inj h)
    exact ⟨hfrom, hto, rfl⟩

theorem exists_generateConversion (ht : I.instanceAnalysis root fuel = .ok t)
    (hlinked : I.linkAnalysis t = .ok linked) {c : Compatibility ι}
    (hc : linked.compatibility.getCompatibility A = .ok c) (hcompatible : Compatible I t A c) :
    ∃ r, I.generateConversion t linked A = .ok r := by
  by_cases hempty : c.dynamicCompatibleTypes = ∅
  · refine ⟨none, ?_⟩
    rw [Interface.generateConversion, hc]
    exact if_pos hempty
  have hfromLinks : ∃ cs, c.dynamicCompatibleFromLinkTypes.sort.mapM
      (I.fromLinkCase t linked c.dynamicCompatibleTypes.sort) = .ok cs := by
    refine exists_mapM fun k hk => ?_
    obtain ⟨L, hL, -, -, -, hderives⟩ := (hcompatible.fromLink k).mp ((Finset.mem_sort _).mp hk)
    obtain ⟨d, -, hd, hread, -⟩ := readLinkBase_eq_ok ht hlinked hL hderives
    exact ⟨_, fromLinkCase_eq_ok.mpr ⟨d, _, hd, hread, rfl⟩⟩
  have htoLinks : ∃ cs, c.dynamicCompatibleToLinkTypes.sort.mapM
      (Interface.toLinkCase (Interface.getLinkGroup linked A) c.dynamicCompatibleTypes.sort) =
        .ok cs := by
    refine exists_mapM fun k hk => ?_
    obtain ⟨hL, T, hT, hderives⟩ := (hcompatible.toLink k).mp ((Finset.mem_sort _).mp hk)
    obtain ⟨group, -, -, hread⟩ := readLinkReference_eq_ok hlinked hL hT hderives
    exact ⟨_, toLinkCase_eq_ok.mpr ⟨_, hread, rfl⟩⟩
  obtain ⟨fromLinks, hfrom⟩ := hfromLinks
  obtain ⟨toLinks, hto⟩ := htoLinks
  refine ⟨some ⟨fromLinks, toLinks, c.dynamicCompatibleTypes.sort⟩, ?_⟩
  rw [Interface.generateConversion, except_bind_ok]
  refine ⟨c, hc, ?_⟩
  rw [if_neg hempty]
  simp only [except_bind_ok]
  exact ⟨fromLinks, hfrom, toLinks, hto, rfl⟩

/-- The instances of a type, of the links to it and of the target of a link are different ones. -/
theorem labels_disjoint (ht : I.instanceAnalysis root fuel = .ok t) {c : Compatibility ι}
    (hc : Compatible I t A c) :
    Disjoint c.dynamicCompatibleFromLinkTypes c.dynamicCompatibleToLinkTypes ∧
      Disjoint c.dynamicCompatibleFromLinkTypes c.dynamicCompatibleTypes ∧
        Disjoint c.dynamicCompatibleToLinkTypes c.dynamicCompatibleTypes := by
  refine ⟨?_, ?_, ?_⟩ <;> rw [Finset.disjoint_left] <;> intro k hk hk'
  · obtain ⟨L, hL, T, -, -, hkL⟩ := (hc.fromLink k).mp hk
    obtain ⟨-, T', hT', hkT'⟩ := (hc.toLink k).mp hk'
    have hlink := (Interface.mem_links.mp hL).2
    obtain rfl := eq_of_derives_link ht hlink hkL hkT'
    rw [target_not_link hT'] at hlink
    cases hlink
  · obtain ⟨L, hL, T, hT, halong, hkL⟩ := (hc.fromLink k).mp hk
    have hlink := (Interface.mem_links.mp hL).2
    obtain rfl := eq_of_derives_link ht hlink hkL ((hc.dynamic k).mp hk')
    obtain rfl := eq_of_along_link ht hlink halong.symm
    rw [target_not_link hT] at hlink
    cases hlink
  · obtain ⟨hA, T, hT, hkT⟩ := (hc.toLink k).mp hk
    have hlink := (Interface.mem_links.mp hA).2
    obtain rfl := eq_of_derives_link ht hlink ((hc.dynamic k).mp hk') hkT
    rw [target_not_link hT] at hlink
    cases hlink

/-- **Every switch is well formed.** In a session whose analyses succeed the conversion of every context
is generated, and where there is a switch, it is well formed. -/
theorem generateConversion_wellFormed (ht : I.instanceAnalysis root fuel = .ok t)
    (hlinked : I.linkAnalysis t = .ok linked) (hA : A ∈ I.contexts) :
    ∃ r, I.generateConversion t linked A = .ok r ∧ ∀ s ∈ r, I.WellFormed t linked s := by
  obtain ⟨hdom, hspec⟩ := compatible_of_linkAnalysis ht hlinked
  obtain ⟨c, hc⟩ := (hdom A).mpr hA
  have hcompatible := hspec hc
  obtain ⟨r, hr⟩ := exists_generateConversion ht hlinked hc hcompatible
  refine ⟨r, hr, fun s hs => ?_⟩
  rw [Option.mem_def] at hs
  subst hs
  obtain ⟨hfrom, hto, hdirect⟩ := generateConversion_eq_some hc hr
  have hfromCase : ∀ e ∈ s.fromLinks, ∃ k ∈ c.dynamicCompatibleFromLinkTypes, ∃ d a,
      I.getConcreteLinkBaseDimension t k = .ok d ∧ Interface.readLinkBase linked d = .ok a ∧
        e = ⟨k, a, s.direct⟩ := by
    intro e he
    obtain ⟨k, hk, hcase⟩ := exists_of_mem_mapM hfrom he
    exact ⟨k, (Finset.mem_sort _).mp hk, fromLinkCase_eq_ok.mp hcase⟩
  have htoCase : ∀ e ∈ s.toLinks, ∃ k ∈ c.dynamicCompatibleToLinkTypes, ∃ a,
      Interface.readLinkReference (Interface.getLinkGroup linked A) k = .ok a ∧
        e = ⟨k, a, s.direct⟩ := by
    intro e he
    obtain ⟨k, hk, hcase⟩ := exists_of_mem_mapM hto he
    exact ⟨k, (Finset.mem_sort _).mp hk, toLinkCase_eq_ok.mp hcase⟩
  have hnodup : s.direct.Nodup := by
    rw [hdirect]
    exact Finset.sort_nodup _ _
  constructor
  · obtain ⟨hft, hfd, htd⟩ := labels_disjoint ht hcompatible
    have hfromLabels : s.fromLinks.map ConversionCase.label =
        c.dynamicCompatibleFromLinkTypes.sort.map id :=
      map_of_mapM (fun h => by obtain ⟨_, _, -, -, rfl⟩ := fromLinkCase_eq_ok.mp h; rfl) hfrom
    have htoLabels : s.toLinks.map ConversionCase.label =
        c.dynamicCompatibleToLinkTypes.sort.map id :=
      map_of_mapM (fun h => by obtain ⟨_, -, rfl⟩ := toLinkCase_eq_ok.mp h; rfl) hto
    rw [List.map_id] at hfromLabels htoLabels
    rw [ConversionSwitch.labels, hfromLabels, htoLabels, hdirect, List.nodup_append', List.nodup_append']
    refine ⟨⟨Finset.sort_nodup _ _, Finset.sort_nodup _ _, fun k hk hk' => ?_⟩, Finset.sort_nodup _ _,
      fun k hk hk' => ?_⟩
    · exact Finset.disjoint_left.mp hft ((Finset.mem_sort _).mp hk) ((Finset.mem_sort _).mp hk')
    · rw [List.mem_append, Finset.mem_sort, Finset.mem_sort] at hk
      rw [Finset.mem_sort] at hk'
      rcases hk with hk | hk
      · exact Finset.disjoint_left.mp hfd hk hk'
      · exact Finset.disjoint_left.mp htd hk hk'
  · intro e he
    rcases List.mem_append.mp he with he | he
    · obtain ⟨k, -, d, a, -, -, rfl⟩ := hfromCase e he
      exact hnodup
    · obtain ⟨k, -, a, -, rfl⟩ := htoCase e he
      exact hnodup
  · intro e he
    obtain ⟨k, hk, d, a, hd, ha, rfl⟩ := hfromCase e he
    obtain ⟨L, hL, -, -, -, hderives⟩ := (hcompatible.fromLink k).mp hk
    obtain ⟨d', e', hd', hread, hmem, hid⟩ := readLinkBase_eq_ok ht hlinked hL hderives
    obtain rfl : d' = d := Except.ok.inj (hd'.symm.trans hd)
    obtain rfl := Except.ok.inj (hread.symm.trans ha)
    exact ⟨d', rfl, e', hmem, hid⟩
  · intro e he
    obtain ⟨k, hk, a, ha, rfl⟩ := htoCase e he
    obtain ⟨hL, T, hT, hderives⟩ := (hcompatible.toLink k).mp hk
    obtain ⟨group, hgroup, hmem, hread⟩ := readLinkReference_eq_ok hlinked hL hT hderives
    obtain rfl := Except.ok.inj (hread.symm.trans ha)
    exact ⟨group, hgroup, rfl, hmem⟩

/-- There is a switch if there is an instance. -/
theorem exists_switch {c : Compatibility ι} {r : Option ConversionSwitch}
    (hc : linked.compatibility.getCompatibility A = .ok c) (hne : c.dynamicCompatibleTypes ≠ ∅)
    (hr : I.generateConversion t linked A = .ok r) : ∃ s, r = some s := by
  cases r with
  | some s => exact ⟨s, rfl⟩
  | none =>
    rw [Interface.generateConversion, hc] at hr
    obtain ⟨_, _, hr⟩ := except_bind_ok.mp ((if_neg hne).symm.trans hr)
    obtain ⟨_, _, hr⟩ := except_bind_ok.mp hr
    cases hr

end Links

/-- The switches of the type `A`, which reads the base dimension of the link, and of the link `L`, which reads
the link reference dimension of its target. -/
theorem linking_wellFormed :
    ∃ t linked s s', linking.instanceAnalysis 0 5 = .ok t ∧ linking.linkAnalysis t = .ok linked ∧
      linking.generateConversion t linked 2 = .ok (some s) ∧
      s.fromLinks = [⟨[0, 2], .linkBase [0, 2, 0], s.direct⟩] ∧ linking.WellFormed t linked s ∧
      linking.generateConversion t linked 4 = .ok (some s') ∧
      s'.toLinks = [⟨[0, 1], .linkReference [0, 1] "L", s'.direct⟩] ∧ linking.WellFormed t linked s' := by
  obtain ⟨t, linked, ht, hlinked, hfacts⟩ := exists_session linking 0 5
    (fun t linked => decide (linking.getConcreteLinkBaseDimension t [0, 2] = .ok [0, 2, 0] ∧
        Interface.readLinkBase linked [0, 2, 0] = .ok (.linkBase [0, 2, 0]) ∧
        Interface.readLinkReference (Interface.getLinkGroup linked 4) [0, 1] =
          .ok (.linkReference [0, 1] "L")) &&
      (linked.compatibility.getCompatibility 2).toOption.any (fun c : Compatibility ℕ =>
        decide (c.dynamicCompatibleTypes ≠ ∅ ∧ c.dynamicCompatibleFromLinkTypes = {[0, 2]})) &&
      (linked.compatibility.getCompatibility 4).toOption.any (fun c : Compatibility ℕ =>
        decide (c.dynamicCompatibleTypes ≠ ∅ ∧ c.dynamicCompatibleToLinkTypes = {[0, 1]}))) (by decide +kernel)
  rw [Bool.and_eq_true, Bool.and_eq_true, decide_eq_true_eq] at hfacts
  obtain ⟨⟨⟨hdimension, hbase, hreference⟩, htype⟩, hlink⟩ := hfacts
  obtain ⟨c, hc, hne, hfrom⟩ := exists_ok htype
  obtain ⟨c', hc', hne', hto⟩ := exists_ok hlink
  obtain ⟨r, hr, hwell⟩ :=
    generateConversion_wellFormed ht hlinked (by decide +kernel : 2 ∈ linking.contexts)
  obtain ⟨r', hr', hwell'⟩ :=
    generateConversion_wellFormed ht hlinked (by decide +kernel : 4 ∈ linking.contexts)
  obtain ⟨s, rfl⟩ := exists_switch hc hne hr
  obtain ⟨s', rfl⟩ := exists_switch hc' hne' hr'
  have hcase : linking.fromLinkCase t linked s.direct [0, 2] =
      .ok ⟨[0, 2], .linkBase [0, 2, 0], s.direct⟩ := fromLinkCase_eq_ok.mpr ⟨_, _, hdimension, hbase, rfl⟩
  have hcase' : Interface.toLinkCase (Interface.getLinkGroup linked 4) s'.direct [0, 1] =
      .ok ⟨[0, 1], .linkReference [0, 1] "L", s'.direct⟩ := toLinkCase_eq_ok.mpr ⟨_, hreference, rfl⟩
  have hfromLinks := (generateConversion_eq_some hc hr).1
  have htoLinks := (generateConversion_eq_some hc' hr').2.1
  rw [hfrom, Finset.sort_singleton, List.mapM_cons, hcase] at hfromLinks
  rw [hto, Finset.sort_singleton, List.mapM_cons, hcase'] at htoLinks
  exact ⟨t, linked, s, s', ht, hlinked, hr, (Except.ok.inj hfromLinks).symm, hwell s rfl, hr',
    (Except.ok.inj htoLinks).symm, hwell' s' rfl⟩

end EgLang.Compiler
