import EgLang.Compiler.ContextSets

/-!
# The sets and groups that link analysis finds

When the sets of contexts are the connected components of the relation between a context and its bases,
and the groups of links those with one name and with targets in one component.
-/

namespace EgLang.Compiler

open EgLang.Library EgLang.Library.Merging Relation

set_option autoImplicit false

namespace Interface
variable {ι : Type} (I : Interface ι)

/-- One has the other as a base context, or there is a chain of contexts of which this holds. -/
def Connected : ι → ι → Prop := EqvGen (Edge I.getBaseContexts I.plainContexts)

/-- No context inherits from itself, directly or through others. -/
def Acyclic : Prop := ∃ rank : ι → ℕ, ∀ c, ∀ b ∈ I.getBaseContexts c, rank b < rank c

/-- **The condition**: no context has two bases, and none has a base that has bases. -/
def Shallow : Prop :=
  ∀ c ∈ I.plainContexts, (I.getBaseContexts c).length ≤ 1 ∧
    ∀ b ∈ I.getBaseContexts c, I.getBaseContexts b = []

end Interface

namespace LinkAnalysis
variable {ι κ : Type} [DecidableEq ι] [DecidableEq κ] (I : Interface ι) (getInstances : ι → List κ)

/-- The sets partition the contexts that are no links into the connected components. -/
structure Partition (sets : ContextSets ι) : Prop where
  nonempty : ∀ p ∈ sets.sets, (sets.contents p).Nonempty
  plain : ∀ p ∈ sets.sets, ∀ c ∈ sets.contents p, c ∈ I.plainContexts
  unique : ∀ c ∈ I.plainContexts, ∃! p, p ∈ sets.sets ∧ c ∈ sets.contents p
  connected : ∀ a ∈ I.plainContexts, ∀ b ∈ I.plainContexts, sets.Together a b ↔ I.Connected a b

/-- A set is found for the target of every link, and two links are in one group exactly if they have one
name and their targets are in one component. -/
def Grouped (sets : ContextSets ι) (order : List ι) : Prop :=
  ∃ groups, calculateGroups I getInstances sets order = .ok groups ∧
    (∀ l ∈ I.links, ∃ g ∈ groups, l ∈ g.links) ∧
      ∀ l ∈ I.links, ∀ l' ∈ I.links, ∀ t t', getLinkTarget I l = .ok t → getLinkTarget I l' = .ok t' →
        ((∃ g ∈ groups, l ∈ g.links ∧ l' ∈ g.links) ↔
          I.getIdentifier l = I.getIdentifier l' ∧ I.Connected t t')

/-- What link analysis does right, whatever the order in which it visits the contexts. -/
def Right : Prop :=
  ∀ order, order.Perm I.contexts → Partition I (calculateSets I order) ∧
    Grouped I getInstances (calculateSets I order) order

variable {I getInstances} {order : List ι} {sets : ContextSets ι}

/-! ## The sets -/

/-- The sets are the classes of the visits. -/
theorem calculateSets_visits (hself : ∀ c, c ∉ I.getBaseContexts c) (contexts : List ι) :
    (calculateSets I contexts).Wf ∧ (calculateSets I contexts).Together =
      visits I.getBaseContexts (contexts.filter fun c => !(I.getType c).isLink) := by
  induction contexts using List.reverseRecOn with
  | nil =>
    refine ⟨⟨.nil, fun p hp => absurd hp List.not_mem_nil, fun p hp => absurd hp List.not_mem_nil,
      fun hp => absurd hp List.not_mem_nil⟩, ?_⟩
    funext a b
    refine eq_false ?_
    rintro ⟨p, hp, -⟩
    exact absurd hp List.not_mem_nil
  | append_singleton contexts c ih =>
    unfold calculateSets at ih ⊢
    rw [List.foldl_append, List.foldl_cons, List.foldl_nil, List.filter_append]
    by_cases hlink : (I.getType c).isLink = true
    · rw [if_pos hlink, List.filter_cons_of_neg (by simp [hlink]), List.filter_nil, List.append_nil]
      exact ih
    · obtain ⟨hwf, htogether⟩ := ih
      rw [if_neg hlink, List.filter_cons_of_pos (by simpa using hlink), List.filter_nil, visits_concat,
        ← htogether]
      exact addAction_visit hwf (hself c)

omit [DecidableEq ι] in
/-- The order in which the contexts that are no links are visited. -/
theorem plain_perm (h : order.Perm I.contexts) :
    (order.filter fun c => !(I.getType c).isLink).Perm I.plainContexts := h.filter _

/-- The sets are right exactly if the visits are. -/
theorem partition_iff (hself : ∀ c, c ∉ I.getBaseContexts c) (h : order.Perm I.contexts) :
    Partition I (calculateSets I order) ↔ ∀ a ∈ I.plainContexts, ∀ b ∈ I.plainContexts,
      visits I.getBaseContexts (order.filter fun c => !(I.getType c).isLink) a b ↔
        I.Connected a b := by
  obtain ⟨hwf, htogether⟩ := calculateSets_visits hself order
  rw [← htogether]
  refine ⟨Partition.connected, fun hright => ⟨hwf.nonempty, ?_, ?_, hright⟩⟩
  · intro p hp c hc
    have hcc : (calculateSets I order).Together c c := ⟨p, hp, hc, hc⟩
    rw [htogether] at hcc
    rcases visits_domain hcc with hc | ⟨v, -, hc⟩
    · exact (plain_perm h).mem_iff.mp hc
    · exact Interface.base_mem_plainContexts hc
  · intro c hc
    obtain ⟨p, hp, hcp, -⟩ := (hright c hc c hc).mpr (.refl c)
    exact ⟨p, ⟨hp, hcp⟩, fun q hq => hwf.unique hq.1 hp hq.2 hcp⟩

/-- Every order is right exactly if all visits of the plain contexts are. -/
theorem allRight_of_partition (hself : ∀ c, c ∉ I.getBaseContexts c)
    (h : ∀ order, order.Perm I.contexts → Partition I (calculateSets I order)) :
    AllRight I.getBaseContexts I.plainContexts := by
  intro l hl
  have hperm : (l ++ I.links).Perm I.contexts := by
    refine (hl.append_right _).trans ?_
    refine List.Perm.trans ?_ (List.filter_append_perm (fun c => !(I.getType c).isLink) I.contexts)
    refine (List.Perm.refl _).append (List.Perm.of_eq ?_)
    simp [Interface.links]
  have hplain : (l ++ I.links).filter (fun c => !(I.getType c).isLink) = l := by
    rw [List.filter_append, List.filter_eq_self.mpr, List.filter_eq_nil_iff.mpr, List.append_nil]
    · intro c hc
      simp [(Interface.mem_links.mp hc).2]
    · intro c hc
      simp [(Interface.mem_plainContexts.mp (hl.mem_iff.mp hc)).2]
  have hright := (partition_iff hself hperm).mp (h _ hperm)
  rw [hplain] at hright
  exact hright

/-! ## The groups -/

omit [DecidableEq ι] in
theorem getLinkTarget_eq_ok {l t : ι} : getLinkTarget I l = .ok t ↔ I.getBaseContexts l = [t] := by
  unfold getLinkTarget
  split
  · rename_i pTarget heq
    rw [heq]
    simp
  · rename_i hne
    constructor
    · intro h
      cases h
    · exact fun h => absurd h (hne t)

/-- In a partition every link has an entry. -/
theorem exists_entry (h : Partition I sets) {l : ι} (hl : l ∈ I.links) :
    ∃ t p, getLinkTarget I l = .ok t ∧ t ∈ I.plainContexts ∧ p ∈ sets.sets ∧ t ∈ sets.contents p ∧
      groupEntry I sets l = .ok ⟨I.getIdentifier l, p, l⟩ := by
  obtain ⟨t, ht⟩ := I.link_target (Interface.mem_links.mp hl).2
  have htarget : getLinkTarget I l = .ok t := getLinkTarget_eq_ok.mpr ht
  have hplain : t ∈ I.plainContexts := Interface.base_mem_plainContexts (c := l) (by simp [ht])
  obtain ⟨q, ⟨hq, htq⟩, -⟩ := h.unique t hplain
  cases hfind : find sets t with
  | none => exact absurd ⟨q, hq, htq, htq⟩ (find_eq_none.mp hfind)
  | some p =>
    obtain ⟨hp, htp⟩ := find_eq_some hfind
    refine ⟨t, p, htarget, hplain, hp, htp, ?_⟩
    rw [groupEntry, except_bind_ok]
    refine ⟨t, htarget, ?_⟩
    rw [hfind]
    rfl

omit [DecidableEq κ] in
theorem groupEntry_eq_ok {l : ι} {e : GroupEntry ι} (h : groupEntry I sets l = .ok e) :
    e.link = l ∧ ∃ t, I.getBaseContexts l = [t] ∧ find sets t = some e.pSet := by
  rw [groupEntry, except_bind_ok] at h
  obtain ⟨t, ht, h⟩ := h
  split at h
  · cases h
  · rename_i p hp
    obtain rfl := Except.ok.inj h
    exact ⟨rfl, t, getLinkTarget_eq_ok.mp ht, hp⟩

theorem makeGroup_eq_ok {groupMap : List (GroupEntry ι)} {key : String × ℕ} {g : LinkGroup ι κ}
    (h : makeGroup I getInstances sets groupMap key = .ok g) :
    g.links = (groupMap.filter fun e => e.key = key).map GroupEntry.link ∧
      g.concreteTargets = uniquify
        ((I.objects.filter fun c => c ∈ sets.contents key.2).flatMap getInstances) := by
  unfold makeGroup at h
  split at h
  · cases h
  · obtain rfl := Except.ok.inj h
    exact ⟨rfl, rfl⟩

/-- Whatever the sets are: when there are groups, every link is in one, and the instances of its target
are among the concrete targets of the group. -/
theorem links_of_calculateGroups {groups : List (LinkGroup ι κ)}
    (h : calculateGroups I getInstances sets order = .ok groups) :
    (∀ l, (∃ g ∈ groups, l ∈ g.links) ↔ l ∈ order ∧ (I.getType l).isLink = true) ∧
      ∀ g ∈ groups, ∀ l ∈ g.links, ∃ t, I.getBaseContexts l = [t] ∧
        ∀ k ∈ getInstances t, k ∈ g.concreteTargets := by
  rw [calculateGroups, except_bind_ok] at h
  obtain ⟨groupMap, hmap, hgroups⟩ := h
  have hlink : ∀ g ∈ groups, ∀ l ∈ g.links, ∃ key, makeGroup I getInstances sets groupMap key = .ok g ∧
      ∃ e ∈ groupMap, e.key = key ∧ groupEntry I sets l = .ok e ∧
        l ∈ order.filter fun c => (I.getType c).isLink := by
    intro g hg l hl
    obtain ⟨key, -, hkey⟩ := exists_of_mem_mapM hgroups hg
    rw [(makeGroup_eq_ok hkey).1, List.mem_map] at hl
    obtain ⟨e, he, rfl⟩ := hl
    obtain ⟨he, hek⟩ := List.mem_filter.mp he
    obtain ⟨l, hl, hle⟩ := exists_of_mem_mapM hmap he
    obtain ⟨rfl, -⟩ := groupEntry_eq_ok hle
    exact ⟨key, hkey, e, he, of_decide_eq_true hek, hle, hl⟩
  rw [mapM_eq_ok] at hmap hgroups
  refine ⟨fun l => ⟨?_, ?_⟩, fun g hg l hl => ?_⟩
  · rintro ⟨g, hg, hl⟩
    obtain ⟨-, -, -, -, -, -, hl⟩ := hlink g hg l hl
    exact List.mem_filter.mp hl
  · intro hl
    have hmem : l ∈ order.filter fun c => (I.getType c).isLink := List.mem_filter.mpr hl
    obtain ⟨i, hi, rfl⟩ := List.getElem_of_mem hmem
    have hi' : i < groupMap.length := hmap.length_eq ▸ hi
    have hle := List.Forall₂.get hmap hi hi'
    have hkey : (groupMap[i]).key ∈ uniquify (groupMap.map GroupEntry.key) :=
      mem_uniquify.mpr (List.mem_map_of_mem (List.getElem_mem hi'))
    obtain ⟨j, hj, hjkey⟩ := List.getElem_of_mem hkey
    have hj' : j < groups.length := hgroups.length_eq ▸ hj
    have hmake := List.Forall₂.get hgroups hj hj'
    refine ⟨groups[j], List.getElem_mem hj', ?_⟩
    rw [List.get_eq_getElem, List.get_eq_getElem] at hmake
    rw [(makeGroup_eq_ok hmake).1, List.mem_map]
    exact ⟨groupMap[i], List.mem_filter.mpr ⟨List.getElem_mem hi', by rw [hjkey]; simp⟩,
      (groupEntry_eq_ok hle).1⟩
  · obtain ⟨key, hkey, e, -, rfl, hle, -⟩ := hlink g hg l hl
    obtain ⟨-, t, ht, hfind⟩ := groupEntry_eq_ok hle
    refine ⟨t, ht, fun k hk => ?_⟩
    rw [(makeGroup_eq_ok hkey).2, mem_uniquify, List.mem_flatMap]
    refine ⟨t, List.mem_filter.mpr ⟨I.base_mem (c := l) (by simp [ht]), ?_⟩, hk⟩
    exact decide_eq_true (find_eq_some hfind).2

theorem grouped_of_partition (h : Partition I sets) (horder : order.Perm I.contexts) :
    Grouped I getInstances sets order := by
  have hlinks : ∀ {l}, l ∈ order.filter (fun c => (I.getType c).isLink) ↔ l ∈ I.links :=
    (horder.filter _).mem_iff
  -- the entry of each link, and the set of its target
  let entry := fun l => ((groupEntry I sets l).toOption.getD ⟨"", 0, l⟩)
  have hentry : ∀ l ∈ I.links, groupEntry I sets l = .ok (entry l) ∧ (entry l).link = l ∧
      (entry l).name = I.getIdentifier l ∧ ∀ t, getLinkTarget I l = .ok t → t ∈ I.plainContexts ∧
        (entry l).pSet ∈ sets.sets ∧ t ∈ sets.contents (entry l).pSet := by
    intro l hl
    obtain ⟨t, p, ht, hplain, hp, htp, hok⟩ := exists_entry h hl
    have heq : entry l = ⟨I.getIdentifier l, p, l⟩ := by
      change (groupEntry I sets l).toOption.getD ⟨"", 0, l⟩ = _
      rw [hok]
      rfl
    refine ⟨by rw [hok, heq], by rw [heq], by rw [heq], fun t' ht' => ?_⟩
    rw [ht] at ht'
    cases ht'
    rw [heq]
    exact ⟨hplain, hp, htp⟩
  have hmap : (order.filter fun c => (I.getType c).isLink).mapM (groupEntry I sets) =
      .ok ((order.filter fun c => (I.getType c).isLink).map entry) :=
    mapM_ok fun l hl => (hentry l (hlinks.mp hl)).1
  set groupMap := (order.filter fun c => (I.getType c).isLink).map entry with hgroupMap
  have hmem : ∀ {e}, e ∈ groupMap ↔ ∃ l ∈ I.links, entry l = e := by
    intro e
    rw [hgroupMap, List.mem_map]
    exact exists_congr fun l => and_congr_left fun _ => hlinks
  -- the group of each key
  let group := fun key : String × ℕ =>
    ((makeGroup I getInstances sets groupMap key).toOption.getD ⟨"", [], [], [], []⟩)
  have hgroup : ∀ key ∈ uniquify (groupMap.map GroupEntry.key),
      makeGroup I getInstances sets groupMap key = .ok (group key) ∧
        (group key).links = (groupMap.filter fun e => e.key = key).map GroupEntry.link := by
    intro key hkey
    obtain ⟨e, he, rfl⟩ := List.mem_map.mp (mem_uniquify.mp hkey)
    obtain ⟨l, hl, rfl⟩ := hmem.mp he
    have hname : (entry l).key.1 ≠ "" := by
      change (entry l).name ≠ ""
      rw [(hentry l hl).2.2.1]
      exact I.link_identifier (Interface.mem_links.mp hl).2
    have hok : ∃ g, makeGroup I getInstances sets groupMap (entry l).key = .ok g ∧
        g.links = (groupMap.filter fun e => e.key = (entry l).key).map GroupEntry.link := by
      unfold makeGroup
      rw [if_neg hname]
      exact ⟨_, rfl, rfl⟩
    obtain ⟨g, hg, hgl⟩ := hok
    have heq : group (entry l).key = g := by
      change (makeGroup I getInstances sets groupMap (entry l).key).toOption.getD _ = g
      rw [hg]
      rfl
    rw [heq]
    exact ⟨hg, hgl⟩
  have hin : ∀ l ∈ I.links, ∀ key ∈ uniquify (groupMap.map GroupEntry.key),
      (l ∈ (group key).links ↔ (entry l).key = key) := by
    intro l hl key hkey
    rw [(hgroup key hkey).2, List.mem_map]
    constructor
    · rintro ⟨e, he, hel⟩
      obtain ⟨he, hkey'⟩ := List.mem_filter.mp he
      obtain ⟨l', hl', rfl⟩ := hmem.mp he
      rw [(hentry l' hl').2.1] at hel
      subst hel
      simpa using hkey'
    · intro hkey'
      exact ⟨entry l, List.mem_filter.mpr ⟨hmem.mpr ⟨l, hl, rfl⟩, by simpa using hkey'⟩,
        (hentry l hl).2.1⟩
  have hkey : ∀ l ∈ I.links, (entry l).key ∈ uniquify (groupMap.map GroupEntry.key) := fun l hl =>
    mem_uniquify.mpr (List.mem_map.mpr ⟨entry l, hmem.mpr ⟨l, hl, rfl⟩, rfl⟩)
  refine ⟨(uniquify (groupMap.map GroupEntry.key)).map group, ?_, ?_, ?_⟩
  · unfold calculateGroups
    rw [hmap]
    exact mapM_ok fun key hkey => (hgroup key hkey).1
  · intro l hl
    exact ⟨group (entry l).key, List.mem_map.mpr ⟨_, hkey l hl, rfl⟩,
      (hin l hl _ (hkey l hl)).mpr rfl⟩
  · intro l hl l' hl' t t' ht ht'
    obtain ⟨-, -, hname, htarget⟩ := hentry l hl
    obtain ⟨-, -, hname', htarget'⟩ := hentry l' hl'
    obtain ⟨hplain, hp, htp⟩ := htarget t ht
    obtain ⟨hplain', hp', htp'⟩ := htarget' t' ht'
    have hpSet : (entry l).pSet = (entry l').pSet ↔ I.Connected t t' := by
      rw [← h.connected t hplain t' hplain']
      constructor
      · intro heq
        exact ⟨_, hp, htp, heq ▸ htp'⟩
      · rintro ⟨q, hq, htq, htq'⟩
        obtain ⟨r, -, hr⟩ := h.unique t hplain
        obtain ⟨r', -, hr'⟩ := h.unique t' hplain'
        calc (entry l).pSet = r := hr _ ⟨hp, htp⟩
          _ = q := (hr q ⟨hq, htq⟩).symm
          _ = r' := hr' q ⟨hq, htq'⟩
          _ = (entry l').pSet := (hr' _ ⟨hp', htp'⟩).symm
    have hsame : (entry l).key = (entry l').key ↔
        I.getIdentifier l = I.getIdentifier l' ∧ I.Connected t t' := by
      rw [GroupEntry.key, GroupEntry.key, Prod.mk.injEq, hname, hname', hpSet]
    rw [← hsame]
    constructor
    · rintro ⟨g, hg, hlg, hlg'⟩
      obtain ⟨key, hk, rfl⟩ := List.mem_map.mp hg
      exact ((hin l hl key hk).mp hlg).trans ((hin l' hl' key hk).mp hlg').symm
    · intro heq
      exact ⟨group (entry l).key, List.mem_map.mpr ⟨_, hkey l hl, rfl⟩,
        (hin l hl _ (hkey l hl)).mpr rfl, (hin l' hl' _ (hkey l hl)).mpr heq.symm⟩

/-! ## When they are right -/

variable (I getInstances) in
/-- **Main result.** If no context has two bases and none a base with bases, link analysis is right in
every order; and where no context inherits from itself, it is right in every order only then. -/
theorem right_iff_shallow :
    (I.Shallow → Right I getInstances) ∧
      (I.Acyclic → Right I getInstances → I.Shallow) := by
  constructor
  · intro hshallow order horder
    have hself : ∀ c, c ∉ I.getBaseContexts c := by
      intro c hc
      have hnil := (hshallow c (Interface.base_mem_plainContexts hc)).2 c hc
      rw [hnil] at hc
      exact absurd hc List.not_mem_nil
    have hall := @Flat.allRight _ I.getBaseContexts _ hshallow I.plainContexts_nodup
    have hpartition := (partition_iff hself horder).mpr (hall _ (plain_perm horder))
    exact ⟨hpartition, grouped_of_partition hpartition horder⟩
  · rintro ⟨rank, hrank⟩ hright
    have hself : ∀ c, c ∉ I.getBaseContexts c := fun c hc => absurd (hrank c c hc) (lt_irrefl _)
    have hall := allRight_of_partition hself fun order horder => (hright order horder).1
    exact (allRight_iff I.plainContexts_nodup
      (fun v _ b hb => Interface.base_mem_plainContexts hb) I.bases_nodup
      fun v _ b hb => hrank v b hb).mp hall

/-- `action A; action B : A; action C : A; action D : B, C; link L : A;` in the order of declaration: the
set that `D` is merged into is merged with itself. -/
def diamond : Interface ℕ :=
  .ofDeclarations
    [⟨.eAbstractRoot .eFileRoot, "", none, []⟩, ⟨.eAbstractAction, "A", some 0, []⟩,
      ⟨.eAbstractAction, "B", some 0, [1]⟩, ⟨.eAbstractAction, "C", some 0, [1]⟩,
      ⟨.eAbstractAction, "D", some 0, [2, 3]⟩, ⟨.eAbstractLink, "L", some 0, [1]⟩] (by decide)

/-- All four actions are lost, and no set is found for the target of the link. -/
theorem diamond_lost :
    diamond.contexts = [0, 1, 2, 3, 4, 5] ∧
      (calculateSets diamond diamond.contexts).sets.map
        (calculateSets diamond diamond.contexts).contents = [{0}] ∧
        calculateGroups diamond (fun _ => ([] : List ℕ)) (calculateSets diamond diamond.contexts)
          diamond.contexts = .error .noContextSet ∧
          ¬ Right diamond fun _ => ([] : List ℕ) := by
  have hfails : calculateGroups diamond (fun _ => ([] : List ℕ))
      (calculateSets diamond diamond.contexts) diamond.contexts = .error .noContextSet :=
    failure_eq_some.mp (by decide +kernel)
  refine ⟨by decide +kernel, by decide +kernel, hfails, fun hright => ?_⟩
  obtain ⟨-, groups, hok, -⟩ := hright diamond.contexts (.refl _)
  rw [hfails] at hok
  cases hok

end LinkAnalysis

end EgLang.Compiler
