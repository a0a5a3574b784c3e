import EgLang.Scheduler.Machine

/-! # What every state of the scheduler keeps

The seven containers are looked at in one way: a `Place` holds pairs of a node and the action it
refers to. `Wf` collects what holds in every state that is reached without undefined behaviour,
whatever the user does: nodes are unique, and the iterators of a registered action lead to nodes
that refer to it. It is proved once for each way the containers change.
-/

namespace EgLang.Scheduler
open Library
set_option autoImplicit false

/-- The containers of the scheduler. -/
inductive Place
  | list (l : ListId)
  | timeouts
  | events (m : MapId)
deriving DecidableEq, Repr

instance : Fintype Place :=
  ⟨{.list .one, .list .two, .list .three, .list .paused, .timeouts, .events .sleep, .events .wait},
    fun p => by rcases p with l | _ | m; cases l <;> decide; decide; cases m <;> decide⟩

namespace BasicScheduler

/-- A node with the action it refers to. -/
def pair {κ : Type} (e : Entry κ ℕ) : ℕ × ℕ := (e.node, e.val)

/-- What a container holds. -/
def held (s : BasicScheduler) : Place → List (ℕ × ℕ)
  | .list l => (s.lists l).map pair
  | .timeouts => s.timeouts.map pair
  | .events m => (s.events m).map pair

theorem fst_held_list (s : BasicScheduler) (l : ListId) :
    (s.held (.list l)).map Prod.fst = NodeList.nodes (s.lists l) := by
  simp [held, NodeList.nodes, pair, Function.comp_def]

theorem fst_held_timeouts (s : BasicScheduler) :
    (s.held .timeouts).map Prod.fst = NodeList.nodes s.timeouts := by
  simp [held, NodeList.nodes, pair, Function.comp_def]

theorem fst_held_events (s : BasicScheduler) (m : MapId) :
    (s.held (.events m)).map Prod.fst = NodeList.nodes (s.events m) := by
  simp [held, NodeList.nodes, pair, Function.comp_def]

theorem mem_held_events {s : BasicScheduler} {m : MapId} {x : ℕ × ℕ} :
    x ∈ s.held (.events m) ↔ ∃ e ∈ s.events m, e.node = x.1 ∧ e.val = x.2 := by
  simp [held, pair, Prod.ext_iff]

theorem mem_held_list {s : BasicScheduler} {l : ListId} {x : ℕ × ℕ} :
    x ∈ s.held (.list l) ↔ ∃ e ∈ s.lists l, e.node = x.1 ∧ e.val = x.2 := by
  simp [held, pair, Prod.ext_iff]

theorem map_pair_erase {κ : Type} (l : List (Entry κ ℕ)) (n : ℕ) :
    (NodeList.erase l n).map pair = (l.map pair).filter (fun x => x.1 ≠ n) := by
  rw [NodeList.erase, List.filter_map]
  rfl

/-! ## The invariant -/

/-- The containers by themselves. -/
structure Containers (s : BasicScheduler) : Prop where
  nodup : ∀ p, ((s.held p).map Prod.fst).Nodup
  unique : ∀ p q x y, x ∈ s.held p → y ∈ s.held q → x.1 = y.1 → p = q
  fresh : ∀ p x, x ∈ s.held p → x.1 < s.next ∧ x.2 < s.next
  sorted : ∀ m, NodeList.Sorted (s.events m)

/-- The iterators of one action. -/
structure ActionOk (s : BasicScheduler) (a : ℕ) (action : ActiveAction) : Prop where
  list : ∀ l n, action.iterList l = some n → (n, a) ∈ s.held (.list l)
  timeout : ∀ n, action.iterTimeout = some n → (n, a) ∈ s.held .timeouts
  regs_nodup : action.iterEventRef.Nodup
  regs : ∀ n, n ∈ action.iterEventRef ↔ ∃ m, (n, a) ∈ s.held (.events m)

/-- Two references under which `m_actions` finds the same node. -/
def SameKey (r r' : Reference) : Prop := referenceHash r = referenceHash r' ∧ r.equal r' = true

instance (r r' : Reference) : Decidable (SameKey r r') := instDecidableAnd

/-- **The invariant** of the scheduler. -/
structure Wf (s : BasicScheduler) : Prop where
  containers : s.Containers
  actions : ∀ a action, s.actions.lookup a = some action → s.ActionOk a action
  live_lt : ∀ a, s.Live a → a < s.next
  keys : ∀ a b action action', s.actions.lookup a = some action →
    s.actions.lookup b = some action' → SameKey action.ref action'.ref → a = b

theorem Containers.eq_of_fst {s : BasicScheduler} (h : s.Containers) {p : Place} {x y : ℕ × ℕ}
    (hx : x ∈ s.held p) (hy : y ∈ s.held p) (hxy : x.1 = y.1) : x = y :=
  List.inj_on_of_nodup_map (h.nodup p) hx hy hxy

theorem wf_initial : initial.Wf where
  containers :=
    { nodup := fun p => by cases p <;> exact List.nodup_nil
      unique := fun p _ x _ hx => by cases p <;> simp [held, initial] at hx
      fresh := fun p x hx => by cases p <;> simp [held, initial] at hx
      sorted := fun _ => List.Pairwise.nil }
  actions := fun a action h => by simp [initial] at h
  live_lt := fun a h => by simp [initial, Live] at h
  keys := fun a b action action' h => by simp [initial] at h

/-! ## Finding an action -/

theorem sameKey_symm {r r' : Reference} (h : SameKey r r') : SameKey r' r :=
  ⟨h.1.symm, by rw [Reference.equal_comm]; exact h.2⟩

theorem sameKey_trans {r r' r'' : Reference} (h : SameKey r r') (h' : SameKey r' r'') :
    SameKey r r'' :=
  ⟨h.1.trans h'.1, Reference.equal_trans h.2 h'.2⟩

theorem find_eq_some {s : BasicScheduler} {ref : Reference} {a : ℕ} (h : s.find ref = some a) :
    ∃ action, s.actions.lookup a = some action ∧ SameKey action.ref ref := by
  simp only [find, Option.map_eq_some_iff] at h
  obtain ⟨x, hx, rfl⟩ := h
  refine ⟨x.2, AList.mem_lookup_iff.mpr (List.mem_of_find?_eq_some hx), ?_⟩
  simpa [SameKey] using List.find?_some hx

theorem find_eq_none {s : BasicScheduler} {ref : Reference} (h : s.find ref = none) {a : ℕ}
    {action : ActiveAction} (ha : s.actions.lookup a = some action) :
    ¬ SameKey action.ref ref := by
  simp only [find, Option.map_eq_none_iff, List.find?_eq_none] at h
  have := h ⟨a, action⟩ (AList.mem_lookup_iff.mp ha)
  simpa [SameKey] using this

/-- An action is found under its own reference. -/
theorem Wf.find_ref {s : BasicScheduler} (h : s.Wf) {a : ℕ} {action : ActiveAction}
    (ha : s.actions.lookup a = some action) : s.find action.ref = some a := by
  cases hf : s.find action.ref with
  | none => exact absurd ⟨rfl, by simp⟩ (find_eq_none hf ha)
  | some b =>
    obtain ⟨action', hb, hk⟩ := find_eq_some hf
    rw [h.keys b a action' action hb ha hk]

/-! ## Ways the containers change -/

theorem Containers.insert {s s' : BasicScheduler} {p : Place} {x : ℕ × ℕ} (h : s.Containers)
    (hp : (s'.held p).Perm (x :: s.held p)) (hq : ∀ q, q ≠ p → s'.held q = s.held q)
    (hx : x.1 = s.next) (hx2 : x.2 < s.next) (hnext : s'.next = s.next + 1)
    (hsorted : ∀ m, NodeList.Sorted (s'.events m)) : s'.Containers := by
  have hmem : ∀ q y, y ∈ s'.held q → (q = p ∧ y = x) ∨ y ∈ s.held q := by
    intro q y hy
    by_cases hqp : q = p
    · subst hqp
      rcases List.mem_cons.mp (hp.mem_iff.mp hy) with rfl | hy
      · exact .inl ⟨rfl, rfl⟩
      · exact .inr hy
    · exact .inr (hq q hqp ▸ hy)
  have hnew : ∀ q y, y ∈ s.held q → y.1 ≠ x.1 := fun q y hy hyx => by
    have := (h.fresh q y hy).1
    omega
  refine ⟨fun q => ?_, fun q r y z hy hz hyz => ?_, fun q y hy => ?_, hsorted⟩
  · by_cases hqp : q = p
    · subst hqp
      refine ((hp.map Prod.fst).nodup_iff).mpr (List.nodup_cons.mpr ⟨?_, h.nodup q⟩)
      rintro hxs
      obtain ⟨y, hy, hyx⟩ := List.mem_map.mp hxs
      exact hnew q y hy hyx
    · rw [hq q hqp]
      exact h.nodup q
  · rcases hmem q y hy with ⟨rfl, rfl⟩ | hy
    · rcases hmem r z hz with ⟨rfl, rfl⟩ | hz
      · rfl
      · exact absurd hyz.symm (hnew r z hz)
    · rcases hmem r z hz with ⟨rfl, rfl⟩ | hz
      · exact absurd hyz (hnew q y hy)
      · exact h.unique q r y z hy hz hyz
  · rcases hmem q y hy with ⟨rfl, rfl⟩ | hy
    · omega
    · have := h.fresh q y hy
      omega

theorem Containers.shrink {s s' : BasicScheduler} (h : s.Containers)
    (hp : ∀ p, (s'.held p).Sublist (s.held p)) (hnext : s.next ≤ s'.next)
    (hsorted : ∀ m, NodeList.Sorted (s'.events m)) : s'.Containers where
  nodup p := (h.nodup p).sublist ((hp p).map _)
  unique p q x y hx hy hxy := h.unique p q x y ((hp p).subset hx) ((hp q).subset hy) hxy
  fresh p x hx := by
    have := h.fresh p x ((hp p).subset hx)
    omega
  sorted := hsorted

theorem ActionOk.of_held {s s' : BasicScheduler} {a : ℕ} {action : ActiveAction}
    (h : s.ActionOk a action) (heq : ∀ p n, (n, a) ∈ s'.held p ↔ (n, a) ∈ s.held p) :
    s'.ActionOk a action where
  list l n hl := (heq _ _).mpr (h.list l n hl)
  timeout n ht := (heq _ _).mpr (h.timeout n ht)
  regs_nodup := h.regs_nodup
  regs n := by simp only [heq, h.regs n]

/-- A change that concerns the entries of one action. -/
theorem Wf.update {s s' : BasicScheduler} {a : ℕ} {action action' : ActiveAction} (h : s.Wf)
    (ha : s.actions.lookup a = some action) (hs' : s'.actions = s.actions.insert a action')
    (href : action'.ref = action.ref) (hc : s'.Containers) (hnext : s.next ≤ s'.next)
    (hother : ∀ p n b, b ≠ a → ((n, b) ∈ s'.held p ↔ (n, b) ∈ s.held p))
    (hown : s'.ActionOk a action') : s'.Wf := by
  have hlook : ∀ b action₁, s'.actions.lookup b = some action₁ →
      ∃ action₀, s.actions.lookup b = some action₀ ∧ action₁.ref = action₀.ref := by
    intro b action₁ hb
    rw [hs'] at hb
    by_cases hba : b = a
    · subst hba
      rw [AList.lookup_insert] at hb
      exact ⟨action, ha, by rw [← Option.some.inj hb, href]⟩
    · rw [AList.lookup_insert_ne hba] at hb
      exact ⟨action₁, hb, rfl⟩
  refine ⟨hc, fun b action₁ hb => ?_, fun b hb => ?_, fun b c action₁ action₂ hb hc hk => ?_⟩
  · by_cases hba : b = a
    · subst hba
      rw [hs', AList.lookup_insert] at hb
      exact Option.some.inj hb ▸ hown
    · rw [hs', AList.lookup_insert_ne hba] at hb
      exact (h.actions b action₁ hb).of_held fun p n => hother p n b hba
  · obtain ⟨action₁, hb⟩ := live_iff.mp hb
    obtain ⟨action₀, hb, _⟩ := hlook b action₁ hb
    exact (h.live_lt b (live_iff.mpr ⟨_, hb⟩)).trans_le hnext
  · obtain ⟨action₀, hb, hr⟩ := hlook b action₁ hb
    obtain ⟨action₀', hc, hr'⟩ := hlook c action₂ hc
    exact h.keys b c action₀ action₀' hb hc (hr ▸ hr' ▸ hk)

/-- A change of the data of one action that leaves its iterators alone. -/
theorem Wf.setAction {s : BasicScheduler} {a : ℕ} {action action' : ActiveAction} (h : s.Wf)
    (ha : s.actions.lookup a = some action) (href : action'.ref = action.ref)
    (hlist : action'.iterList = action.iterList) (ht : action'.iterTimeout = action.iterTimeout)
    (hregs : action'.iterEventRef = action.iterEventRef) : (s.setAction a action').Wf := by
  have hok := h.actions a action ha
  refine h.update ha rfl href (h.containers.shrink (fun p => ?_) le_rfl h.containers.sorted) le_rfl
    (fun p n b _ => ?_) ⟨?_, ?_, ?_, ?_⟩
  · cases p <;> exact List.Sublist.refl _
  · cases p <;> rfl
  · rw [hlist]
    exact hok.list
  · rw [ht]
    exact hok.timeout
  · rw [hregs]
    exact hok.regs_nodup
  · rw [hregs]
    exact hok.regs

/-- Whatever is neither a container nor a registered action does not matter. -/
theorem Wf.of_eq {s s' : BasicScheduler} (h : s.Wf) (ha : s'.actions = s.actions)
    (hl : s'.lists = s.lists) (ht : s'.timeouts = s.timeouts) (he : s'.events = s.events)
    (hn : s'.next = s.next) : s'.Wf := by
  have hp : ∀ p, s'.held p = s.held p := by
    intro p
    cases p <;> simp [held, hl, ht, he]
  refine ⟨h.containers.shrink (fun p => by rw [hp]) (by rw [hn]) (he ▸ h.containers.sorted),
    fun a action hact => ?_, fun a hlive => ?_, ?_⟩
  · rw [ha] at hact
    exact (h.actions a action hact).of_held fun p n => by rw [hp]
  · rw [hn]
    exact h.live_lt a (by rwa [Live, ha] at hlive)
  · rw [ha]
    exact h.keys

theorem Wf.eraseAction {s : BasicScheduler} (h : s.Wf) (a : ℕ) : (s.eraseAction a).Wf := by
  have hp : ∀ p, (s.eraseAction a).held p = s.held p := fun p => by cases p <;> rfl
  have hlook : ∀ b action, (s.eraseAction a).actions.lookup b = some action →
      s.actions.lookup b = some action := by
    intro b action hb
    by_cases hba : b = a
    · subst hba
      simp [BasicScheduler.eraseAction] at hb
    · rwa [BasicScheduler.eraseAction, AList.lookup_erase_ne hba] at hb
  refine ⟨h.containers.shrink (fun p => by rw [hp]) le_rfl h.containers.sorted,
    fun b action hb => ?_, fun b hb => ?_, fun b c action action' hb hc => ?_⟩
  · exact (h.actions b action (hlook b action hb)).of_held fun p n => by rw [hp]
  · obtain ⟨action, hb⟩ := live_iff.mp hb
    exact h.live_lt b (live_iff.mpr ⟨action, hlook b action hb⟩)
  · exact h.keys b c action action' (hlook b action hb) (hlook c action' hc)

/-! ## Inserting into a list and removing from it -/

/-- The effect of `listInsert`. -/
def putList (l : ListId) (a : ℕ) (action : ActiveAction) (s : BasicScheduler) : BasicScheduler :=
  { s with
    lists := Function.update s.lists l (s.lists l ++ [⟨s.next, (), a⟩])
    next := s.next + 1
    actions := s.actions.insert a (action.setIterList l (some s.next)) }

/-- The effect of `listRemove` on an action that has an iterator into the list. -/
def dropList (l : ListId) (a n : ℕ) (action : ActiveAction) (s : BasicScheduler) :
    BasicScheduler :=
  { s with
    lists := Function.update s.lists l (NodeList.erase (s.lists l) n)
    actions := s.actions.insert a (action.setIterList l none) }

theorem listInsert_ok {s s' : BasicScheduler} {l : ListId} {a : ℕ} :
    s.listInsert l l a = .ok s' ↔
      ∃ action, s.actions.lookup a = some action ∧ s' = s.putList l a action := by
  simp only [listInsert, except_bind_ok, deref_eq_ok]
  simp [pure, Except.pure, setAction, putList, eq_comm]

theorem listRemove_ok {s s' : BasicScheduler} {l : ListId} {a : ℕ} :
    s.listRemove l l a = .ok s' ↔ ∃ action, s.actions.lookup a = some action ∧
      ((action.iterList l = none ∧ s' = s) ∨ ∃ n, action.iterList l = some n ∧
        n ∈ NodeList.nodes (s.lists l) ∧ s' = s.dropList l a n action) := by
  simp only [listRemove, except_bind_ok, deref_eq_ok]
  refine exists_congr fun action => and_congr_right fun _ => ?_
  cases hn : action.iterList l with
  | none => simp [pure, Except.pure, eq_comm]
  | some n =>
    by_cases hmem : n ∈ NodeList.nodes (s.lists l)
    · simp [hmem, pure, Except.pure, setAction, dropList, eq_comm]
    · simp [hmem]

theorem held_putList (s : BasicScheduler) (l : ListId) (a : ℕ) (action : ActiveAction) (p : Place) :
    (s.putList l a action).held p =
      if p = .list l then s.held p ++ [(s.next, a)] else s.held p := by
  cases p with
  | list l' =>
    by_cases hl : l' = l
    · subst hl
      simp [putList, held, pair]
    · simp [putList, held, hl]
  | timeouts => simp [putList, held]
  | events m => simp [putList, held]

theorem held_dropList (s : BasicScheduler) (l : ListId) (a n : ℕ) (action : ActiveAction)
    (p : Place) :
    (s.dropList l a n action).held p =
      if p = .list l then (s.held p).filter (fun x => x.1 ≠ n) else s.held p := by
  cases p with
  | list l' =>
    by_cases hl : l' = l
    · subst hl
      simp only [dropList, held, Function.update_self, if_true]
      exact map_pair_erase _ _
    · simp [dropList, held, hl]
  | timeouts => simp [dropList, held]
  | events m => simp [dropList, held]

theorem Wf.putList {s : BasicScheduler} (h : s.Wf) {l : ListId} {a : ℕ} {action : ActiveAction}
    (ha : s.actions.lookup a = some action) : (s.putList l a action).Wf := by
  have hok := h.actions a action ha
  have hlt := h.live_lt a (live_iff.mpr ⟨_, ha⟩)
  have hc : (s.putList l a action).Containers := by
    refine h.containers.insert (p := .list l) (x := (s.next, a)) ?_ (fun q hq => ?_) rfl hlt rfl
      h.containers.sorted
    · rw [held_putList, if_pos rfl]
      exact List.perm_append_singleton _ _
    · rw [held_putList, if_neg hq]
  have hsub : ∀ p x, x ∈ s.held p → x ∈ (s.putList l a action).held p := by
    intro p x hx
    rw [held_putList]
    split
    · exact List.mem_append_left _ hx
    · exact hx
  refine h.update ha rfl rfl hc (Nat.le_succ _) (fun p n b hb => ?_) ⟨?_, ?_, hok.regs_nodup, ?_⟩
  · rw [held_putList]
    split <;> simp [hb]
  · intro l' n hn
    by_cases hl : l' = l
    · subst hl
      simp only [ActiveAction.setIterList_self, Option.some.injEq] at hn
      subst hn
      simp [held_putList]
    · rw [ActiveAction.setIterList_of_ne _ _ _ hl] at hn
      exact hsub _ _ (hok.list l' n hn)
  · exact fun n hn => hsub _ _ (hok.timeout n hn)
  · intro n
    simp only [held_putList]
    simpa using hok.regs n

theorem Wf.dropList {s : BasicScheduler} (h : s.Wf) {l : ListId} {a n : ℕ} {action : ActiveAction}
    (ha : s.actions.lookup a = some action) (hn : action.iterList l = some n) :
    (s.dropList l a n action).Wf := by
  have hok := h.actions a action ha
  have hna := hok.list l n hn
  have hc : (s.dropList l a n action).Containers := by
    refine h.containers.shrink (fun p => ?_) le_rfl h.containers.sorted
    rw [held_dropList]
    split
    · exact List.filter_sublist
    · exact List.Sublist.refl _
  refine h.update ha rfl rfl hc le_rfl (fun p k b hb => ?_) ⟨?_, ?_, hok.regs_nodup, ?_⟩
  · rw [held_dropList]
    split
    · rename_i hp
      subst hp
      rw [List.mem_filter, and_iff_left_iff_imp]
      rintro hk
      simp only [ne_eq, decide_not, Bool.not_eq_eq_eq_not, Bool.not_true, decide_eq_false_iff_not]
      rintro rfl
      exact hb (Prod.ext_iff.mp (h.containers.eq_of_fst hk hna rfl)).2
    · exact Iff.rfl
  · intro l' k hk
    by_cases hl : l' = l
    · subst hl
      simp at hk
    · rw [ActiveAction.setIterList_of_ne _ _ _ hl] at hk
      rw [held_dropList, if_neg (by simpa using hl)]
      exact hok.list l' k hk
  · intro k hk
    rw [held_dropList, if_neg (by simp)]
    exact hok.timeout k hk
  · intro k
    simp only [held_dropList]
    simpa using hok.regs k

theorem Wf.listInsert {s s' : BasicScheduler} (h : s.Wf) {l : ListId} {a : ℕ}
    (hs : s.listInsert l l a = .ok s') : s'.Wf := by
  obtain ⟨action, ha, rfl⟩ := listInsert_ok.mp hs
  exact h.putList ha

theorem Wf.listRemove {s s' : BasicScheduler} (h : s.Wf) {l : ListId} {a : ℕ}
    (hs : s.listRemove l l a = .ok s') : s'.Wf := by
  obtain ⟨action, ha, ⟨_, rfl⟩ | ⟨n, hn, _, rfl⟩⟩ := listRemove_ok.mp hs
  · exact h
  · exact h.dropList ha hn

theorem listInsert_total {s : BasicScheduler} {l : ListId} {a : ℕ} (ha : s.Live a) :
    ∃ s', s.listInsert l l a = .ok s' := by
  obtain ⟨action, ha⟩ := live_iff.mp ha
  exact ⟨_, listInsert_ok.mpr ⟨action, ha, rfl⟩⟩

theorem Wf.listRemove_total {s : BasicScheduler} (h : s.Wf) {l : ListId} {a : ℕ}
    (ha : s.Live a) : ∃ s', s.listRemove l l a = .ok s' := by
  obtain ⟨action, ha⟩ := live_iff.mp ha
  cases hn : action.iterList l with
  | none => exact ⟨s, listRemove_ok.mpr ⟨action, ha, .inl ⟨hn, rfl⟩⟩⟩
  | some n =>
    obtain ⟨e, he, hen, _⟩ := mem_held_list.mp ((h.actions a action ha).list l n hn)
    exact ⟨_, listRemove_ok.mpr ⟨action, ha, .inr ⟨n, hn, NodeList.mem_nodes.mpr ⟨e, he, hen⟩, rfl⟩⟩⟩

/-! ## Inserting into the timeouts and removing from them -/

/-- The effect of `timeoutInsert`. -/
def putTimeout (a : ℕ) (timeout : ℤ) (action : ActiveAction) (s : BasicScheduler) :
    BasicScheduler :=
  { s with
    timeouts := NodeList.insert ⟨s.next, timeout, a⟩ s.timeouts
    next := s.next + 1
    actions := s.actions.insert a { action with iterTimeout := some s.next } }

/-- The effect of `timeoutRemove` on an action that has an iterator into the timeouts. -/
def dropTimeout (a n : ℕ) (action : ActiveAction) (s : BasicScheduler) : BasicScheduler :=
  { s with
    timeouts := NodeList.erase s.timeouts n
    actions := s.actions.insert a { action with iterTimeout := none } }

theorem timeoutInsert_ok {s s' : BasicScheduler} {a : ℕ} {timeout : ℤ} :
    s.timeoutInsert a timeout = .ok s' ↔
      ∃ action, s.actions.lookup a = some action ∧ s' = s.putTimeout a timeout action := by
  simp only [timeoutInsert, except_bind_ok, deref_eq_ok]
  simp [pure, Except.pure, BasicScheduler.setAction, putTimeout, eq_comm]

theorem timeoutRemove_ok {s s' : BasicScheduler} {a : ℕ} :
    s.timeoutRemove a = .ok s' ↔ ∃ action, s.actions.lookup a = some action ∧
      ((action.iterTimeout = none ∧ s' = s) ∨ ∃ n, action.iterTimeout = some n ∧
        n ∈ NodeList.nodes s.timeouts ∧ s' = s.dropTimeout a n action) := by
  simp only [timeoutRemove, except_bind_ok, deref_eq_ok]
  refine exists_congr fun action => and_congr_right fun _ => ?_
  cases hn : action.iterTimeout with
  | none => simp [pure, Except.pure, eq_comm]
  | some n =>
    by_cases hmem : n ∈ NodeList.nodes s.timeouts
    · simp [hmem, pure, Except.pure, BasicScheduler.setAction, dropTimeout, eq_comm]
    · simp [hmem]

theorem held_putTimeout (s : BasicScheduler) (a : ℕ) (timeout : ℤ) (action : ActiveAction) :
    (∀ p, p ≠ .timeouts → (s.putTimeout a timeout action).held p = s.held p) ∧
      ((s.putTimeout a timeout action).held .timeouts).Perm ((s.next, a) :: s.held .timeouts) := by
  refine ⟨fun p hp => ?_, ?_⟩
  · cases p <;> simp_all [held, putTimeout]
  · exact (NodeList.insert_perm _ _).map pair

theorem held_dropTimeout (s : BasicScheduler) (a n : ℕ) (action : ActiveAction) (p : Place) :
    (s.dropTimeout a n action).held p =
      if p = .timeouts then (s.held p).filter (fun x => x.1 ≠ n) else s.held p := by
  cases p with
  | timeouts =>
    simp only [dropTimeout, held, if_true]
    exact map_pair_erase _ _
  | list l => simp [dropTimeout, held]
  | events m => simp [dropTimeout, held]

theorem Wf.putTimeout {s : BasicScheduler} (h : s.Wf) {a : ℕ} {timeout : ℤ} {action : ActiveAction}
    (ha : s.actions.lookup a = some action) : (s.putTimeout a timeout action).Wf := by
  have hok := h.actions a action ha
  have hlt := h.live_lt a (live_iff.mpr ⟨_, ha⟩)
  obtain ⟨hq, hp⟩ := held_putTimeout s a timeout action
  have hc : (s.putTimeout a timeout action).Containers :=
    h.containers.insert hp hq rfl hlt rfl h.containers.sorted
  have hmem : ∀ p n b, (n, b) ∈ (s.putTimeout a timeout action).held p ↔
      (p = .timeouts ∧ n = s.next ∧ b = a) ∨ (n, b) ∈ s.held p := by
    intro p n b
    by_cases h' : p = .timeouts
    · subst h'
      rw [hp.mem_iff]
      simp
    · simp [hq p h', h']
  refine h.update ha rfl rfl hc (Nat.le_succ _) (fun p n b hb => ?_) ⟨?_, ?_, hok.regs_nodup, ?_⟩
  · simp [hmem, hb]
  · exact fun l n hn => (hmem _ _ _).mpr (.inr (hok.list l n hn))
  · intro n hn
    simp only [Option.some.injEq] at hn
    exact (hmem _ _ _).mpr (.inl ⟨rfl, hn.symm, rfl⟩)
  · intro n
    simpa [hmem] using hok.regs n

theorem Wf.dropTimeout {s : BasicScheduler} (h : s.Wf) {a n : ℕ} {action : ActiveAction}
    (ha : s.actions.lookup a = some action) (hn : action.iterTimeout = some n) :
    (s.dropTimeout a n action).Wf := by
  have hok := h.actions a action ha
  have hna := hok.timeout n hn
  have hc : (s.dropTimeout a n action).Containers := by
    refine h.containers.shrink (fun p => ?_) le_rfl h.containers.sorted
    rw [held_dropTimeout]
    split
    · exact List.filter_sublist
    · exact List.Sublist.refl _
  refine h.update ha rfl rfl hc le_rfl (fun p k b hb => ?_) ⟨?_, ?_, hok.regs_nodup, ?_⟩
  · rw [held_dropTimeout]
    split
    · rename_i hp
      subst hp
      rw [List.mem_filter, and_iff_left_iff_imp]
      rintro hk
      simp only [ne_eq, decide_not, Bool.not_eq_eq_eq_not, Bool.not_true, decide_eq_false_iff_not]
      rintro rfl
      exact hb (Prod.ext_iff.mp (h.containers.eq_of_fst hk hna rfl)).2
    · exact Iff.rfl
  · intro l k hk
    rw [held_dropTimeout, if_neg (by simp)]
    exact hok.list l k hk
  · intro k hk
    simp at hk
  · intro k
    simp only [held_dropTimeout]
    simpa using hok.regs k

theorem Wf.timeoutInsert {s s' : BasicScheduler} (h : s.Wf) {a : ℕ} {timeout : ℤ}
    (hs : s.timeoutInsert a timeout = .ok s') : s'.Wf := by
  obtain ⟨action, ha, rfl⟩ := timeoutInsert_ok.mp hs
  exact h.putTimeout ha

theorem Wf.timeoutRemove {s s' : BasicScheduler} (h : s.Wf) {a : ℕ}
    (hs : s.timeoutRemove a = .ok s') : s'.Wf := by
  obtain ⟨action, ha, ⟨_, rfl⟩ | ⟨n, hn, _, rfl⟩⟩ := timeoutRemove_ok.mp hs
  · exact h
  · exact h.dropTimeout ha hn

theorem Wf.timeoutRemove_total {s : BasicScheduler} (h : s.Wf) {a : ℕ} (ha : s.Live a) :
    ∃ s', s.timeoutRemove a = .ok s' := by
  obtain ⟨action, ha⟩ := live_iff.mp ha
  cases hn : action.iterTimeout with
  | none => exact ⟨s, timeoutRemove_ok.mpr ⟨action, ha, .inl ⟨hn, rfl⟩⟩⟩
  | some n =>
    have hmem : n ∈ NodeList.nodes s.timeouts := by
      rw [← fst_held_timeouts]
      exact List.mem_map_of_mem (f := Prod.fst) ((h.actions a action ha).timeout n hn)
    exact ⟨_, timeoutRemove_ok.mpr ⟨action, ha, .inr ⟨n, hn, hmem, rfl⟩⟩⟩

/-! ## Registering for events and forgetting them -/

/-- The effect of `eventInsert`. -/
def putEvent (m : MapId) (a : ℕ) (ev : Reference) (action : ActiveAction) (s : BasicScheduler) :
    BasicScheduler :=
  { s with
    events := Function.update s.events m (NodeList.insert ⟨s.next, ev, a⟩ (s.events m))
    next := s.next + 1
    actions := s.actions.insert a
      { action with iterEventRef := action.iterEventRef ++ [s.next] } }

/-- Erasing the nodes of an array of iterators from an event map. -/
def dropEvents (m : MapId) (ns : List ℕ) (s : BasicScheduler) : BasicScheduler :=
  { s with events := Function.update s.events m ((s.events m).filter (fun e => e.node ∉ ns)) }

/-- The effect of `eventRemove`. -/
def clearEvents (m : MapId) (a : ℕ) (action : ActiveAction) (s : BasicScheduler) :
    BasicScheduler :=
  (s.dropEvents m action.iterEventRef).setAction a { action with iterEventRef := [] }

theorem eventInsert_ok {s s' : BasicScheduler} {m : MapId} {a : ℕ} {ev : Reference} :
    s.eventInsert m a ev = .ok s' ↔
      ∃ action, s.actions.lookup a = some action ∧ s' = s.putEvent m a ev action := by
  simp only [eventInsert, except_bind_ok, deref_eq_ok]
  simp [pure, Except.pure, BasicScheduler.setAction, putEvent, eq_comm]

theorem eraseEvents_ok {m : MapId} {ns : List ℕ} (hns : ns.Nodup) {s s' : BasicScheduler} :
    eraseEvents m ns s = .ok s' ↔
      (∀ n ∈ ns, n ∈ NodeList.nodes (s.events m)) ∧ s' = s.dropEvents m ns := by
  induction ns generalizing s with
  | nil => simp [eraseEvents, dropEvents, eq_comm]
  | cons i is ih =>
    obtain ⟨hi, his⟩ := List.nodup_cons.mp hns
    by_cases hmem : i ∈ NodeList.nodes (s.events m)
    · simp only [eraseEvents, if_pos hmem]
      rw [ih his]
      have hnodes : ∀ n ∈ is, (n ∈ NodeList.nodes (NodeList.erase (s.events m) i) ↔
          n ∈ NodeList.nodes (s.events m)) := by
        intro n hn
        have hne : n ≠ i := fun h => hi (h ▸ hn)
        simp only [NodeList.mem_nodes, NodeList.mem_erase]
        constructor
        · rintro ⟨e, ⟨he, _⟩, rfl⟩
          exact ⟨e, he, rfl⟩
        · rintro ⟨e, he, rfl⟩
          exact ⟨e, ⟨he, hne⟩, rfl⟩
      have hfil : (s.events m).filter (fun e => decide (e.node ∉ is) && decide (e.node ≠ i)) =
          (s.events m).filter (fun e => decide (e.node ∉ i :: is)) :=
        List.filter_congr fun e _ => by simp [Bool.and_comm]
      simp only [Function.update_self, dropEvents, Function.update_idem, NodeList.erase,
        List.filter_filter, hfil]
      rw [List.forall_mem_cons, and_iff_right hmem]
      exact and_congr_left fun _ => forall₂_congr hnodes
    · simp [eraseEvents, hmem]

theorem eventRemove_eq_ok {s s' : BasicScheduler} {m : MapId} {a : ℕ}
    (hn : ∀ action, s.actions.lookup a = some action → action.iterEventRef.Nodup) :
    s.eventRemove m a = .ok s' ↔ ∃ action, s.actions.lookup a = some action ∧
      (∀ n ∈ action.iterEventRef, n ∈ NodeList.nodes (s.events m)) ∧
      s' = s.clearEvents m a action := by
  simp only [eventRemove, except_bind_ok, deref_eq_ok]
  refine exists_congr fun action => and_congr_right fun ha => ?_
  simp only [eraseEvents_ok (hn action ha)]
  constructor
  · rintro ⟨t, ⟨hmem, rfl⟩, ht⟩
    exact ⟨hmem, (Except.ok.inj ht).symm⟩
  · rintro ⟨hmem, rfl⟩
    exact ⟨_, ⟨hmem, rfl⟩, rfl⟩

theorem Wf.eventRemove_ok {s s' : BasicScheduler} (h : s.Wf) {m : MapId} {a : ℕ} :
    s.eventRemove m a = .ok s' ↔ ∃ action, s.actions.lookup a = some action ∧
      (∀ n ∈ action.iterEventRef, n ∈ NodeList.nodes (s.events m)) ∧
      s' = s.clearEvents m a action :=
  eventRemove_eq_ok fun action ha => (h.actions a action ha).regs_nodup

theorem held_putEvent (s : BasicScheduler) (m : MapId) (a : ℕ) (ev : Reference)
    (action : ActiveAction) :
    (∀ p, p ≠ .events m → (s.putEvent m a ev action).held p = s.held p) ∧
      ((s.putEvent m a ev action).held (.events m)).Perm
        ((s.next, a) :: s.held (.events m)) := by
  refine ⟨fun p hp => ?_, ?_⟩
  · cases p with
    | events m' => simp [held, putEvent, Function.update_of_ne (fun h => hp (congrArg _ h))]
    | list l => rfl
    | timeouts => rfl
  · simp only [held, putEvent, Function.update_self]
    exact (NodeList.insert_perm _ _).map pair

theorem held_clearEvents (s : BasicScheduler) (m : MapId) (a : ℕ) (action : ActiveAction)
    (p : Place) :
    (s.clearEvents m a action).held p =
      if p = .events m then (s.held p).filter (fun x => x.1 ∉ action.iterEventRef)
      else s.held p := by
  cases p with
  | events m' =>
    by_cases hm : m' = m
    · subst hm
      simp only [clearEvents, dropEvents, BasicScheduler.setAction, held, Function.update_self,
        if_true, List.filter_map]
      rfl
    · simp [clearEvents, dropEvents, BasicScheduler.setAction, held, hm]
  | list l => rfl
  | timeouts => rfl

theorem Wf.putEvent {s : BasicScheduler} (h : s.Wf) {m : MapId} {a : ℕ} {ev : Reference}
    {action : ActiveAction} (ha : s.actions.lookup a = some action) :
    (s.putEvent m a ev action).Wf := by
  have hok := h.actions a action ha
  have hlt := h.live_lt a (live_iff.mpr ⟨_, ha⟩)
  obtain ⟨hq, hp⟩ := held_putEvent s m a ev action
  have hsorted : ∀ m', NodeList.Sorted ((s.putEvent m a ev action).events m') := by
    intro m'
    by_cases hm : m' = m
    · subst hm
      simpa [BasicScheduler.putEvent] using (h.containers.sorted m').insert
    · simpa [BasicScheduler.putEvent, hm] using h.containers.sorted m'
  have hc : (s.putEvent m a ev action).Containers :=
    h.containers.insert hp hq rfl hlt rfl hsorted
  have hmem : ∀ p n b, (n, b) ∈ (s.putEvent m a ev action).held p ↔
      (p = .events m ∧ n = s.next ∧ b = a) ∨ (n, b) ∈ s.held p := by
    intro p n b
    by_cases h' : p = .events m
    · subst h'
      rw [hp.mem_iff]
      simp
    · simp [hq p h', h']
  have hnew : s.next ∉ action.iterEventRef := by
    intro hn
    obtain ⟨m', hm'⟩ := (hok.regs _).mp hn
    have := (h.containers.fresh _ _ hm').1
    omega
  refine h.update ha rfl rfl hc (Nat.le_succ _) (fun p n b hb => ?_) ⟨?_, ?_, ?_, ?_⟩
  · simp [hmem, hb]
  · exact fun l n hn => (hmem _ _ _).mpr (.inr (hok.list l n hn))
  · exact fun n hn => (hmem _ _ _).mpr (.inr (hok.timeout n hn))
  · exact hok.regs_nodup.append (List.nodup_singleton _) (by simpa using hnew)
  · intro n
    simp only [List.mem_append, List.mem_singleton, hmem, hok.regs n, exists_or]
    rw [or_comm]
    simp

theorem Wf.clearEvents {s : BasicScheduler} (h : s.Wf) {m : MapId} {a : ℕ} {action : ActiveAction}
    (ha : s.actions.lookup a = some action)
    (hm : ∀ n ∈ action.iterEventRef, n ∈ NodeList.nodes (s.events m)) :
    (s.clearEvents m a action).Wf := by
  have hok := h.actions a action ha
  have hsorted : ∀ m', NodeList.Sorted ((s.clearEvents m a action).events m') := by
    intro m'
    by_cases hm' : m' = m
    · subst hm'
      simpa [BasicScheduler.clearEvents, dropEvents, BasicScheduler.setAction] using
        (h.containers.sorted m').filter _
    · simpa [BasicScheduler.clearEvents, dropEvents, BasicScheduler.setAction, hm'] using
        h.containers.sorted m'
  have hc : (s.clearEvents m a action).Containers := by
    refine h.containers.shrink (fun p => ?_) le_rfl hsorted
    rw [held_clearEvents]
    split
    · exact List.filter_sublist
    · exact List.Sublist.refl _
  refine h.update ha rfl rfl hc le_rfl (fun p k b hb => ?_) ⟨?_, ?_, List.nodup_nil, ?_⟩
  · rw [held_clearEvents]
    split
    · rename_i hp
      subst hp
      rw [List.mem_filter, and_iff_left_iff_imp]
      rintro hk
      simp only [decide_eq_true_eq]
      intro hka
      obtain ⟨m', hm'⟩ := (hok.regs k).mp hka
      have heq := h.containers.unique _ _ _ _ hk hm' rfl
      rw [← heq] at hm'
      exact hb (Prod.ext_iff.mp (h.containers.eq_of_fst hk hm' rfl)).2
    · exact Iff.rfl
  · intro l n hn
    rw [held_clearEvents, if_neg (by simp)]
    exact hok.list l n hn
  · intro n hn
    rw [held_clearEvents, if_neg (by simp)]
    exact hok.timeout n hn
  · intro n
    simp only [List.not_mem_nil, false_iff, not_exists]
    intro m' hn
    rw [held_clearEvents] at hn
    split at hn
    · rename_i hp
      obtain ⟨hn, hk⟩ := List.mem_filter.mp hn
      exact (by simpa using hk : n ∉ action.iterEventRef) ((hok.regs n).mpr ⟨m', hn⟩)
    · rename_i hp
      have hmn := hm n ((hok.regs n).mpr ⟨m', hn⟩)
      rw [← fst_held_events] at hmn
      obtain ⟨y, hy, hyn⟩ := List.mem_map.mp hmn
      exact hp (h.containers.unique _ _ _ _ hn hy hyn.symm)

theorem Wf.eventInsert {s s' : BasicScheduler} (h : s.Wf) {m : MapId} {a : ℕ} {ev : Reference}
    (hs : s.eventInsert m a ev = .ok s') : s'.Wf := by
  obtain ⟨action, ha, rfl⟩ := eventInsert_ok.mp hs
  exact h.putEvent ha

theorem Wf.eventRemove {s s' : BasicScheduler} (h : s.Wf) {m : MapId} {a : ℕ}
    (hs : s.eventRemove m a = .ok s') : s'.Wf := by
  obtain ⟨action, ha, hm, rfl⟩ := h.eventRemove_ok.mp hs
  exact h.clearEvents ha hm

/-- The registrations of an action can be erased from a map that holds all of them. -/
theorem Wf.eventRemove_total {s : BasicScheduler} (h : s.Wf) {m : MapId} {a : ℕ} (ha : s.Live a)
    (hm : ∀ m', m' ≠ m → ∀ e ∈ s.events m', e.val ≠ a) : ∃ s', s.eventRemove m a = .ok s' := by
  obtain ⟨action, ha⟩ := live_iff.mp ha
  refine ⟨_, h.eventRemove_ok.mpr ⟨action, ha, fun n hn => ?_, rfl⟩⟩
  obtain ⟨m', hm'⟩ := ((h.actions a action ha).regs n).mp hn
  obtain ⟨e, he, hen, hea⟩ := mem_held_events.mp hm'
  by_cases hmm : m' = m
  · exact hmm ▸ NodeList.mem_nodes.mpr ⟨e, he, hen⟩
  · exact absurd hea (hm m' hmm e he)

/-! ## New actions -/

theorem insertAction_cases (s : BasicScheduler) (action : ActiveAction) :
    ((∃ b, s.find action.ref = some b) ∧ s.insertAction action = (s, none)) ∨
      (s.find action.ref = none ∧ s.insertAction action = (s.create action, some s.next)) := by
  unfold insertAction
  cases hf : s.find action.ref with
  | none => exact .inr ⟨rfl, rfl⟩
  | some b => exact .inl ⟨⟨b, rfl⟩, rfl⟩

theorem held_create (s : BasicScheduler) (action : ActiveAction) (p : Place) :
    (s.create action).held p = s.held p := by
  cases p <;> rfl

/-- No node refers to an action that is yet to come. -/
theorem Wf.not_held_next {s : BasicScheduler} (h : s.Wf) (p : Place) (n : ℕ) :
    (n, s.next) ∉ s.held p := fun hn => by
  have := (h.containers.fresh p _ hn).2
  simp at this

theorem create_lookup {s : BasicScheduler} {action action' : ActiveAction} {b : ℕ}
    (hb : (s.create action).actions.lookup b = some action') :
    (b = s.next ∧ action' = action) ∨ (b ≠ s.next ∧ s.actions.lookup b = some action') := by
  by_cases hbn : b = s.next
  · subst hbn
    rw [create, AList.lookup_insert] at hb
    exact .inl ⟨rfl, (Option.some.inj hb).symm⟩
  · rw [create, AList.lookup_insert_ne hbn] at hb
    exact .inr ⟨hbn, hb⟩

theorem Wf.create {s : BasicScheduler} (h : s.Wf) {ref : Reference} (pStopper : ℕ) (op : Bool)
    (hfind : s.find ref = none) : (s.create (.new ref pStopper op)).Wf := by
  refine ⟨h.containers.shrink (fun p => by rw [held_create]) (Nat.le_succ _) h.containers.sorted,
    fun b action hb => ?_, fun b hb => ?_, fun b c action action' hb hc hk => ?_⟩
  · rcases create_lookup hb with ⟨rfl, rfl⟩ | ⟨_, hb⟩
    · refine ⟨fun l n hn => ?_, fun n hn => ?_, List.nodup_nil, fun n => ?_⟩
      · simp [ActiveAction.new] at hn
      · simp [ActiveAction.new] at hn
      · simp only [ActiveAction.new, List.not_mem_nil, false_iff, not_exists]
        exact fun m => h.not_held_next (.events m) n
    · exact (h.actions b action hb).of_held fun p n => by rw [held_create]
  · obtain ⟨action, hb⟩ := live_iff.mp hb
    rcases create_lookup hb with ⟨rfl, _⟩ | ⟨_, hb⟩
    · exact Nat.lt_succ_self _
    · exact (h.live_lt b (live_iff.mpr ⟨_, hb⟩)).trans (Nat.lt_succ_self _)
  · rcases create_lookup hb with ⟨rfl, rfl⟩ | ⟨_, hb⟩
    · rcases create_lookup hc with ⟨rfl, _⟩ | ⟨_, hc⟩
      · rfl
      · exact absurd (sameKey_symm hk) (find_eq_none hfind hc)
    · rcases create_lookup hc with ⟨rfl, rfl⟩ | ⟨_, hc⟩
      · exact absurd hk (find_eq_none hfind hb)
      · exact h.keys b c action action' hb hc hk

end BasicScheduler
end EgLang.Scheduler
