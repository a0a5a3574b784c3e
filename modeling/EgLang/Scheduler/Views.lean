import EgLang.Scheduler.Transitions

/-! # The scheduler as one action sees it

A `View` is the scheduler reduced to one action: its iterators into the lists and the timeouts, and
the nodes that refer to it in each container. On views the operations of the scheduler are a few
set operations; the lemmas here say which, and that they leave the views of other actions alone.
-/

namespace EgLang.Scheduler
open Library
set_option autoImplicit false

/-- What the scheduler holds of one registered action. -/
@[ext]
structure View where
  iterList : ListId → Option ℕ
  iterTimeout : Option ℕ
  nodes : Place → Set ℕ

namespace View

def empty : View := ⟨fun _ => none, none, fun _ => ∅⟩

/-- A new node `n` in a list. -/
def put (l : ListId) (n : ℕ) (v : View) : View where
  iterList := Function.update v.iterList l (some n)
  iterTimeout := v.iterTimeout
  nodes := Function.update v.nodes (.list l) (insert n (v.nodes (.list l)))

/-- The node the iterator of a list leads to goes. -/
def take (l : ListId) (v : View) : View where
  iterList := Function.update v.iterList l none
  iterTimeout := v.iterTimeout
  nodes := Function.update v.nodes (.list l) (v.nodes (.list l) \ {n | v.iterList l = some n})

/-- The action leaves all lists but the paused one. -/
def leave (v : View) : View where
  iterList l := if l = .paused then v.iterList .paused else none
  iterTimeout := v.iterTimeout
  nodes
    | .list l => if l = .paused then v.nodes (.list l) else
        v.nodes (.list l) \ {n | v.iterList l = some n}
    | p => v.nodes p

def putTimeout (n : ℕ) (v : View) : View where
  iterList := v.iterList
  iterTimeout := some n
  nodes := Function.update v.nodes .timeouts (insert n (v.nodes .timeouts))

def takeTimeout (v : View) : View where
  iterList := v.iterList
  iterTimeout := none
  nodes := Function.update v.nodes .timeouts (v.nodes .timeouts \ {n | v.iterTimeout = some n})

def register (m : MapId) (ns : Set ℕ) (v : View) : View where
  iterList := v.iterList
  iterTimeout := v.iterTimeout
  nodes := Function.update v.nodes (.events m) (v.nodes (.events m) ∪ ns)

/-- All registrations go. -/
def deregister (v : View) : View where
  iterList := v.iterList
  iterTimeout := v.iterTimeout
  nodes
    | .events _ => ∅
    | p => v.nodes p

section Mem
variable {v : View} {l : ListId} {p : Place} {n k : ℕ}

@[simp] theorem mem_put : k ∈ (v.put l n).nodes p ↔ k ∈ v.nodes p ∨ (p = .list l ∧ k = n) := by
  by_cases hp : p = .list l
  · subst hp
    simp [put, or_comm]
  · simp [put, hp]

@[simp] theorem mem_take : k ∈ (v.take l).nodes p ↔
    k ∈ v.nodes p ∧ ¬ (p = .list l ∧ v.iterList l = some k) := by
  by_cases hp : p = .list l
  · subst hp
    simp [take]
  · simp [take, hp]

@[simp] theorem mem_leave : k ∈ v.leave.nodes p ↔
    k ∈ v.nodes p ∧ ∀ l, p = .list l → l ≠ .paused → v.iterList l ≠ some k := by
  cases p with
  | list l => by_cases hl : l = .paused <;> simp [leave, hl]
  | timeouts => simp [leave]
  | events m => simp [leave]

@[simp] theorem mem_putTimeout : k ∈ (v.putTimeout n).nodes p ↔
    k ∈ v.nodes p ∨ (p = .timeouts ∧ k = n) := by
  by_cases hp : p = .timeouts
  · subst hp
    simp [putTimeout, or_comm]
  · simp [putTimeout, hp]

@[simp] theorem mem_takeTimeout : k ∈ v.takeTimeout.nodes p ↔
    k ∈ v.nodes p ∧ ¬ (p = .timeouts ∧ v.iterTimeout = some k) := by
  by_cases hp : p = .timeouts
  · subst hp
    simp [takeTimeout]
  · simp [takeTimeout, hp]

@[simp] theorem mem_register {m : MapId} {ns : Set ℕ} : k ∈ (v.register m ns).nodes p ↔
    k ∈ v.nodes p ∨ (p = .events m ∧ k ∈ ns) := by
  by_cases hp : p = .events m
  · subst hp
    simp [register]
  · simp [register, hp]

@[simp] theorem mem_deregister : k ∈ v.deregister.nodes p ↔
    k ∈ v.nodes p ∧ ∀ m, p ≠ .events m := by
  cases p <;> simp [deregister]

end Mem

/-- Registrations are lost, but not the last one. -/
structure Loses (v w : View) : Prop where
  iterList : w.iterList = v.iterList
  iterTimeout : w.iterTimeout = v.iterTimeout
  lists : ∀ l, w.nodes (.list l) = v.nodes (.list l)
  timeouts : w.nodes .timeouts = v.nodes .timeouts
  events : ∀ m, w.nodes (.events m) ⊆ v.nodes (.events m)
  left : (∃ m, (v.nodes (.events m)).Nonempty) → ∃ m, (w.nodes (.events m)).Nonempty

theorem Loses.refl (v : View) : v.Loses v :=
  ⟨rfl, rfl, fun _ => rfl, rfl, fun _ => subset_rfl, id⟩

theorem Loses.subset {v w : View} (h : v.Loses w) (p : Place) : w.nodes p ⊆ v.nodes p := by
  cases p with
  | list l => exact (h.lists l).subset
  | timeouts => exact h.timeouts.subset
  | events m => exact h.events m

end View

namespace BasicScheduler

/-- The nodes of a container that refer to the action. -/
def nodesOf (s : BasicScheduler) (b : ℕ) (p : Place) : Set ℕ := {n | (n, b) ∈ s.held p}

/-- The action has no entry in the container. -/
def Absent (s : BasicScheduler) (a : ℕ) (p : Place) : Prop := ∀ x ∈ s.held p, x.2 ≠ a

instance (s : BasicScheduler) (a : ℕ) (p : Place) : Decidable (s.Absent a p) :=
  inferInstanceAs (Decidable (∀ x ∈ s.held p, x.2 ≠ a))

/-- The view of an action, if it is registered. -/
def view (s : BasicScheduler) (b : ℕ) : Option View :=
  (s.actions.lookup b).map fun action => ⟨action.iterList, action.iterTimeout, s.nodesOf b⟩

theorem mem_nodesOf {s : BasicScheduler} {b n : ℕ} {p : Place} :
    n ∈ s.nodesOf b p ↔ (n, b) ∈ s.held p := Iff.rfl

theorem nodesOf_eq_empty {s : BasicScheduler} {a : ℕ} {p : Place} :
    s.nodesOf a p = ∅ ↔ s.Absent a p := by
  rw [Set.eq_empty_iff_forall_notMem]
  exact ⟨fun h x hx hxa => h x.1 (by rw [mem_nodesOf, ← hxa]; exact hx),
    fun h n hn => h (n, a) hn rfl⟩

theorem view_eq_none {s : BasicScheduler} {b : ℕ} : s.view b = none ↔ s.actions.lookup b = none := by
  simp [view]

theorem view_of_lookup {s : BasicScheduler} {b : ℕ} {action : ActiveAction}
    (h : s.actions.lookup b = some action) :
    s.view b = some ⟨action.iterList, action.iterTimeout, s.nodesOf b⟩ := by
  simp [view, h]

theorem live_iff_view {s : BasicScheduler} {b : ℕ} : s.Live b ↔ ∃ v, s.view b = some v := by
  rw [live_iff]
  constructor
  · rintro ⟨action, ha⟩
    exact ⟨_, view_of_lookup ha⟩
  · rintro ⟨v, hv⟩
    obtain ⟨action, ha, _⟩ := Option.map_eq_some_iff.mp hv
    exact ⟨action, ha⟩

theorem nodesOf_eq_of_view {s : BasicScheduler} {b : ℕ} {v : View} (h : s.view b = some v) :
    s.nodesOf b = v.nodes := by
  obtain ⟨action, _, rfl⟩ := Option.map_eq_some_iff.mp h
  rfl

/-! ## Nothing but registrations is lost -/

/-- All that has happened to the action is that registrations have been lost. -/
structure Keeps (b : ℕ) (s s' : BasicScheduler) : Prop where
  view : ∀ v, s.view b = some v → ∃ w, s'.view b = some w ∧ v.Loses w
  gone : s.view b = none → s'.view b = none
  nodes : ∀ p, s'.nodesOf b p ⊆ s.nodesOf b p

/-- Nothing has happened to the action. -/
structure Untouched (b : ℕ) (s s' : BasicScheduler) : Prop where
  view : s'.view b = s.view b
  nodes : s'.nodesOf b = s.nodesOf b

theorem Untouched.refl (b : ℕ) (s : BasicScheduler) : Untouched b s s := ⟨rfl, rfl⟩

theorem Untouched.trans {b : ℕ} {s s' s'' : BasicScheduler} (h : Untouched b s s')
    (h' : Untouched b s' s'') : Untouched b s s'' :=
  ⟨h'.view.trans h.view, h'.nodes.trans h.nodes⟩

theorem Untouched.keeps {b : ℕ} {s s' : BasicScheduler} (h : Untouched b s s') : Keeps b s s' where
  view v hv := ⟨v, h.view.trans hv, .refl v⟩
  gone hv := h.view.trans hv
  nodes p := (congrFun h.nodes p).subset

theorem Keeps.untouched {b : ℕ} {s s' s'' : BasicScheduler} (h : Keeps b s s')
    (h' : Untouched b s' s'') : Keeps b s s'' where
  view v hv := by
    obtain ⟨w, hw, hl⟩ := h.view v hv
    exact ⟨w, h'.view.trans hw, hl⟩
  gone hv := h'.view.trans (h.gone hv)
  nodes p := by
    rw [h'.nodes]
    exact h.nodes p

theorem Keeps.live_iff {b : ℕ} {s s' : BasicScheduler} (h : Keeps b s s') :
    s'.Live b ↔ s.Live b := by
  rw [live_iff_view, live_iff_view]
  constructor
  · rintro ⟨w, hw⟩
    cases hv : s.view b with
    | none => rw [h.gone hv] at hw; cases hw
    | some v => exact ⟨v, rfl⟩
  · rintro ⟨v, hv⟩
    obtain ⟨w, hw, _⟩ := h.view v hv
    exact ⟨w, hw⟩

theorem view_congr {s s' : BasicScheduler} {b : ℕ}
    (hlookup : s'.actions.lookup b = s.actions.lookup b) (hnodes : s'.nodesOf b = s.nodesOf b) :
    s'.view b = s.view b := by
  rw [view, view, hlookup, hnodes]

theorem nodesOf_congr {s s' : BasicScheduler} (h : ∀ p, s'.held p = s.held p) (b : ℕ) :
    s'.nodesOf b = s.nodesOf b := by
  funext p
  rw [nodesOf, h]
  rfl

theorem untouched_of {b : ℕ} {s s' : BasicScheduler}
    (hlookup : s'.actions.lookup b = s.actions.lookup b) (hn : s'.nodesOf b = s.nodesOf b) :
    Untouched b s s' :=
  ⟨view_congr hlookup hn, hn⟩

/-! ## The view after each operation -/

section Views
variable {s s' : BasicScheduler} {a b : ℕ} {v : View} {l : ListId}

/-- Reading a view off the state. -/
theorem view_eq {w : View} {action : ActiveAction} (ha : s.actions.lookup b = some action)
    (hl : action.iterList = w.iterList) (ht : action.iterTimeout = w.iterTimeout)
    (hn : ∀ p n, (n, b) ∈ s.held p ↔ n ∈ w.nodes p) : s.view b = some w := by
  rw [view_of_lookup ha, Option.some.injEq]
  exact View.ext hl ht (funext fun p => Set.ext fun n => hn p n)

theorem view_listInsert (hs : s.listInsert l l a = .ok s') (hv : s.view a = some v) :
    s'.view a = some (v.put l s.next) := by
  obtain ⟨action, ha, rfl⟩ := listInsert_ok.mp hs
  rw [view_of_lookup ha, Option.some.injEq] at hv
  subst hv
  refine view_eq (AList.lookup_insert _) rfl rfl fun p n => ?_
  rw [held_putList, View.mem_put]
  split
  · rename_i hp
    simp [hp, mem_nodesOf]
  · rename_i hp
    simp [hp, mem_nodesOf]

theorem untouched_listInsert (hs : s.listInsert l l a = .ok s') (hb : b ≠ a) : Untouched b s s' := by
  obtain ⟨action, ha, rfl⟩ := listInsert_ok.mp hs
  have hn : (s.putList l a action).nodesOf b = s.nodesOf b := by
    ext p n
    rw [mem_nodesOf, held_putList, mem_nodesOf]
    split
    · simp [hb]
    · rfl
  exact untouched_of (AList.lookup_insert_ne hb) hn

theorem view_listRemove (hs : s.listRemove l l a = .ok s')
    (hv : s.view a = some v) : s'.view a = some (v.take l) := by
  obtain ⟨action, ha, ⟨hnone, rfl⟩ | ⟨n, hn, _, rfl⟩⟩ := listRemove_ok.mp hs
  · rw [view_of_lookup ha, Option.some.injEq] at hv
    subst hv
    refine view_eq ha ?_ rfl fun p n => ?_
    · simp [View.take, ← hnone]
    · simp [mem_nodesOf, hnone]
  · rw [view_of_lookup ha, Option.some.injEq] at hv
    subst hv
    refine view_eq (AList.lookup_insert _) rfl rfl fun p k => ?_
    rw [held_dropList, View.mem_take]
    split
    · rename_i hp
      have hcomm : n = k ↔ k = n := eq_comm
      simp [hp, mem_nodesOf, hn, hcomm]
    · rename_i hp
      simp [hp, mem_nodesOf]

/-- An iterator of one action leads to no node of another. -/
theorem Wf.node_ne (h : s.Wf) {p : Place} {n k : ℕ} (hn : (n, a) ∈ s.held p)
    (hk : (k, b) ∈ s.held p) (hb : b ≠ a) : k ≠ n := by
  intro hkn
  exact hb (Prod.ext_iff.mp (h.containers.eq_of_fst hk hn hkn)).2

theorem Wf.untouched_listRemove (h : s.Wf) (hs : s.listRemove l l a = .ok s') (hb : b ≠ a) :
    Untouched b s s' := by
  obtain ⟨action, ha, ⟨_, rfl⟩ | ⟨n, hn, _, rfl⟩⟩ := listRemove_ok.mp hs
  · exact .refl b _
  · have hown := (h.actions a action ha).list l n hn
    have hnodes : (s.dropList l a n action).nodesOf b = s.nodesOf b := by
      ext p k
      rw [mem_nodesOf, held_dropList, mem_nodesOf]
      split
      · rename_i hp
        subst hp
        rw [List.mem_filter, decide_eq_true_eq]
        exact and_iff_left_of_imp fun hk => h.node_ne hown hk hb
      · rfl
    exact untouched_of (AList.lookup_insert_ne hb) hnodes

theorem view_timeoutInsert {timeout : ℤ} (hs : s.timeoutInsert a timeout = .ok s')
    (hv : s.view a = some v) : s'.view a = some (v.putTimeout s.next) := by
  obtain ⟨action, ha, rfl⟩ := timeoutInsert_ok.mp hs
  rw [view_of_lookup ha, Option.some.injEq] at hv
  subst hv
  obtain ⟨hq, hp⟩ := held_putTimeout s a timeout action
  refine view_eq (AList.lookup_insert _) rfl rfl fun p n => ?_
  rw [View.mem_putTimeout]
  by_cases hpt : p = .timeouts
  · subst hpt
    rw [hp.mem_iff]
    simp [mem_nodesOf, or_comm]
  · rw [hq p hpt]
    simp [hpt, mem_nodesOf]

theorem untouched_timeoutInsert {timeout : ℤ} (hs : s.timeoutInsert a timeout = .ok s') (hb : b ≠ a) :
    Untouched b s s' := by
  obtain ⟨action, ha, rfl⟩ := timeoutInsert_ok.mp hs
  obtain ⟨hq, hp⟩ := held_putTimeout s a timeout action
  have hn : (s.putTimeout a timeout action).nodesOf b = s.nodesOf b := by
    ext p n
    rw [mem_nodesOf, mem_nodesOf]
    by_cases hpt : p = .timeouts
    · subst hpt
      rw [hp.mem_iff]
      simp [hb]
    · rw [hq p hpt]
  exact untouched_of (AList.lookup_insert_ne hb) hn

theorem view_timeoutRemove (hs : s.timeoutRemove a = .ok s') (hv : s.view a = some v) :
    s'.view a = some v.takeTimeout := by
  obtain ⟨action, ha, ⟨hnone, rfl⟩ | ⟨n, hn, _, rfl⟩⟩ := timeoutRemove_ok.mp hs
  · rw [view_of_lookup ha, Option.some.injEq] at hv
    subst hv
    refine view_eq ha rfl hnone fun p n => ?_
    simp [mem_nodesOf, hnone]
  · rw [view_of_lookup ha, Option.some.injEq] at hv
    subst hv
    refine view_eq (AList.lookup_insert _) rfl rfl fun p k => ?_
    rw [held_dropTimeout, View.mem_takeTimeout]
    split
    · rename_i hp
      have hcomm : n = k ↔ k = n := eq_comm
      simp [hp, mem_nodesOf, hn, hcomm]
    · rename_i hp
      simp [hp, mem_nodesOf]

theorem Wf.untouched_timeoutRemove (h : s.Wf) (hs : s.timeoutRemove a = .ok s') (hb : b ≠ a) :
    Untouched b s s' := by
  obtain ⟨action, ha, ⟨_, rfl⟩ | ⟨n, hn, _, rfl⟩⟩ := timeoutRemove_ok.mp hs
  · exact .refl b _
  · have hown := (h.actions a action ha).timeout n hn
    have hnodes : (s.dropTimeout a n action).nodesOf b = s.nodesOf b := by
      ext p k
      rw [mem_nodesOf, held_dropTimeout, mem_nodesOf]
      split
      · rename_i hp
        subst hp
        rw [List.mem_filter, decide_eq_true_eq]
        exact and_iff_left_of_imp fun hk => h.node_ne hown hk hb
      · rfl
    exact untouched_of (AList.lookup_insert_ne hb) hnodes

/-- The registrations of the yield on `evs`: there are as many as events. -/
theorem view_registered {m : MapId} {evs : List Reference} {action action' : ActiveAction}
    (ha : s.actions.lookup a = some action) (hr : Registered m a evs action action' s s')
    (hv : s.view a = some v) :
    ∃ ns : Set ℕ, s'.view a = some (v.register m ns) ∧ (ns = ∅ ↔ evs = []) := by
  rw [view_of_lookup ha, Option.some.injEq] at hv
  subst hv
  obtain ⟨added, hperm, hadd, hlen⟩ := hr.events
  refine ⟨{n | ∃ e ∈ added, e.node = n}, ?_, ?_⟩
  · refine view_eq hr.self hr.iterList hr.iterTimeout fun p n => ?_
    rw [View.mem_register]
    cases p with
    | list l => simp [held, hr.lists, mem_nodesOf]
    | timeouts => simp [held, hr.timeouts, mem_nodesOf]
    | events m' =>
      by_cases hm : m' = m
      · subst hm
        rw [mem_held_events, mem_nodesOf, mem_held_events]
        simp only [hperm.mem_iff, List.mem_append, true_and, Set.mem_ofPred_eq]
        constructor
        · rintro ⟨e, he | he, hn, hv⟩
          · exact .inr ⟨e, he, hn⟩
          · exact .inl ⟨e, he, hn, hv⟩
        · rintro (⟨e, he, hn, hv⟩ | ⟨e, he, hn⟩)
          · exact ⟨e, .inr he, hn, hv⟩
          · exact ⟨e, .inl he, hn, hadd e he⟩
      · simp [held, hr.otherEvents m' hm, mem_nodesOf, hm]
  · rw [Set.eq_empty_iff_forall_notMem, ← List.length_eq_zero_iff, ← hlen,
      List.length_eq_zero_iff, List.eq_nil_iff_forall_not_mem]
    constructor
    · intro h e he
      exact h e.node ⟨e, he, rfl⟩
    · rintro h n ⟨e, he, _⟩
      exact h e he

theorem untouched_registered {m : MapId} {evs : List Reference} {action action' : ActiveAction}
    (hr : Registered m a evs action action' s s') (hb : b ≠ a) : Untouched b s s' := by
  obtain ⟨added, hperm, hadd, _⟩ := hr.events
  have hn : s'.nodesOf b = s.nodesOf b := by
    ext p n
    rw [mem_nodesOf, mem_nodesOf]
    cases p with
    | list l => simp [held, hr.lists]
    | timeouts => simp [held, hr.timeouts]
    | events m' =>
      by_cases hm : m' = m
      · subst hm
        rw [mem_held_events, mem_held_events]
        simp only [hperm.mem_iff, List.mem_append]
        refine exists_congr fun e => and_congr_left fun hv => or_iff_right fun he => ?_
        exact hb (hv.2.symm.trans (hadd e he))
      · simp [held, hr.otherEvents m' hm]
  exact untouched_of (hr.others b hb) hn

/-! ## The view after a signal and after a withdrawal -/

theorem Signalled.keeps {ref : Reference} {new : List (Entry Unit ℕ)}
    (hs : Signalled ref s s' new) (hb : b ∉ new.map Entry.val) : Keeps b s s' := by
  have hlist : ∀ l, s'.nodesOf b (.list l) = s.nodesOf b (.list l) := by
    intro l
    ext n
    rw [mem_nodesOf, mem_nodesOf, mem_held_list, mem_held_list]
    by_cases hl : l = s.sleepState.getActive
    · subst hl
      rw [hs.active]
      refine exists_congr fun e => and_congr_left fun hv => ?_
      rw [List.mem_append, or_iff_left_iff_imp]
      intro he
      obtain ⟨_, rfl⟩ := hv
      exact absurd (List.mem_map_of_mem he) hb
    · rw [hs.otherLists l hl]
  have htime : s'.nodesOf b .timeouts = s.nodesOf b .timeouts := by
    ext n
    rw [mem_nodesOf, mem_nodesOf, held, hs.timeouts]
    rfl
  have hevents : ∀ m, s'.nodesOf b (.events m) ⊆ s.nodesOf b (.events m) := by
    intro m n hn
    obtain ⟨e, he, h⟩ := mem_held_events.mp hn
    exact mem_held_events.mpr ⟨e, (hs.events_sub m e he).1, h⟩
  refine ⟨fun v hv => ?_, fun hv => ?_, fun p => ?_⟩
  · obtain ⟨action, ha, rfl⟩ := Option.map_eq_some_iff.mp hv
    obtain ⟨action', ha', hsame, hiter, _⟩ := hs.lookup b action ha
    refine ⟨_, view_of_lookup ha', hiter hb, hsame.iterTimeout, hlist, htime, hevents, ?_⟩
    rintro ⟨m, n, hn⟩
    obtain ⟨e, he, _, hv⟩ := mem_held_events.mp hn
    obtain ⟨m', f, hf, hfv⟩ := hs.events_left b (BasicScheduler.live_iff.mpr ⟨_, ha⟩) hb ⟨m, e, he, hv⟩
    exact ⟨m', f.node, mem_held_events.mpr ⟨f, hf, rfl, hfv⟩⟩
  · exact view_eq_none.mpr (hs.dead b (view_eq_none.mp hv))
  · cases p with
    | list l => exact (hlist l).subset
    | timeouts => exact htime.subset
    | events m => exact hevents m

/-- An action that is woken has left the event maps, for the active list. -/
theorem Signalled.view_woken {ref : Reference} {new : List (Entry Unit ℕ)}
    (hs : Signalled ref s s' new) (hb : b ∈ new.map Entry.val) :
    s.Wakes ref b ∧ ∃ v n, s.view b = some v ∧
      s'.view b = some (v.deregister.put s.sleepState.getActive n) := by
  have hwakes := hs.wakes b hb
  refine ⟨hwakes, ?_⟩
  obtain ⟨_, action, ha, _⟩ := hwakes
  obtain ⟨action', ha', hsame, _, hiter⟩ := hs.lookup b action ha
  obtain ⟨k, hk, hlist⟩ := hiter hb
  refine ⟨_, k, view_of_lookup ha, view_eq ha' hlist hsame.iterTimeout fun p n => ?_⟩
  rw [View.mem_put, View.mem_deregister]
  cases p with
  | list l =>
    by_cases hl : l = s.sleepState.getActive
    · subst hl
      rw [mem_held_list, hs.active]
      simp only [List.mem_append, mem_nodesOf, mem_held_list, true_and]
      constructor
      · rintro ⟨e, he | he, hn, hv⟩
        · exact .inl ⟨⟨e, he, hn, hv⟩, by simp⟩
        · obtain rfl : e = ⟨k, (), b⟩ := List.inj_on_of_nodup_map hs.woken_nodup he hk hv
          exact .inr hn.symm
      · rintro (⟨⟨e, he, hn, hv⟩, _⟩ | rfl)
        · exact ⟨e, .inl he, hn, hv⟩
        · exact ⟨⟨n, (), b⟩, .inr hk, rfl, rfl⟩
    · simp [held, hs.otherLists l hl, mem_nodesOf, hl]
  | timeouts => simp [held, hs.timeouts, mem_nodesOf]
  | events m =>
    rw [mem_held_events]
    refine iff_of_false ?_ (by simp)
    rintro ⟨e, he, _, rfl⟩
    exact (hs.events_sub m e he).2 hb

theorem Withdrawn.view {action : ActiveAction} (ha : s.actions.lookup a = some action)
    (hw : Withdrawn a action s s') (hv : s.view a = some v) :
    s'.view a = some v.leave.deregister := by
  rw [view_of_lookup ha, Option.some.injEq] at hv
  subst hv
  refine view_eq hw.self rfl rfl fun p n => ?_
  rw [View.mem_deregister, View.mem_leave]
  cases p with
  | list l =>
    by_cases hl : l = .paused
    · subst hl
      simp [held, hw.paused, mem_nodesOf]
    · have hln : ∀ l', l = l' → l' ≠ .paused ∧ (l' = l) := fun l' h => ⟨h ▸ hl, h.symm⟩
      rw [mem_held_list, hw.lists l hl]
      simp only [List.mem_filter, decide_eq_true_eq, mem_nodesOf, mem_held_list, Place.list.injEq,
        reduceCtorEq, not_false_eq_true, implies_true, and_true, ne_eq]
      constructor
      · rintro ⟨e, ⟨he, hne⟩, rfl, hv⟩
        refine ⟨⟨e, he, rfl, hv⟩, ?_⟩
        rintro l' rfl _
        exact hne
      · rintro ⟨⟨e, he, rfl, hv⟩, hne⟩
        exact ⟨e, ⟨he, hne l rfl hl⟩, rfl, hv⟩
  | timeouts => simp [held, hw.timeouts, mem_nodesOf]
  | events m =>
    rw [mem_held_events, hw.events]
    refine iff_of_false ?_ (by simp)
    rintro ⟨e, he, _, hv⟩
    exact (by simpa using (List.mem_filter.mp he).2 : e.val ≠ a) hv

theorem Withdrawn.untouched {action : ActiveAction} (ha : s.actions.lookup a = some action)
    (h : s.Wf) (hw : Withdrawn a action s s') (hb : b ≠ a) : Untouched b s s' := by
  have hn : s'.nodesOf b = s.nodesOf b := by
    ext p n
    rw [mem_nodesOf, mem_nodesOf]
    cases p with
    | list l =>
      by_cases hl : l = .paused
      · subst hl
        simp [held, hw.paused]
      · rw [mem_held_list, mem_held_list, hw.lists l hl]
        simp only [List.mem_filter, decide_eq_true_eq]
        refine exists_congr fun e => and_congr_left fun hv => and_iff_left_of_imp ?_
        intro he hiter
        have hown := (h.actions a action ha).list l e.node hiter
        exact h.node_ne (b := b) hown (mem_held_list.mpr ⟨e, he, rfl, hv.2⟩) hb rfl
    | timeouts => simp [held, hw.timeouts]
    | events m =>
      rw [mem_held_events, mem_held_events, hw.events]
      simp only [List.mem_filter, decide_eq_true_eq]
      refine exists_congr fun e => and_congr_left fun hv => and_iff_left_of_imp fun _ => ?_
      rw [hv.2]
      exact hb
  exact untouched_of (hw.others b hb) hn

/-! ## Creating and erasing actions -/

theorem untouched_create (action : ActiveAction) (hb : b ≠ s.next) :
    Untouched b s (s.create action) :=
  untouched_of (AList.lookup_insert_ne hb) (nodesOf_congr (held_create s action) b)

theorem Wf.view_create (h : s.Wf) (ref : Reference) (pStopper : ℕ) (op : Bool) :
    (s.create (.new ref pStopper op)).view s.next = some .empty := by
  refine view_eq (AList.lookup_insert _) rfl rfl fun p n => ?_
  rw [held_create]
  exact iff_of_false (h.not_held_next p n) id

theorem untouched_eraseAction (hb : b ≠ a) : Untouched b s (s.eraseAction a) :=
  untouched_of (AList.lookup_erase_ne hb) (nodesOf_congr (fun p => by cases p <;> rfl) b)

theorem view_eraseAction : (s.eraseAction a).view a = none := by
  rw [view_eq_none]
  exact AList.lookup_erase a s.actions

end Views

end BasicScheduler
end EgLang.Scheduler
