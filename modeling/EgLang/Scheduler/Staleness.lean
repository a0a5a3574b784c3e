import EgLang.Scheduler.Fates
import EgLang.Scheduler.Safety

/-! # Entries of actions that are gone

No container refers to an action that is not registered, provided that whatever removes an action
finds all its entries. `stop`, `stopperStopped` and the end of `cycle` look for them in the lists,
through the iterators of the action, and in the event maps, but neither in the timeouts nor among
the paused actions; the termination of a coroutine does not look for them at all.
-/

namespace EgLang.Scheduler
open Library
set_option autoImplicit false

namespace BasicScheduler

/-- Every entry refers to an action that is in `m_actions`. -/
def NoStale (s : BasicScheduler) : Prop := ∀ p, ∀ x ∈ s.held p, s.Live x.2

/-- Every entry of the action in the three lists is the one its iterator leads to. -/
def Tracked (s : BasicScheduler) (a : ℕ) (action : ActiveAction) : Prop :=
  ∀ l, l ≠ .paused → ∀ x ∈ s.held (.list l), x.2 = a → action.iterList l = some x.1

instance (s : BasicScheduler) (a : ℕ) (action : ActiveAction) : Decidable (s.Tracked a action) :=
  inferInstanceAs (Decidable (∀ l, l ≠ .paused → ∀ x ∈ s.held (.list l), x.2 = a →
    action.iterList l = some x.1))

/-- The action can be stopped without a trace: it has nothing in the containers that are not looked
through, its iterators lead to all it has in the lists, and its own event does not put it into the
active list once more. -/
structure Removable (s : BasicScheduler) (a : ℕ) (action : ActiveAction) : Prop where
  timeouts : s.Absent a .timeouts
  paused : s.Absent a (.list .paused)
  tracked : s.Tracked a action
  once : s.Wakes action.ref a → s.Absent a (.list s.sleepState.getActive)

instance (s : BasicScheduler) (a : ℕ) (action : ActiveAction) : Decidable (s.Removable a action) :=
  decidable_of_iff (s.Absent a .timeouts ∧ s.Absent a (.list .paused) ∧ s.Tracked a action ∧
      (s.Wakes action.ref a → s.Absent a (.list s.sleepState.getActive)))
    ⟨fun ⟨ht, hp, hl, ho⟩ => ⟨ht, hp, hl, ho⟩, fun ⟨ht, hp, hl, ho⟩ => ⟨ht, hp, hl, ho⟩⟩

end BasicScheduler

namespace Machine
open BasicScheduler

/-- **The condition**: an action that is stopped can be removed, and an action that terminates has
no entry left. -/
def RemovesAll (m : Machine) : Input → Prop
  | .operation (.stop ref) | .operation (.stopperStopped ref) =>
    ∀ a ∈ m.sched.find ref, ∀ action ∈ m.sched.actions.lookup a, m.sched.Removable a action
  | .tick _ => m.frames.head? = some (.cycle .ending) →
    ∀ e ∈ (m.sched.events .wait).head?, ∀ action ∈ m.sched.actions.lookup e.val,
      m.sched.Removable e.val action
  | .yield .terminated _ => ∀ a ∈ m.sched.currentAction, ∀ p, m.sched.Absent a p
  | _ => True

instance (m : Machine) (i : Input) : Decidable (m.RemovesAll i) := by
  refine i.casesOn (fun op => op.casesOn ?_ ?_ ?_ ?_ ?_ ?_ ?_ ?_)
    (fun reason => reason.casesOn ?_ ?_ ?_ ?_ ?_ ?_ ?_ ?_) ?_ ?_ <;> intros <;>
    dsimp only [RemovesAll] <;> infer_instance

/-- **The condition** on a step of a run: what it removes it removes entirely, and it commits no undefined
behaviour of the kinds that have nothing to do with stale entries. -/
structure RemovesSafely (m : Machine) (i : Input) : Prop where
  removes : m.RemovesAll i
  clear : m.StepClear i
  oneMap : m.TouchesOneMap i

instance (m : Machine) (i : Input) : Decidable (m.RemovesSafely i) :=
  decidable_of_iff (m.RemovesAll i ∧ m.StepClear i ∧ m.TouchesOneMap i)
    ⟨fun ⟨hr, hc, ho⟩ => ⟨hr, hc, ho⟩, fun ⟨hr, hc, ho⟩ => ⟨hr, hc, ho⟩⟩

section Stale
variable {m m' : Machine}

theorem RemovesAll.of_stops {i : Input} {a : ℕ} {action : ActiveAction} (h : m.RemovesAll i)
    (hi : m.Stops a i) (ha : m.sched.actions.lookup a = some action) :
    m.sched.Removable a action := by
  cases i with
  | operation op =>
    cases op with
    | stop ref => exact h a hi action ha
    | stopperStopped ref => exact h a hi action ha
    | _ => exact absurd hi id
  | tick now =>
    obtain ⟨hfr, hhead⟩ := hi
    obtain ⟨e, he, rfl⟩ := Option.map_eq_some_iff.mp hhead
    exact h hfr e he action ha
  | _ => exact absurd hi id

/-- What is left of a removable action once it has been stopped: nothing. -/
theorem removed_nothing {a : ℕ} {action : ActiveAction} {v w : View}
    (hr : m.sched.Removable a action) (ha : m.sched.actions.lookup a = some action)
    (hv : m.sched.view a = some v)
    (hw : v.Loses w ∨ m.sched.Wakes action.ref a ∧
      ∃ n, w = v.deregister.put m.sched.sleepState.getActive n) (p : Place) (n : ℕ) :
    n ∉ w.leave.deregister.nodes p := by
  rw [view_of_lookup ha, Option.some.injEq] at hv
  subst hv
  rw [View.mem_deregister, View.mem_leave]
  rintro ⟨⟨hn, hleft⟩, hp⟩
  have htracked : ∀ l, l ≠ .paused → (n, a) ∈ m.sched.held (.list l) →
      action.iterList l = some n := fun l hl hx => hr.tracked l hl (n, a) hx rfl
  rcases hw with hw | ⟨hwakes, k, rfl⟩
  · have hn' := hw.subset p hn
    cases p with
    | list l =>
      by_cases hl : l = .paused
      · subst hl
        exact hr.paused (n, a) hn' rfl
      · refine hleft l rfl hl ?_
        rw [hw.iterList]
        exact htracked l hl hn'
    | timeouts => exact hr.timeouts (n, a) hn' rfl
    | events k => exact hp k rfl
  · rw [View.mem_put, View.mem_deregister] at hn
    cases p with
    | list l =>
      by_cases hl : l = .paused
      · subst hl
        rcases hn with ⟨hn, _⟩ | ⟨hact, _⟩
        · exact hr.paused (n, a) hn rfl
        · exact m.sched.sleepState.getActive_ne_paused (by simpa using hact.symm)
      · by_cases hact : l = m.sched.sleepState.getActive
        · subst hact
          rcases hn with ⟨hn, _⟩ | ⟨_, rfl⟩
          · exact hr.once hwakes (n, a) hn rfl
          · exact hleft _ rfl hl (Function.update_self _ _ _)
        · rcases hn with ⟨hn, _⟩ | ⟨hact', _⟩
          · refine hleft l rfl hl ((Function.update_of_ne hact _ _).trans ?_)
            exact htracked l hl hn
          · exact hact (by simpa using hact')
    | timeouts =>
      rcases hn with ⟨hn, _⟩ | ⟨hact, _⟩
      · exact hr.timeouts (n, a) hn rfl
      · cases hact
    | events k => exact hp k rfl

/-- **One step** leaves no stale entry behind if what it removes it removes entirely. -/
theorem noStale_step (h : m.Wf) (hst : m.sched.NoStale) {i : Input} (hc : m.RemovesAll i)
    (hs : step m i = .ok m') : m'.sched.NoStale := by
  rintro p ⟨n, b⟩ hx
  have hlive : ∀ v, m'.sched.view b = some v → m'.sched.Live b := fun v hv =>
    live_iff_view.mpr ⟨v, hv⟩
  cases fate_of_step h hs b with
  | kept hk hrun => exact hk.live_iff.mpr (hst p (n, b) (hk.nodes p hx))
  | allocated hb hv hrun => exact hlive _ hv
  | called hb hv hrun => exact hlive _ hv
  | woken hreg hv hv' hrun => exact hlive _ hv'
  | paused hf hv hv' hfr => exact hlive _ hv'
  | unpaused hf hv hv' hfr => exact hlive _ hv'
  | due hfr ht hk he hv hv' hfr' => exact hlive _ hv'
  | resumed hfr hfr' hn hv hv' hrun => exact hlive _ hv'
  | orphaned hfr hcur hk => exact hk.live_iff.mpr (hst p (n, b) (hk.nodes p hx))
  | yieldedList hfr hcur hl hv hv' => exact hlive _ hv'
  | yieldedEvents hfr hcur hr hns hv hv' => exact hlive _ hv'
  | yieldedTimeout hfr hcur hv hv' => exact hlive _ hv'
  | @stopped i m' v w action hi ha hv hw hgone hn =>
    have hx' : n ∈ m'.sched.nodesOf b p := hx
    rw [hn] at hx'
    exact absurd hx' (removed_nothing (hc.of_stops hi ha) ha hv hw p n)
  | @terminated done m' v frames hfr hcur hv hgone hn =>
    have hx' := hn p hx
    rw [← nodesOf_eq_of_view hv] at hx'
    exact absurd rfl (hc b hcur p (n, b) hx')

/-- Without stale entries whatever a step touches is registered. -/
theorem touchesLive_of_noStale (hst : m.sched.NoStale) {i : Input} (hc : m.RemovesAll i) :
    m.TouchesLive i := by
  refine touchesLive_of (fun k e he => hst (.events k) (pair e) (List.mem_map_of_mem he))
    (fun done a hi hcur k => ?_) (fun a ha => ?_) fun a ha => ?_
  · subst hi
    exact hc a hcur (.events k)
  · cases i with
    | tick now =>
      rw [expiring] at ha
      split at ha
      · obtain ⟨e, he, rfl⟩ := Option.map_eq_some_iff.mp ha
        have hmem := List.mem_of_mem_head? (Option.filter_eq_some_iff.mp he).1
        exact hst .timeouts (pair e) (List.mem_map_of_mem hmem)
      · cases ha
    | _ => cases ha
  · cases i with
    | tick now =>
      rw [resuming] at ha
      split at ha
      · obtain ⟨e, he, rfl⟩ := Option.map_eq_some_iff.mp ha
        have hmem := List.mem_of_mem_head? he
        split at hmem
        · exact hst (.list m.sched.sleepState.getWaiting) (pair e) (List.mem_map_of_mem hmem)
        · exact hst (.list m.sched.sleepState.getActive) (pair e) (List.mem_map_of_mem hmem)
      · cases ha
    | _ => cases ha

end Stale

end Machine
end EgLang.Scheduler
