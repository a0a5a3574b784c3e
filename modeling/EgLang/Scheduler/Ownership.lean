import EgLang.Scheduler.Control
import EgLang.Scheduler.Safety

/-! # Registrations and their event maps

The iterators `iter_event_ref` of an action are its entries in the two event maps (`Wf.actions`).
That all of them are in one map, the one its last yield for events asks for, holds as long as no
action yields for events while it is registered in the other map. `event_remove` is called for one
map after the other and erases all iterators from the first; so that it erases no entry from the other
map also takes that no action is paused or stopped while it is registered in the sleeping map.
-/

namespace EgLang.Scheduler
open Library
set_option autoImplicit false

namespace BasicScheduler

/-- The action has no registration outside the map. -/
def OneMap (s : BasicScheduler) (b : ℕ) (m : MapId) : Prop :=
  ∀ k, k ≠ m → s.Absent b (.events k)

instance (s : BasicScheduler) (b : ℕ) (m : MapId) : Decidable (s.OneMap b m) :=
  inferInstanceAs (Decidable (∀ k, k ≠ m → s.Absent b (.events k)))

section OneMap
variable {s s' : BasicScheduler} {b : ℕ} {m : MapId} {ref : Reference}

theorem OneMap.mono (h : s.OneMap b m)
    (hsub : ∀ k, s'.nodesOf b (.events k) ⊆ s.nodesOf b (.events k)) : s'.OneMap b m := by
  intro k hk
  rw [← nodesOf_eq_empty]
  exact Set.subset_eq_empty (hsub k) (nodesOf_eq_empty.mpr (h k hk))

theorem OneMap.eq_of_mem (h : s.OneMap b m) {k : MapId} {n : ℕ} (hn : (n, b) ∈ s.held (.events k)) :
    k = m := by
  by_contra hk
  exact h k hk (n, b) hn rfl

/-- The iterators of an action that has one map lead into that map. -/
theorem OneMap.iterators (hw : s.Wf) (h : s.OneMap b m) {action : ActiveAction}
    (ha : s.actions.lookup b = some action) {n : ℕ} (hn : n ∈ action.iterEventRef) :
    n ∈ NodeList.nodes (s.events m) := by
  obtain ⟨k, hk⟩ := ((hw.actions b action ha).regs n).mp hn
  obtain rfl := h.eq_of_mem hk
  obtain ⟨e, he, rfl, _⟩ := mem_held_events.mp hk
  exact NodeList.node_mem_nodes he

end OneMap

end BasicScheduler

namespace Machine
open BasicScheduler

/-- `iter_event_ref` lists the entries of the action without repetition; they are in one map, and in
that of the reason it has last yielded for if it is a reason to register for events. -/
structure OwnsRegistrations (s : BasicScheduler) (b : ℕ) (action : ActiveAction) : Prop where
  nodup : action.iterEventRef.Nodup
  exactly : ∀ n, n ∈ action.iterEventRef ↔ ∃ m, ∃ e ∈ s.events m, e.node = n ∧ e.val = b
  oneMap : ∃ m, ∀ n ∈ action.iterEventRef, n ∈ NodeList.nodes (s.events m)
  follows : ∀ r, registration action.coroutine.reason = some r →
    ∀ n ∈ action.iterEventRef, n ∈ NodeList.nodes (s.events r.1)

/-- **The condition**: a coroutine yields for events while its action has no registration in the
other map. -/
def RegistersApart (m : Machine) : Input → Prop
  | .yield reason _ => ∀ a ∈ (runningActions m.frames).head?, ∀ r ∈ registration reason,
      m.sched.OneMap a r.1
  | _ => True

instance (m : Machine) (i : Input) : Decidable (m.RegistersApart i) := by
  unfold RegistersApart
  split <;> infer_instance

/-- **The condition** on a step of a run: it keeps registrations apart, and commits no undefined behaviour of
the kinds that have nothing to do with the maps registrations are in. -/
structure RegistersSafely (m : Machine) (i : Input) : Prop where
  apart : m.RegistersApart i
  clear : m.StepClear i
  live : m.TouchesLive i

instance (m : Machine) (i : Input) : Decidable (m.RegistersSafely i) :=
  decidable_of_iff (m.RegistersApart i ∧ m.StepClear i ∧ m.TouchesLive i)
    ⟨fun ⟨ha, hc, hl⟩ => ⟨ha, hc, hl⟩, fun ⟨ha, hc, hl⟩ => ⟨ha, hc, hl⟩⟩

section Ownership
variable {m m' : Machine} {b : ℕ}

/-- **What a step does to registrations**: none are added but by a yield for events. -/
theorem Fate.registrations {i : Input} (hf : Fate b m i m') :
    (∀ k, m'.sched.nodesOf b (.events k) ⊆ m.sched.nodesOf b (.events k)) ∨
      ∃ reason r, m.Yields b reason i ∧ registration reason = some r ∧
        ∀ k, k ≠ r.1 → m'.sched.nodesOf b (.events k) ⊆ m.sched.nodesOf b (.events k) := by
  have hsub : ∀ {v w : View}, m.sched.view b = some v → m'.sched.view b = some w →
      (∀ k, w.nodes (.events k) ⊆ v.nodes (.events k)) →
        ∀ k, m'.sched.nodesOf b (.events k) ⊆ m.sched.nodesOf b (.events k) := by
    intro v w hv hw h k
    rw [nodesOf_eq_of_view hv, nodesOf_eq_of_view hw]
    exact h k
  have hnone : ∀ {w : View}, m'.sched.view b = some w → (∀ k, w.nodes (.events k) = ∅) →
      ∀ k, m'.sched.nodesOf b (.events k) ⊆ m.sched.nodesOf b (.events k) := by
    intro w hw h k
    rw [nodesOf_eq_of_view hw, h k]
    exact Set.empty_subset _
  cases hf with
  | kept hk hrun => exact .inl fun k => hk.nodes _
  | allocated hb hv hrun => exact .inl (hnone hv fun k => rfl)
  | called hb hv hrun =>
    exact .inl (hnone hv fun k => Set.eq_empty_iff_forall_notMem.mpr fun n => by
      simp [View.empty])
  | woken hreg hv hv' hrun => exact .inl (hsub hv hv' fun k n => by simp)
  | paused hf hv hv' hfr => exact .inl (hsub hv hv' fun k n => by simp)
  | unpaused hf hv hv' hfr => exact .inl (hsub hv hv' fun k n => by simp)
  | due hfr ht hk he hv hv' hfr' => exact .inl (hsub hv hv' fun k n => by simp)
  | resumed hfr hfr' hn hv hv' hrun => exact .inl (hsub hv hv' fun k n => by simp)
  | orphaned hfr hcur hk => exact .inl fun k => hk.nodes _
  | yieldedList hfr hcur hl hv hv' => exact .inl (hsub hv hv' fun k n => by simp)
  | yieldedEvents hfr hcur hr hns hv hv' =>
    refine .inr ⟨_, _, ⟨⟨_, rfl⟩, _, hfr⟩, hr, fun k hk n => ?_⟩
    rw [nodesOf_eq_of_view hv, nodesOf_eq_of_view hv']
    simp [hk]
  | yieldedTimeout hfr hcur hv hv' => exact .inl (hsub hv hv' fun k n => by simp)
  | stopped hi ha hv hw hgone hn =>
    refine .inl fun k n => ?_
    rw [hn]
    simp
  | terminated hfr hcur hv hgone hn =>
    refine .inl fun k => ?_
    rw [nodesOf_eq_of_view hv]
    exact hn _

/-- The registrations of an action are in one map, that of its reason. -/
structure Homed (b : ℕ) (m : Machine) : Prop where
  one : ∃ k, m.sched.OneMap b k
  follows : ∀ action r, m.sched.actions.lookup b = some action →
    registration action.coroutine.reason = some r → m.sched.OneMap b r.1

theorem RegistersApart.of_yields {i : Input} {reason : ReturnReason} {r : MapId × Bool × List Reference}
    (hc : m.RegistersApart i) (hy : m.Yields b reason i) (hr : registration reason = some r) :
    m.sched.OneMap b r.1 := by
  obtain ⟨⟨done, rfl⟩, frames, hfr⟩ := hy
  exact hc b (by rw [hfr]; rfl) r hr

/-- **One step** leaves the registrations of an action in one map. -/
theorem homed_step (h : m.Wf) (hh : Homed b m) {i : Input} (hc : m.RegistersApart i)
    (hs : step m i = .ok m') : Homed b m' := by
  have hmap : ∀ k, m.sched.OneMap b k →
      (∀ reason r, m.Yields b reason i → registration reason = some r → r.1 = k) →
        m'.sched.OneMap b k := by
    intro k hone hk
    rcases (fate_of_step h hs b).registrations with hsub | ⟨reason, r, hy, hr, hsub⟩
    · exact hone.mono hsub
    · intro k' hk'
      rw [← nodesOf_eq_empty]
      refine Set.subset_eq_empty (hsub k' ?_) (nodesOf_eq_empty.mpr (hone k' hk'))
      rw [hk reason r hy hr]
      exact hk'
  have hyield : ∀ reason reason' : ReturnReason, m.Yields b reason i → m.Yields b reason' i →
      reason = reason' := by
    rintro reason reason' ⟨⟨done, rfl⟩, _⟩ ⟨⟨done', heq⟩, _⟩
    cases heq
    rfl
  have hown : ∀ reason r, m.Yields b reason i → registration reason = some r →
      m'.sched.OneMap b r.1 := by
    intro reason r hy hr
    refine hmap r.1 (hc.of_yields hy hr) fun reason' r' hy' hr' => ?_
    rw [hyield reason' reason hy' hy, hr, Option.some.injEq] at hr'
    rw [hr']
  refine ⟨?_, fun action' r ha' hr => ?_⟩
  · by_cases hy : ∃ reason r, m.Yields b reason i ∧ registration reason = some r
    · obtain ⟨reason, r, hy, hr⟩ := hy
      exact ⟨r.1, hown reason r hy hr⟩
    · obtain ⟨k, hk⟩ := hh.one
      exact ⟨k, hmap k hk fun reason r hy' hr => absurd ⟨reason, r, hy', hr⟩ hy⟩
  · cases (h.transition hs).reason h ha' with
    | fresh ht _ =>
      rw [ht] at hr
      cases hr
    | kept ha hreason hno =>
      rw [← hreason] at hr
      exact hmap r.1 (hh.follows _ r ha hr) fun reason _ hy _ => absurd hy (hno reason)
    | yielded hy => exact hown _ r hy hr

end Ownership

end Machine
end EgLang.Scheduler
