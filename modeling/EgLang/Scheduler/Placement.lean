import Mathlib.Algebra.BigOperators.Group.Finset.Basic
import EgLang.Scheduler.Fates
import EgLang.Scheduler.Safety

/-! # Every action is in exactly one place

An action made by `call` that is not in the middle of its step is active, waiting, sleeping, paused,
waiting for a time or registered in one event map, and nothing of it is anywhere else, provided that
it is paused and unpaused from the right places and has no place when it yields. `Located` is this
for views, where the fates of the action move it from place to place.
-/

namespace EgLang.Scheduler
open Library
set_option autoImplicit false

namespace BasicScheduler

/-- How often an action is in a container; its registrations in one event map count once. -/
def occurrences (s : BasicScheduler) (b : ℕ) : Place → ℕ
  | .list l => (s.lists l).countP (fun e => e.val = b)
  | .timeouts => s.timeouts.countP (fun e => e.val = b)
  | .events m => if ∃ e ∈ s.events m, e.val = b then 1 else 0

/-- In how many places an action is. -/
def placeCount (s : BasicScheduler) (b : ℕ) : ℕ := ∑ p : Place, s.occurrences b p

end BasicScheduler

namespace View

/-- All the scheduler has of an action is in one place, and its iterator leads there. -/
structure Located (v : View) (p : Place) : Prop where
  elsewhere : ∀ q, q ≠ p → v.nodes q = ∅
  list : ∀ l, p = .list l → ∃ n, v.iterList l = some n ∧ v.nodes p = {n}
  timeout : p = .timeouts → ∃ n, v.iterTimeout = some n ∧ v.nodes p = {n}
  events : ∀ m, p = .events m → (v.nodes p).Nonempty

/-- The scheduler has nothing of an action. -/
def Nowhere (v : View) : Prop := ∀ p, v.nodes p = ∅

section Located
variable {v w : View} {p : Place} {l : ListId} {n : ℕ}

theorem Located.at_of_mem (h : v.Located p) {q : Place} (hn : n ∈ v.nodes q) : p = q := by
  by_contra hne
  rw [h.elsewhere q (Ne.symm hne)] at hn
  exact hn

theorem Nowhere.put (h : v.Nowhere) : (v.put l n).Located (.list l) where
  elsewhere q hq := by
    ext k
    rw [mem_put, h q]
    simp [hq]
  list l' hl := by
    obtain rfl : l = l' := by simpa using hl
    refine ⟨n, Function.update_self _ _ _, ?_⟩
    ext k
    rw [mem_put, h]
    simp
  timeout hp := by cases hp
  events m hp := by cases hp

theorem Nowhere.putTimeout (h : v.Nowhere) : (v.putTimeout n).Located .timeouts where
  elsewhere q hq := by
    ext k
    rw [mem_putTimeout, h q]
    simp [hq]
  list l hp := by cases hp
  timeout _ := by
    refine ⟨n, rfl, ?_⟩
    ext k
    rw [mem_putTimeout, h]
    simp
  events m hp := by cases hp

theorem Nowhere.register (h : v.Nowhere) {m : MapId} {ns : Set ℕ} (hns : ns ≠ ∅) :
    (v.register m ns).Located (.events m) where
  elsewhere q hq := by
    ext k
    rw [mem_register, h q]
    simp [hq]
  list l hp := by cases hp
  timeout hp := by cases hp
  events m' hp := by
    obtain ⟨k, hk⟩ := Set.nonempty_iff_ne_empty.mpr hns
    exact ⟨k, mem_register.mpr (.inr ⟨rfl, hk⟩)⟩

theorem Located.take (h : v.Located (.list l)) : (v.take l).Nowhere := by
  intro q
  obtain ⟨k, hk, hnodes⟩ := h.list l rfl
  ext n
  rw [mem_take]
  refine iff_of_false (fun ⟨hn, hne⟩ => hne ?_) id
  obtain rfl := h.at_of_mem hn
  rw [hnodes, Set.mem_singleton_iff] at hn
  exact ⟨rfl, hn ▸ hk⟩

theorem Located.takeTimeout (h : v.Located .timeouts) : v.takeTimeout.Nowhere := by
  intro q
  obtain ⟨k, hk, hnodes⟩ := h.timeout rfl
  ext n
  rw [mem_takeTimeout]
  refine iff_of_false (fun ⟨hn, hne⟩ => hne ?_) id
  obtain rfl := h.at_of_mem hn
  rw [hnodes, Set.mem_singleton_iff] at hn
  exact ⟨rfl, hn ▸ hk⟩

theorem Located.deregister {m : MapId} (h : v.Located (.events m)) : v.deregister.Nowhere := by
  intro q
  ext n
  rw [mem_deregister]
  refine iff_of_false (fun ⟨hn, hne⟩ => hne m ?_) id
  exact (h.at_of_mem hn).symm

/-- Leaving the lists and the event maps is leaving altogether, but for the timeouts and the paused
actions. -/
theorem Located.leave (h : v.Located p) (ht : p ≠ .timeouts) (hp : p ≠ .list .paused) :
    v.leave.deregister.Nowhere := by
  intro q
  ext n
  rw [mem_deregister, mem_leave]
  refine iff_of_false ?_ id
  rintro ⟨⟨hn, hleft⟩, hne⟩
  obtain rfl := h.at_of_mem hn
  cases p with
  | list l =>
    obtain ⟨k, hk, hnodes⟩ := h.list l rfl
    rw [hnodes, Set.mem_singleton_iff] at hn
    exact hleft l rfl (fun hl => hp (by rw [hl])) (hn ▸ hk)
  | timeouts => exact ht rfl
  | events m => exact hne m rfl

theorem Located.loses (h : v.Located p) (hl : v.Loses w) : w.Located p where
  elsewhere q hq := Set.subset_eq_empty (hl.subset q) (h.elsewhere q hq)
  list l hp := by
    subst hp
    obtain ⟨n, hn, hnodes⟩ := h.list l rfl
    exact ⟨n, hl.iterList ▸ hn, (hl.lists l).trans hnodes⟩
  timeout hp := by
    subst hp
    obtain ⟨n, hn, hnodes⟩ := h.timeout rfl
    exact ⟨n, hl.iterTimeout.trans hn, hl.timeouts.trans hnodes⟩
  events m hp := by
    subst hp
    obtain ⟨m', n, hn⟩ := hl.left ⟨m, h.events m rfl⟩
    obtain rfl : m = m' := by simpa using h.at_of_mem (hl.events m' hn)
    exact ⟨n, hn⟩

end Located

end View

namespace BasicScheduler

section Occurrences
variable {s : BasicScheduler} {b : ℕ} {p : Place}

/-- Nodes are not shared, so an action is in a list as often as there are nodes of it. -/
theorem countP_eq_one {κ : Type} {l : List (Entry κ ℕ)} (hl : (NodeList.nodes l).Nodup) {n : ℕ}
    (h : ∀ k, (∃ e ∈ l, e.node = k ∧ e.val = b) ↔ k = n) :
    l.countP (fun e => e.val = b) = 1 := by
  have hfilter : (l.filter (fun e => e.val = b)).map Entry.node = [n] := by
    have hnd : ((l.filter (fun e => e.val = b)).map Entry.node).Nodup :=
      hl.sublist (List.filter_sublist.map _)
    refine List.perm_singleton.mp ((List.perm_ext_iff_of_nodup hnd (by simp)).mpr fun k => ?_)
    rw [List.mem_singleton, ← h k]
    simp [and_assoc, and_comm]
  rw [List.countP_eq_length_filter, ← List.length_map Entry.node, hfilter]
  rfl

theorem occurrences_eq_zero (h : s.nodesOf b p = ∅) : s.occurrences b p = 0 := by
  have hnone : ∀ n, (n, b) ∉ s.held p := fun n hn => by
    have : n ∈ s.nodesOf b p := hn
    rw [h] at this
    exact this
  cases p with
  | list l =>
    refine List.countP_eq_zero.mpr fun e he hv => hnone e.node (mem_held_list.mpr ⟨e, he, rfl, ?_⟩)
    simpa using hv
  | timeouts =>
    refine List.countP_eq_zero.mpr fun e he hv => hnone e.node ?_
    have hv' : e.val = b := by simpa using hv
    exact hv' ▸ List.mem_map_of_mem (f := pair) he
  | events m =>
    refine if_neg ?_
    rintro ⟨e, he, hv⟩
    exact hnone e.node (mem_held_events.mpr ⟨e, he, rfl, hv⟩)

theorem Wf.occurrences_located (h : s.Wf) {v : View} (hv : s.view b = some v)
    (hp : v.Located p) : s.occurrences b p = 1 := by
  have hnodes := nodesOf_eq_of_view hv
  cases p with
  | list l =>
    obtain ⟨n, _, hn⟩ := hp.list l rfl
    refine countP_eq_one (n := n) (fst_held_list s l ▸ h.containers.nodup (.list l)) fun k => ?_
    rw [← Set.mem_singleton_iff, ← hn, ← hnodes, mem_nodesOf, mem_held_list]
  | timeouts =>
    obtain ⟨n, _, hn⟩ := hp.timeout rfl
    refine countP_eq_one (n := n) (fst_held_timeouts s ▸ h.containers.nodup .timeouts) fun k => ?_
    rw [← Set.mem_singleton_iff, ← hn, ← hnodes, mem_nodesOf]
    simp [held, pair]
  | events m =>
    obtain ⟨n, hn⟩ := hp.events m rfl
    rw [← hnodes] at hn
    obtain ⟨e, he, _, hev⟩ := mem_held_events.mp hn
    exact if_pos ⟨e, he, hev⟩

/-- **One place**: an action with a location is in one place. -/
theorem Wf.placeCount_located (h : s.Wf) {v : View} (hv : s.view b = some v)
    (hp : v.Located p) : s.placeCount b = 1 := by
  rw [placeCount, Finset.sum_eq_single p, h.occurrences_located hv hp]
  · intro q _ hq
    refine occurrences_eq_zero ?_
    rw [nodesOf_eq_of_view hv]
    exact hp.elsewhere q hq
  · exact fun hmem => absurd (Finset.mem_univ p) hmem

theorem placeCount_eq_zero (h : ∀ p, s.nodesOf b p = ∅) : s.placeCount b = 0 :=
  Finset.sum_eq_zero fun p _ => occurrences_eq_zero (h p)

/-- An action in no place has no nodes. -/
theorem nodesOf_of_placeCount (h : s.placeCount b = 0) (p : Place) : s.nodesOf b p = ∅ := by
  have hp : s.occurrences b p = 0 := Finset.sum_eq_zero_iff.mp h p (Finset.mem_univ p)
  refine Set.eq_empty_iff_forall_notMem.mpr fun n hn => ?_
  cases p with
  | list l =>
    obtain ⟨e, he, _, hv⟩ := mem_held_list.mp hn
    exact List.countP_eq_zero.mp hp e he (by simpa using hv)
  | timeouts =>
    obtain ⟨e, he, hev⟩ := List.mem_map.mp hn
    exact List.countP_eq_zero.mp hp e he (by simpa [pair] using congrArg Prod.snd hev)
  | events m =>
    obtain ⟨e, he, _, hv⟩ := mem_held_events.mp hn
    rw [occurrences, if_pos ⟨e, he, hv⟩] at hp
    cases hp

end Occurrences

end BasicScheduler

namespace Machine
open BasicScheduler

/-- **The condition**, for the action that runs when it yields: it has no place yet, and registers
for some event if it registers for events; and it is the current one if it is still registered. -/
def YieldsOnce (m : Machine) (reason : ReturnReason) : Prop :=
  match m.sched.currentAction with
  | some a => reason ≠ .terminated →
      m.sched.placeCount a = 0 ∧ ∀ r ∈ registration reason, r.2.2 ≠ []
  | none => ∀ a ∈ (runningActions m.frames).head?, (m.sched.actions.lookup a).isNone

/-- **The condition**: an action that is not in the middle of its step is paused only when it is
neither paused nor waiting for a time, and unpaused only when it is paused. -/
def PlacesOnce (m : Machine) : Input → Prop
  | .operation (.pause ref) => ∀ a ∈ m.sched.find ref, a ∉ runningActions m.frames →
      m.sched.occurrences a .timeouts = 0 ∧ m.sched.occurrences a (.list .paused) = 0
  | .operation (.unpause ref) => ∀ a ∈ m.sched.find ref, a ∉ runningActions m.frames →
      m.sched.occurrences a (.list .paused) ≠ 0
  | .yield reason _ => m.YieldsOnce reason
  | _ => True

instance (m : Machine) (reason : ReturnReason) : Decidable (m.YieldsOnce reason) := by
  unfold YieldsOnce
  split <;> infer_instance

instance (m : Machine) (i : Input) : Decidable (m.PlacesOnce i) := by
  refine i.casesOn (fun op => op.casesOn ?_ ?_ ?_ ?_ ?_ ?_ ?_ ?_) ?_ ?_ ?_ <;> intros <;>
    dsimp only [PlacesOnce] <;> infer_instance

/-- **The condition** on a step of a run: it keeps actions in one place, and commits no undefined
behaviour. -/
structure PlacesSafely (m : Machine) (i : Input) : Prop where
  places : m.PlacesOnce i
  safe : m.StepSafe i

instance (m : Machine) (i : Input) : Decidable (m.PlacesSafely i) :=
  decidable_of_iff (m.PlacesOnce i ∧ m.StepSafe i) ⟨fun h => ⟨h.1, h.2⟩, fun h => ⟨h.1, h.2⟩⟩

/-- The action has a place, unless it is gone or in the middle of its step. -/
def HasPlace (b : ℕ) (m : Machine) : Prop :=
  b < m.sched.next ∧
    ∀ v, m.sched.view b = some v → b ∉ runningActions m.frames → ∃ p, v.Located p

section Placement
variable {m m' : Machine} {b : ℕ}

/-- The running action has no place when it yields, unless it terminates. -/
theorem PlacesOnce.nowhere {reason : ReturnReason} {done : Bool} {v : View}
    (hc : m.PlacesOnce (.yield reason done)) (hcur : m.sched.currentAction = some b)
    (hr : reason ≠ .terminated) (hv : m.sched.view b = some v) : v.Nowhere := by
  simp only [PlacesOnce, YieldsOnce, hcur] at hc
  intro p
  rw [← nodesOf_eq_of_view hv]
  exact nodesOf_of_placeCount (hc hr).1 p

/-- Neither paused nor waiting for a time. -/
theorem notMem_of_occurrences {s : BasicScheduler} {v : View} {p : Place} (hv : s.view b = some v)
    (h : s.occurrences b p = 0) (hp : v.Located p) (hpe : ∀ m, p ≠ .events m) : False := by
  have hempty : v.nodes p = ∅ := by
    rw [← nodesOf_eq_of_view hv]
    refine Set.eq_empty_iff_forall_notMem.mpr fun n hn => ?_
    cases p with
    | list l =>
      obtain ⟨e, he, _, hev⟩ := mem_held_list.mp hn
      exact List.countP_eq_zero.mp h e he (by simpa using hev)
    | timeouts =>
      obtain ⟨e, he, hev⟩ := List.mem_map.mp hn
      exact List.countP_eq_zero.mp h e he (by simpa [pair] using congrArg Prod.snd hev)
    | events m => exact hpe m rfl
  cases p with
  | list l =>
    obtain ⟨n, _, hn⟩ := hp.list l rfl
    exact Set.singleton_ne_empty n (hn ▸ hempty)
  | timeouts =>
    obtain ⟨n, _, hn⟩ := hp.timeout rfl
    exact Set.singleton_ne_empty n (hn ▸ hempty)
  | events m => exact hpe m rfl

/-- **One step** keeps the place of an action or gives it another. -/
theorem hasPlace_step (h : m.Wf) (hp : HasPlace b m) {i : Input} (hc : m.PlacesOnce i)
    (hs : step m i = .ok m') : HasPlace b m' := by
  obtain ⟨hlt, hp⟩ := hp
  refine ⟨hlt.trans_le ((h.transition hs).next_le h), fun w hw hrun' => ?_⟩
  cases fate_of_step h hs b with
  | kept hk hrun =>
    cases hv : m.sched.view b with
    | none => rw [hk.gone hv] at hw; cases hw
    | some v =>
      obtain ⟨w', hw', hl⟩ := hk.view v hv
      rw [hw, Option.some.injEq] at hw'
      subst hw'
      obtain ⟨p, hp⟩ := hp v hv (fun hmem => hrun' (hrun.mpr hmem))
      exact ⟨p, hp.loses hl⟩
  | allocated hb hv hrun => exact absurd hb hlt.ne
  | called hb hv hrun => exact absurd hb hlt.ne
  | @woken i m' v n hreg hv hv' hrun =>
    obtain ⟨p, hp⟩ := hp v hv (fun hmem => hrun' (hrun.mpr hmem))
    obtain ⟨k, j, hj⟩ := hreg
    obtain rfl := hp.at_of_mem hj
    rw [hv', Option.some.injEq] at hw
    exact ⟨_, hw ▸ hp.deregister.put⟩
  | @paused ref m' v n hf hv hv' hfr =>
    have hrun : b ∉ runningActions m.frames := hfr ▸ hrun'
    obtain ⟨p, hp⟩ := hp v hv hrun
    obtain ⟨ht, hpa⟩ := hc b hf hrun
    rw [hv', Option.some.injEq] at hw
    refine ⟨_, hw ▸ (hp.leave ?_ ?_).put⟩
    · rintro rfl
      exact notMem_of_occurrences hv ht hp (by simp)
    · rintro rfl
      exact notMem_of_occurrences hv hpa hp (by simp)
  | @unpaused ref m' v n hf hv hv' hfr =>
    have hrun : b ∉ runningActions m.frames := hfr ▸ hrun'
    obtain ⟨p, hp⟩ := hp v hv hrun
    have hpa : p = .list .paused := by
      by_contra hne
      refine hc b hf hrun (occurrences_eq_zero ?_)
      rw [nodesOf_eq_of_view hv]
      exact hp.elsewhere _ (Ne.symm hne)
    subst hpa
    rw [hv', Option.some.injEq] at hw
    exact ⟨_, hw ▸ hp.take.put⟩
  | @due now m' v n e rest frames hfr ht hk he hv hv' hfr' =>
    have hrun : b ∉ runningActions m.frames := hfr' ▸ hrun'
    obtain ⟨p, hp⟩ := hp v hv hrun
    have hmem : e.node ∈ v.nodes .timeouts := by
      rw [← nodesOf_eq_of_view hv, mem_nodesOf, held, ht, ← he]
      exact List.mem_cons_self
    obtain rfl := hp.at_of_mem hmem
    rw [hv', Option.some.injEq] at hw
    exact ⟨_, hw ▸ hp.takeTimeout.put⟩
  | resumed hfr hfr' hn hv hv' hrun =>
    rw [hfr', runningActions_coroutine] at hrun'
    exact absurd List.mem_cons_self hrun'
  | orphaned hfr hcur hk =>
    simp only [PlacesOnce, YieldsOnce, hcur, hfr, runningActions_coroutine, List.head?_cons] at hc
    have hgone : m.sched.view b = none := view_eq_none.mpr (Option.isNone_iff_eq_none.mp (hc b rfl))
    rw [hk.gone hgone] at hw
    cases hw
  | yieldedList hfr hcur hl hv hv' =>
    have hr : ∀ reason : ReturnReason, (reason = .wait ∨ reason = .sleep) →
        reason ≠ .terminated := by
      rintro _ (rfl | rfl) h <;> cases h
    have hno := hc.nowhere hcur (hr _ (hl.imp And.left And.left)) hv
    rw [hv', Option.some.injEq] at hw
    exact ⟨_, hw ▸ hno.put⟩
  | @yieldedEvents reason done m' v ns em any evs hfr hcur hr hns hv hv' =>
    have hne : reason ≠ .terminated := by
      rintro rfl
      cases hr
    have hno := hc.nowhere hcur hne hv
    simp only [PlacesOnce, YieldsOnce, hcur] at hc
    have hevs := (hc hne).2 _ hr
    rw [hv', Option.some.injEq] at hw
    exact ⟨_, hw ▸ hno.register fun he => hevs (hns.mp he)⟩
  | yieldedTimeout hfr hcur hv hv' =>
    have hno := hc.nowhere hcur (by simp) hv
    rw [hv', Option.some.injEq] at hw
    exact ⟨_, hw ▸ hno.putTimeout⟩
  | stopped hi ha hv hw' hgone hn => rw [hgone] at hw; cases hw
  | terminated hfr hcur hv hgone hn => rw [hgone] at hw; cases hw

theorem nextList_ne_paused (s : BasicScheduler) : nextList s ≠ .paused := by
  unfold nextList
  split
  · exact s.sleepState.getWaiting_ne_paused
  · exact s.sleepState.getActive_ne_paused

/-- An action starts out in the active list. -/
theorem hasPlace_call {ref : Reference} {pStopper : ℕ} {op : Bool} (h : m.Wf)
    (hnew : m.sched.find ref = none)
    (hs : step m (.operation (.call ref pStopper op)) = .ok m') : HasPlace m.sched.next m' := by
  cases h.transition hs with
  | idle hu hop =>
    obtain ⟨b, hb⟩ := hop
    rw [hnew] at hb
    cases hb
  | call hu hf hins =>
    have hle := (evolves_listInsert hins).next_le
    refine ⟨Nat.lt_of_succ_le hle, fun v hv _ => ⟨.list m.sched.sleepState.getActive, ?_⟩⟩
    have hv' := view_listInsert hins (h.sched.view_create _ _ _)
    rw [hv, Option.some.injEq] at hv'
    exact hv' ▸ View.Nowhere.put fun p => rfl

end Placement

end Machine
end EgLang.Scheduler
