import EgLang.Scheduler.Views

/-! # Steps without undefined behaviour

A step commits no undefined behaviour if it meets three conditions, all on the state before it. `StepClear`
is about what the step itself does: which reference it signals, which action it stops, pauses, deletes or
resumes. `TouchesLive` and `TouchesOneMap` are about what it finds in the containers, and are what the
invariants of runs supply.
-/

namespace EgLang.Scheduler
open Library
set_option autoImplicit false

namespace BasicScheduler

/-- In neither map the entry at the upper bound of the reference belongs to an action that waits for any event
and is registered on the reference. -/
def SignalClear (s : BasicScheduler) (ref : Reference) : Prop := ∀ k, s.UpperClear k ref

/-- Whoever is registered on the reference has not been deleted. -/
def OwnersLive (s : BasicScheduler) (ref : Reference) : Prop :=
  ∀ k, ∀ e ∈ s.registrations k ref, s.Live e.val

/-- Whoever waits for any event and is registered on the reference has all registrations in the same map. -/
def OwnersInOneMap (s : BasicScheduler) (ref : Reference) : Prop :=
  ∀ k, ∀ e ∈ s.registrations k ref, ∀ action ∈ s.actions.lookup e.val, action.bWaitAny = true →
    ∀ n ∈ action.iterEventRef, n ∈ NodeList.nodes (s.events k)

/-- The action whose coroutine the main loop of `cycle` resumes next. -/
def nextAction (s : BasicScheduler) : Option ℕ :=
  (if s.getActive = [] then s.getWaiting else s.getActive).head?.map Entry.val

instance (s : BasicScheduler) (ref : Reference) : Decidable (s.SignalClear ref) :=
  decidable_of_iff (∀ k, ∀ u ∈ s.events k, NodeList.upperBound (s.events k) ref = some u.node →
    ∀ action ∈ s.actions.lookup u.val, action.bWaitAny = true →
      ∀ e ∈ s.registrations k ref, e.val ≠ u.val) Iff.rfl

instance (s : BasicScheduler) (ref : Reference) : Decidable (s.OwnersLive ref) :=
  inferInstanceAs (Decidable (∀ k, ∀ e ∈ s.registrations k ref, e.val ∈ s.actions))

instance (s : BasicScheduler) (ref : Reference) : Decidable (s.OwnersInOneMap ref) :=
  inferInstanceAs (Decidable (∀ k, ∀ e ∈ s.registrations k ref, ∀ action ∈ s.actions.lookup e.val,
    action.bWaitAny = true → ∀ n ∈ action.iterEventRef, n ∈ NodeList.nodes (s.events k)))

instance (s : BasicScheduler) (a : ℕ) (ref : Reference) : Decidable (s.SleepCleared a ref) :=
  inferInstanceAs (Decidable ((∀ e ∈ s.events .sleep, e.val = a → e.key = ref) ∨ s.Wakes ref a))

theorem signalSafe {s : BasicScheduler} {ref : Reference} (hclear : s.SignalClear ref)
    (hlive : s.OwnersLive ref) (hone : s.OwnersInOneMap ref) : s.SignalSafe ref := by
  have howner : ∀ k, ∀ e ∈ s.registrations k ref, s.OwnerOk k e := by
    intro k e he
    obtain ⟨action, ha⟩ := live_iff.mp (hlive k e he)
    exact ⟨action, ha, hone k e he action ha⟩
  exact ⟨⟨howner .wait, hclear .wait⟩, ⟨howner .sleep, hclear .sleep⟩⟩

end BasicScheduler

namespace Machine
open BasicScheduler

/-! ## What a step is about to do -/

/-- The action that is stopped: by its reference, or as the first of those whose events never came. -/
def stopping (m : Machine) : Input → Option ℕ
  | .operation (.stop ref) | .operation (.stopperStopped ref) => m.sched.find ref
  | .tick _ => if m.frames.head? = some (.cycle .ending) then
      (m.sched.events .wait).head?.map Entry.val else none
  | _ => none

/-- The reference that is signalled, with the scheduler at that moment: an action that terminates has left
`m_actions` before its reference is signalled. -/
def signalling (m : Machine) : Input → Option (BasicScheduler × Reference)
  | .operation (.signal ref) => some (m.sched, ref)
  | .yield .terminated _ => m.sched.currentAction.bind fun a =>
      (m.sched.actions.lookup a).map fun action => (m.sched.eraseAction a, action.ref)
  | i => (m.stopping i).bind fun a =>
      (m.sched.actions.lookup a).map fun action => (m.sched, action.ref)

/-- The action that is paused. -/
def pausing (m : Machine) : Input → Option ℕ
  | .operation (.pause ref) => m.sched.find ref
  | _ => none

/-- The action that is deleted: by `stopperStopped`, or by `stop` when the stopper returns. -/
def deleting (m : Machine) : Input → Option ℕ
  | .operation (.stopperStopped ref) => m.sched.find ref
  | .ret =>
    match m.frames with
    | .stopper pAction _ _ :: _ => some pAction
    | _ => none
  | _ => none

/-- The action whose coroutine is resumed. -/
def resuming (m : Machine) : Input → Option ℕ
  | .tick _ => if m.frames.head? = some (.cycle .running) then m.sched.nextAction else none
  | _ => none

/-- The action whose timeout has expired. -/
def expiring (m : Machine) : Input → Option ℕ
  | .tick now => if m.frames.head? = some (.cycle .timeouts) then
      (m.sched.timeouts.head?.filter fun e => e.key ≤ now).map Entry.val else none
  | _ => none

/-- **What the step does is well defined**: the reference it signals can be signalled; what it stops has no
registration in the sleeping map that its own event does not clear, and what it pauses has none at all; and it
deletes and resumes no action whose coroutine is running. -/
structure StepClear (m : Machine) (i : Input) : Prop where
  signal : ∀ x ∈ m.signalling i, x.1.SignalClear x.2
  stop : ∀ a ∈ m.stopping i, ∀ action ∈ m.sched.actions.lookup a, m.sched.SleepCleared a action.ref
  pause : ∀ a ∈ m.pausing i, m.sched.Absent a (.events .sleep)
  delete : ∀ a ∈ m.deleting i, Frame.coroutine a ∉ m.frames
  resume : ∀ a ∈ m.resuming i, Frame.coroutine a ∉ m.frames

/-- No entry the step looks at is that of a deleted action. -/
structure TouchesLive (m : Machine) (i : Input) : Prop where
  owners : ∀ x ∈ m.signalling i, x.1.OwnersLive x.2
  stopped : ∀ a ∈ m.stopping i, m.sched.Live a
  expired : ∀ a ∈ m.expiring i, m.sched.Live a
  resumed : ∀ a ∈ m.resuming i, m.sched.Live a

/-- Whoever the step wakes before all its events have come has all registrations in one map. -/
def TouchesOneMap (m : Machine) (i : Input) : Prop := ∀ x ∈ m.signalling i, x.1.OwnersInOneMap x.2

/-- **The condition** under which a step commits no undefined behaviour. -/
structure StepSafe (m : Machine) (i : Input) : Prop where
  clear : m.StepClear i
  live : m.TouchesLive i
  oneMap : m.TouchesOneMap i

instance (m : Machine) (i : Input) : Decidable (m.StepClear i) :=
  decidable_of_iff ((∀ x ∈ m.signalling i, x.1.SignalClear x.2) ∧
      (∀ a ∈ m.stopping i, ∀ action ∈ m.sched.actions.lookup a, m.sched.SleepCleared a action.ref) ∧
      (∀ a ∈ m.pausing i, m.sched.Absent a (.events .sleep)) ∧
      (∀ a ∈ m.deleting i, Frame.coroutine a ∉ m.frames) ∧
      ∀ a ∈ m.resuming i, Frame.coroutine a ∉ m.frames)
    ⟨fun ⟨hsig, hs, hp, hd, hr⟩ => ⟨hsig, hs, hp, hd, hr⟩,
      fun ⟨hsig, hs, hp, hd, hr⟩ => ⟨hsig, hs, hp, hd, hr⟩⟩

instance (m : Machine) (i : Input) : Decidable (m.TouchesLive i) :=
  decidable_of_iff ((∀ x ∈ m.signalling i, x.1.OwnersLive x.2) ∧
      (∀ a ∈ m.stopping i, a ∈ m.sched.actions) ∧ (∀ a ∈ m.expiring i, a ∈ m.sched.actions) ∧
      ∀ a ∈ m.resuming i, a ∈ m.sched.actions)
    ⟨fun ⟨ho, hs, he, hr⟩ => ⟨ho, hs, he, hr⟩, fun ⟨ho, hs, he, hr⟩ => ⟨ho, hs, he, hr⟩⟩

instance (m : Machine) (i : Input) : Decidable (m.TouchesOneMap i) :=
  inferInstanceAs (Decidable (∀ x ∈ m.signalling i, x.1.OwnersInOneMap x.2))

instance (m : Machine) (i : Input) : Decidable (m.StepSafe i) :=
  decidable_of_iff (m.StepClear i ∧ m.TouchesLive i ∧ m.TouchesOneMap i)
    ⟨fun ⟨hc, hl, ho⟩ => ⟨hc, hl, ho⟩, fun ⟨hc, hl, ho⟩ => ⟨hc, hl, ho⟩⟩

/-! ## Each call goes through -/

section Safe
variable {m : Machine} {i : Input} {f : Fault}

theorem StepSafe.signalSafe (hsafe : m.StepSafe i) {s : BasicScheduler} {ref : Reference}
    (hsig : m.signalling i = some (s, ref)) : s.SignalSafe ref :=
  BasicScheduler.signalSafe (hsafe.clear.signal _ hsig) (hsafe.live.owners _ hsig) (hsafe.oneMap _ hsig)

theorem deleteAction_total {pAction : Option ℕ} (hidle : ∀ a ∈ pAction, Frame.coroutine a ∉ m.frames) :
    deleteAction pAction m = .ok m :=
  deleteAction_ok.mpr ⟨fun a ha hrun => hidle a ha (mem_runningActions.mp hrun), rfl⟩

theorem stopStep_safe (ref : Reference) (h : m.Wf)
    (hsafe : ∀ a action, m.sched.find ref = some a → m.sched.actions.lookup a = some action →
      m.sched.SignalSafe action.ref ∧ m.sched.SleepCleared a action.ref) :
    ∃ m', m.stopStep ref = .ok m' := by
  cases hf : m.sched.find ref with
  | none =>
    refine ⟨m, ?_⟩
    simp [stopStep, BasicScheduler.stop, hf, bind, Except.bind, pure, Except.pure]
  | some a =>
    obtain ⟨action, ha, _⟩ := find_eq_some hf
    obtain ⟨hsig, hclear⟩ := hsafe a action hf ha
    obtain ⟨s', hs'⟩ := h.sched.unregister_total ha hsig hclear
    have hd : m.sched.deref a = .ok action := deref_eq_ok.mpr ha
    refine ⟨⟨s', .stopper a action.pStopper action.ref.inst :: m.frames⟩, ?_⟩
    simp [stopStep, BasicScheduler.stop, hf, hd, hs', bind, Except.bind, pure, Except.pure]

/-- What a step stops can be stopped. -/
theorem StepSafe.stops (hsafe : m.StepSafe i) {a : ℕ} {action : ActiveAction}
    (hstop : m.stopping i = some a) (ha : m.sched.actions.lookup a = some action)
    (hi : m.signalling i = (m.stopping i).bind fun a =>
      (m.sched.actions.lookup a).map fun action => (m.sched, action.ref)) :
    m.sched.SignalSafe action.ref ∧ m.sched.SleepCleared a action.ref := by
  refine ⟨hsafe.signalSafe ?_, hsafe.clear.stop a hstop action ha⟩
  rw [hi, hstop, Option.bind_some, ha, Option.map_some]

theorem operate_safe (op : Operation) (h : m.Wf) (hsafe : m.StepSafe (.operation op)) :
    ∃ m', m.operate op = .ok m' := by
  cases op with
  | allocated ref pStopper => exact ⟨_, rfl⟩
  | cycle => exact ⟨_, rfl⟩
  | call ref pStopper actionOperator =>
    suffices hs : ∃ s', m.sched.call ref pStopper actionOperator = .ok s' by
      obtain ⟨s', hs'⟩ := hs
      exact ⟨_, except_bind_ok.mpr ⟨s', hs', rfl⟩⟩
    unfold BasicScheduler.call
    rcases insertAction_cases m.sched (.new ref pStopper actionOperator) with
      ⟨_, heq⟩ | ⟨_, heq⟩
    · rw [heq]
      exact ⟨_, rfl⟩
    · rw [heq]
      simp only [activeInsert, SleepSwapState.getActiveIter_eq]
      exact listInsert_total (BasicScheduler.live_iff.mpr ⟨_, AList.lookup_insert _⟩)
  | signal ref =>
    obtain ⟨s', hs'⟩ := h.sched.signal_total (hsafe.signalSafe rfl)
    exact ⟨_, except_bind_ok.mpr ⟨s', hs', rfl⟩⟩
  | stop ref => exact stopStep_safe ref h fun a action hf ha => hsafe.stops hf ha rfl
  | stopperStopped ref =>
    have hdelete : ∀ s, deleteAction (m.sched.find ref) ⟨s, m.frames⟩ = .ok ⟨s, m.frames⟩ :=
      fun s => deleteAction_total hsafe.clear.delete
    cases hf : m.sched.find ref with
    | none =>
      have hs : m.sched.stopperStopped ref = .ok m.sched := by
        simp [BasicScheduler.stopperStopped, hf]
      exact ⟨_, except_bind_ok.mpr ⟨_, hs, hdelete _⟩⟩
    | some a =>
      obtain ⟨action, ha, _⟩ := find_eq_some hf
      obtain ⟨hsig, hclear⟩ := hsafe.stops hf ha rfl
      obtain ⟨s', hs'⟩ := h.sched.unregister_total ha hsig hclear
      have hd : m.sched.deref a = .ok action := deref_eq_ok.mpr ha
      have hs : m.sched.stopperStopped ref = .ok (s'.clearCurrent a) := by
        simp [BasicScheduler.stopperStopped, hf, hd, hs', bind, Except.bind, pure, Except.pure]
      exact ⟨_, except_bind_ok.mpr ⟨_, hs, hdelete _⟩⟩
  | pause ref =>
    cases hf : m.sched.find ref with
    | none =>
      have hs : m.sched.pause ref = .ok m.sched := by simp [BasicScheduler.pause, hf]
      exact ⟨_, except_bind_ok.mpr ⟨_, hs, rfl⟩⟩
    | some a =>
      obtain ⟨action, ha, _⟩ := find_eq_some hf
      have hnone : ∀ e ∈ m.sched.events .sleep, e.val ≠ a := fun e he =>
        hsafe.clear.pause a hf (pair e) (List.mem_map_of_mem he)
      obtain ⟨s₁, hs₁⟩ := h.sched.withdraw_total (BasicScheduler.live_iff.mpr ⟨_, ha⟩) hnone
      obtain ⟨_, hwd⟩ := h.sched.withdraw ha hs₁
      obtain ⟨s₂, hs₂⟩ := listInsert_total (l := .paused)
        (BasicScheduler.live_iff.mpr ⟨_, hwd.self⟩)
      have hs : m.sched.pause ref = .ok s₂ := by
        simp [BasicScheduler.pause, hf, hs₁, bind, Except.bind, pauseInsert, hs₂]
      exact ⟨_, except_bind_ok.mpr ⟨_, hs, rfl⟩⟩
  | unpause ref =>
    cases hf : m.sched.find ref with
    | none =>
      have hs : m.sched.unpause ref = .ok m.sched := by simp [BasicScheduler.unpause, hf]
      exact ⟨_, except_bind_ok.mpr ⟨_, hs, rfl⟩⟩
    | some a =>
      obtain ⟨action, ha, _⟩ := find_eq_some hf
      have hlive : m.sched.Live a := BasicScheduler.live_iff.mpr ⟨_, ha⟩
      obtain ⟨s₁, hs₁⟩ := h.sched.listRemove_total (l := .paused) hlive
      obtain ⟨s₂, hs₂⟩ := listInsert_total (l := s₁.sleepState.getActive)
        ((evolves_listRemove hs₁).live a hlive (by simp))
      have hs : m.sched.unpause ref = .ok s₂ := by
        simp [BasicScheduler.unpause, hf, pauseRemove, hs₁, bind, Except.bind, activeInsert, hs₂]
      exact ⟨_, except_bind_ok.mpr ⟨_, hs, rfl⟩⟩

theorem eraseAction_suspend (s : BasicScheduler) (a : ℕ) (reason : ReturnReason) (done : Bool) :
    (suspend a reason done s).eraseAction a = s.eraseAction a := by
  cases ha : s.actions.lookup a with
  | none => rw [suspend_gone _ _ ha]
  | some action =>
    have herase : ∀ action' : ActiveAction,
        (s.actions.insert a action').erase a = s.actions.erase a := by
      intro action'
      apply AList.ext
      change List.kerase a (List.kinsert a action' s.actions.entries) = _
      rw [List.kinsert_def]
      exact List.kerase_cons_eq rfl
    rw [suspend_lookup _ _ ha]
    simp only [eraseAction, BasicScheduler.setAction, herase]

theorem yield_safe {reason : ReturnReason} {done : Bool} {a : ℕ} {frames : List Frame} (h : m.Wf)
    (hsafe : m.StepSafe (.yield reason done)) (hfr : m.frames = .coroutine a :: frames)
    (hs : yieldStep a reason done m.sched frames = .error f) : f.undefined = false := by
  simp only [yieldStep, suspend_currentAction] at hs
  cases hcur : m.sched.currentAction with
  | none =>
    rw [hcur] at hs
    cases hs
  | some c =>
    rw [hcur] at hs
    have hcurrent := h.current
    rw [hfr] at hcurrent
    obtain ⟨rfl, hlive⟩ := hcurrent c hcur
    obtain ⟨action, ha⟩ := BasicScheduler.live_iff.mp hlive
    have hw := suspend_wf h.sched c reason done
    have hlive' : (suspend c reason done m.sched).Live c := (suspend_live c).mpr hlive
    have hd : (suspend c reason done m.sched).deref c =
        .ok { action with coroutine := ⟨if done then .done else .suspended, reason⟩ } := by
      rw [deref_eq_ok, suspend_lookup _ _ ha]
      exact AList.lookup_insert _
    simp only [hd, bind, Except.bind, dispatch] at hs
    have hevents : ∀ em any evs, ∃ s',
        registerEvents em any c evs (suspend c reason done m.sched) = .ok s' :=
      fun em any evs => registerEvents_total hlive'
    cases reason with
    | wait =>
      obtain ⟨s', hs'⟩ := listInsert_total (l := (suspend c .wait done m.sched).sleepState.getWaiting)
        hlive'
      simp only [waitInsert, SleepSwapState.getWaitIter_eq, hs'] at hs
      cases hs
    | sleep =>
      obtain ⟨s', hs'⟩ := listInsert_total
        (l := (suspend c .sleep done m.sched).sleepState.getSleeping) hlive'
      simp only [sleepInsert, SleepSwapState.getSleepIter_eq, hs'] at hs
      cases hs
    | waitAll events =>
      obtain ⟨s', hs'⟩ := hevents .wait false events
      simp only [hs'] at hs
      cases hs
    | waitAny events =>
      obtain ⟨s', hs'⟩ := hevents .wait true events
      simp only [hs'] at hs
      cases hs
    | sleepAll events =>
      obtain ⟨s', hs'⟩ := hevents .sleep false events
      simp only [hs'] at hs
      cases hs
    | sleepAny events =>
      obtain ⟨s', hs'⟩ := hevents .sleep true events
      simp only [hs'] at hs
      cases hs
    | timeout timeout =>
      cases timeout with
      | none =>
        cases hs
        rfl
      | some timeout =>
        obtain ⟨action', ha'⟩ := BasicScheduler.live_iff.mp hlive'
        obtain ⟨s', hs'⟩ : ∃ s', (suspend c (.timeout (some timeout)) done m.sched).timeoutInsert c
            timeout = .ok s' := ⟨_, timeoutInsert_ok.mpr ⟨action', ha', rfl⟩⟩
        simp only [hs'] at hs
        cases hs
    | terminated =>
      have hsig : (m.sched.eraseAction c).SignalSafe action.ref := hsafe.signalSafe (by
        rw [signalling, hcur, Option.bind_some, ha, Option.map_some])
      obtain ⟨s', hs'⟩ := (h.sched.eraseAction c).signal_total hsig
      obtain ⟨s₁, hs₁, hs₂⟩ := except_bind_ok.mp hs'
      simp only [eraseAction_suspend, hs₁, hs₂] at hs
      cases hs

theorem running_safe {now : ℤ} {frames : List Frame} (h : m.Wf) (hsafe : m.StepSafe (.tick now))
    (hfr : m.frames = .cycle .running :: frames)
    (hs : runningTick m.sched frames = .error f) : f.undefined = false := by
  have hresuming : m.resuming (.tick now) = m.sched.nextAction := if_pos (by rw [hfr]; rfl)
  unfold runningTick at hs
  split at hs
  · cases hs
  · rename_i hne
    set s := if m.sched.getActive = [] then
      { m.sched with sleepState := m.sched.sleepState.swapActiveWait } else m.sched with hsdef
    have hw : s.Wf := by
      rw [hsdef]
      split
      · exact h.sched.of_eq rfl rfl rfl rfl rfl
      · exact h.sched
    have hact : s.actions = m.sched.actions := by rw [hsdef]; split <;> rfl
    have hfront : s.getActive = if m.sched.getActive = [] then m.sched.getWaiting
        else m.sched.getActive := by
      rw [hsdef]
      split
      · simp [getActive, getWaiting]
      · rfl
    dsimp only at hs
    split at hs
    · rename_i hnil
      rw [hfront] at hnil
      by_cases hactive : m.sched.getActive = []
      · rw [if_pos hactive] at hnil
        exact absurd ⟨hactive, hnil⟩ hne
      · rw [if_neg hactive] at hnil
        exact absurd hnil hactive
    · rename_i front rest hcons
      have hnext : m.sched.nextAction = some front.val := by
        rw [nextAction, ← hfront, hcons]
        rfl
      have hmem : front.val ∈ m.resuming (.tick now) := hresuming.trans hnext
      have hlive := hsafe.live.resumed _ hmem
      have hnot : front.val ∉ runningActions m.frames := fun hrun =>
        hsafe.clear.resume _ hmem (mem_runningActions.mp hrun)
      have hlive' : s.Live front.val := by rwa [Live, hact]
      obtain ⟨s₁, hs₁⟩ := hw.listRemove_total (l := s.sleepState.getActive) hlive'
      have he := evolves_listRemove hs₁
      obtain ⟨action, ha⟩ := BasicScheduler.live_iff.mp (he.live _ hlive' (by simp))
      have hd : s₁.deref front.val = .ok action := deref_eq_ok.mpr ha
      simp only [activeRemove, SleepSwapState.getActiveIter_eq, hs₁, hd, bind, Except.bind] at hs
      -- the coroutine is not running, so it can only fail to start
      have hstop : action.coroutine.status ≠ .running := by
        rcases he.old _ _ ha with ⟨hn, _⟩ | ⟨action₀, ha₀, hc⟩
        · exact absurd (hw.live_lt _ hlive') (not_lt.mpr hn)
        · rw [hact] at ha₀
          rw [hc]
          exact fun hrun => hnot (hfr ▸ (h.running _ _ ha₀).mp hrun)
      split at hs
      · rename_i f' hres
        cases hs
        unfold Machine.resume at hres
        rw [if_neg hstop] at hres
        split at hres
        · split at hres
          · cases hres
          · cases hres
            rfl
        · cases hres
      · cases hs

theorem timeouts_safe {now : ℤ} {frames : List Frame} (h : m.Wf) (hsafe : m.TouchesLive (.tick now))
    (hfr : m.frames = .cycle .timeouts :: frames) :
    ∃ m', timeoutsTick m.sched frames now = .ok m' := by
  unfold timeoutsTick
  cases ht : m.sched.timeouts with
  | nil => exact ⟨_, rfl⟩
  | cons e rest =>
    by_cases hk : e.key ≤ now
    · have hexpires : m.expiring (.tick now) = some e.val := by
        rw [expiring, if_pos (by rw [hfr]; rfl), ht, List.head?_cons, Option.filter_some,
          if_pos (decide_eq_true hk), Option.map_some]
      have hlive := hsafe.expired _ hexpires
      obtain ⟨s₁, hs₁⟩ := h.sched.timeoutRemove_total hlive
      obtain ⟨s₂, hs₂⟩ := listInsert_total (l := s₁.sleepState.getActive)
        ((evolves_timeoutRemove hs₁).live _ hlive (by simp))
      refine ⟨⟨s₂, .cycle .timeouts :: frames⟩, ?_⟩
      simp [hk, hs₁, bind, Except.bind, activeInsert, hs₂, pure, Except.pure]
    · exact ⟨_, by simp only [if_neg hk]; rfl⟩

theorem ending_safe {now : ℤ} {frames : List Frame} (h : m.Wf) (hsafe : m.StepSafe (.tick now))
    (hfr : m.frames = .cycle .ending :: frames) : ∃ m', endingTick m.sched frames = .ok m' := by
  unfold endingTick
  cases hev : m.sched.events .wait with
  | nil => exact ⟨_, rfl⟩
  | cons e rest =>
    have hstop : m.stopping (.tick now) = some e.val := by
      rw [stopping, if_pos (by rw [hfr]; rfl), hev]
      rfl
    obtain ⟨action, ha⟩ := BasicScheduler.live_iff.mp (hsafe.live.stopped _ hstop)
    have hd : m.sched.deref e.val = .ok action := deref_eq_ok.mpr ha
    have hw : Wf ⟨m.sched, .cycle .ending :: frames⟩ := hfr ▸ h
    obtain ⟨m', hm'⟩ := stopStep_safe action.ref hw fun a action' hf ha' => by
      dsimp only at hf ha'
      rw [h.sched.find_ref ha, Option.some.injEq] at hf
      subst hf
      rw [ha, Option.some.injEq] at ha'
      exact ha' ▸ hsafe.stops hstop ha rfl
    exact ⟨m', by simp only [hd, bind, Except.bind]; exact hm'⟩

/-- **No undefined behaviour**: a step that meets the condition does not end in any. -/
theorem step_safe (h : m.Wf) (hsafe : m.StepSafe i) (hs : m.step i = .error f) :
    f.undefined = false := by
  cases i with
  | operation op =>
    simp only [Machine.step] at hs
    split at hs
    · obtain ⟨m', hm'⟩ := operate_safe _ h hsafe
      rw [hm'] at hs
      cases hs
    · cases hs
      rfl
  | yield reason done =>
    simp only [Machine.step] at hs
    split at hs
    · rename_i a frames hfr
      exact yield_safe h hsafe hfr hs
    · cases hs
      rfl
  | ret =>
    simp only [Machine.step] at hs
    split at hs
    · rename_i a p q frames hfr
      have hdelete : ∀ b ∈ some a, Frame.coroutine b ∉ frames := fun b hb hmem =>
        hsafe.clear.delete b (by rw [deleting, hfr]; exact hb) (hfr ▸ List.mem_cons_of_mem _ hmem)
      rw [deleteAction_total hdelete] at hs
      cases hs
    · cases hs
    · cases hs
      rfl
  | tick now =>
    simp only [Machine.step] at hs
    split at hs
    · rename_i frames hfr
      obtain ⟨m', hm'⟩ := timeouts_safe h hsafe.live hfr
      rw [hm'] at hs
      cases hs
    · rename_i frames hfr
      exact running_safe h hsafe hfr hs
    · rename_i frames hfr
      obtain ⟨m', hm'⟩ := ending_safe h hsafe hfr
      rw [hm'] at hs
      cases hs
    · cases hs
      rfl

end Safe

/-! ## Conditions on all entries

What a step touches are entries of the containers, so a statement about all of these will do. -/

section Touched
variable {m : Machine} {i : Input}

/-- A reference is signalled by the scheduler as it is, unless an action terminates. -/
theorem signalling_cases {x : BasicScheduler × Reference} (hx : m.signalling i = some x) :
    x.1 = m.sched ∨ ∃ a done, i = .yield .terminated done ∧ m.sched.currentAction = some a ∧
      x.1 = m.sched.eraseAction a := by
  have hstops : ((m.stopping i).bind fun a =>
      (m.sched.actions.lookup a).map fun action => (m.sched, action.ref)) = some x → x.1 = m.sched := by
    intro hx
    obtain ⟨a, _, ha⟩ := Option.bind_eq_some_iff.mp hx
    obtain ⟨action, _, rfl⟩ := Option.map_eq_some_iff.mp ha
    rfl
  cases i with
  | operation op =>
    cases op with
    | signal ref =>
      cases hx
      exact .inl rfl
    | _ => exact .inl (hstops hx)
  | yield reason done =>
    cases reason with
    | terminated =>
      obtain ⟨a, hcur, ha⟩ := Option.bind_eq_some_iff.mp hx
      obtain ⟨action, _, rfl⟩ := Option.map_eq_some_iff.mp ha
      exact .inr ⟨a, done, rfl, hcur, rfl⟩
    | _ => exact .inl (hstops hx)
  | ret => exact .inl (hstops hx)
  | tick now => exact .inl (hstops hx)

/-- What is stopped is registered, or has the first entry of the waiting map. -/
theorem stopping_cases {a : ℕ} (ha : m.stopping i = some a) :
    m.sched.Live a ∨ ∃ e ∈ m.sched.events .wait, e.val = a := by
  have hfind : ∀ {ref}, m.sched.find ref = some a → m.sched.Live a := by
    intro ref hf
    obtain ⟨action, ha, _⟩ := find_eq_some hf
    exact BasicScheduler.live_iff.mpr ⟨action, ha⟩
  cases i with
  | operation op =>
    cases op with
    | stop ref | stopperStopped ref => exact .inl (hfind ha)
    | _ => cases ha
  | tick now =>
    rw [stopping] at ha
    split at ha
    · obtain ⟨e, he, rfl⟩ := Option.map_eq_some_iff.mp ha
      exact .inr ⟨e, List.mem_of_mem_head? he, rfl⟩
    · cases ha
  | _ => cases ha

theorem touchesLive_of (hlive : ∀ k, ∀ e ∈ m.sched.events k, m.sched.Live e.val)
    (hterm : ∀ done a, i = .yield .terminated done → m.sched.currentAction = some a →
      ∀ k, m.sched.Absent a (.events k))
    (hexpired : ∀ a ∈ m.expiring i, m.sched.Live a) (hresumed : ∀ a ∈ m.resuming i, m.sched.Live a) :
    m.TouchesLive i where
  owners x hx k e he := by
    rcases signalling_cases hx with heq | ⟨a, done, hi, hcur, heq⟩
    · rw [heq] at he ⊢
      exact hlive k e (List.mem_filter.mp he).1
    · rw [heq] at he ⊢
      have hek : e ∈ m.sched.events k := (List.mem_filter.mp he).1
      have hne : e.val ≠ a := hterm done a hi hcur k (pair e) (List.mem_map_of_mem hek)
      exact (evolves_eraseAction m.sched a).live _ (hlive k e hek) (by simpa using Ne.symm hne)
  stopped a ha := (stopping_cases ha).elim id fun ⟨e, he, hval⟩ => hval ▸ hlive .wait e he
  expired := hexpired
  resumed := hresumed

theorem touchesOneMap_of (hone : ∀ k, ∀ e ∈ m.sched.events k, ∀ action,
      m.sched.actions.lookup e.val = some action →
        ∀ n ∈ action.iterEventRef, n ∈ NodeList.nodes (m.sched.events k)) : m.TouchesOneMap i := by
  intro x hx k e he action ha _
  rcases signalling_cases hx with heq | ⟨a, done, _, _, heq⟩
  · rw [heq] at he ha ⊢
    exact hone k e (List.mem_filter.mp he).1 action ha
  · rw [heq] at he ha ⊢
    refine hone k e (List.mem_filter.mp he).1 action ?_
    by_cases hea : e.val = a
    · rw [eraseAction, hea, AList.lookup_erase] at ha
      cases ha
    · rwa [eraseAction, AList.lookup_erase_ne hea] at ha

end Touched

end Machine
end EgLang.Scheduler
