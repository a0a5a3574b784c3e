import EgLang.Scheduler.Signals

/-! # The transitions of the scheduler

`Machine.Wf` is the invariant of the machine: that of the scheduler, and what the stack of calls
says about the coroutines in progress. `Transition` says once what each step can do, in terms of
the compound operations, and `Machine.Wf.transition` reads it off a step that succeeds. The
properties of whole runs are proved by cases on it.
-/

namespace EgLang.Scheduler
open Library
set_option autoImplicit false

namespace BasicScheduler

/-! ## What happens to the registered actions -/

/-- Actions keep their coroutines, new actions have not started theirs, and the only action that
is lost is `gone`. -/
structure Evolves (gone : Option ℕ) (s s' : BasicScheduler) : Prop where
  next_le : s.next ≤ s'.next
  currentAction : s'.currentAction = s.currentAction
  sleepState : s'.sleepState = s.sleepState
  live : ∀ a, s.Live a → gone ≠ some a → s'.Live a
  old : ∀ a action', s'.actions.lookup a = some action' →
    (s.next ≤ a ∧ action'.coroutine = .initial) ∨
      ∃ action, s.actions.lookup a = some action ∧ action'.coroutine = action.coroutine

theorem Evolves.refl (s : BasicScheduler) : Evolves none s s :=
  ⟨le_rfl, rfl, rfl, fun _ h _ => h, fun _ action h => .inr ⟨action, h, rfl⟩⟩

theorem Evolves.old_trans {gone gone' : Option ℕ} {s s' s'' : BasicScheduler}
    (h : Evolves gone s s') (h' : Evolves gone' s' s'') (a : ℕ) (action'' : ActiveAction)
    (ha : s''.actions.lookup a = some action'') :
    (s.next ≤ a ∧ action''.coroutine = .initial) ∨
      ∃ action, s.actions.lookup a = some action ∧ action''.coroutine = action.coroutine := by
  rcases h'.old a action'' ha with ⟨hn, hc⟩ | ⟨action', ha', hc'⟩
  · exact .inl ⟨h.next_le.trans hn, hc⟩
  · rcases h.old a action' ha' with ⟨hn, hc⟩ | ⟨action, ha, hc⟩
    · exact .inl ⟨hn, hc'.trans hc⟩
    · exact .inr ⟨action, ha, hc'.trans hc⟩

theorem Evolves.trans {gone : Option ℕ} {s s' s'' : BasicScheduler} (h : Evolves none s s')
    (h' : Evolves gone s' s'') : Evolves gone s s'' where
  next_le := h.next_le.trans h'.next_le
  currentAction := h'.currentAction.trans h.currentAction
  sleepState := h'.sleepState.trans h.sleepState
  live a ha hg := h'.live a (h.live a ha (by simp)) hg
  old := h.old_trans h'

theorem Evolves.trans_none {gone : Option ℕ} {s s' s'' : BasicScheduler} (h : Evolves gone s s')
    (h' : Evolves none s' s'') : Evolves gone s s'' where
  next_le := h.next_le.trans h'.next_le
  currentAction := h'.currentAction.trans h.currentAction
  sleepState := h'.sleepState.trans h.sleepState
  live a ha hg := h'.live a (h.live a ha hg) (by simp)
  old := h.old_trans h'

/-- A change of the entry of one action. -/
theorem evolves_of_insert {s s' : BasicScheduler} {a : ℕ} {action action' : ActiveAction}
    (ha : s.actions.lookup a = some action) (hs' : s'.actions = s.actions.insert a action')
    (hc : action'.coroutine = action.coroutine) (hcur : s'.currentAction = s.currentAction)
    (hst : s'.sleepState = s.sleepState) (hn : s.next ≤ s'.next) : Evolves none s s' where
  next_le := hn
  currentAction := hcur
  sleepState := hst
  live b hb _ := by
    rw [Live, hs', AList.mem_insert]
    exact .inr hb
  old b action₁ hb := by
    rw [hs'] at hb
    by_cases hba : b = a
    · subst hba
      rw [AList.lookup_insert, Option.some.injEq] at hb
      exact .inr ⟨action, ha, by rw [← hb, hc]⟩
    · rw [AList.lookup_insert_ne hba] at hb
      exact .inr ⟨action₁, hb, rfl⟩

theorem evolves_listInsert {s s' : BasicScheduler} {l : ListId} {a : ℕ}
    (hs : s.listInsert l l a = .ok s') : Evolves none s s' := by
  obtain ⟨action, ha, rfl⟩ := listInsert_ok.mp hs
  exact evolves_of_insert ha rfl rfl rfl rfl (Nat.le_succ _)

theorem evolves_listRemove {s s' : BasicScheduler} {l : ListId} {a : ℕ}
    (hs : s.listRemove l l a = .ok s') : Evolves none s s' := by
  obtain ⟨action, ha, ⟨_, rfl⟩ | ⟨n, _, _, rfl⟩⟩ := listRemove_ok.mp hs
  · exact .refl _
  · exact evolves_of_insert ha rfl rfl rfl rfl le_rfl

theorem evolves_timeoutInsert {s s' : BasicScheduler} {a : ℕ} {timeout : ℤ}
    (hs : s.timeoutInsert a timeout = .ok s') : Evolves none s s' := by
  obtain ⟨action, ha, rfl⟩ := timeoutInsert_ok.mp hs
  exact evolves_of_insert ha rfl rfl rfl rfl (Nat.le_succ _)

theorem evolves_timeoutRemove {s s' : BasicScheduler} {a : ℕ}
    (hs : s.timeoutRemove a = .ok s') : Evolves none s s' := by
  obtain ⟨action, ha, ⟨_, rfl⟩ | ⟨n, _, _, rfl⟩⟩ := timeoutRemove_ok.mp hs
  · exact .refl _
  · exact evolves_of_insert ha rfl rfl rfl rfl le_rfl

theorem Signalled.evolves {ref : Reference} {s s' : BasicScheduler} {new : List (Entry Unit ℕ)}
    (h : Signalled ref s s' new) : Evolves none s s' where
  next_le := h.next_le
  currentAction := h.currentAction
  sleepState := h.sleepState
  live a ha _ := (h.live_iff a).mpr ha
  old a action' ha := by
    cases hs : s.actions.lookup a with
    | none => rw [h.dead a hs] at ha; cases ha
    | some action =>
      obtain ⟨action₁, h₁, hsame, _⟩ := h.lookup a action hs
      rw [ha, Option.some.injEq] at h₁
      exact .inr ⟨action, rfl, h₁ ▸ hsame.coroutine⟩

theorem Withdrawn.evolves {a : ℕ} {action : ActiveAction} {s s' : BasicScheduler}
    (ha : s.actions.lookup a = some action) (h : Withdrawn a action s s') :
    Evolves none s s' where
  next_le := h.next.ge
  currentAction := h.currentAction
  sleepState := h.sleepState
  live b hb _ := by
    rw [live_iff] at hb ⊢
    by_cases hba : b = a
    · subst hba
      exact ⟨_, h.self⟩
    · rwa [h.others b hba]
  old b action' hb := by
    by_cases hba : b = a
    · subst hba
      rw [h.self, Option.some.injEq] at hb
      exact .inr ⟨action, ha, by rw [← hb]; rfl⟩
    · rw [h.others b hba] at hb
      exact .inr ⟨action', hb, rfl⟩

theorem evolves_eraseAction (s : BasicScheduler) (a : ℕ) :
    Evolves (some a) s (s.eraseAction a) where
  next_le := le_rfl
  currentAction := rfl
  sleepState := rfl
  live b hb hg := by
    rw [Live, eraseAction, AList.mem_erase]
    exact ⟨fun h => hg (by rw [h]), hb⟩
  old b action' hb := by
    by_cases hba : b = a
    · subst hba
      simp [eraseAction] at hb
    · rw [eraseAction, AList.lookup_erase_ne hba] at hb
      exact .inr ⟨action', hb, rfl⟩

theorem evolves_create (s : BasicScheduler) (ref : Reference) (pStopper : ℕ) (op : Bool) :
    Evolves none s (s.create (.new ref pStopper op)) where
  next_le := Nat.le_succ _
  currentAction := rfl
  sleepState := rfl
  live b hb _ := by
    rw [Live, create, AList.mem_insert]
    exact .inr hb
  old b action' hb := by
    rcases create_lookup hb with ⟨rfl, rfl⟩ | ⟨_, hb⟩
    · exact .inl ⟨le_rfl, rfl⟩
    · exact .inr ⟨action', hb, rfl⟩

/-! ## Stopping an action -/

/-- What `unregister` does: its events are delivered, the action is withdrawn and erased. -/
structure Unregistered (a : ℕ) (action : ActiveAction) (new : List (Entry Unit ℕ))
    (action₁ : ActiveAction) (s s₁ s₂ : BasicScheduler) : Prop where
  signalled : SignalledAll action.ref s s₁ new
  wf₁ : s₁.Wf
  lookup : s₁.actions.lookup a = some action₁
  withdrawn : Withdrawn a action₁ s₁ s₂
  wf₂ : s₂.Wf

theorem unregister_eq (a : ℕ) (action : ActiveAction) (s : BasicScheduler) :
    s.unregister a action =
      (s.signal action.ref >>= fun s => s.withdraw a >>= fun s => .ok (s.eraseAction a)) := by
  simp only [unregister, signal, bind_assoc]
  rfl

theorem Wf.unregister {a : ℕ} {action : ActiveAction} {s s' : BasicScheduler} (h : s.Wf)
    (ha : s.actions.lookup a = some action) (hs : s.unregister a action = .ok s') :
    ∃ new action₁ s₁ s₂, Unregistered a action new action₁ s s₁ s₂ ∧ s' = s₂.eraseAction a := by
  rw [unregister_eq] at hs
  obtain ⟨s₁, hs₁, hs⟩ := except_bind_ok.mp hs
  obtain ⟨s₂, hs₂, hs⟩ := except_bind_ok.mp hs
  cases hs
  obtain ⟨w₁, new, hsig⟩ := h.signal hs₁
  obtain ⟨action₁, ha₁, _⟩ := hsig.lookup a action ha
  obtain ⟨w₂, hwd⟩ := w₁.withdraw ha₁ hs₂
  exact ⟨new, action₁, s₁, s₂, ⟨hsig, w₁, ha₁, hwd, w₂⟩, rfl⟩

theorem Unregistered.evolves {a : ℕ} {action action₁ : ActiveAction} {new : List (Entry Unit ℕ)}
    {s s₁ s₂ : BasicScheduler} (h : Unregistered a action new action₁ s s₁ s₂) :
    Evolves (some a) s (s₂.eraseAction a) :=
  h.signalled.evolves.trans ((h.withdrawn.evolves h.lookup).trans (evolves_eraseAction s₂ a))

/-- After the events of its own reference the action has no registration in the sleeping map: they
were all on that reference, or it has been woken. -/
def SleepCleared (s : BasicScheduler) (a : ℕ) (ref : Reference) : Prop :=
  (∀ e ∈ s.events .sleep, e.val = a → e.key = ref) ∨ s.Wakes ref a

/-- The second half of `unregister` runs if the first has left nothing in the sleeping map. -/
theorem Wf.withdraw_signalled {a : ℕ} {action : ActiveAction} {s s₁ : BasicScheduler} (h : s.Wf)
    (ha : s.actions.lookup a = some action) (hs₁ : s.signal action.ref = .ok s₁)
    (hclear : s.SleepCleared a action.ref) : ∃ s₂, s₁.withdraw a = .ok s₂ := by
  obtain ⟨w₁, new, hsig⟩ := h.signal hs₁
  refine w₁.withdraw_total ((hsig.live_iff a).mpr (live_iff.mpr ⟨_, ha⟩)) fun e he hea => ?_
  obtain ⟨hes, hew⟩ := hsig.events_sub .sleep e he
  rcases hclear with hall | hwakes
  · exact hsig.events_gone .sleep e he (hall e hes hea)
  · exact hew (hea ▸ hsig.woken a hwakes)

theorem Wf.unregister_total {a : ℕ} {action : ActiveAction} {s : BasicScheduler} (h : s.Wf)
    (ha : s.actions.lookup a = some action) (hsafe : s.SignalSafe action.ref)
    (hclear : s.SleepCleared a action.ref) : ∃ s', s.unregister a action = .ok s' := by
  obtain ⟨s₁, hs₁⟩ := h.signal_total hsafe
  obtain ⟨s₂, hs₂⟩ := h.withdraw_signalled ha hs₁ hclear
  refine ⟨s₂.eraseAction a, ?_⟩
  rw [unregister_eq]
  exact except_bind_ok.mpr ⟨s₁, hs₁, except_bind_ok.mpr ⟨s₂, hs₂, rfl⟩⟩

/-! ## Registering for events -/

/-- What registering an action for the events `evs` does. -/
structure Registered (m : MapId) (a : ℕ) (evs : List Reference) (action action' : ActiveAction)
    (s s' : BasicScheduler) : Prop where
  timeouts : s'.timeouts = s.timeouts
  lists : s'.lists = s.lists
  currentAction : s'.currentAction = s.currentAction
  sleepState : s'.sleepState = s.sleepState
  next_le : s.next ≤ s'.next
  otherEvents : ∀ m', m' ≠ m → s'.events m' = s.events m'
  events : ∃ added, (s'.events m).Perm (added ++ s.events m) ∧ (∀ e ∈ added, e.val = a) ∧
    added.length = evs.length
  self : s'.actions.lookup a = some action'
  others : ∀ b, b ≠ a → s'.actions.lookup b = s.actions.lookup b
  coroutine : action'.coroutine = action.coroutine
  ref : action'.ref = action.ref
  op : action'.op = action.op
  iterList : action'.iterList = action.iterList
  iterTimeout : action'.iterTimeout = action.iterTimeout

theorem Wf.insertEvents {m : MapId} {a : ℕ} {evs : List Reference} {s s' : BasicScheduler}
    {action : ActiveAction} (h : s.Wf) (ha : s.actions.lookup a = some action)
    (hs : Machine.insertEvents m a evs s = .ok s') :
    s'.Wf ∧ ∃ action', Registered m a evs action action' s s' := by
  induction evs generalizing s action with
  | nil =>
    cases hs
    refine ⟨h, action, rfl, rfl, rfl, rfl, le_rfl, fun _ _ => rfl, ⟨[], .refl _, ?_, rfl⟩, ha,
      fun _ _ => rfl, rfl, rfl, rfl, rfl, rfl⟩
    intro e he
    cases he
  | cons ev evs ih =>
    obtain ⟨s₁, hs₁, hs₂⟩ := except_bind_ok.mp hs
    have h₁ := h.eventInsert hs₁
    obtain ⟨action₁, ha₁, rfl⟩ := eventInsert_ok.mp hs₁
    rw [ha, Option.some.injEq] at ha₁
    subst ha₁
    obtain ⟨h', action', hr⟩ := ih h₁ (AList.lookup_insert _) hs₂
    refine ⟨h', action', ?_⟩
    obtain ⟨added, hperm, hadd, hlen⟩ := hr.events
    refine
      { timeouts := hr.timeouts
        lists := hr.lists
        currentAction := hr.currentAction
        sleepState := hr.sleepState
        next_le := (Nat.le_succ _).trans hr.next_le
        otherEvents := fun m' hm => (hr.otherEvents m' hm).trans (Function.update_of_ne hm _ _)
        events := ⟨added ++ [⟨s.next, ev, a⟩], ?_, ?_, by simp [hlen]⟩
        self := hr.self
        others := fun b hb => (hr.others b hb).trans (AList.lookup_insert_ne hb)
        coroutine := hr.coroutine
        ref := hr.ref
        op := hr.op
        iterList := hr.iterList
        iterTimeout := hr.iterTimeout }
    · simp only [BasicScheduler.putEvent, Function.update_self] at hperm
      rw [List.append_assoc]
      exact hperm.trans ((NodeList.insert_perm _ _).append_left added)
    · intro e he
      rcases List.mem_append.mp he with he | he
      · exact hadd e he
      · rw [List.mem_singleton.mp he]

theorem insertEvents_total {m : MapId} {a : ℕ} (evs : List Reference) {s : BasicScheduler}
    (ha : s.Live a) : ∃ s', Machine.insertEvents m a evs s = .ok s' ∧ s'.Live a := by
  induction evs generalizing s with
  | nil => exact ⟨s, rfl, ha⟩
  | cons ev evs ih =>
    obtain ⟨action, ha⟩ := live_iff.mp ha
    have hs₁ : s.eventInsert m a ev = .ok (s.putEvent m a ev action) :=
      eventInsert_ok.mpr ⟨action, ha, rfl⟩
    obtain ⟨s', hs', hlive⟩ := ih (s := s.putEvent m a ev action)
      (live_iff.mpr ⟨_, AList.lookup_insert _⟩)
    exact ⟨s', except_bind_ok.mpr ⟨_, hs₁, hs'⟩, hlive⟩

theorem Wf.registerEvents {m : MapId} {any : Bool} {a : ℕ} {evs : List Reference}
    {s s' : BasicScheduler} {action : ActiveAction} (h : s.Wf)
    (ha : s.actions.lookup a = some action)
    (hs : Machine.registerEvents m any a evs s = .ok s') :
    s'.Wf ∧ ∃ action', Registered m a evs action action' s s' := by
  obtain ⟨s₁, hs₁, hs⟩ := except_bind_ok.mp hs
  obtain ⟨h₁, action', hr⟩ := h.insertEvents ha hs₁
  obtain ⟨action₁, ha₁, hs⟩ := except_bind_ok.mp hs
  cases hs
  rw [deref_eq_ok, hr.self, Option.some.injEq] at ha₁
  subst ha₁
  refine ⟨h₁.setAction hr.self rfl rfl rfl rfl, { action' with bWaitAny := any }, ?_⟩
  exact { hr with
    self := AList.lookup_insert _
    others := fun b hb => (AList.lookup_insert_ne hb).trans (hr.others b hb)
    coroutine := hr.coroutine
    ref := hr.ref
    op := hr.op
    iterList := hr.iterList
    iterTimeout := hr.iterTimeout }

theorem registerEvents_total {m : MapId} {any : Bool} {a : ℕ} {evs : List Reference}
    {s : BasicScheduler} (ha : s.Live a) :
    ∃ s', Machine.registerEvents m any a evs s = .ok s' := by
  obtain ⟨s₁, hs₁, hlive⟩ := insertEvents_total (m := m) evs ha
  obtain ⟨action, ha₁⟩ := live_iff.mp hlive
  exact ⟨_, except_bind_ok.mpr ⟨s₁, hs₁, except_bind_ok.mpr ⟨action, deref_eq_ok.mpr ha₁, rfl⟩⟩⟩

theorem Registered.evolves {m : MapId} {a : ℕ} {evs : List Reference}
    {action action' : ActiveAction} {s s' : BasicScheduler}
    (ha : s.actions.lookup a = some action) (h : Registered m a evs action action' s s') :
    Evolves none s s' where
  next_le := h.next_le
  currentAction := h.currentAction
  sleepState := h.sleepState
  live b hb _ := by
    rw [live_iff] at hb ⊢
    by_cases hba : b = a
    · subst hba
      exact ⟨_, h.self⟩
    · rwa [h.others b hba]
  old b action₁ hb := by
    by_cases hba : b = a
    · subst hba
      rw [h.self, Option.some.injEq] at hb
      exact .inr ⟨action, ha, by rw [← hb, h.coroutine]⟩
    · rw [h.others b hba] at hb
      exact .inr ⟨action₁, hb, rfl⟩

end BasicScheduler

/-! ## The invariant of the machine -/

namespace Machine
open BasicScheduler

/-- The coroutines in progress, innermost first. -/
def runningActions (frames : List Frame) : List ℕ :=
  frames.filterMap fun
    | .coroutine iter => some iter
    | _ => none

@[simp] theorem runningActions_cycle (p : Phase) (frames : List Frame) :
    runningActions (.cycle p :: frames) = runningActions frames := rfl

@[simp] theorem runningActions_coroutine (a : ℕ) (frames : List Frame) :
    runningActions (.coroutine a :: frames) = a :: runningActions frames := rfl

@[simp] theorem runningActions_stopper (a p i : ℕ) (frames : List Frame) :
    runningActions (.stopper a p i :: frames) = runningActions frames := rfl

@[simp] theorem runningActions_terminated (a p i : ℕ) (frames : List Frame) :
    runningActions (.terminated a p i :: frames) = runningActions frames := rfl

theorem mem_runningActions {a : ℕ} {frames : List Frame} :
    a ∈ runningActions frames ↔ Frame.coroutine a ∈ frames := by
  rw [runningActions, List.mem_filterMap]
  constructor
  · rintro ⟨frame, hmem, heq⟩
    cases frame with
    | coroutine b =>
      obtain rfl := Option.some.inj heq
      exact hmem
    | _ => cases heq
  · exact fun hmem => ⟨_, hmem, rfl⟩

theorem deleteAction_ok {pAction : Option ℕ} {m m' : Machine} :
    deleteAction pAction m = .ok m' ↔
      (∀ a, pAction = some a → a ∉ runningActions m.frames) ∧ m' = m := by
  rw [deleteAction]
  cases pAction with
  | none => simp [eq_comm]
  | some a =>
    simp only [Option.any_some, decide_eq_true_eq, ← mem_runningActions]
    by_cases ha : a ∈ runningActions m.frames
    · simp [ha]
    · simp [ha, eq_comm]

/-- If `m_pCurrentAction` is set, it is the action of the innermost coroutine or terminating
action, and can be dereferenced unless its stopper is in progress. -/
def CurrentOk (live : ℕ → Prop) (current : Option ℕ) : List Frame → Prop
  | [] => current = none
  | .cycle _ :: frames => CurrentOk live current frames
  | .coroutine a :: _ => ∀ c, current = some c → c = a ∧ live a
  | .stopper a _ _ :: frames => CurrentOk (fun b => live b ∨ b = a) current frames
  | .terminated a _ _ :: _ => ∀ c, current = some c → c = a

theorem currentOk_none (live : ℕ → Prop) (frames : List Frame) : CurrentOk live none frames := by
  induction frames generalizing live with
  | nil => rfl
  | cons frame frames ih =>
    cases frame with
    | cycle p => exact ih live
    | coroutine a => exact fun c hc => by cases hc
    | stopper a p i => exact ih _
    | terminated a p i => exact fun c hc => by cases hc

theorem CurrentOk.mono {live live' : ℕ → Prop} {current : Option ℕ} {frames : List Frame}
    (h : CurrentOk live current frames) (hlive : ∀ b, live b → live' b) :
    CurrentOk live' current frames := by
  induction frames generalizing live live' with
  | nil => exact h
  | cons frame frames ih =>
    cases frame with
    | cycle p => exact ih h hlive
    | coroutine a => exact fun c hc => ⟨(h c hc).1, hlive a (h c hc).2⟩
    | stopper a p i => exact ih h fun b hb => hb.imp_left (hlive b)
    | terminated a p i => exact h

/-- An action may be lost if `m_pCurrentAction` no longer points to it. -/
theorem CurrentOk.clear {live live' : ℕ → Prop} {current : Option ℕ} {frames : List Frame} {a : ℕ}
    (h : CurrentOk live current frames) (hlive : ∀ b, live b → b ≠ a → live' b)
    (ha : current ≠ some a) : CurrentOk live' current frames := by
  induction frames generalizing live live' with
  | nil => exact h
  | cons frame frames ih =>
    cases frame with
    | cycle p => exact ih h hlive
    | coroutine b =>
      intro c hc
      obtain ⟨rfl, hb⟩ := h c hc
      exact ⟨rfl, hlive c hb fun hca => ha (hca ▸ hc)⟩
    | stopper b p i => exact ih h fun c hc hca => hc.imp_left fun hc => hlive c hc hca
    | terminated b p i => exact h

/-- **The invariant** of the machine. -/
structure Wf (m : Machine) : Prop where
  sched : m.sched.Wf
  current : CurrentOk m.sched.Live m.sched.currentAction m.frames
  running : ∀ a action, m.sched.actions.lookup a = some action →
    (action.coroutine.status = .running ↔ a ∈ runningActions m.frames)
  nodup : (runningActions m.frames).Nodup
  frames_lt : ∀ a ∈ runningActions m.frames, a < m.sched.next

theorem wf_initial : initial.Wf where
  sched := BasicScheduler.wf_initial
  current := rfl
  running := fun a action h => by simp [initial, BasicScheduler.initial] at h
  nodup := List.nodup_nil
  frames_lt := fun a h => by cases h

/-- Operations that evolve the scheduler keep the invariant, with frames of the same coroutines. -/
theorem Wf.evolve {m : Machine} {s' : BasicScheduler} {gone : Option ℕ} {frames : List Frame}
    (h : m.Wf) (hs : s'.Wf) (he : Evolves gone m.sched s')
    (hcur : CurrentOk s'.Live s'.currentAction frames)
    (hframes : runningActions frames = runningActions m.frames) : Wf ⟨s', frames⟩ where
  sched := hs
  current := hcur
  running a action' ha := by
    change _ ↔ a ∈ runningActions frames
    rw [hframes]
    rcases he.old a action' ha with ⟨hn, hc⟩ | ⟨action, ha, hc⟩
    · refine iff_of_false (by rw [hc]; decide) fun hmem => ?_
      have := h.frames_lt a hmem
      omega
    · rw [hc, h.running a action ha]
  nodup := by
    change (runningActions frames).Nodup
    rw [hframes]
    exact h.nodup
  frames_lt a ha := by
    change a ∈ runningActions frames at ha
    rw [hframes] at ha
    exact (h.frames_lt a ha).trans_le he.next_le

theorem Wf.evolve_same {m : Machine} {s' : BasicScheduler} (h : m.Wf) (hs : s'.Wf)
    (he : Evolves none m.sched s') : Wf ⟨s', m.frames⟩ :=
  h.evolve hs he (he.currentAction ▸ h.current.mono fun b hb => he.live b hb (by simp)) rfl

/-! ## What a step can do -/

/-- The operation finds its reference unregistered, or registered where it must not be. -/
def Operation.Idle (s : BasicScheduler) : Operation → Prop
  | .allocated ref _ | .call ref _ _ => ∃ b, s.find ref = some b
  | .stop ref | .stopperStopped ref | .pause ref | .unpause ref => s.find ref = none
  | .signal _ | .cycle => False

/-- The event map and mode of a reason that registers for events. -/
def registration : ReturnReason → Option (MapId × Bool × List Reference)
  | .waitAll events => some (.wait, false, events)
  | .waitAny events => some (.wait, true, events)
  | .sleepAll events => some (.sleep, false, events)
  | .sleepAny events => some (.sleep, true, events)
  | _ => none

/-- **The transitions**: every way in which a step can succeed. -/
inductive Transition (m : Machine) : Input → Machine → Prop
  | idle {op} (hu : userTop m.frames = true) (hop : Operation.Idle m.sched op) :
      Transition m (.operation op) m
  | allocated {ref pStopper} (hu : userTop m.frames = true) (hf : m.sched.find ref = none) :
      Transition m (.operation (.allocated ref pStopper))
        ⟨m.sched.create (.new ref pStopper false), m.frames⟩
  | call {ref pStopper op s'} (hu : userTop m.frames = true) (hf : m.sched.find ref = none)
      (hs : (m.sched.create (.new ref pStopper op)).listInsert m.sched.sleepState.getActive
        m.sched.sleepState.getActive m.sched.next = .ok s') :
      Transition m (.operation (.call ref pStopper op)) ⟨s', m.frames⟩
  | signal {ref s'} (hu : userTop m.frames = true) (hs : m.sched.signal ref = .ok s') :
      Transition m (.operation (.signal ref)) ⟨s', m.frames⟩
  | stop {ref a action s'} (hu : userTop m.frames = true) (hf : m.sched.find ref = some a)
      (ha : m.sched.actions.lookup a = some action) (hs : m.sched.unregister a action = .ok s') :
      Transition m (.operation (.stop ref))
        ⟨s', .stopper a action.pStopper action.ref.inst :: m.frames⟩
  | stopperStopped {ref a action s'} (hu : userTop m.frames = true)
      (hf : m.sched.find ref = some a) (ha : m.sched.actions.lookup a = some action)
      (hs : m.sched.unregister a action = .ok s') (hidle : a ∉ runningActions m.frames) :
      Transition m (.operation (.stopperStopped ref)) ⟨s'.clearCurrent a, m.frames⟩
  | pause {ref a action s₁ s'} (hu : userTop m.frames = true) (hf : m.sched.find ref = some a)
      (ha : m.sched.actions.lookup a = some action) (hw : m.sched.withdraw a = .ok s₁)
      (hs : s₁.listInsert .paused .paused a = .ok s') :
      Transition m (.operation (.pause ref)) ⟨s', m.frames⟩
  | unpause {ref a action s₁ s'} (hu : userTop m.frames = true) (hf : m.sched.find ref = some a)
      (ha : m.sched.actions.lookup a = some action)
      (hr : m.sched.listRemove .paused .paused a = .ok s₁)
      (hs : s₁.listInsert m.sched.sleepState.getActive m.sched.sleepState.getActive a = .ok s') :
      Transition m (.operation (.unpause ref)) ⟨s', m.frames⟩
  | cycle (hu : userTop m.frames = true) :
      Transition m (.operation .cycle) ⟨m.sched, .cycle .timeouts :: m.frames⟩
  | orphan {a reason done frames} (hfr : m.frames = .coroutine a :: frames)
      (hcur : m.sched.currentAction = none) :
      Transition m (.yield reason done) ⟨suspend a reason done m.sched, frames⟩
  | yieldWait {a done frames action s'} (hfr : m.frames = .coroutine a :: frames)
      (hcur : m.sched.currentAction = some a) (ha : m.sched.actions.lookup a = some action)
      (hs : (suspend a .wait done m.sched).listInsert m.sched.sleepState.getWaiting
        m.sched.sleepState.getWaiting a = .ok s') :
      Transition m (.yield .wait done) ⟨{ s' with currentAction := none }, frames⟩
  | yieldSleep {a done frames action s'} (hfr : m.frames = .coroutine a :: frames)
      (hcur : m.sched.currentAction = some a) (ha : m.sched.actions.lookup a = some action)
      (hs : (suspend a .sleep done m.sched).listInsert m.sched.sleepState.getSleeping
        m.sched.sleepState.getSleeping a = .ok s') :
      Transition m (.yield .sleep done) ⟨{ s' with currentAction := none }, frames⟩
  | yieldEvents {a reason done frames action em any evs s'}
      (hfr : m.frames = .coroutine a :: frames)
      (hcur : m.sched.currentAction = some a) (ha : m.sched.actions.lookup a = some action)
      (hr : registration reason = some (em, any, evs))
      (hs : registerEvents em any a evs (suspend a reason done m.sched) = .ok s') :
      Transition m (.yield reason done) ⟨{ s' with currentAction := none }, frames⟩
  | yieldTimeout {a timeout done frames action s'} (hfr : m.frames = .coroutine a :: frames)
      (hcur : m.sched.currentAction = some a) (ha : m.sched.actions.lookup a = some action)
      (hs : (suspend a (.timeout (some timeout)) done m.sched).timeoutInsert a timeout = .ok s') :
      Transition m (.yield (.timeout (some timeout)) done)
        ⟨{ s' with currentAction := none }, frames⟩
  | yieldTerminated {a done frames action s'} (hfr : m.frames = .coroutine a :: frames)
      (hcur : m.sched.currentAction = some a) (ha : m.sched.actions.lookup a = some action)
      (hs : ((suspend a .terminated done m.sched).eraseAction a).signal action.ref = .ok s') :
      Transition m (.yield .terminated done)
        ⟨s', .terminated a action.pStopper action.ref.inst :: frames⟩
  | retStopper {a pStopper inst frames} (hfr : m.frames = .stopper a pStopper inst :: frames)
      (hidle : a ∉ runningActions frames) : Transition m .ret ⟨m.sched.clearCurrent a, frames⟩
  | retTerminated {a pStopper inst frames}
      (hfr : m.frames = .terminated a pStopper inst :: frames) :
      Transition m .ret ⟨{ m.sched with currentAction := none }, frames⟩
  | due {now e rest frames s₁ s'} (hfr : m.frames = .cycle .timeouts :: frames)
      (ht : m.sched.timeouts = e :: rest) (hk : e.key ≤ now)
      (hr : m.sched.timeoutRemove e.val = .ok s₁)
      (hs : s₁.listInsert m.sched.sleepState.getActive m.sched.sleepState.getActive e.val =
        .ok s') : Transition m (.tick now) ⟨s', m.frames⟩
  | startSwap {now frames} (hfr : m.frames = .cycle .timeouts :: frames)
      (hdue : ∀ e rest, m.sched.timeouts = e :: rest → now < e.key)
      (hactive : m.sched.getActive = []) (hwaiting : m.sched.getWaiting = []) :
      Transition m (.tick now)
        ⟨{ m.sched with sleepState := m.sched.sleepState.swapActiveSleep },
          .cycle .running :: frames⟩
  | start {now frames} (hfr : m.frames = .cycle .timeouts :: frames)
      (hdue : ∀ e rest, m.sched.timeouts = e :: rest → now < e.key)
      (hne : ¬ (m.sched.getActive = [] ∧ m.sched.getWaiting = [])) :
      Transition m (.tick now) ⟨m.sched, .cycle .running :: frames⟩
  | toEnding {now frames} (hfr : m.frames = .cycle .running :: frames)
      (hactive : m.sched.getActive = []) (hwaiting : m.sched.getWaiting = []) :
      Transition m (.tick now) ⟨m.sched, .cycle .ending :: frames⟩
  | resume {now frames s front rest s₁ action action'}
      (hfr : m.frames = .cycle .running :: frames)
      (hs : s = if m.sched.getActive = [] then
        { m.sched with sleepState := m.sched.sleepState.swapActiveWait } else m.sched)
      (hfront : s.getActive = front :: rest)
      (hrem : s.listRemove s.sleepState.getActive s.sleepState.getActive front.val = .ok s₁)
      (ha : s₁.actions.lookup front.val = some action)
      (hres : Machine.resume action = .ok action') :
      Transition m (.tick now)
        ⟨{ s₁.setAction front.val action' with currentAction := some front.val },
          .coroutine front.val :: m.frames⟩
  | returns {now frames} (hfr : m.frames = .cycle .ending :: frames)
      (hev : m.sched.events .wait = []) : Transition m (.tick now) ⟨m.sched, frames⟩
  | neverCame {now frames e rest action s'} (hfr : m.frames = .cycle .ending :: frames)
      (hev : m.sched.events .wait = e :: rest)
      (ha : m.sched.actions.lookup e.val = some action)
      (hs : m.sched.unregister e.val action = .ok s') :
      Transition m (.tick now) ⟨s', .stopper e.val action.pStopper action.ref.inst :: m.frames⟩

theorem suspend_lookup {s : BasicScheduler} {a : ℕ} {action : ActiveAction} (reason : ReturnReason)
    (done : Bool) (ha : s.actions.lookup a = some action) :
    suspend a reason done s = s.setAction a
      { action with coroutine := ⟨if done then .done else .suspended, reason⟩ } := by
  simp only [suspend, ha]

theorem suspend_gone {s : BasicScheduler} {a : ℕ} (reason : ReturnReason) (done : Bool)
    (ha : s.actions.lookup a = none) : suspend a reason done s = s := by
  simp only [suspend, ha]

theorem suspend_sleepState (s : BasicScheduler) (a : ℕ) (reason : ReturnReason) (done : Bool) :
    (suspend a reason done s).sleepState = s.sleepState := by
  unfold suspend
  split <;> rfl

theorem suspend_currentAction (s : BasicScheduler) (a : ℕ) (reason : ReturnReason) (done : Bool) :
    (suspend a reason done s).currentAction = s.currentAction := by
  unfold suspend
  split <;> rfl

section Inversion
variable {m m' : Machine}

theorem Wf.transition_stop {ref : Reference} (hs : m.stopStep ref = .ok m') :
    (m.sched.find ref = none ∧ m' = m) ∨
      ∃ a action s', m.sched.find ref = some a ∧ m.sched.actions.lookup a = some action ∧
        m.sched.unregister a action = .ok s' ∧
        m' = ⟨s', .stopper a action.pStopper action.ref.inst :: m.frames⟩ := by
  obtain ⟨⟨s₁, stopped⟩, hs₁, hs⟩ := except_bind_ok.mp hs
  unfold BasicScheduler.stop at hs₁
  split at hs₁
  · rename_i hf
    cases hs₁
    cases hs
    exact .inl ⟨hf, rfl⟩
  · rename_i a hf
    obtain ⟨action, ha, hs₁⟩ := except_bind_ok.mp hs₁
    obtain ⟨s₂, hs₂, hs₁⟩ := except_bind_ok.mp hs₁
    cases hs₁
    cases hs
    exact .inr ⟨a, action, s₁, hf, deref_eq_ok.mp ha, hs₂, rfl⟩

theorem Wf.transition_operation {op : Operation} (hu : userTop m.frames = true)
    (hs : m.operate op = .ok m') : Transition m (.operation op) m' := by
  cases op with
  | allocated ref pStopper =>
    simp only [operate, BasicScheduler.allocated] at hs
    cases hs
    rcases insertAction_cases m.sched (.new ref pStopper false) with ⟨hf, heq⟩ | ⟨hf, heq⟩
    · rw [heq]
      exact .idle hu hf
    · rw [heq]
      exact .allocated hu hf
  | call ref pStopper actionOperator =>
    obtain ⟨s', hs', hs⟩ := except_bind_ok.mp hs
    cases hs
    unfold BasicScheduler.call at hs'
    rcases insertAction_cases m.sched (.new ref pStopper actionOperator) with
      ⟨hf, heq⟩ | ⟨hf, heq⟩
    · rw [heq] at hs'
      cases hs'
      exact .idle hu hf
    · rw [heq] at hs'
      simp only [activeInsert, SleepSwapState.getActiveIter_eq] at hs'
      exact .call hu hf hs'
  | signal ref =>
    obtain ⟨s', hs', hs⟩ := except_bind_ok.mp hs
    cases hs
    exact .signal hu hs'
  | stop ref =>
    rcases Wf.transition_stop hs with ⟨hf, rfl⟩ | ⟨a, action, s', hf, ha, hun, rfl⟩
    · exact .idle hu hf
    · exact .stop hu hf ha hun
  | stopperStopped ref =>
    obtain ⟨s', hs', hs⟩ := except_bind_ok.mp hs
    obtain ⟨hidle, rfl⟩ := deleteAction_ok.mp hs
    unfold BasicScheduler.stopperStopped at hs'
    split at hs'
    · rename_i hf
      cases hs'
      exact .idle hu hf
    · rename_i a hf
      obtain ⟨action, ha, hs'⟩ := except_bind_ok.mp hs'
      obtain ⟨s₂, hs₂, hs'⟩ := except_bind_ok.mp hs'
      cases hs'
      exact .stopperStopped hu hf (deref_eq_ok.mp ha) hs₂ (hidle a hf)
  | pause ref =>
    obtain ⟨s', hs', hs⟩ := except_bind_ok.mp hs
    cases hs
    unfold BasicScheduler.pause at hs'
    split at hs'
    · rename_i hf
      cases hs'
      exact .idle hu hf
    · rename_i a hf
      obtain ⟨s₂, hs₂, hs'⟩ := except_bind_ok.mp hs'
      obtain ⟨action, ha, _⟩ := find_eq_some hf
      exact .pause hu hf ha hs₂ hs'
  | unpause ref =>
    obtain ⟨s', hs', hs⟩ := except_bind_ok.mp hs
    cases hs
    unfold BasicScheduler.unpause at hs'
    split at hs'
    · rename_i hf
      cases hs'
      exact .idle hu hf
    · rename_i a hf
      obtain ⟨s₂, hs₂, hs'⟩ := except_bind_ok.mp hs'
      obtain ⟨action, ha, _⟩ := find_eq_some hf
      simp only [activeInsert, SleepSwapState.getActiveIter_eq] at hs'
      rw [(evolves_listRemove hs₂).sleepState] at hs'
      exact .unpause hu hf ha hs₂ hs'
  | cycle =>
    cases hs
    exact .cycle hu

theorem Wf.transition_yield (h : m.Wf) {a : ℕ} {reason : ReturnReason} {done : Bool}
    {frames : List Frame} (hfr : m.frames = .coroutine a :: frames)
    (hs : yieldStep a reason done m.sched frames = .ok m') :
    Transition m (.yield reason done) m' := by
  simp only [yieldStep, suspend_currentAction] at hs
  cases hcur : m.sched.currentAction with
  | none =>
    rw [hcur] at hs
    cases hs
    exact .orphan hfr hcur
  | some c =>
    rw [hcur] at hs
    have hcurrent := h.current
    rw [hfr] at hcurrent
    obtain ⟨rfl, hlive⟩ := hcurrent c hcur
    obtain ⟨action, ha⟩ := BasicScheduler.live_iff.mp hlive
    obtain ⟨current, hcu, hs⟩ := except_bind_ok.mp hs
    rw [deref_eq_ok, suspend_lookup _ _ ha, setAction, AList.lookup_insert,
      Option.some.injEq] at hcu
    subst hcu
    simp only [dispatch] at hs
    have hst := suspend_sleepState m.sched c reason done
    cases reason with
    | wait =>
      obtain ⟨s', hs', hs⟩ := except_bind_ok.mp hs
      cases hs
      simp only [waitInsert, SleepSwapState.getWaitIter_eq, hst] at hs'
      exact .yieldWait hfr hcur ha hs'
    | sleep =>
      obtain ⟨s', hs', hs⟩ := except_bind_ok.mp hs
      cases hs
      simp only [sleepInsert, SleepSwapState.getSleepIter_eq, hst] at hs'
      exact .yieldSleep hfr hcur ha hs'
    | waitAll events =>
      obtain ⟨s', hs', hs⟩ := except_bind_ok.mp hs
      cases hs
      exact .yieldEvents hfr hcur ha rfl hs'
    | waitAny events =>
      obtain ⟨s', hs', hs⟩ := except_bind_ok.mp hs
      cases hs
      exact .yieldEvents hfr hcur ha rfl hs'
    | sleepAll events =>
      obtain ⟨s', hs', hs⟩ := except_bind_ok.mp hs
      cases hs
      exact .yieldEvents hfr hcur ha rfl hs'
    | sleepAny events =>
      obtain ⟨s', hs', hs⟩ := except_bind_ok.mp hs
      cases hs
      exact .yieldEvents hfr hcur ha rfl hs'
    | timeout timeout =>
      cases timeout with
      | none => cases hs
      | some timeout =>
        obtain ⟨s', hs', hs⟩ := except_bind_ok.mp hs
        cases hs
        exact .yieldTimeout hfr hcur ha hs'
    | terminated =>
      obtain ⟨s₁, hs₁, hs⟩ := except_bind_ok.mp hs
      obtain ⟨s₂, hs₂, hs⟩ := except_bind_ok.mp hs
      cases hs
      exact .yieldTerminated hfr hcur ha (except_bind_ok.mpr ⟨s₁, hs₁, hs₂⟩)

theorem Wf.transition_timeouts {now : ℤ} {frames : List Frame}
    (hfr : m.frames = .cycle .timeouts :: frames)
    (hs : timeoutsTick m.sched frames now = .ok m') : Transition m (.tick now) m' := by
  have hstart : (∀ e rest, m.sched.timeouts = e :: rest → now < e.key) →
      Transition m (.tick now) (timeoutsTick.startRunning frames m.sched) := by
    intro hdue
    unfold timeoutsTick.startRunning
    by_cases hne : m.sched.getActive = [] ∧ m.sched.getWaiting = []
    · rw [if_pos hne]
      exact .startSwap hfr hdue hne.1 hne.2
    · rw [if_neg hne]
      exact .start hfr hdue hne
  unfold timeoutsTick at hs
  cases ht : m.sched.timeouts with
  | nil =>
    rw [ht] at hs
    cases hs
    exact hstart fun e rest h => by rw [ht] at h; cases h
  | cons e rest =>
    rw [ht] at hs
    by_cases hk : e.key ≤ now
    · simp only [if_pos hk] at hs
      obtain ⟨s₁, hs₁, hs⟩ := except_bind_ok.mp hs
      obtain ⟨s₂, hs₂, hs⟩ := except_bind_ok.mp hs
      cases hs
      simp only [activeInsert, SleepSwapState.getActiveIter_eq] at hs₂
      rw [(evolves_timeoutRemove hs₁).sleepState] at hs₂
      rw [← hfr]
      exact .due hfr ht hk hs₁ hs₂
    · simp only [if_neg hk] at hs
      cases hs
      refine hstart fun e' rest' h => ?_
      rw [ht] at h
      cases h
      exact not_le.mp hk

theorem Wf.transition_running {now : ℤ} {frames : List Frame}
    (hfr : m.frames = .cycle .running :: frames)
    (hs : runningTick m.sched frames = .ok m') : Transition m (.tick now) m' := by
  unfold runningTick at hs
  split at hs
  · rename_i hempty
    cases hs
    exact .toEnding hfr hempty.1 hempty.2
  · dsimp only at hs
    split at hs
    · cases hs
    · rename_i front rest hfront
      obtain ⟨s₁, hs₁, hs⟩ := except_bind_ok.mp hs
      obtain ⟨action, ha, hs⟩ := except_bind_ok.mp hs
      obtain ⟨action', ha', hs⟩ := except_bind_ok.mp hs
      cases hs
      simp only [activeRemove, SleepSwapState.getActiveIter_eq] at hs₁
      rw [← hfr]
      exact .resume hfr rfl hfront hs₁ (deref_eq_ok.mp ha) ha'

theorem Wf.transition_ending (h : m.Wf) {now : ℤ} {frames : List Frame}
    (hfr : m.frames = .cycle .ending :: frames)
    (hs : endingTick m.sched frames = .ok m') : Transition m (.tick now) m' := by
  unfold endingTick at hs
  split at hs
  · rename_i hev
    cases hs
    exact .returns hfr hev
  · rename_i e rest hev
    obtain ⟨action, ha, hs⟩ := except_bind_ok.mp hs
    rw [deref_eq_ok] at ha
    have hf := h.sched.find_ref ha
    rcases Wf.transition_stop hs with ⟨hf', _⟩ | ⟨a, action', s', hf', ha', hun, rfl⟩
    · rw [hf] at hf'
      cases hf'
    · simp only at hf' ha' hun
      rw [hf, Option.some.injEq] at hf'
      subst hf'
      rw [ha, Option.some.injEq] at ha'
      subst ha'
      rw [← hfr]
      exact .neverCame hfr hev ha hun

/-- **Inversion**: a step that succeeds is one of the transitions. -/
theorem Wf.transition (h : m.Wf) {i : Input} (hs : step m i = .ok m') : Transition m i m' := by
  cases i with
  | operation op =>
    simp only [step] at hs
    split at hs
    · rename_i hu
      exact Wf.transition_operation hu hs
    · cases hs
  | yield reason done =>
    simp only [step] at hs
    split at hs
    · rename_i a frames hfr
      exact h.transition_yield hfr hs
    · cases hs
  | ret =>
    simp only [step] at hs
    split at hs
    · rename_i a pStopper inst frames hfr
      obtain ⟨hidle, rfl⟩ := deleteAction_ok.mp hs
      exact .retStopper hfr (hidle a rfl)
    · rename_i a pStopper inst frames hfr
      cases hs
      exact .retTerminated hfr
    · cases hs
  | tick now =>
    simp only [step] at hs
    split at hs
    · rename_i frames hfr
      exact Wf.transition_timeouts hfr hs
    · rename_i frames hfr
      exact Wf.transition_running hfr hs
    · rename_i frames hfr
      exact h.transition_ending hfr hs
    · cases hs

end Inversion

/-! ## The invariant is kept -/

section Invariant
variable {m m' : Machine}

theorem wf_clearCurrent {s : BasicScheduler} (h : s.Wf) (a : ℕ) : (s.clearCurrent a).Wf := by
  unfold clearCurrent
  split
  · exact h.of_eq rfl rfl rfl rfl rfl
  · exact h

theorem clearCurrent_actions (s : BasicScheduler) (a : ℕ) :
    (s.clearCurrent a).actions = s.actions := by
  unfold clearCurrent
  split <;> rfl

theorem clearCurrent_next (s : BasicScheduler) (a : ℕ) : (s.clearCurrent a).next = s.next := by
  unfold clearCurrent
  split <;> rfl

theorem clearCurrent_currentAction (s : BasicScheduler) (a : ℕ) :
    (s.clearCurrent a).currentAction =
      if s.currentAction = some a then none else s.currentAction := by
  unfold clearCurrent
  split <;> rfl

/-- Losing an action and clearing the pointer to it. -/
theorem CurrentOk.clearCurrent {live live' : ℕ → Prop} {current : Option ℕ} {frames : List Frame}
    {a : ℕ} (h : CurrentOk live current frames) (hlive : ∀ b, live b → b ≠ a → live' b) :
    CurrentOk live' (if current = some a then none else current) frames := by
  split
  · exact currentOk_none _ _
  · rename_i hne
    exact h.clear hlive hne

theorem suspend_wf {s : BasicScheduler} (h : s.Wf) (a : ℕ) (reason : ReturnReason) (done : Bool) :
    (suspend a reason done s).Wf := by
  cases ha : s.actions.lookup a with
  | none => rwa [suspend_gone _ _ ha]
  | some action =>
    rw [suspend_lookup _ _ ha]
    exact h.setAction ha rfl rfl rfl rfl

theorem suspend_live {s : BasicScheduler} {a : ℕ} {reason : ReturnReason} {done : Bool} (b : ℕ) :
    (suspend a reason done s).Live b ↔ s.Live b := by
  cases ha : s.actions.lookup a with
  | none => rw [suspend_gone _ _ ha]
  | some action =>
    rw [suspend_lookup _ _ ha, Live, setAction, AList.mem_insert]
    refine ⟨fun h => h.elim (fun hb => ?_) id, .inr⟩
    subst hb
    exact BasicScheduler.live_iff.mpr ⟨_, ha⟩

/-- The coroutine that hands back control is no longer running. -/
theorem Wf.suspend {frames : List Frame} {a : ℕ} (h : m.Wf)
    (hfr : m.frames = .coroutine a :: frames) (reason : ReturnReason) (done : Bool) :
    Wf ⟨{ suspend a reason done m.sched with currentAction := none }, frames⟩ := by
  have hrun : runningActions m.frames = a :: runningActions frames := by rw [hfr]; rfl
  have hnd := h.nodup
  rw [hrun] at hnd
  refine
    { sched := (suspend_wf h.sched a reason done).of_eq rfl rfl rfl rfl rfl
      current := currentOk_none _ _
      running := fun b action' hb => ?_
      nodup := (List.nodup_cons.mp hnd).2
      frames_lt := fun b hb => ?_ }
  · change AList.lookup b (Machine.suspend a reason done m.sched).actions = some action' at hb
    by_cases hba : b = a
    · subst hba
      refine iff_of_false ?_ (List.nodup_cons.mp hnd).1
      cases ha : m.sched.actions.lookup b with
      | none =>
        rw [suspend_gone _ _ ha, ha] at hb
        cases hb
      | some action =>
        rw [suspend_lookup _ _ ha, BasicScheduler.setAction, AList.lookup_insert,
          Option.some.injEq] at hb
        rw [← hb]
        cases done <;> simp
    · have hb' : m.sched.actions.lookup b = some action' := by
        cases ha : m.sched.actions.lookup a with
        | none => rwa [suspend_gone _ _ ha] at hb
        | some action =>
          rwa [suspend_lookup _ _ ha, BasicScheduler.setAction, AList.lookup_insert_ne hba] at hb
      rw [h.running b action' hb', hrun, List.mem_cons, or_iff_right hba]
  · have hlt := h.frames_lt b (by rw [hrun]; exact List.mem_cons_of_mem _ hb)
    change b < (Machine.suspend a reason done m.sched).next
    unfold Machine.suspend
    split <;> exact hlt

theorem evolves_withCurrent {s s' : BasicScheduler} {gone : Option ℕ} (c : Option ℕ)
    (h : Evolves gone s s') :
    Evolves gone { s with currentAction := c } { s' with currentAction := c } :=
  ⟨h.next_le, rfl, h.sleepState, h.live, h.old⟩

/-- What a yield does to the containers, after the coroutine has been suspended. -/
theorem Wf.yielded {frames : List Frame} {a : ℕ} {reason : ReturnReason} {done : Bool}
    {s' : BasicScheduler} (h : m.Wf) (hfr : m.frames = .coroutine a :: frames) (hs' : s'.Wf)
    (he : Evolves none (Machine.suspend a reason done m.sched) s') :
    Wf ⟨{ s' with currentAction := none }, frames⟩ :=
  (h.suspend hfr reason done).evolve_same (hs'.of_eq rfl rfl rfl rfl rfl)
    (evolves_withCurrent none he)

theorem wf_signal_evolves {s s' : BasicScheduler} {ref : Reference} (h : s.Wf)
    (hs : s.signal ref = .ok s') : s'.Wf ∧ Evolves none s s' := by
  obtain ⟨h', new, hsig⟩ := h.signal hs
  exact ⟨h', hsig.evolves⟩

theorem wf_unregister_evolves {s s' : BasicScheduler} {a : ℕ} {action : ActiveAction} (h : s.Wf)
    (ha : s.actions.lookup a = some action) (hs : s.unregister a action = .ok s') :
    s'.Wf ∧ Evolves (some a) s s' := by
  obtain ⟨new, action₁, s₁, s₂, hu, rfl⟩ := h.unregister ha hs
  exact ⟨hu.wf₂.eraseAction a, hu.evolves⟩

/-- Unregistering an action and calling its stopper. -/
theorem Wf.stopped {s' : BasicScheduler} {a pStopper inst : ℕ} {action : ActiveAction} (h : m.Wf)
    (ha : m.sched.actions.lookup a = some action) (hs : m.sched.unregister a action = .ok s') :
    Wf ⟨s', .stopper a pStopper inst :: m.frames⟩ := by
  obtain ⟨hw, he⟩ := wf_unregister_evolves h.sched ha hs
  refine h.evolve hw he ?_ rfl
  rw [he.currentAction]
  refine h.current.mono fun b hb => ?_
  by_cases hba : b = a
  · exact .inr hba
  · exact .inl (he.live b hb (by simpa using Ne.symm hba))

theorem resume_ok {action action' : ActiveAction} (h : Machine.resume action = .ok action') :
    action.coroutine.status ≠ .running ∧ ∃ reason,
      action' = { action with coroutine := ⟨.running, reason⟩ } := by
  unfold Machine.resume at h
  split at h
  · cases h
  · rename_i hne
    refine ⟨hne, ?_⟩
    split at h
    · split at h
      · cases h
        exact ⟨_, rfl⟩
      · cases h
    · cases h
      exact ⟨_, rfl⟩

/-- The front of the active list is resumed. -/
theorem Wf.resumed {s s₁ : BasicScheduler} {a : ℕ} {action action' : ActiveAction}
    (h : Wf ⟨s, m.frames⟩) (hrem : s.listRemove s.sleepState.getActive s.sleepState.getActive a =
      .ok s₁) (ha : s₁.actions.lookup a = some action)
    (hres : Machine.resume action = .ok action') :
    Wf ⟨{ s₁.setAction a action' with currentAction := some a }, .coroutine a :: m.frames⟩ := by
  have hw₁ := h.sched.listRemove hrem
  have he₁ := evolves_listRemove hrem
  have h₁ : Wf ⟨s₁, m.frames⟩ := h.evolve_same hw₁ he₁
  obtain ⟨hstop, reason, rfl⟩ := resume_ok hres
  have hnot : a ∉ runningActions m.frames := fun hmem =>
    hstop ((h₁.running a action ha).mpr hmem)
  have hset : (s₁.setAction a { action with coroutine := ⟨.running, reason⟩ }).Wf :=
    hw₁.setAction ha rfl rfl rfl rfl
  refine
    { sched := hset.of_eq rfl rfl rfl rfl rfl
      current := fun c hc => ?_
      running := fun b action₂ hb => ?_
      nodup := List.nodup_cons.mpr ⟨hnot, h₁.nodup⟩
      frames_lt := fun b hb => ?_ }
  · cases hc
    refine ⟨rfl, BasicScheduler.live_iff.mpr ⟨_, AList.lookup_insert _⟩⟩
  · change AList.lookup b (s₁.actions.insert a _) = some action₂ at hb
    change _ ↔ b ∈ a :: runningActions m.frames
    by_cases hba : b = a
    · subst hba
      rw [AList.lookup_insert, Option.some.injEq] at hb
      exact iff_of_true (by rw [← hb]) List.mem_cons_self
    · rw [AList.lookup_insert_ne hba] at hb
      rw [h₁.running b action₂ hb, List.mem_cons, or_iff_right hba]
  · rcases List.mem_cons.mp hb with rfl | hb
    · exact hw₁.live_lt _ (BasicScheduler.live_iff.mpr ⟨_, ha⟩)
    · exact h₁.frames_lt b hb

/-- Neither the current action nor the roles of the lists matter to the rest of the invariant. -/
theorem Wf.reframe {s' : BasicScheduler} {frames : List Frame} (h : m.Wf) (hw : s'.Wf)
    (hact : s'.actions = m.sched.actions) (hnext : s'.next = m.sched.next)
    (hcur : CurrentOk s'.Live s'.currentAction frames)
    (hframes : runningActions frames = runningActions m.frames) : Wf ⟨s', frames⟩ where
  sched := hw
  current := hcur
  running a action ha := by
    change _ ↔ a ∈ runningActions frames
    rw [hframes]
    exact h.running a action (hact ▸ ha)
  nodup := by
    change (runningActions frames).Nodup
    rw [hframes]
    exact h.nodup
  frames_lt a ha := by
    change a < s'.next
    rw [hnext]
    exact h.frames_lt a (hframes ▸ ha)

/-- Moving a `cycle` on to another phase, or swapping the roles of the lists. -/
theorem Wf.phase (h : m.Wf) {p q : Phase} {frames : List Frame} (st : SleepSwapState)
    (hfr : m.frames = .cycle p :: frames) :
    Wf ⟨{ m.sched with sleepState := st }, .cycle q :: frames⟩ := by
  have hcur := h.current
  rw [hfr] at hcur
  exact h.reframe (h.sched.of_eq rfl rfl rfl rfl rfl) rfl rfl hcur (by rw [hfr]; rfl)

theorem Wf.stopperStopped {s' : BasicScheduler} {a : ℕ} {action : ActiveAction} (h : m.Wf)
    (ha : m.sched.actions.lookup a = some action) (hs : m.sched.unregister a action = .ok s') :
    Wf ⟨s'.clearCurrent a, m.frames⟩ := by
  have hw : Wf ⟨s', .stopper a 0 0 :: m.frames⟩ := h.stopped ha hs
  have hcur := hw.current
  refine hw.reframe (wf_clearCurrent hw.sched a) (clearCurrent_actions s' a)
    (clearCurrent_next s' a) ?_ rfl
  rw [clearCurrent_currentAction]
  refine CurrentOk.clearCurrent hcur fun b hb hba => ?_
  rw [Live, clearCurrent_actions]
  exact hb.resolve_right hba

theorem Wf.orphan {a : ℕ} {frames : List Frame} (h : m.Wf)
    (hfr : m.frames = .coroutine a :: frames) (hcur : m.sched.currentAction = none)
    (reason : ReturnReason) (done : Bool) :
    Wf ⟨Machine.suspend a reason done m.sched, frames⟩ := by
  refine (h.suspend hfr reason done).reframe (suspend_wf h.sched a reason done) rfl rfl ?_ rfl
  rw [suspend_currentAction, hcur]
  exact currentOk_none _ _

theorem Wf.yieldEvents {a : ℕ} {frames : List Frame} {reason : ReturnReason} {done : Bool}
    {em : MapId} {any : Bool} {evs : List Reference} {action : ActiveAction} {s' : BasicScheduler}
    (h : m.Wf) (hfr : m.frames = .coroutine a :: frames)
    (ha : m.sched.actions.lookup a = some action)
    (hs : registerEvents em any a evs (Machine.suspend a reason done m.sched) = .ok s') :
    Wf ⟨{ s' with currentAction := none }, frames⟩ := by
  have hl : (Machine.suspend a reason done m.sched).actions.lookup a =
      some { action with coroutine := ⟨if done then .done else .suspended, reason⟩ } := by
    rw [suspend_lookup _ _ ha]
    exact AList.lookup_insert _
  obtain ⟨hw, action', hr⟩ := (suspend_wf h.sched a reason done).registerEvents hl hs
  exact h.yielded hfr hw (hr.evolves hl)

theorem Wf.yieldTerminated {a pStopper inst : ℕ} {frames : List Frame} {reason : ReturnReason}
    {done : Bool} {ref : Reference} {s' : BasicScheduler} (h : m.Wf)
    (hfr : m.frames = .coroutine a :: frames) (hcur : m.sched.currentAction = some a)
    (hs : ((Machine.suspend a reason done m.sched).eraseAction a).signal ref = .ok s') :
    Wf ⟨s', .terminated a pStopper inst :: frames⟩ := by
  have hw := suspend_wf h.sched a reason done
  obtain ⟨hw', he⟩ := wf_signal_evolves (hw.eraseAction a) hs
  have hidle : BasicScheduler.Wf { (Machine.suspend a reason done m.sched).eraseAction a with
      currentAction := none } := (hw.eraseAction a).of_eq rfl rfl rfl rfl rfl
  have hbase : Wf ⟨{ (Machine.suspend a reason done m.sched).eraseAction a with
      currentAction := none }, frames⟩ :=
    (h.suspend hfr reason done).evolve hidle
      (evolves_withCurrent none (evolves_eraseAction _ a)) (currentOk_none _ _) rfl
  have hidle' : BasicScheduler.Wf { s' with currentAction := none } :=
    hw'.of_eq rfl rfl rfl rfl rfl
  have hbase' := hbase.evolve_same hidle' (evolves_withCurrent none he)
  refine hbase'.reframe hw' rfl rfl (fun c hc => ?_) rfl
  change s'.currentAction = some c at hc
  rw [he.currentAction] at hc
  change (Machine.suspend a reason done m.sched).currentAction = some c at hc
  rw [suspend_currentAction, hcur, Option.some.injEq] at hc
  exact hc.symm

/-- **The invariant is kept** by every transition. -/
theorem Transition.wf {i : Input} (ht : Transition m i m') (h : m.Wf) : m'.Wf := by
  cases ht with
  | idle hu hop => exact h
  | allocated hu hf => exact h.evolve_same (h.sched.create _ _ hf) (evolves_create _ _ _ _)
  | call hu hf hs =>
    exact h.evolve_same ((h.sched.create _ _ hf).listInsert hs)
      ((evolves_create _ _ _ _).trans (evolves_listInsert hs))
  | signal hu hs =>
    obtain ⟨hw, he⟩ := wf_signal_evolves h.sched hs
    exact h.evolve_same hw he
  | stop hu hf ha hs => exact h.stopped ha hs
  | stopperStopped hu hf ha hs => exact h.stopperStopped ha hs
  | pause hu hf ha hw hs =>
    obtain ⟨h₁, hwd⟩ := h.sched.withdraw ha hw
    exact h.evolve_same (h₁.listInsert hs) ((hwd.evolves ha).trans (evolves_listInsert hs))
  | unpause hu hf ha hr hs =>
    exact h.evolve_same ((h.sched.listRemove hr).listInsert hs)
      ((evolves_listRemove hr).trans (evolves_listInsert hs))
  | cycle hu => exact h.reframe h.sched rfl rfl h.current rfl
  | orphan hfr hcur => exact h.orphan hfr hcur _ _
  | yieldWait hfr hcur ha hs =>
    exact h.yielded hfr ((suspend_wf h.sched _ _ _).listInsert hs) (evolves_listInsert hs)
  | yieldSleep hfr hcur ha hs =>
    exact h.yielded hfr ((suspend_wf h.sched _ _ _).listInsert hs) (evolves_listInsert hs)
  | yieldEvents hfr hcur ha hr hs => exact h.yieldEvents hfr ha hs
  | yieldTimeout hfr hcur ha hs =>
    exact h.yielded hfr ((suspend_wf h.sched _ _ _).timeoutInsert hs) (evolves_timeoutInsert hs)
  | yieldTerminated hfr hcur ha hs => exact h.yieldTerminated hfr hcur hs
  | retStopper hfr =>
    have hcur := h.current
    rw [hfr] at hcur
    refine h.reframe (wf_clearCurrent h.sched _) (clearCurrent_actions _ _)
      (clearCurrent_next _ _) ?_ (by rw [hfr]; rfl)
    rw [clearCurrent_currentAction]
    refine CurrentOk.clearCurrent hcur fun b hb hba => ?_
    rw [Live, clearCurrent_actions]
    exact hb.resolve_right hba
  | retTerminated hfr =>
    exact h.reframe (h.sched.of_eq rfl rfl rfl rfl rfl) rfl rfl (currentOk_none _ _)
      (by rw [hfr]; rfl)
  | due hfr ht hk hr hs =>
    exact h.evolve_same ((h.sched.timeoutRemove hr).listInsert hs)
      ((evolves_timeoutRemove hr).trans (evolves_listInsert hs))
  | startSwap hfr hdue hactive hwaiting => exact h.phase _ hfr
  | start hfr hdue hne => exact h.phase m.sched.sleepState hfr
  | toEnding hfr hactive hwaiting => exact h.phase m.sched.sleepState hfr
  | @resume now frames s front rest s₁ action action' hfr hs hfront hrem ha hres =>
    have hw : Wf ⟨s, m.frames⟩ := by
      subst hs
      split
      · exact h.reframe (h.sched.of_eq rfl rfl rfl rfl rfl) rfl rfl h.current rfl
      · exact h
    exact hw.resumed hrem ha hres
  | returns hfr hev =>
    have hcur := h.current
    rw [hfr] at hcur
    exact h.reframe h.sched rfl rfl hcur (by rw [hfr]; rfl)
  | neverCame hfr hev ha hs => exact h.stopped ha hs

theorem Wf.step (h : m.Wf) {i : Input} (hs : Machine.step m i = .ok m') : m'.Wf :=
  (h.transition hs).wf h

/-- Every state that is reached is well formed. -/
theorem wf_of_steps {Q : Machine → Input → Machine → Prop} (h : Steps Machine.step Q initial m) :
    m.Wf :=
  h.invariant Machine.Wf wf_initial fun _ _ _ hw _ hs => hw.step hs

end Invariant

end Machine
end EgLang.Scheduler
