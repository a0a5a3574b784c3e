import EgLang.Scheduler.Fates

/-! # What a step does to the control state

Besides the containers a step changes the stack of calls, the roles of the three lists and the
reasons the coroutines have last yielded for. Each is described once, for every transition.
-/

namespace EgLang.Scheduler
open Library
set_option autoImplicit false

namespace Machine
open BasicScheduler

/-! ## The stack -/

/-- **What a step does to the stack.** -/
inductive FrameStep (m m' : Machine) : Prop
  | same (h : m'.frames = m.frames)
  | push (f : Frame) (h : m'.frames = f :: m.frames)
      (hne : m.frames.head? ≠ some (.cycle .timeouts))
  | pop (f : Frame) (h : m.frames = f :: m'.frames) (hr : f ≠ .cycle .running)
      (ht : f ≠ .cycle .timeouts)
  | start (frames : List Frame) (h : m.frames = .cycle .timeouts :: frames)
      (h' : m'.frames = .cycle .running :: frames)
  | ending (frames : List Frame) (h : m.frames = .cycle .running :: frames)
      (h' : m'.frames = .cycle .ending :: frames) (hactive : m.sched.getActive = [])
      (hwaiting : m.sched.getWaiting = [])
  | terminate (a pStopper inst : ℕ) (frames : List Frame) (h : m.frames = .coroutine a :: frames)
      (h' : m'.frames = .terminated a pStopper inst :: frames)

section Control
variable {m m' : Machine} {b : ℕ}

theorem head_of_userTop {frames : List Frame} (hu : userTop frames = true) (p : Phase) :
    frames.head? ≠ some (.cycle p) := by
  intro h
  cases frames with
  | nil => cases h
  | cons f frames =>
    obtain rfl : f = .cycle p := by simpa using h
    cases hu

theorem Transition.frameStep {i : Input} (ht : Transition m i m') : FrameStep m m' := by
  cases ht with
  | idle | allocated | call | signal | stopperStopped | pause | unpause | due => exact .same rfl
  | stop hu hf ha hs => exact .push _ rfl (head_of_userTop hu _)
  | cycle hu => exact .push _ rfl (head_of_userTop hu _)
  | orphan hfr hcur => exact .pop _ hfr (by simp) (by simp)
  | yieldWait hfr hcur ha hs => exact .pop _ hfr (by simp) (by simp)
  | yieldSleep hfr hcur ha hs => exact .pop _ hfr (by simp) (by simp)
  | yieldEvents hfr hcur ha hr hs => exact .pop _ hfr (by simp) (by simp)
  | yieldTimeout hfr hcur ha hs => exact .pop _ hfr (by simp) (by simp)
  | yieldTerminated hfr hcur ha hs => exact .terminate _ _ _ _ hfr rfl
  | retStopper hfr => exact .pop _ hfr (by simp) (by simp)
  | retTerminated hfr => exact .pop _ hfr (by simp) (by simp)
  | startSwap hfr hdue hactive hwaiting => exact .start _ hfr rfl
  | start hfr hdue hne => exact .start _ hfr rfl
  | toEnding hfr hactive hwaiting => exact .ending _ hfr rfl hactive hwaiting
  | resume hfr hs hfront hrem ha hres => exact .push _ rfl (by rw [hfr]; simp)
  | returns hfr hev => exact .pop _ hfr (by simp) (by simp)
  | neverCame hfr hev ha hs => exact .push _ rfl (by rw [hfr]; simp)

theorem runningActions_subset (f : Frame) (frames : List Frame) :
    runningActions frames ⊆ runningActions (f :: frames) :=
  ((List.sublist_cons_self f frames).filterMap _).subset

/-- Only by being resumed does an action get onto the stack. -/
theorem FrameStep.idle (h : FrameStep m m') (hb : b ∉ runningActions m.frames)
    (hres : m'.frames ≠ .coroutine b :: m.frames) : b ∉ runningActions m'.frames := by
  cases h with
  | same h => rwa [h]
  | push f h _ =>
    rw [h] at hres ⊢
    cases f with
    | coroutine a =>
      rw [runningActions_coroutine, List.mem_cons, not_or]
      exact ⟨fun hba => hres (by rw [hba]), hb⟩
    | cycle | stopper | terminated => exact hb
  | pop f h _ _ =>
    rw [h] at hb
    exact fun hmem => hb (runningActions_subset f _ hmem)
  | start frames h h' | ending frames h h' =>
    rw [h] at hb
    rwa [h']
  | terminate a _ _ frames h h' =>
    rw [h] at hb
    rw [h', runningActions_terminated]
    exact fun hmem => hb (List.mem_cons_of_mem a hmem)

theorem FrameStep.timeouts_on_top (h : FrameStep m m')
    (hin : .cycle .timeouts ∉ m.frames.tail) : .cycle .timeouts ∉ m'.frames.tail := by
  cases h with
  | same h => rwa [h]
  | push f h hne =>
    rw [h, List.tail_cons]
    cases hfr : m.frames with
    | nil => simp
    | cons g rest =>
      rw [hfr] at hne hin
      simp only [List.head?_cons, ne_eq, Option.some.injEq] at hne
      simp only [List.mem_cons, not_or]
      exact ⟨Ne.symm hne, hin⟩
  | pop f h _ _ =>
    rw [h, List.tail_cons] at hin
    exact fun hmem => hin (List.mem_of_mem_tail hmem)
  | start frames h h' | ending frames h h' | terminate a _ _ frames h h' =>
    rw [h] at hin
    rwa [h']

/-- The timeout loop calls nobody, so only the innermost call can be in it. -/
theorem timeouts_on_top {Q : Machine → Input → Machine → Prop} (hr : Steps step Q initial m) :
    .cycle .timeouts ∉ m.frames.tail :=
  hr.invariant_with Wf (fun m => .cycle .timeouts ∉ m.frames.tail)
    (fun _ hu => wf_of_steps hu) (by simp [initial])
    fun _ _ _ hw hin _ hs => (hw.transition hs).frameStep.timeouts_on_top hin

/-! ## The roles of the lists -/

/-- **What a step does to the roles** of the lists. -/
inductive RoleStep (m m' : Machine) : Prop
  | same (h : m'.sched.sleepState = m.sched.sleepState)
  | swapSleep (h : m'.sched.sleepState = m.sched.sleepState.swapActiveSleep)
      (hfr : m.frames.head? = some (.cycle .timeouts)) (hactive : m.sched.getActive = [])
      (hwaiting : m.sched.getWaiting = [])
  | swapWait (h : m'.sched.sleepState = m.sched.sleepState.swapActiveWait)
      (hfr : m.frames.head? = some (.cycle .running))

theorem clearCurrent_sleepState (s : BasicScheduler) (a : ℕ) :
    (s.clearCurrent a).sleepState = s.sleepState := by
  unfold clearCurrent
  split <;> rfl

theorem Transition.roleStep {i : Input} (ht : Transition m i m') (h : m.Wf) : RoleStep m m' := by
  have hsus := suspend_sleepState m.sched
  cases ht with
  | call hu hf hs =>
    exact .same ((evolves_create _ _ _ _).trans (evolves_listInsert hs)).sleepState
  | signal hu hs => exact .same (wf_signal_evolves h.sched hs).2.sleepState
  | stop hu hf ha hs => exact .same (wf_unregister_evolves h.sched ha hs).2.sleepState
  | stopperStopped hu hf ha hs =>
    exact .same ((clearCurrent_sleepState _ _).trans
      (wf_unregister_evolves h.sched ha hs).2.sleepState)
  | pause hu hf ha hw hs =>
    obtain ⟨_, hwd⟩ := h.sched.withdraw ha hw
    exact .same ((hwd.evolves ha).trans (evolves_listInsert hs)).sleepState
  | unpause hu hf ha hr hs =>
    exact .same ((evolves_listRemove hr).trans (evolves_listInsert hs)).sleepState
  | orphan hfr hcur => exact .same (hsus _ _ _)
  | yieldWait hfr hcur ha hs => exact .same ((evolves_listInsert hs).sleepState.trans (hsus _ _ _))
  | yieldSleep hfr hcur ha hs => exact .same ((evolves_listInsert hs).sleepState.trans (hsus _ _ _))
  | @yieldEvents a reason done frames action em any evs s' hfr hcur ha hr hs =>
    have ha' : (suspend a reason done m.sched).actions.lookup a =
        some { action with coroutine := ⟨if done then .done else .suspended, reason⟩ } := by
      rw [suspend_lookup reason done ha]
      exact AList.lookup_insert _
    obtain ⟨_, action', hreg⟩ := (suspend_wf h.sched a reason done).registerEvents ha' hs
    exact .same (hreg.sleepState.trans (hsus _ _ _))
  | yieldTimeout hfr hcur ha hs =>
    exact .same ((evolves_timeoutInsert hs).sleepState.trans (hsus _ _ _))
  | yieldTerminated hfr hcur ha hs =>
    have he := (wf_signal_evolves ((suspend_wf h.sched _ _ _).eraseAction _) hs).2.sleepState
    exact .same (he.trans (hsus _ _ _))
  | retStopper hfr => exact .same (clearCurrent_sleepState _ _)
  | due hfr hk _ hr hs =>
    exact .same ((evolves_timeoutRemove hr).trans (evolves_listInsert hs)).sleepState
  | startSwap hfr hdue hactive hwaiting => exact .swapSleep rfl (by rw [hfr]; rfl) hactive hwaiting
  | resume hfr hs hfront hrem ha hres =>
    have he := (evolves_listRemove hrem).sleepState
    subst hs
    split at he
    · exact .swapWait he (by rw [hfr]; rfl)
    · exact .same he
  | neverCame hfr hev ha hs => exact .same (wf_unregister_evolves h.sched ha hs).2.sleepState
  | _ => exact .same rfl

/-! ## The reasons of the coroutines -/

/-- The input is the yield of the action's coroutine. -/
def Yields (m : Machine) (b : ℕ) (reason : ReturnReason) (i : Input) : Prop :=
  (∃ done, i = .yield reason done) ∧ ∃ frames, m.frames = .coroutine b :: frames

/-- **What a step does to the reason** of a registered action's coroutine: it is set when the
coroutine is started and when it yields. -/
inductive ReasonFate (b : ℕ) (action' : ActiveAction) (m : Machine) (i : Input) (m' : Machine) : Prop
  | fresh (ht : action'.coroutine.reason = .terminated)
      (hb : m.sched.next ≤ b ∨ m'.frames = .coroutine b :: m.frames)
  | kept {action : ActiveAction} (ha : m.sched.actions.lookup b = some action)
      (hr : action.coroutine.reason = action'.coroutine.reason) (hno : ∀ r, ¬ m.Yields b r i)
  | yielded (hy : m.Yields b action'.coroutine.reason i)

theorem reason_of_evolves {gone : Option ℕ} {s s' : BasicScheduler} {action' : ActiveAction}
    (he : Evolves gone s s') (ha : s'.actions.lookup b = some action') :
    (action'.coroutine.reason = .terminated ∧ s.next ≤ b) ∨
      ∃ action, s.actions.lookup b = some action ∧
        action.coroutine.reason = action'.coroutine.reason := by
  rcases he.old b action' ha with ⟨hn, hc⟩ | ⟨action, ha, hc⟩
  · exact .inl ⟨by rw [hc]; rfl, hn⟩
  · exact .inr ⟨action, ha, by rw [hc]⟩

/-- The reason of a coroutine changes when it yields, and when it is started anew. -/
theorem reason_of_yield {a : ℕ} {reason : ReturnReason} {done : Bool} {frames : List Frame}
    {gone : Option ℕ} {s' : BasicScheduler} {action' : ActiveAction}
    (hfr : m.frames = .coroutine a :: frames)
    (he : Evolves gone (suspend a reason done m.sched) s')
    (ha : s'.actions.lookup b = some action') :
    ReasonFate b action' m (.yield reason done) m' := by
  rcases reason_of_evolves he ha with ⟨ht, hn⟩ | ⟨action, hb, hr⟩
  · exact .fresh ht (.inl (suspend_next m.sched a reason done ▸ hn))
  · by_cases hba : b = a
    · subst hba
      refine .yielded ⟨⟨done, ?_⟩, frames, hfr⟩
      rw [← hr]
      cases hl : m.sched.actions.lookup b with
      | none =>
        rw [suspend_gone _ _ hl, hl] at hb
        cases hb
      | some action₀ =>
        rw [suspend_lookup _ _ hl, BasicScheduler.setAction, AList.lookup_insert,
          Option.some.injEq] at hb
        rw [← hb]
    · refine .kept ?_ hr ?_
      · cases hl : m.sched.actions.lookup a with
        | none => rwa [suspend_gone _ _ hl] at hb
        | some action₀ =>
          rwa [suspend_lookup _ _ hl, BasicScheduler.setAction, AList.lookup_insert_ne hba] at hb
      · rintro r ⟨_, frames', hfr'⟩
        rw [hfr] at hfr'
        cases hfr'
        exact hba rfl

theorem reason_kept {i : Input} {gone : Option ℕ} {s' : BasicScheduler} {action' : ActiveAction}
    (he : Evolves gone m.sched s') (ha : s'.actions.lookup b = some action')
    (hi : ∀ r, ¬ m.Yields b r i) :
    ReasonFate b action' m i m' := by
  rcases reason_of_evolves he ha with ⟨ht, hn⟩ | ⟨action, hb, hr⟩
  · exact .fresh ht (.inl hn)
  · exact .kept hb hr hi

theorem Transition.reason {i : Input} (ht : Transition m i m') (h : m.Wf) {action' : ActiveAction}
    (ha : m'.sched.actions.lookup b = some action') :
    ReasonFate b action' m i m' := by
  have hno : ∀ {op : Operation} {r}, ¬ m.Yields b r (.operation op) := by
    rintro op r ⟨⟨_, hi⟩, _⟩
    cases hi
  have htick : ∀ {now : ℤ} {r}, ¬ m.Yields b r (.tick now) := by
    rintro now r ⟨⟨_, hi⟩, _⟩
    cases hi
  have hret : ∀ {r}, ¬ m.Yields b r .ret := by
    rintro r ⟨⟨_, hi⟩, _⟩
    cases hi
  cases ht with
  | idle hu hop => exact .kept ha rfl fun _ => hno
  | allocated hu hf => exact reason_kept (evolves_create _ _ _ _) ha fun _ => hno
  | call hu hf hs =>
    exact reason_kept ((evolves_create _ _ _ _).trans (evolves_listInsert hs)) ha fun _ => hno
  | signal hu hs => exact reason_kept (wf_signal_evolves h.sched hs).2 ha fun _ => hno
  | stop hu hf hl hs => exact reason_kept (wf_unregister_evolves h.sched hl hs).2 ha fun _ => hno
  | stopperStopped hu hf hl hs =>
    change AList.lookup b (BasicScheduler.clearCurrent _ _).actions = _ at ha
    rw [clearCurrent_actions] at ha
    exact reason_kept (wf_unregister_evolves h.sched hl hs).2 ha fun _ => hno
  | pause hu hf hl hw hs =>
    obtain ⟨_, hwd⟩ := h.sched.withdraw hl hw
    exact reason_kept ((hwd.evolves hl).trans (evolves_listInsert hs)) ha fun _ => hno
  | unpause hu hf hl hr hs =>
    exact reason_kept ((evolves_listRemove hr).trans (evolves_listInsert hs)) ha fun _ => hno
  | cycle hu => exact .kept ha rfl fun _ => hno
  | orphan hfr hcur => exact reason_of_yield hfr (.refl _) ha
  | yieldWait hfr hcur hl hs => exact reason_of_yield hfr (evolves_listInsert hs) ha
  | yieldSleep hfr hcur hl hs => exact reason_of_yield hfr (evolves_listInsert hs) ha
  | @yieldEvents a reason done frames action em any evs s' hfr hcur hl hr hs =>
    have hl' : (suspend a reason done m.sched).actions.lookup a =
        some { action with coroutine := ⟨if done then .done else .suspended, reason⟩ } := by
      rw [suspend_lookup reason done hl]
      exact AList.lookup_insert _
    obtain ⟨_, action', hreg⟩ := (suspend_wf h.sched a reason done).registerEvents hl' hs
    exact reason_of_yield hfr (hreg.evolves hl') ha
  | yieldTimeout hfr hcur hl hs => exact reason_of_yield hfr (evolves_timeoutInsert hs) ha
  | yieldTerminated hfr hcur hl hs =>
    exact reason_of_yield hfr ((evolves_eraseAction _ _).trans_none
      (wf_signal_evolves ((suspend_wf h.sched _ _ _).eraseAction _) hs).2) ha
  | retStopper hfr =>
    change AList.lookup b (BasicScheduler.clearCurrent _ _).actions = _ at ha
    rw [clearCurrent_actions] at ha
    exact .kept ha rfl fun _ => hret
  | retTerminated hfr => exact .kept ha rfl fun _ => hret
  | due hfr hk _ hr hs =>
    exact reason_kept ((evolves_timeoutRemove hr).trans (evolves_listInsert hs)) ha fun _ => htick
  | startSwap hfr hdue hactive hwaiting => exact .kept ha rfl fun _ => htick
  | start hfr hdue hne => exact .kept ha rfl fun _ => htick
  | toEnding hfr hactive hwaiting => exact .kept ha rfl fun _ => htick
  | @resume now frames s front rest s₁ action action₁ hfr hs hfront hrem hl hres =>
    have hact : s.actions = m.sched.actions := by
      rw [hs]
      split <;> rfl
    have hnext : s.next = m.sched.next := by
      rw [hs]
      split <;> rfl
    by_cases hb : b = front.val
    · subst hb
      change AList.lookup front.val (s₁.actions.insert front.val action₁) = some action' at ha
      rw [AList.lookup_insert, Option.some.injEq] at ha
      subst ha
      unfold Machine.resume at hres
      split at hres
      · cases hres
      · split at hres
        · split at hres
          · cases hres
            exact .fresh rfl (.inr rfl)
          · cases hres
        · cases hres
          rcases reason_of_evolves (evolves_listRemove hrem) hl with ⟨ht, hn⟩ | ⟨action₀, h₀, hr⟩
          · exact .fresh ht (.inl (hnext ▸ hn))
          · rw [hact] at h₀
            exact .kept h₀ hr fun _ => htick
    · have ha₁ : s₁.actions.lookup b = some action' := by
        rw [← ha]
        exact (AList.lookup_insert_ne hb).symm
      rcases reason_of_evolves (evolves_listRemove hrem) ha₁ with ⟨ht, hn⟩ | ⟨action₀, h₀, hr⟩
      · exact .fresh ht (.inl (hnext ▸ hn))
      · rw [hact] at h₀
        exact .kept h₀ hr fun _ => htick
  | returns hfr hev => exact .kept ha rfl fun _ => htick
  | neverCame hfr hev hl hs =>
    exact reason_kept (wf_unregister_evolves h.sched hl hs).2 ha fun _ => htick

end Control

end Machine
end EgLang.Scheduler
