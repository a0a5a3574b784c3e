import EgLang.Scheduler.Control

/-! # The life of an action

An action is registered once, under a reference and with a stopper, and is unregistered once: either
its stopper is called for the instance of that reference, or its stopper has told the scheduler that it
is done. What the user of the scheduler sees of this is `Event`; that nothing else happens to the keys
of `m_actions` is said once for a step, and follows for a run by induction.
-/

namespace EgLang.Scheduler
open Library
set_option autoImplicit false

namespace BasicScheduler
variable {s s' : BasicScheduler} {a b : ℕ}

/-! ## What a registration is -/

/-- The reference and the stopper an action is registered with. -/
def registration (s : BasicScheduler) (a : ℕ) : Option (Reference × ℕ) :=
  (s.actions.lookup a).map fun action => (action.ref, action.pStopper)

theorem registration_of_lookup {action : ActiveAction} (ha : s.actions.lookup a = some action) :
    s.registration a = some (action.ref, action.pStopper) := by
  rw [registration, ha]
  rfl

theorem registration_eq_none : s.registration a = none ↔ ¬ s.Live a := by
  rw [registration, Option.map_eq_none_iff, live_iff, ← Option.isSome_iff_exists, Bool.not_eq_true,
    Option.isSome_eq_false_iff, Option.isNone_iff_eq_none]

/-- A change of the entry of one action that leaves its registration alone. -/
theorem registration_insert {action action' : ActiveAction} (ha : s.actions.lookup a = some action)
    (hs : s'.actions = s.actions.insert a action') (href : action'.ref = action.ref)
    (hstopper : action'.pStopper = action.pStopper) : s'.registration = s.registration := by
  funext b
  rw [registration, registration, hs]
  by_cases hb : b = a
  · subst hb
    rw [AList.lookup_insert, ha, Option.map_some, Option.map_some, href, hstopper]
  · rw [AList.lookup_insert_ne hb]

theorem registration_listInsert {l : ListId} (hs : s.listInsert l l a = .ok s') :
    s'.registration = s.registration := by
  obtain ⟨action, ha, rfl⟩ := listInsert_ok.mp hs
  exact registration_insert ha rfl rfl rfl

theorem registration_listRemove {l : ListId} (hs : s.listRemove l l a = .ok s') :
    s'.registration = s.registration := by
  obtain ⟨action, ha, ⟨_, rfl⟩ | ⟨n, _, _, rfl⟩⟩ := listRemove_ok.mp hs
  · rfl
  · exact registration_insert ha rfl rfl rfl

theorem registration_timeoutInsert {timeout : ℤ} (hs : s.timeoutInsert a timeout = .ok s') :
    s'.registration = s.registration := by
  obtain ⟨action, ha, rfl⟩ := timeoutInsert_ok.mp hs
  exact registration_insert ha rfl rfl rfl

theorem registration_timeoutRemove (hs : s.timeoutRemove a = .ok s') :
    s'.registration = s.registration := by
  obtain ⟨action, ha, ⟨_, rfl⟩ | ⟨n, _, _, rfl⟩⟩ := timeoutRemove_ok.mp hs
  · rfl
  · exact registration_insert ha rfl rfl rfl

theorem Signalled.registration {ref : Reference} {new : List (Entry Unit ℕ)}
    (h : Signalled ref s s' new) : s'.registration = s.registration := by
  funext b
  cases hb : s.actions.lookup b with
  | none => rw [BasicScheduler.registration, BasicScheduler.registration, hb, h.dead b hb]
  | some action =>
    obtain ⟨action', hb', hsame, -⟩ := h.lookup b action hb
    rw [registration_of_lookup hb, registration_of_lookup hb', hsame.ref, hsame.pStopper]

theorem Withdrawn.registration {action : ActiveAction} (ha : s.actions.lookup a = some action)
    (h : Withdrawn a action s s') : s'.registration = s.registration := by
  funext b
  by_cases hb : b = a
  · subst hb
    rw [registration_of_lookup ha, registration_of_lookup h.self]
    rfl
  · rw [BasicScheduler.registration, BasicScheduler.registration, h.others b hb]

theorem registration_insertEvents {m : MapId} {evs : List Reference}
    (hs : Machine.insertEvents m a evs s = .ok s') : s'.registration = s.registration := by
  induction evs generalizing s with
  | nil =>
    cases hs
    rfl
  | cons ev evs ih =>
    obtain ⟨s₁, hs₁, hs⟩ := except_bind_ok.mp hs
    obtain ⟨action, ha, rfl⟩ := eventInsert_ok.mp hs₁
    rw [ih hs]
    exact registration_insert ha rfl rfl rfl

theorem registration_registerEvents {m : MapId} {any : Bool} {evs : List Reference}
    (hs : Machine.registerEvents m any a evs s = .ok s') : s'.registration = s.registration := by
  obtain ⟨s₁, hs₁, hs⟩ := except_bind_ok.mp hs
  obtain ⟨action, ha, hs⟩ := except_bind_ok.mp hs
  cases hs
  rw [← registration_insertEvents hs₁]
  exact registration_insert (deref_eq_ok.mp ha) rfl rfl rfl

theorem registration_eraseAction :
    (s.eraseAction a).registration = Function.update s.registration a none := by
  funext b
  by_cases hb : b = a
  · subst hb
    rw [Function.update_self, registration, eraseAction, AList.lookup_erase]
    rfl
  · rw [Function.update_of_ne hb, registration, registration, eraseAction, AList.lookup_erase_ne hb]

theorem registration_create (ref : Reference) (pStopper : ℕ) (op : Bool) :
    (s.create (.new ref pStopper op)).registration =
      Function.update s.registration s.next (some (ref, pStopper)) := by
  funext b
  by_cases hb : b = s.next
  · subst hb
    rw [Function.update_self, registration, create, AList.lookup_insert]
    rfl
  · rw [Function.update_of_ne hb, registration, registration, create, AList.lookup_insert_ne hb]

theorem registration_suspend (s : BasicScheduler) (a : ℕ) (reason : ReturnReason) (done : Bool) :
    (Machine.suspend a reason done s).registration = s.registration := by
  cases ha : s.actions.lookup a with
  | none => rw [Machine.suspend_gone _ _ ha]
  | some action =>
    rw [Machine.suspend_lookup _ _ ha]
    exact registration_insert ha rfl rfl rfl

theorem registration_clearCurrent (s : BasicScheduler) (a : ℕ) :
    (s.clearCurrent a).registration = s.registration := by
  unfold clearCurrent
  split <;> rfl

/-- Of an action that is unregistered nothing is left, and of the others everything. -/
theorem Wf.registration_unregister {action : ActiveAction} (h : s.Wf)
    (ha : s.actions.lookup a = some action) (hs : s.unregister a action = .ok s') :
    s'.registration = Function.update s.registration a none := by
  obtain ⟨new, action₁, s₁, s₂, hu, rfl⟩ := h.unregister ha hs
  rw [registration_eraseAction, hu.withdrawn.registration hu.lookup, hu.signalled.registration]

end BasicScheduler

namespace Machine
open BasicScheduler
variable {m m' : Machine} {i : Input} {a : ℕ}

/-! ## What is seen of it -/

/-- What the user of the scheduler sees of the registration of an action. -/
inductive Event
  | registered (ref : Reference) (pStopper : ℕ)
  /-- `pStopper( inst )` is called -/
  | stopperCalled (pStopper inst : ℕ)
  /-- the stopper, called by somebody else, has reported to the scheduler -/
  | stopperStopped
deriving DecidableEq, Repr

/-- The stopper that a step calls, and the action it is called for. -/
def stopperCall (m m' : Machine) : Option (ℕ × Event) :=
  match m'.frames with
  | .stopper a pStopper inst :: frames =>
    if frames = m.frames then some (a, .stopperCalled pStopper inst) else none
  | .terminated a pStopper inst :: frames =>
    if .coroutine a :: frames = m.frames then some (a, .stopperCalled pStopper inst) else none
  | _ => none

/-- What is seen in a step, and of which action. -/
def event (t : Taken Machine Input) : Option (ℕ × Event) :=
  match t.input with
  | .operation (.allocated ref pStopper) | .operation (.call ref pStopper _) =>
    if t.before.sched.find ref = none then some (t.before.sched.next, .registered ref pStopper)
    else none
  | .operation (.stopperStopped ref) =>
    (t.before.sched.find ref).map fun a => (a, .stopperStopped)
  | _ => stopperCall t.before t.after

/-- What is seen of an action in the course of a run. -/
def life (a : ℕ) (log : List (Taken Machine Input)) : List Event :=
  ((log.filterMap event).filter fun e => e.1 = a).map Prod.snd

/-- **The lives**, with what is registered at their end. -/
inductive Life : List Event → Option (Reference × ℕ) → Prop
  | unborn : Life [] none
  | registered (ref : Reference) (pStopper : ℕ) :
    Life [.registered ref pStopper] (some (ref, pStopper))
  | stopped (ref : Reference) (pStopper : ℕ) :
    Life [.registered ref pStopper, .stopperCalled pStopper ref.inst] none
  | stopperStopped (ref : Reference) (pStopper : ℕ) :
    Life [.registered ref pStopper, .stopperStopped] none

/-! ## One step -/

/-- **What a step does to the registrations**, and what is seen of it. -/
inductive RegistrationStep (m : Machine) (i : Input) (m' : Machine) : Prop
  | none (he : event ⟨m, i, m'⟩ = none) (hr : m'.sched.registration = m.sched.registration)
  | insert (ref : Reference) (pStopper : ℕ) (hf : m.sched.find ref = .none)
      (he : event ⟨m, i, m'⟩ = some (m.sched.next, .registered ref pStopper))
      (hr : m'.sched.registration =
        Function.update m.sched.registration m.sched.next (some (ref, pStopper)))
  | erase (a : ℕ) (ref : Reference) (pStopper : ℕ)
      (ha : m.sched.registration a = some (ref, pStopper))
      (he : event ⟨m, i, m'⟩ = some (a, .stopperCalled pStopper ref.inst) ∨
        event ⟨m, i, m'⟩ = some (a, .stopperStopped))
      (hr : m'.sched.registration = Function.update m.sched.registration a .none)

/-- A stopper is called by a frame that is new. -/
theorem stopperCall_of_length (h : m'.frames.length < m.frames.length) : stopperCall m m' = none := by
  unfold stopperCall
  split
  · rename_i hfr
    refine if_neg fun heq => ?_
    rw [hfr, ← heq, List.length_cons] at h
    omega
  · rename_i hfr
    refine if_neg fun heq => ?_
    rw [hfr, ← heq, List.length_cons, List.length_cons] at h
    omega
  · rfl

theorem stopperCall_of_same (h : m'.frames = m.frames) : stopperCall m m' = none := by
  unfold stopperCall
  rw [h]
  split
  · rename_i hfr
    refine if_neg fun heq => ?_
    rw [hfr] at heq
    exact absurd (congrArg List.length heq) (by rw [List.length_cons]; omega)
  · rename_i hfr
    refine if_neg fun heq => ?_
    rw [hfr] at heq
    cases heq
  · rfl

theorem stopperCall_of_pop {f : Frame} (h : m.frames = f :: m'.frames) : stopperCall m m' = none :=
  stopperCall_of_length (by rw [h, List.length_cons]; omega)

/-- An operation that finds nothing to do is not seen. -/
theorem event_of_idle {op : Operation} (hop : Operation.Idle m.sched op) :
    event ⟨m, .operation op, m⟩ = none := by
  cases op with
  | allocated ref pStopper | call ref pStopper op =>
    obtain ⟨b, hb⟩ := hop
    exact if_neg fun hnone => by rw [hb] at hnone; cases hnone
  | stopperStopped ref => exact Option.map_eq_none_iff.mpr hop
  | stop | pause | unpause => exact stopperCall_of_same rfl
  | signal | cycle => exact hop.elim

theorem Transition.registrationStep (ht : Transition m i m') (h : m.Wf) :
    RegistrationStep m i m' := by
  have hsus := registration_suspend m.sched
  cases ht with
  | idle hu hop => exact .none (event_of_idle hop) rfl
  | allocated hu hf => exact .insert _ _ hf (if_pos hf) (registration_create _ _ _)
  | call hu hf hs =>
    refine .insert _ _ hf (if_pos hf) ?_
    rw [registration_listInsert hs, registration_create]
  | signal hu hs =>
    obtain ⟨_, new, hsig⟩ := h.sched.signal hs
    exact .none (stopperCall_of_same rfl) hsig.registration
  | stop hu hf ha hs =>
    exact .erase _ _ _ (registration_of_lookup ha) (.inl (if_pos rfl))
      (h.sched.registration_unregister ha hs)
  | stopperStopped hu hf ha hs =>
    refine .erase _ _ _ (registration_of_lookup ha) (.inr (congrArg (Option.map _) hf)) ?_
    rw [registration_clearCurrent, h.sched.registration_unregister ha hs]
  | pause hu hf ha hw hs =>
    obtain ⟨_, hwd⟩ := h.sched.withdraw ha hw
    refine .none (stopperCall_of_same rfl) ?_
    rw [registration_listInsert hs, hwd.registration ha]
  | unpause hu hf ha hr hs =>
    refine .none (stopperCall_of_same rfl) ?_
    rw [registration_listInsert hs, registration_listRemove hr]
  | cycle hu => exact .none rfl rfl
  | orphan hfr hcur => exact .none (stopperCall_of_pop hfr) (hsus _ _ _)
  | yieldWait hfr hcur ha hs | yieldSleep hfr hcur ha hs =>
    exact .none (stopperCall_of_pop hfr) ((registration_listInsert hs).trans (hsus _ _ _))
  | yieldEvents hfr hcur ha hr hs =>
    exact .none (stopperCall_of_pop hfr) ((registration_registerEvents hs).trans (hsus _ _ _))
  | yieldTimeout hfr hcur ha hs =>
    exact .none (stopperCall_of_pop hfr) ((registration_timeoutInsert hs).trans (hsus _ _ _))
  | yieldTerminated hfr hcur ha hs =>
    obtain ⟨_, new, hsig⟩ := ((suspend_wf h.sched _ .terminated _).eraseAction _).signal hs
    refine .erase _ _ _ (registration_of_lookup ha) (.inl (if_pos hfr.symm)) ?_
    rw [hsig.registration, registration_eraseAction, hsus]
  | retStopper hfr => exact .none (stopperCall_of_pop hfr) (registration_clearCurrent _ _)
  | retTerminated hfr => exact .none (stopperCall_of_pop hfr) rfl
  | due hfr ht hk hr hs =>
    refine .none (stopperCall_of_same rfl) ?_
    rw [registration_listInsert hs, registration_timeoutRemove hr]
  | startSwap | start | toEnding => exact .none rfl rfl
  | @resume now frames s front rest s₁ action action' hfr hs hfront hrem ha hres =>
    refine .none rfl ?_
    obtain ⟨-, reason, rfl⟩ := resume_ok hres
    have hset : (s₁.setAction front.val
        { action with coroutine := ⟨.running, reason⟩ }).registration = s₁.registration :=
      registration_insert ha rfl rfl rfl
    refine hset.trans ((registration_listRemove hrem).trans ?_)
    subst hs
    split <;> rfl
  | returns hfr hev => exact .none (stopperCall_of_pop hfr) rfl
  | neverCame hfr hev ha hs =>
    exact .erase _ _ _ (registration_of_lookup ha) (.inl (if_pos rfl))
      (h.sched.registration_unregister ha hs)

/-! ## Runs -/

section Life
variable {log : List (Taken Machine Input)} {t : Taken Machine Input} {b : ℕ} {e : Event}

theorem life_snoc_none (h : event t = none) : life a (log ++ [t]) = life a log := by
  simp [life, h]

theorem life_snoc_self (h : event t = some (a, e)) : life a (log ++ [t]) = life a log ++ [e] := by
  simp [life, h]

theorem life_snoc_of_ne (h : event t = some (b, e)) (hb : b ≠ a) :
    life a (log ++ [t]) = life a log := by
  simp [life, h, hb]

theorem Life.of_registered {es : List Event} {ref : Reference} {pStopper : ℕ}
    (h : Life es (some (ref, pStopper))) : es = [.registered ref pStopper] := by
  cases h
  rfl

/-- Nothing is seen of a number that has not been used. -/
theorem lives_of_step (h : m.Wf) (hs : step m i = .ok m')
    (hlife : ∀ a, Life (life a log) (m.sched.registration a))
    (hunused : ∀ a, m.sched.next ≤ a → life a log = []) :
    (∀ a, Life (life a (log ++ [⟨m, i, m'⟩])) (m'.sched.registration a)) ∧
      ∀ a, m'.sched.next ≤ a → life a (log ++ [⟨m, i, m'⟩]) = [] := by
  have hnext : m.sched.next ≤ m'.sched.next := (h.transition hs).next_le h
  have hlive : ∀ {m : Machine} {a : ℕ} {r}, m.Wf → m.sched.registration a = some r →
      a < m.sched.next := by
    intro m a r hm hr
    refine hm.sched.live_lt a (not_not.mp fun hn => ?_)
    rw [registration_eq_none.mpr hn] at hr
    cases hr
  cases (h.transition hs).registrationStep h with
  | none he hr =>
    constructor
    · intro a
      rw [life_snoc_none he, hr]
      exact hlife a
    · intro a ha
      rw [life_snoc_none he]
      exact hunused a (hnext.trans ha)
  | insert ref pStopper hf he hr =>
    have hlt : m.sched.next < m'.sched.next := by
      refine hlive (h.step hs) (r := (ref, pStopper)) ?_
      rw [hr, Function.update_self]
    constructor
    · intro a
      rw [hr]
      by_cases ha : a = m.sched.next
      · subst ha
        rw [life_snoc_self he, hunused _ le_rfl, Function.update_self]
        exact .registered ref pStopper
      · rw [life_snoc_of_ne he (Ne.symm ha), Function.update_of_ne ha]
        exact hlife a
    · intro a ha
      rw [life_snoc_of_ne he (by omega)]
      exact hunused a (hnext.trans ha)
  | erase b ref pStopper hb he hr =>
    have hlt := hlive h hb
    have hes := (hb ▸ hlife b).of_registered
    constructor
    · intro a
      rw [hr]
      by_cases ha : a = b
      · subst ha
        rw [Function.update_self]
        cases he with
        | inl he =>
          rw [life_snoc_self he, hes]
          exact .stopped ref pStopper
        | inr he =>
          rw [life_snoc_self he, hes]
          exact .stopperStopped ref pStopper
      · rw [Function.update_of_ne ha]
        cases he with
        | inl he => exact (life_snoc_of_ne he (Ne.symm ha)).symm ▸ hlife a
        | inr he => exact (life_snoc_of_ne he (Ne.symm ha)).symm ▸ hlife a
    · intro a ha
      have hne : b ≠ a := by omega
      cases he with
      | inl he => exact (life_snoc_of_ne he hne).trans (hunused a (hnext.trans ha))
      | inr he => exact (life_snoc_of_ne he hne).trans (hunused a (hnext.trans ha))

end Life

end Machine
end EgLang.Scheduler
