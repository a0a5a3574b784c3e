import EgLang.Scheduler.Views

/-! # What a step does to one action

`Fate` is the scheduler as a state machine of a single action, on its view: whatever step the
scheduler takes and whichever action it is about, an action keeps what it has but for lost
registrations, or it is moved from one place to another, yields, is resumed, or is removed. That
this is so is `Transition.fate`; invariants of single actions are proved by cases on it.
-/

namespace EgLang.Scheduler
open Library
set_option autoImplicit false

namespace Machine
open BasicScheduler

/-- The step stops the action: by its reference, or as the first of those whose events never
came. -/
def Stops (m : Machine) (b : ℕ) : Input → Prop
  | .operation (.stop ref) | .operation (.stopperStopped ref) => m.sched.find ref = some b
  | .tick _ => m.frames.head? = some (.cycle .ending) ∧
      (m.sched.events .wait).head?.map Entry.val = some b
  | _ => False

/-- The list the main loop of `cycle` takes its next action from. -/
def nextList (s : BasicScheduler) : ListId :=
  if s.getActive = [] then s.sleepState.getWaiting else s.sleepState.getActive

/-- **The fate** of an action in one step. -/
inductive Fate (b : ℕ) (m : Machine) : Input → Machine → Prop
  | kept {i m'} (hs : Keeps b m.sched m'.sched)
      (hrun : b ∈ runningActions m'.frames ↔ b ∈ runningActions m.frames) : Fate b m i m'
  | allocated {ref pStopper m'} (hb : b = m.sched.next) (hv : m'.sched.view b = some .empty)
      (hrun : runningActions m'.frames = runningActions m.frames) :
      Fate b m (.operation (.allocated ref pStopper)) m'
  | called {ref pStopper op m' n} (hb : b = m.sched.next)
      (hv : m'.sched.view b = some (View.empty.put m.sched.sleepState.getActive n))
      (hrun : runningActions m'.frames = runningActions m.frames) :
      Fate b m (.operation (.call ref pStopper op)) m'
  | woken {i m' v n} (hreg : ∃ k, (v.nodes (.events k)).Nonempty) (hv : m.sched.view b = some v)
      (hv' : m'.sched.view b = some (v.deregister.put m.sched.sleepState.getActive n))
      (hrun : b ∈ runningActions m'.frames ↔ b ∈ runningActions m.frames) : Fate b m i m'
  | paused {ref m' v n} (hf : m.sched.find ref = some b) (hv : m.sched.view b = some v)
      (hv' : m'.sched.view b = some (v.leave.deregister.put .paused n))
      (hfr : m'.frames = m.frames) : Fate b m (.operation (.pause ref)) m'
  | unpaused {ref m' v n} (hf : m.sched.find ref = some b) (hv : m.sched.view b = some v)
      (hv' : m'.sched.view b = some ((v.take .paused).put m.sched.sleepState.getActive n))
      (hfr : m'.frames = m.frames) : Fate b m (.operation (.unpause ref)) m'
  | due {now m' v n e rest frames} (hfr : m.frames = .cycle .timeouts :: frames)
      (ht : m.sched.timeouts = e :: rest) (hk : e.key ≤ now) (he : e.val = b)
      (hv : m.sched.view b = some v)
      (hv' : m'.sched.view b = some (v.takeTimeout.put m.sched.sleepState.getActive n))
      (hfr' : m'.frames = m.frames) : Fate b m (.tick now) m'
  | resumed {now m' v n frames} (hfr : m.frames = .cycle .running :: frames)
      (hfr' : m'.frames = .coroutine b :: m.frames) (hn : n ∈ v.nodes (.list (nextList m.sched)))
      (hv : m.sched.view b = some v) (hv' : m'.sched.view b = some (v.take (nextList m.sched)))
      (hrun : b ∉ runningActions m.frames) : Fate b m (.tick now) m'
  | orphaned {reason done m'} (hfr : m.frames = .coroutine b :: m'.frames)
      (hcur : m.sched.currentAction = none) (hs : Keeps b m.sched m'.sched) :
      Fate b m (.yield reason done) m'
  | yieldedList {reason done m' v n l} (hfr : m.frames = .coroutine b :: m'.frames)
      (hcur : m.sched.currentAction = some b)
      (hl : reason = .wait ∧ l = m.sched.sleepState.getWaiting ∨
        reason = .sleep ∧ l = m.sched.sleepState.getSleeping)
      (hv : m.sched.view b = some v) (hv' : m'.sched.view b = some (v.put l n)) :
      Fate b m (.yield reason done) m'
  | yieldedEvents {reason done m' v ns em any evs} (hfr : m.frames = .coroutine b :: m'.frames)
      (hcur : m.sched.currentAction = some b) (hr : registration reason = some (em, any, evs))
      (hns : ns = ∅ ↔ evs = []) (hv : m.sched.view b = some v)
      (hv' : m'.sched.view b = some (v.register em ns)) : Fate b m (.yield reason done) m'
  | yieldedTimeout {timeout done m' v n} (hfr : m.frames = .coroutine b :: m'.frames)
      (hcur : m.sched.currentAction = some b) (hv : m.sched.view b = some v)
      (hv' : m'.sched.view b = some (v.putTimeout n)) :
      Fate b m (.yield (.timeout (some timeout)) done) m'
  | stopped {i m' v w action} (hi : m.Stops b i) (ha : m.sched.actions.lookup b = some action)
      (hv : m.sched.view b = some v)
      (hw : v.Loses w ∨ m.sched.Wakes action.ref b ∧
        ∃ n, w = v.deregister.put m.sched.sleepState.getActive n)
      (hgone : m'.sched.view b = none) (hn : m'.sched.nodesOf b = w.leave.deregister.nodes) :
      Fate b m i m'
  | terminated {done m' v frames} (hfr : m.frames = .coroutine b :: frames)
      (hcur : m.sched.currentAction = some b) (hv : m.sched.view b = some v)
      (hgone : m'.sched.view b = none) (hn : ∀ p, m'.sched.nodesOf b p ⊆ v.nodes p) :
      Fate b m (.yield .terminated done) m'

section Fates
variable {m m' : Machine} {b : ℕ}

theorem suspend_held (s : BasicScheduler) (a : ℕ) (reason : ReturnReason) (done : Bool)
    (p : Place) : (suspend a reason done s).held p = s.held p := by
  unfold suspend
  split
  · rfl
  · cases p <;> rfl

theorem suspend_nodesOf (s : BasicScheduler) (a : ℕ) (reason : ReturnReason) (done : Bool) :
    (suspend a reason done s).nodesOf b = s.nodesOf b :=
  nodesOf_congr (suspend_held s a reason done) b

/-- No view shows the coroutines. -/
theorem suspend_view (s : BasicScheduler) (a : ℕ) (reason : ReturnReason) (done : Bool) :
    (suspend a reason done s).view b = s.view b := by
  cases ha : s.actions.lookup a with
  | none => rw [suspend_gone _ _ ha]
  | some action =>
    by_cases hba : b = a
    · subst hba
      rw [view_of_lookup ha]
      have hl := suspend_lookup reason done ha
      have hs : (suspend b reason done s).actions.lookup b =
          some { action with coroutine := ⟨if done then .done else .suspended, reason⟩ } := by
        rw [hl]
        exact AList.lookup_insert _
      refine view_eq hs rfl rfl fun p n => ?_
      rw [suspend_held]
      rfl
    · refine view_congr ?_ (suspend_nodesOf s a reason done)
      rw [suspend_lookup _ _ ha, BasicScheduler.setAction, AList.lookup_insert_ne hba]

theorem untouched_suspend (s : BasicScheduler) (a : ℕ) (reason : ReturnReason) (done : Bool) :
    Untouched b s (suspend a reason done s) :=
  ⟨suspend_view s a reason done, suspend_nodesOf s a reason done⟩

theorem untouched_clearCurrent (s : BasicScheduler) (a : ℕ) :
    Untouched b s (s.clearCurrent a) := by
  unfold clearCurrent
  split
  · exact ⟨rfl, rfl⟩
  · exact .refl b s

theorem untouched_current (s : BasicScheduler) (c : Option ℕ) :
    Untouched b s { s with currentAction := c } :=
  ⟨rfl, rfl⟩

/-- The fate of the actions a step is not about. -/
theorem Fate.of_untouched {i : Input} (hs : Untouched b m.sched m'.sched)
    (hrun : b ∈ runningActions m'.frames ↔ b ∈ runningActions m.frames) : Fate b m i m' :=
  .kept hs.keeps hrun

/-- What a signal does to an action, with changes elsewhere before and after it. -/
theorem fate_of_signalled {i : Input} {ref : Reference} {s s' : BasicScheduler}
    {new : List (Entry Unit ℕ)} (hs : Signalled ref s s' new)
    (hbefore : Untouched b m.sched s) (hst : s.sleepState = m.sched.sleepState)
    (hafter : Untouched b s' m'.sched)
    (hrun : b ∈ runningActions m'.frames ↔ b ∈ runningActions m.frames) : Fate b m i m' := by
  by_cases hb : b ∈ new.map Entry.val
  · obtain ⟨hwakes, v, n, hv, hv'⟩ := hs.view_woken hb
    rw [hst] at hv'
    refine .woken ?_ (hbefore.view ▸ hv) (hafter.view.trans hv') hrun
    obtain ⟨⟨k, e, he, hev, _⟩, _⟩ := hwakes
    rw [← nodesOf_eq_of_view hv]
    exact ⟨k, e.node, mem_held_events.mpr ⟨e, he, rfl, hev⟩⟩
  · refine .kept ?_ hrun
    have hk := (hs.keeps hb).untouched hafter
    exact ⟨fun v hv => hk.view v (hbefore.view.trans hv), fun hv => hk.gone (hbefore.view.trans hv),
      fun p => hbefore.nodes ▸ hk.nodes p⟩

/-- Stopping an action, as it and as the others see it. -/
theorem fate_of_unregister {i : Input} {a : ℕ} {action : ActiveAction} {s' : BasicScheduler}
    (h : m.Wf) (hi : m.Stops a i) (ha : m.sched.actions.lookup a = some action)
    (hs : m.sched.unregister a action = .ok s') (hafter : ∀ c, Untouched c s' m'.sched)
    (hrun : runningActions m'.frames = runningActions m.frames) : Fate b m i m' := by
  obtain ⟨new, action₁, s₁, s₂, hu, rfl⟩ := h.sched.unregister ha hs
  by_cases hba : b = a
  · subst hba
    have hv := view_of_lookup ha
    have hgone : m'.sched.view b = none := (hafter b).view.trans view_eraseAction
    have hnodes : ∀ w, s₁.view b = some w → m'.sched.nodesOf b = w.leave.deregister.nodes := by
      intro w hw
      rw [(hafter b).nodes, ← nodesOf_eq_of_view (hu.withdrawn.view hu.lookup hw)]
      exact nodesOf_congr (fun p => by cases p <;> rfl) b
    by_cases hb : b ∈ new.map Entry.val
    · obtain ⟨hwakes, v, n, hv₀, hw⟩ := hu.signalled.view_woken hb
      rw [hv, Option.some.injEq] at hv₀
      subst hv₀
      exact .stopped hi ha hv (.inr ⟨hwakes, n, rfl⟩) hgone (hnodes _ hw)
    · obtain ⟨w, hw, hloses⟩ := (hu.signalled.keeps hb).view _ hv
      exact .stopped hi ha hv (.inl hloses) hgone (hnodes _ hw)
  · refine fate_of_signalled hu.signalled.toSignalled (.refl b _) rfl ?_ (by rw [hrun])
    exact ((hu.withdrawn.untouched hu.lookup hu.wf₁ hba).trans (untouched_eraseAction hba)).trans
      (hafter b)

/-- A coroutine that hands back control leaves the stack. -/
theorem runningActions_popped {a : ℕ} {frames : List Frame} (hfr : m.frames = .coroutine a :: frames)
    (hb : b ≠ a) : b ∈ runningActions frames ↔ b ∈ runningActions m.frames := by
  rw [hfr, runningActions_coroutine, List.mem_cons, or_iff_right hb]

/-- **Every step gives every action one of the fates.** -/
theorem Transition.fate {i : Input} (ht : Transition m i m') (h : m.Wf) (b : ℕ) :
    Fate b m i m' := by
  cases ht with
  | idle hu hop => exact .of_untouched (.refl b _) Iff.rfl
  | @allocated ref pStopper hu hf =>
    by_cases hb : b = m.sched.next
    · subst hb
      exact .allocated rfl (h.sched.view_create _ _ _) rfl
    · exact .of_untouched (untouched_create _ hb) Iff.rfl
  | @call ref pStopper op s' hu hf hs =>
    by_cases hb : b = m.sched.next
    · subst hb
      exact .called rfl (view_listInsert hs (h.sched.view_create _ _ _)) rfl
    · exact .of_untouched ((untouched_create _ hb).trans (untouched_listInsert hs hb)) Iff.rfl
  | signal hu hs =>
    obtain ⟨_, new, hsig⟩ := h.sched.signal hs
    exact fate_of_signalled hsig.toSignalled (.refl b _) rfl (.refl b _) Iff.rfl
  | stop hu hf ha hs => exact fate_of_unregister h hf ha hs (fun c => .refl c _) rfl
  | stopperStopped hu hf ha hs =>
    exact fate_of_unregister h hf ha hs (fun c => untouched_clearCurrent _ _) rfl
  | @pause ref a action s₁ s' hu hf ha hw hs =>
    obtain ⟨h₁, hwd⟩ := h.sched.withdraw ha hw
    by_cases hb : b = a
    · subst hb
      have hv := view_of_lookup ha
      exact .paused hf hv (view_listInsert hs (hwd.view ha hv)) rfl
    · exact .of_untouched ((hwd.untouched ha h.sched hb).trans (untouched_listInsert hs hb))
        Iff.rfl
  | @unpause ref a action s₁ s' hu hf ha hr hs =>
    by_cases hb : b = a
    · subst hb
      have hv := view_of_lookup ha
      exact .unpaused hf hv (view_listInsert hs (view_listRemove hr hv)) rfl
    · exact .of_untouched ((h.sched.untouched_listRemove hr hb).trans (untouched_listInsert hs hb))
        Iff.rfl
  | cycle hu => exact .of_untouched (.refl b _) Iff.rfl
  | @orphan a reason done frames hfr hcur =>
    by_cases hb : b = a
    · subst hb
      exact .orphaned hfr hcur (untouched_suspend _ _ _ _).keeps
    · exact .of_untouched (untouched_suspend _ _ _ _) (runningActions_popped hfr hb)
  | @yieldWait a done frames action s' hfr hcur ha hs =>
    by_cases hb : b = a
    · subst hb
      have hv := view_of_lookup ha
      have hv' := view_listInsert hs ((suspend_view _ _ _ _).trans hv)
      exact .yieldedList hfr hcur (.inl ⟨rfl, rfl⟩) hv hv'
    · exact .of_untouched (((untouched_suspend _ _ _ _).trans (untouched_listInsert hs hb)).trans
        (untouched_current _ _)) (runningActions_popped hfr hb)
  | @yieldSleep a done frames action s' hfr hcur ha hs =>
    by_cases hb : b = a
    · subst hb
      have hv := view_of_lookup ha
      have hv' := view_listInsert hs ((suspend_view _ _ _ _).trans hv)
      exact .yieldedList hfr hcur (.inr ⟨rfl, rfl⟩) hv hv'
    · exact .of_untouched (((untouched_suspend _ _ _ _).trans (untouched_listInsert hs hb)).trans
        (untouched_current _ _)) (runningActions_popped hfr hb)
  | @yieldEvents a reason done frames action em any evs s' hfr hcur ha hr hs =>
    have ha' : (suspend a reason done m.sched).actions.lookup a =
        some { action with coroutine := ⟨if done then .done else .suspended, reason⟩ } := by
      rw [suspend_lookup reason done ha]
      exact AList.lookup_insert _
    obtain ⟨_, action', hreg⟩ := (suspend_wf h.sched a reason done).registerEvents ha' hs
    by_cases hb : b = a
    · subst hb
      have hv := view_of_lookup ha
      obtain ⟨ns, hv', hns⟩ := view_registered ha' hreg ((suspend_view _ _ _ _).trans hv)
      exact .yieldedEvents hfr hcur hr hns hv hv'
    · exact .of_untouched (((untouched_suspend _ _ _ _).trans (untouched_registered hreg hb)).trans
        (untouched_current _ _)) (runningActions_popped hfr hb)
  | @yieldTimeout a timeout done frames action s' hfr hcur ha hs =>
    by_cases hb : b = a
    · subst hb
      have hv := view_of_lookup ha
      have hv' := view_timeoutInsert hs ((suspend_view _ _ _ _).trans hv)
      exact .yieldedTimeout hfr hcur hv hv'
    · exact .of_untouched (((untouched_suspend _ _ _ _).trans (untouched_timeoutInsert hs hb)).trans
        (untouched_current _ _)) (runningActions_popped hfr hb)
  | @yieldTerminated a done frames action s' hfr hcur ha hs =>
    obtain ⟨_, new, hsig⟩ := ((suspend_wf h.sched a .terminated done).eraseAction a).signal hs
    by_cases hb : b = a
    · subst hb
      have hv := view_of_lookup ha
      have hgone : b ∉ new.map Entry.val := fun hmem => by
        obtain ⟨_, action', ha', _⟩ := hsig.wakes b hmem
        rw [view_eq_none.mp view_eraseAction] at ha'
        cases ha'
      have hk := hsig.keeps hgone
      refine .terminated hfr hcur hv (hk.gone view_eraseAction) fun p => ?_
      have hsub := hk.nodes p
      rw [← nodesOf_eq_of_view hv]
      refine hsub.trans (Eq.subset ?_)
      have hn : ((suspend b .terminated done m.sched).eraseAction b).nodesOf b =
          (suspend b .terminated done m.sched).nodesOf b :=
        nodesOf_congr (fun p => by cases p <;> rfl) b
      rw [hn, suspend_nodesOf]
    · exact fate_of_signalled hsig.toSignalled
        ((untouched_suspend _ _ _ _).trans (untouched_eraseAction hb)) (suspend_sleepState _ _ _ _)
        (.refl b _) (by rw [runningActions_terminated]; exact runningActions_popped hfr hb)
  | retStopper hfr =>
    exact .of_untouched (untouched_clearCurrent _ _) (by rw [hfr, runningActions_stopper])
  | retTerminated hfr => exact .of_untouched ⟨rfl, rfl⟩ (by rw [hfr, runningActions_terminated])
  | @due now e rest frames s₁ s' hfr ht hk hr hs =>
    by_cases hb : b = e.val
    · subst hb
      obtain ⟨action, ha, _⟩ := timeoutRemove_ok.mp hr
      have hv := view_of_lookup ha
      exact .due hfr ht hk rfl hv (view_listInsert hs (view_timeoutRemove hr hv)) rfl
    · exact .of_untouched
        ((h.sched.untouched_timeoutRemove hr hb).trans (untouched_listInsert hs hb)) Iff.rfl
  | startSwap hfr hdue hactive hwaiting => exact .of_untouched ⟨rfl, rfl⟩ (by rw [hfr]; rfl)
  | start hfr hdue hne => exact .of_untouched (.refl b _) (by rw [hfr]; rfl)
  | toEnding hfr hactive hwaiting => exact .of_untouched (.refl b _) (by rw [hfr]; rfl)
  | @resume now frames s front rest s₁ action action' hfr hs hfront hrem ha hres =>
    have hw : s.Wf := by
      subst hs
      split
      · exact h.sched.of_eq rfl rfl rfl rfl rfl
      · exact h.sched
    have hsame : ∀ c, Untouched c m.sched s := fun c => by
      subst hs
      split
      · exact ⟨rfl, rfl⟩
      · exact .refl c _
    have hnext : s.sleepState.getActive = nextList m.sched := by
      subst hs
      unfold nextList
      split <;> simp
    rw [hnext] at hrem
    obtain ⟨hstop, reason, rfl⟩ := resume_ok hres
    have hset : ∀ c, Untouched c s₁
        { s₁.setAction front.val { action with coroutine := ⟨.running, reason⟩ } with
          currentAction := some front.val } := fun c => by
      have hn : BasicScheduler.nodesOf { s₁.setAction front.val
          { action with coroutine := ⟨.running, reason⟩ } with
            currentAction := some front.val } c = s₁.nodesOf c :=
        nodesOf_congr (fun p => by cases p <;> rfl) c
      refine ⟨?_, hn⟩
      by_cases hc : c = front.val
      · subst hc
        rw [view_of_lookup ha]
        exact view_eq (AList.lookup_insert _) rfl rfl fun p n => by cases p <;> rfl
      · exact view_congr (AList.lookup_insert_ne hc) hn
    by_cases hb : b = front.val
    · subst hb
      have hlive : s.Live front.val := by
        obtain ⟨action₀, ha₀, _⟩ := listRemove_ok.mp hrem
        exact BasicScheduler.live_iff.mpr ⟨_, ha₀⟩
      obtain ⟨v, hv⟩ := live_iff_view.mp hlive
      have hvm : m.sched.view front.val = some v := (hsame _).view ▸ hv
      refine .resumed (n := front.node) hfr rfl ?_ hvm
        ((hset _).view.trans (view_listRemove hrem hv)) fun hmem => ?_
      · rw [← nodesOf_eq_of_view hv, ← hnext]
        refine mem_held_list.mpr ⟨front, ?_, rfl, rfl⟩
        change front ∈ s.getActive
        rw [hfront]
        exact List.mem_cons_self
      · have hrun : ∀ action₀, m.sched.actions.lookup front.val = some action₀ →
            action₀.coroutine = action.coroutine := by
          intro action₀ ha₀
          rcases (evolves_listRemove hrem).old _ _ ha with ⟨hn, _⟩ | ⟨action₁, ha₁, hc⟩
          · exact absurd (hw.live_lt _ hlive) (not_lt.mpr hn)
          · have hact : s.actions = m.sched.actions := by
              rw [hs]
              split <;> rfl
            rw [hact, ha₀, Option.some.injEq] at ha₁
            rw [ha₁, hc]
        obtain ⟨action₀, ha₀, _⟩ := Option.map_eq_some_iff.mp hvm
        exact hstop (hrun action₀ ha₀ ▸ (h.running _ _ ha₀).mpr hmem)
    · refine .of_untouched (((hsame b).trans (hw.untouched_listRemove hrem hb)).trans (hset b)) ?_
      rw [runningActions_coroutine, List.mem_cons, or_iff_right hb]
  | returns hfr hev => exact .of_untouched (.refl b _) (by rw [hfr, runningActions_cycle])
  | @neverCame now frames e rest action s' hfr hev ha hs =>
    refine fate_of_unregister h ⟨?_, ?_⟩ ha hs (fun c => .refl c _) rfl
    · rw [hfr]
      rfl
    · rw [hev]
      rfl

theorem fate_of_step (h : m.Wf) {i : Input} (hs : step m i = .ok m') (b : ℕ) : Fate b m i m' :=
  (h.transition hs).fate h b

theorem suspend_next (s : BasicScheduler) (a : ℕ) (reason : ReturnReason) (done : Bool) :
    (suspend a reason done s).next = s.next := by
  unfold suspend
  split <;> rfl

/-- Numbers are not used twice. -/
theorem Transition.next_le {i : Input} (ht : Transition m i m') (h : m.Wf) :
    m.sched.next ≤ m'.sched.next := by
  have hsus := suspend_next m.sched
  cases ht with
  | allocated hu hf => exact Nat.le_succ _
  | call hu hf hs => exact ((evolves_create _ _ _ _).trans (evolves_listInsert hs)).next_le
  | signal hu hs => exact (wf_signal_evolves h.sched hs).2.next_le
  | stop hu hf ha hs => exact (wf_unregister_evolves h.sched ha hs).2.next_le
  | stopperStopped hu hf ha hs =>
    change _ ≤ (BasicScheduler.clearCurrent _ _).next
    rw [clearCurrent_next]
    exact (wf_unregister_evolves h.sched ha hs).2.next_le
  | pause hu hf ha hw hs =>
    obtain ⟨_, hwd⟩ := h.sched.withdraw ha hw
    exact ((hwd.evolves ha).trans (evolves_listInsert hs)).next_le
  | unpause hu hf ha hr hs => exact ((evolves_listRemove hr).trans (evolves_listInsert hs)).next_le
  | orphan hfr hcur => exact (hsus _ _ _).ge
  | yieldWait hfr hcur ha hs => exact (hsus _ _ _).ge.trans (evolves_listInsert hs).next_le
  | yieldSleep hfr hcur ha hs => exact (hsus _ _ _).ge.trans (evolves_listInsert hs).next_le
  | @yieldEvents a reason done frames action em any evs s' hfr hcur ha hr hs =>
    have ha' : (suspend a reason done m.sched).actions.lookup a =
        some { action with coroutine := ⟨if done then .done else .suspended, reason⟩ } := by
      rw [suspend_lookup reason done ha]
      exact AList.lookup_insert _
    obtain ⟨_, action', hreg⟩ := (suspend_wf h.sched a reason done).registerEvents ha' hs
    exact (hsus _ _ _).ge.trans hreg.next_le
  | yieldTimeout hfr hcur ha hs => exact (hsus _ _ _).ge.trans (evolves_timeoutInsert hs).next_le
  | yieldTerminated hfr hcur ha hs =>
    have he := (wf_signal_evolves ((suspend_wf h.sched _ _ _).eraseAction _) hs).2.next_le
    exact (hsus _ _ _).ge.trans he
  | retStopper hfr =>
    change _ ≤ (BasicScheduler.clearCurrent _ _).next
    rw [clearCurrent_next]
  | due hfr ht hk hr hs => exact ((evolves_timeoutRemove hr).trans (evolves_listInsert hs)).next_le
  | resume hfr hs hfront hrem ha hres =>
    have he := (evolves_listRemove hrem).next_le
    subst hs
    split at he <;> exact he
  | neverCame hfr hev ha hs => exact (wf_unregister_evolves h.sched ha hs).2.next_le
  | _ => exact le_rfl

/-- A coroutine is put on the stack only in the main loop of `cycle`, by resuming it. -/
theorem resumed_of_pushed {i : Input} (h : m.Wf) (hs : step m i = .ok m')
    (hfr : m'.frames = .coroutine b :: m.frames) :
    ∃ v n, n ∈ v.nodes (.list (nextList m.sched)) ∧ m.sched.view b = some v ∧
      m'.sched.view b = some (v.take (nextList m.sched)) ∧ b ∉ runningActions m.frames := by
  have hshort : ∀ {f : Frame} {frames : List Frame}, m.frames = f :: frames →
      frames ≠ .coroutine b :: m.frames := by
    intro f frames hfr' heq
    rw [hfr'] at heq
    exact absurd (congrArg List.length heq) (by simp only [List.length_cons]; omega)
  have hloop : ∃ frames, m.frames = .cycle .running :: frames := by
    cases h.transition hs with
    | resume hfr' => exact ⟨_, hfr'⟩
    | idle | allocated | call | signal | stopperStopped | pause | unpause | due =>
      exact absurd hfr.symm (List.cons_ne_self _ _)
    | orphan hfr' | yieldWait hfr' | yieldSleep hfr' | yieldEvents hfr' | yieldTimeout hfr'
    | retStopper hfr' | retTerminated hfr' | returns hfr' => exact absurd hfr (hshort hfr')
    | stop | cycle | yieldTerminated | startSwap | start | toEnding | neverCame => cases hfr
  obtain ⟨frames, hloop⟩ := hloop
  have hnd : b ∉ runningActions m.frames := by
    have := (h.step hs).nodup
    rw [hfr, runningActions_coroutine] at this
    exact (List.nodup_cons.mp this).1
  have hin : b ∈ runningActions m'.frames := by
    rw [hfr]
    exact List.mem_cons_self
  have hpop : ∀ {frames}, m.frames ≠ .coroutine b :: frames := fun hfr' => by
    rw [hloop] at hfr'
    cases hfr'
  cases fate_of_step h hs b with
  | kept hk hrun => exact absurd (hrun.mp hin) hnd
  | woken hreg hv hv' hrun => exact absurd (hrun.mp hin) hnd
  | allocated hb hv hrun => exact absurd (hrun ▸ hin) hnd
  | called hb hv hrun => exact absurd (hrun ▸ hin) hnd
  | paused _ _ _ hfr' | unpaused _ _ _ hfr' | due _ _ _ _ _ _ hfr' =>
    exact absurd (hfr'.symm.trans hfr).symm (List.cons_ne_self _ _)
  | resumed hfr₁ hfr' hn hv hv' hrun => exact ⟨_, _, hn, hv, hv', hrun⟩
  | orphaned hfr' | yieldedList hfr' | yieldedEvents hfr' | yieldedTimeout hfr'
  | terminated hfr' => exact absurd hfr' hpop
  | stopped hi =>
    cases i with
    | tick now =>
      have := hi.1
      rw [hloop] at this
      cases this
    | operation op =>
      simp only [step, hloop] at hs
      cases hs
    | _ => exact absurd hi id

end Fates

end Machine
end EgLang.Scheduler
