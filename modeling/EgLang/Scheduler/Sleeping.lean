import EgLang.Scheduler.Control
import EgLang.Scheduler.Safety

/-! # Sleeping for one cycle

An action that yields sleep is resumed in the next cycle, and not before. The sleeping list becomes
the active one by a swap of roles at the beginning of `cycle`, which takes place only if nothing is
active or waiting. So this holds of runs in which a cycle that begins with sleepers finds nothing
else to do, no timeout expires while there are sleepers, and nothing but being paused and unpaused
brings a sleeper into another place.
-/

namespace EgLang.Scheduler
open Library
set_option autoImplicit false

namespace Machine
open BasicScheduler

/-! ## The two halves -/

/-- The input is a call of `pause` that finds the action. -/
def Pauses (m : Machine) (a : ℕ) : Input → Prop
  | .operation (.pause ref) => m.sched.find ref = some a
  | _ => False

/-- The input is a call of `unpause` that finds the action. -/
def Unpauses (m : Machine) (a : ℕ) : Input → Prop
  | .operation (.unpause ref) => m.sched.find ref = some a
  | _ => False

/-- The step resumes the action. -/
def Resumes (m : Machine) (a : ℕ) (i : Input) : Prop :=
  ∃ m' ∈ (step m i).toOption, m'.frames = .coroutine a :: m.frames

instance (m : Machine) (a : ℕ) (i : Input) : Decidable (m.Stops a i) := by
  refine i.casesOn (fun op => op.casesOn ?_ ?_ ?_ ?_ ?_ ?_ ?_ ?_) ?_ ?_ ?_ <;> intros <;>
    dsimp only [Stops] <;> infer_instance

instance (m : Machine) (a : ℕ) (i : Input) : Decidable (m.Pauses a i) := by
  refine i.casesOn (fun op => op.casesOn ?_ ?_ ?_ ?_ ?_ ?_ ?_ ?_) ?_ ?_ ?_ <;> intros <;>
    dsimp only [Pauses] <;> infer_instance

instance (m : Machine) (a : ℕ) (i : Input) : Decidable (m.Unpauses a i) := by
  refine i.casesOn (fun op => op.casesOn ?_ ?_ ?_ ?_ ?_ ?_ ?_ ?_) ?_ ?_ ?_ <;> intros <;>
    dsimp only [Unpauses] <;> infer_instance

instance (m : Machine) (a : ℕ) (i : Input) : Decidable (m.Resumes a i) :=
  inferInstanceAs (Decidable (∃ m' ∈ (step m i).toOption, m'.frames = .coroutine a :: m.frames))

/-- An action that sleeps when `cycle` is called is resumed before it returns: as long as the action
has been neither resumed nor stopped nor paused, the call is in progress. -/
def ResumedInCycle (guard : Machine → Input → Prop) (a : ℕ) (m₀ : Machine) : Prop :=
  ∀ m₁ m₂, m₀.sched.Live a → ¬ m₀.sched.Absent a (.list m₀.sched.sleepState.getSleeping) →
    guard m₀ (.operation .cycle) → step m₀ (.operation .cycle) = .ok m₁ →
    Reaches step (fun m i => guard m i ∧ ¬ m.Stops a i ∧ ¬ m.Pauses a i ∧ ¬ m.Resumes a i ∧
      m₀.frames.length < m.frames.length) m₁ m₂ → m₀.frames.length < m₂.frames.length

/-- An action that yields sleep is not resumed while a cycle is in progress, unless it is first
paused and then unpaused. -/
def NotResumedAgain (guard : Machine → Input → Prop) (a : ℕ) (m₀ : Machine) : Prop :=
  ∀ done m₁ m₂ m₃, m₀.frames = .coroutine a :: m₁.frames → guard m₀ (.yield .sleep done) →
    step m₀ (.yield .sleep done) = .ok m₁ →
    Reaches step (fun m i => guard m i ∧ ¬ m.Pauses a i ∧ m.frames ≠ []) m₁ m₂ →
    Reaches step (fun m i => guard m i ∧ ¬ m.Unpauses a i ∧ m.frames ≠ []) m₂ m₃ →
    ∀ i, ¬ m₃.Resumes a i

/-- Fewer runs to look at. -/
theorem ResumedInCycle.mono {guard guard' : Machine → Input → Prop} {a : ℕ} {m₀ : Machine}
    (hsub : ∀ m i, guard' m i → guard m i) (h : ResumedInCycle guard a m₀) :
    ResumedInCycle guard' a m₀ := by
  intro m₁ m₂ hlive hsleep hc hs hr
  exact h m₁ m₂ hlive hsleep (hsub _ _ hc) hs (hr.mono fun u i _ hc => hc.imp_left (hsub u i))

theorem NotResumedAgain.mono {guard guard' : Machine → Input → Prop} {a : ℕ} {m₀ : Machine}
    (hsub : ∀ m i, guard' m i → guard m i) (h : NotResumedAgain guard a m₀) :
    NotResumedAgain guard' a m₀ := by
  intro done m₁ m₂ m₃ hfr hc hs h₁₂ h₂₃
  exact h done m₁ m₂ m₃ hfr (hsub _ _ hc) hs (h₁₂.mono fun u i _ hc => hc.imp_left (hsub u i))
    (h₂₃.mono fun u i _ hc => hc.imp_left (hsub u i))

/-! ## The condition -/

/-- The action has last yielded sleep and has not been resumed since. -/
def HasSlept (m : Machine) (a : ℕ) : Prop :=
  a ∉ runningActions m.frames ∧ ∃ action ∈ m.sched.actions.lookup a, action.coroutine.reason = .sleep

/-- **The condition**: a cycle that begins with sleepers is no nested one, and nothing is active or
waiting; a timeout expires only when nobody sleeps, and in a nested cycle not that of a sleeper;
a sleeper is unpaused in a cycle only when it is paused; and an action that yields sleep is in no
other place from which it could be woken. -/
def SleepsOnce (m : Machine) : Input → Prop
  | .operation .cycle => m.sched.getSleeping = [] ∨
      m.frames = [] ∧ m.sched.getActive = [] ∧ m.sched.getWaiting = []
  | .operation (.unpause ref) => m.frames ≠ [] → ∀ a ∈ m.sched.find ref, m.HasSlept a →
      ¬ m.sched.Absent a (.list .paused)
  | .yield .sleep _ => ∀ a ∈ (runningActions m.frames).head?,
      m.sched.Absent a (.list m.sched.sleepState.getActive) ∧
      m.sched.Absent a (.list m.sched.sleepState.getWaiting) ∧
      m.sched.Absent a (.list .paused) ∧ ∀ k, m.sched.Absent a (.events k)
  | .tick now => m.frames.head? = some (.cycle .timeouts) →
      ∀ e ∈ m.sched.timeouts.head?, e.key ≤ now →
        m.sched.getSleeping = [] ∧ (m.frames.tail ≠ [] → ¬ m.HasSlept e.val)
  | _ => True

instance (m : Machine) (a : ℕ) : Decidable (m.HasSlept a) :=
  inferInstanceAs (Decidable (_ ∧ ∃ action ∈ m.sched.actions.lookup a,
    action.coroutine.reason = .sleep))

instance (m : Machine) (i : Input) : Decidable (m.SleepsOnce i) := by
  refine i.casesOn (fun op => op.casesOn ?_ ?_ ?_ ?_ ?_ ?_ ?_ ?_)
    (fun reason => reason.casesOn ?_ ?_ ?_ ?_ ?_ ?_ ?_ ?_) ?_ ?_ <;> intros <;>
    dsimp only [SleepsOnce] <;> infer_instance

/-- **The condition** on a step of a run: it lets a sleep last one cycle, and commits no undefined
behaviour. -/
structure SleepsSafely (m : Machine) (i : Input) : Prop where
  sleeps : m.SleepsOnce i
  safe : m.StepSafe i

instance (m : Machine) (i : Input) : Decidable (m.SleepsSafely i) :=
  decidable_of_iff (m.SleepsOnce i ∧ m.StepSafe i) ⟨fun h => ⟨h.1, h.2⟩, fun h => ⟨h.1, h.2⟩⟩

section Sleeping
variable {m m' : Machine} {a n : ℕ} {L : ListId}

theorem resumes_iff {i : Input} :
    m.Resumes a i ↔ ∃ m', step m i = .ok m' ∧ m'.frames = .coroutine a :: m.frames := by
  unfold Resumes
  cases step m i <;> simp [Except.toOption]

/-- The nodes of an action in a list other than the paused one: what can become of them. -/
theorem Fate.list_kept {i : Input} (hf : Fate a m i m') (hL : L ≠ .paused)
    (hrun : a ∉ runningActions m.frames) (hstop : ¬ m.Stops a i) (hpause : ¬ m.Pauses a i)
    (hres : m'.frames ≠ .coroutine a :: m.frames) (hlt : a < m.sched.next)
    (hn : n ∈ m.sched.nodesOf a (.list L)) (hlive : m.sched.Live a) :
    n ∈ m'.sched.nodesOf a (.list L) ∧ m'.sched.Live a := by
  have hmem : ∀ {v w : View}, m.sched.view a = some v → m'.sched.view a = some w →
      (n ∈ v.nodes (.list L) → n ∈ w.nodes (.list L)) →
        n ∈ m'.sched.nodesOf a (.list L) ∧ m'.sched.Live a := by
    intro v w hv hw hvw
    rw [nodesOf_eq_of_view hw]
    rw [nodesOf_eq_of_view hv] at hn
    exact ⟨hvw hn, live_iff_view.mpr ⟨w, hw⟩⟩
  have hin : ∀ {frames : List Frame}, m.frames ≠ .coroutine a :: frames := by
    intro frames hfr
    rw [hfr] at hrun
    exact hrun List.mem_cons_self
  cases hf with
  | kept hk _ =>
    obtain ⟨v, hv⟩ := live_iff_view.mp hlive
    obtain ⟨w, hw, hl⟩ := hk.view v hv
    exact hmem hv hw fun hn => by rwa [hl.lists]
  | allocated hb | called hb => exact absurd hb hlt.ne
  | woken _ hv hv' => exact hmem hv hv' fun hn => by simp [hn]
  | paused hf => exact absurd hf hpause
  | unpaused _ hv hv' => exact hmem hv hv' fun hn => by simp [hn, hL]
  | due _ _ _ _ hv hv' => exact hmem hv hv' fun hn => by simp [hn]
  | resumed _ hfr' => exact absurd hfr' hres
  | stopped hi => exact absurd hi hstop
  | orphaned hfr | yieldedList hfr | yieldedEvents hfr | yieldedTimeout hfr | terminated hfr =>
    exact absurd hfr hin

/-! ## A sleeper is resumed in the next cycle -/

/-- The outermost cycle has begun, with the node of a sleeper. -/
structure AtStart (a n : ℕ) (m : Machine) : Prop where
  frames : m.frames = [.cycle .timeouts]
  active : m.sched.getActive = []
  waiting : m.sched.getWaiting = []
  live : m.sched.Live a
  node : n ∈ m.sched.nodesOf a (.list m.sched.sleepState.getSleeping)

/-- The node of the sleeper is in a list that the main loop of the outermost cycle empties. -/
structure Awaiting (a n : ℕ) (L : ListId) (m : Machine) : Prop where
  live : m.sched.Live a
  idle : a ∉ runningActions m.frames
  node : n ∈ m.sched.nodesOf a (.list L)
  awake : L ≠ m.sched.sleepState.getSleeping
  notPaused : L ≠ .paused
  last : m.frames.getLast? = some (.cycle .running)

theorem Awaiting.nonempty (h : Awaiting a n L m) :
    ¬ (m.sched.getActive = [] ∧ m.sched.getWaiting = []) := by
  rintro ⟨hactive, hwaiting⟩
  obtain ⟨e, he, _⟩ := mem_held_list.mp h.node
  rcases m.sched.sleepState.role_cases L h.notPaused with rfl | rfl | rfl
  · exact List.not_mem_nil (hactive ▸ he : e ∈ [])
  · exact List.not_mem_nil (hwaiting ▸ he : e ∈ [])
  · exact h.awake rfl

theorem last_cons {frames : List Frame} {g : Frame} (h : frames.getLast? = some g) (f : Frame) :
    (f :: frames).getLast? = some g := by
  rw [List.getLast?_cons, h]
  rfl

theorem last_of_cons {frames : List Frame} {f g : Frame} (h : (f :: frames).getLast? = some g)
    (hf : f ≠ g) : frames.getLast? = some g := by
  rw [List.getLast?_cons] at h
  cases hl : frames.getLast? with
  | none =>
    rw [hl] at h
    exact absurd (by simpa using h) hf
  | some k =>
    rw [hl] at h
    exact h

/-- **One step** before the sleeper is resumed. -/
theorem awaiting_step (hw : m.Wf) (h : Awaiting a n L m) {i : Input} (hstop : ¬ m.Stops a i)
    (hpause : ¬ m.Pauses a i) (hres : ¬ m.Resumes a i) (hs : step m i = .ok m') :
    Awaiting a n L m' := by
  have hres' : m'.frames ≠ .coroutine a :: m.frames := fun hfr =>
    hres (resumes_iff.mpr ⟨m', hs, hfr⟩)
  obtain ⟨hnode, hlive⟩ := (fate_of_step hw hs a).list_kept h.notPaused h.idle hstop hpause
    hres' (hw.sched.live_lt a h.live) h.node h.live
  refine ⟨hlive, (hw.transition hs).frameStep.idle h.idle hres', hnode, ?_, h.notPaused, ?_⟩
  · cases (hw.transition hs).roleStep hw with
    | same hst =>
      rw [hst]
      exact h.awake
    | swapSleep hst _ hactive hwaiting => exact absurd ⟨hactive, hwaiting⟩ h.nonempty
    | swapWait hst =>
      rw [hst, SleepSwapState.swapActiveWait_getSleeping]
      exact h.awake
  · have hlast := h.last
    cases (hw.transition hs).frameStep with
    | same hfr => rwa [hfr]
    | push f hfr _ => exact hfr ▸ last_cons hlast f
    | pop f hfr hr _ => exact last_of_cons (hfr ▸ hlast) hr
    | start frames hfr hfr' => exact hfr' ▸ last_cons (last_of_cons (hfr ▸ hlast) (by simp)) _
    | ending frames _ _ hactive hwaiting => exact absurd ⟨hactive, hwaiting⟩ h.nonempty
    | terminate b _ _ frames hfr hfr' =>
      exact hfr' ▸ last_cons (last_of_cons (hfr ▸ hlast) (by simp)) _

/-- The first step of the cycle is the swap of roles. -/
theorem atStart_step (hw : m.Wf) (h : AtStart a n m) {i : Input} (hc : m.SleepsOnce i)
    (hs : step m i = .ok m') : Awaiting a n m.sched.sleepState.getSleeping m' := by
  have hne : m.sched.getSleeping ≠ [] := by
    obtain ⟨e, he, _⟩ := mem_held_list.mp h.node
    exact List.ne_nil_of_mem he
  have htop : ∀ {f : Frame} {frames}, m.frames = f :: frames → f = .cycle .timeouts ∧ frames = [] := by
    intro f frames hfr
    rw [h.frames] at hfr
    cases hfr
    exact ⟨rfl, rfl⟩
  have hu : userTop m.frames = true → False := by
    rw [h.frames]
    intro hu
    cases hu
  cases hw.transition hs with
  | idle hu' | allocated hu' | call hu' | signal hu' | stop hu' | stopperStopped hu' | pause hu'
  | unpause hu' | cycle hu' => exact absurd hu' (fun hu' => hu hu')
  | orphan hfr | yieldWait hfr | yieldSleep hfr | yieldEvents hfr | yieldTimeout hfr
  | yieldTerminated hfr | retStopper hfr | retTerminated hfr | toEnding hfr | resume hfr
  | returns hfr | neverCame hfr => cases (htop hfr).1
  | due hfr ht hk =>
    refine absurd (hc (by rw [hfr]; rfl) _ ?_ hk).1 hne
    rw [ht]
    rfl
  | startSwap hfr hdue hactive hwaiting =>
    obtain ⟨_, rfl⟩ := htop hfr
    exact
      { live := h.live
        idle := List.not_mem_nil
        node := h.node
        awake := by
          change m.sched.sleepState.getSleeping ≠ m.sched.sleepState.swapActiveSleep.getSleeping
          rw [SleepSwapState.swapActiveSleep_getSleeping]
          exact m.sched.sleepState.getActive_ne_getSleeping.symm
        notPaused := m.sched.sleepState.getSleeping_ne_paused
        last := rfl }
  | start hfr hdue hne => exact absurd ⟨h.active, h.waiting⟩ hne

/-- **Resumed in the next cycle.** -/
theorem resumedInCycle {m₀ : Machine} (hw : m₀.Wf) : ResumedInCycle SleepsOnce a m₀ := by
  intro m₁ m₂ hlive hsleep hc hcycle hr
  obtain ⟨n, hn⟩ : ∃ n, n ∈ m₀.sched.nodesOf a (.list m₀.sched.sleepState.getSleeping) := by
    rw [← nodesOf_eq_empty, Set.eq_empty_iff_forall_notMem, not_forall] at hsleep
    obtain ⟨n, hn⟩ := hsleep
    exact ⟨n, not_not.mp hn⟩
  have hne : m₀.sched.getSleeping ≠ [] := by
    obtain ⟨e, he, _⟩ := mem_held_list.mp hn
    exact List.ne_nil_of_mem he
  obtain ⟨hfr, hactive, hwaiting⟩ := hc.resolve_left hne
  have hm₁ : m₁ = ⟨m₀.sched, [.cycle .timeouts]⟩ := by
    cases hw.transition hcycle with
    | idle hu hop => exact absurd hop id
    | cycle hu => rw [hfr]
  have hstart : AtStart a n m₁ := by
    subst hm₁
    exact ⟨rfl, hactive, hwaiting, hlive, hn⟩
  have hinv : AtStart a n m₂ ∨ Awaiting a n m₀.sched.sleepState.getSleeping m₂ := by
    have hw₁ : m₁.Wf := hw.step hcycle
    have hst : m₁.sched.sleepState = m₀.sched.sleepState := by rw [hm₁]
    have := hr.invariant_with Wf
      (fun m => (AtStart a n m ∧ m = m₁) ∨ Awaiting a n m₀.sched.sleepState.getSleeping m)
      (fun u hu => hu.invariant Wf hw₁ fun _ _ _ hw _ hs => hw.step hs) (.inl ⟨hstart, rfl⟩)
      fun u i t hw hI ⟨hc, hstop, hpause, hres, _⟩ hs => by
        rcases hI with ⟨hI, rfl⟩ | hI
        · exact .inr (hst ▸ atStart_step hw hI hc hs)
        · exact .inr (awaiting_step hw hI hstop hpause hres hs)
    exact this.imp_left And.left
  rw [hfr]
  rcases hinv with h | h
  · rw [h.frames]
    exact Nat.one_pos
  · refine List.length_pos_iff.mpr fun hnil => ?_
    have := h.last
    rw [hnil] at this
    cases this

/-! ## A sleeper is not resumed in the same cycle -/

/-- The action has yielded sleep in a cycle that is still in progress. -/
structure Sleeper (a : ℕ) (m : Machine) : Prop where
  lt : a < m.sched.next
  idle : a ∉ runningActions m.frames
  slept : ∀ action, m.sched.actions.lookup a = some action → action.coroutine.reason = .sleep
  regs : ∀ k, m.sched.Absent a (.events k)
  active : m.sched.Absent a (.list m.sched.sleepState.getActive)
  waiting : m.sched.Absent a (.list m.sched.sleepState.getWaiting)
  inner : .cycle .timeouts ∉ m.frames.tail ∧ m.frames ≠ [.cycle .timeouts]
  alone : m.frames.head? = some (.cycle .timeouts) → m.sched.getSleeping = []

theorem Sleeper.not_resumed (hw : m.Wf) (h : Sleeper a m) (i : Input) : ¬ m.Resumes a i := by
  rw [resumes_iff]
  rintro ⟨m', hs, hfr⟩
  obtain ⟨v, n, hn, hv, _⟩ := resumed_of_pushed hw hs hfr
  rw [← nodesOf_eq_of_view hv] at hn
  unfold nextList at hn
  split at hn
  · exact h.waiting (n, a) hn rfl
  · exact h.active (n, a) hn rfl

theorem Sleeper.hasSlept (h : Sleeper a m) {action : ActiveAction}
    (ha : m.sched.actions.lookup a = some action) : m.HasSlept a :=
  ⟨h.idle, action, ha, h.slept action ha⟩

/-- What a sleeper has in the containers only gets less. -/
theorem Sleeper.shrinks {i : Input} (h : Sleeper a m) (hf : Fate a m i m')
    (hunpause : ¬ m.Unpauses a i) (hdue : ∀ now frames e rest, i = .tick now →
      m.frames = .cycle .timeouts :: frames → m.sched.timeouts = e :: rest → e.key ≤ now →
      m.sched.Live a → e.val ≠ a)
    (hres : m'.frames ≠ .coroutine a :: m.frames) (p : Place)
    (hp : p = .list .paused → ¬ m.Pauses a i) : m'.sched.nodesOf a p ⊆ m.sched.nodesOf a p := by
  have hin : ∀ {frames : List Frame}, m.frames ≠ .coroutine a :: frames := by
    intro frames hfr
    have := h.idle
    rw [hfr] at this
    exact this List.mem_cons_self
  have hregs : ∀ {v : View}, m.sched.view a = some v → ¬ ∃ k, (v.nodes (.events k)).Nonempty := by
    rintro v hv ⟨k, n, hn⟩
    rw [← nodesOf_eq_of_view hv] at hn
    exact h.regs k (n, a) hn rfl
  cases hf with
  | kept hk _ => exact hk.nodes p
  | allocated hb | called hb => exact absurd hb h.lt.ne
  | woken hreg hv => exact absurd hreg (hregs hv)
  | paused hf hv hv' =>
    have hne : p ≠ .list .paused := fun heq => hp heq hf
    rw [nodesOf_eq_of_view hv, nodesOf_eq_of_view hv']
    intro n hn
    simp only [View.mem_put, View.mem_deregister, View.mem_leave, hne, false_and, or_false] at hn
    exact hn.1.1
  | unpaused hf => exact absurd hf hunpause
  | due hfr ht hk he hv => exact absurd he (hdue _ _ _ _ rfl hfr ht hk (live_iff_view.mpr ⟨_, hv⟩))
  | resumed _ hfr' => exact absurd hfr' hres
  | orphaned hfr | yieldedList hfr | yieldedEvents hfr | yieldedTimeout hfr | terminated hfr =>
    exact absurd hfr hin
  | stopped hi ha hv hw hgone hn =>
    rcases hw with hw | ⟨⟨⟨k, e, he, hev, _⟩, _⟩, _⟩
    · rw [hn, nodesOf_eq_of_view hv]
      intro n hmem
      simp only [View.mem_deregister, View.mem_leave] at hmem
      exact hw.subset p hmem.1.1
    · exact absurd hev (h.regs k (pair e) (List.mem_map_of_mem he))

/-- An expired timeout puts nobody to sleep. -/
theorem getSleeping_of_due {s s₁ s' : BasicScheduler} (hr : s.timeoutRemove n = .ok s₁)
    
    (hs : s₁.listInsert s.sleepState.getActive s.sleepState.getActive n = .ok s') :
    s'.getSleeping = s.getSleeping := by
  have hst : s'.sleepState = s.sleepState :=
    ((evolves_timeoutRemove hr).trans (evolves_listInsert hs)).sleepState
  have hlists : s₁.lists = s.lists := by
    obtain ⟨_, _, ⟨_, rfl⟩ | ⟨_, _, _, rfl⟩⟩ := timeoutRemove_ok.mp hr <;> rfl
  obtain ⟨_, _, rfl⟩ := listInsert_ok.mp hs
  unfold getSleeping
  rw [hst, ← hlists]
  exact Function.update_of_ne s.sleepState.getActive_ne_getSleeping.symm _ _

/-- Whenever timeouts are looked at, nobody sleeps. -/
theorem Sleeper.alone_step (hw : m.Wf) (h : Sleeper a m) {i : Input} (hc : m.SleepsOnce i)
    (hne : m.frames ≠ []) (hs : step m i = .ok m')
    (htop : m'.frames.head? = some (.cycle .timeouts)) : m'.sched.getSleeping = [] := by
  have hinner : ∀ {f : Frame} {frames : List Frame}, m.frames = f :: frames →
      frames.head? ≠ some (.cycle .timeouts) := by
    intro f frames hfr hhead
    have := h.inner.1
    rw [hfr] at this
    exact this (List.mem_of_mem_head? hhead)
  cases hw.transition hs with
  | idle hu | allocated hu | call hu | signal hu | stopperStopped hu | pause hu | unpause hu =>
    exact absurd htop (head_of_userTop hu _)
  | stop => cases htop
  | cycle => exact hc.resolve_right fun hnil => hne hnil.1
  | orphan hfr | yieldWait hfr | yieldSleep hfr | yieldEvents hfr | yieldTimeout hfr
  | retStopper hfr | retTerminated hfr | returns hfr => exact absurd htop (hinner hfr)
  | yieldTerminated | startSwap | start | toEnding | resume | neverCame => cases htop
  | due hfr ht hk hr hins =>
    rw [getSleeping_of_due hr hins]
    exact h.alone (by rw [hfr]; rfl)

/-- **One step** in which a sleeper is not unpaused. -/
theorem sleeper_step (hw : m.Wf) (h : Sleeper a m) {i : Input} (hc : m.SleepsOnce i)
    (hunpause : ¬ m.Unpauses a i) (hne : m.frames ≠ []) (hs : step m i = .ok m') :
    Sleeper a m' ∧ (¬ m.Pauses a i → m.sched.Absent a (.list .paused) →
      m'.sched.Absent a (.list .paused)) := by
  have ht := hw.transition hs
  have hres : m'.frames ≠ .coroutine a :: m.frames := fun hfr =>
    h.not_resumed hw i (resumes_iff.mpr ⟨m', hs, hfr⟩)
  have hshrinks := h.shrinks (fate_of_step hw hs a) hunpause (fun now frames e rest hi hfr hts hk
      hlive he => by
    subst hi
    obtain ⟨action, ha⟩ := live_iff.mp hlive
    refine (hc (by rw [hfr]; rfl) e (by rw [hts]; rfl) hk).2 ?_ (he ▸ h.hasSlept ha)
    rw [hfr, List.tail_cons]
    exact fun hnil => h.inner.2 (by rw [hfr, hnil])) hres
  have habsent : ∀ p, p ≠ .list .paused → m.sched.Absent a p → m'.sched.Absent a p := by
    intro p hp hempty
    rw [← nodesOf_eq_empty] at hempty ⊢
    exact Set.subset_eq_empty (hshrinks p fun heq => absurd heq hp) hempty
  have hlist : ∀ l, l ≠ .paused → m.sched.Absent a (.list l) → m'.sched.Absent a (.list l) :=
    fun l hl => habsent _ fun heq => hl (Place.list.inj heq)
  refine ⟨⟨h.lt.trans_le (ht.next_le hw), ht.frameStep.idle h.idle hres, ?_,
    fun k => habsent _ (by simp) (h.regs k), ?_, ?_, ?_, h.alone_step hw hc hne hs⟩, ?_⟩
  · intro action' ha'
    cases ht.reason hw ha' with
    | fresh _ hb => exact absurd (hb.resolve_right hres) h.lt.not_ge
    | kept ha hr => exact hr ▸ h.slept _ ha
    | yielded hy =>
      obtain ⟨_, frames, hfr⟩ := hy
      have := h.idle
      rw [hfr] at this
      exact absurd List.mem_cons_self this
  · cases ht.roleStep hw with
    | same hst =>
      rw [hst]
      exact hlist _ (SleepSwapState.getActive_ne_paused _) h.active
    | swapSleep hst hfr =>
      rw [hst, SleepSwapState.swapActiveSleep_getActive]
      refine hlist _ (SleepSwapState.getSleeping_ne_paused _) fun x hx => ?_
      have : x ∈ m.sched.getSleeping.map pair := hx
      rw [h.alone hfr] at this
      exact absurd this List.not_mem_nil
    | swapWait hst =>
      rw [hst, SleepSwapState.swapActiveWait_getActive]
      exact hlist _ (SleepSwapState.getWaiting_ne_paused _) h.waiting
  · cases ht.roleStep hw with
    | same hst =>
      rw [hst]
      exact hlist _ (SleepSwapState.getWaiting_ne_paused _) h.waiting
    | swapSleep hst hfr =>
      rw [hst, SleepSwapState.swapActiveSleep_getWaiting]
      exact hlist _ (SleepSwapState.getWaiting_ne_paused _) h.waiting
    | swapWait hst =>
      rw [hst, SleepSwapState.swapActiveWait_getWaiting]
      exact hlist _ (SleepSwapState.getActive_ne_paused _) h.active
  · refine ⟨ht.frameStep.timeouts_on_top h.inner.1, fun heq => ?_⟩
    cases ht.frameStep with
    | same hfr => exact h.inner.2 (hfr ▸ heq)
    | push f hfr _ =>
      rw [hfr] at heq
      exact hne (List.cons.inj heq).2
    | pop f hfr _ _ =>
      refine h.inner.1 ?_
      rw [hfr, heq]
      exact List.mem_singleton_self _
    | start frames hfr hfr' | ending frames hfr hfr' | terminate b _ _ frames hfr hfr' =>
      rw [hfr'] at heq
      cases heq
  · intro hpause hempty
    rw [← nodesOf_eq_empty] at hempty ⊢
    exact Set.subset_eq_empty (hshrinks _ fun _ => hpause) hempty

/-- An action that has just yielded sleep. -/
theorem sleeper_of_yield {done : Bool} (hw : m.Wf) (htop : .cycle .timeouts ∉ m.frames.tail)
    (hfr : m.frames = .coroutine a :: m'.frames) (hc : m.SleepsOnce (.yield .sleep done))
    (hs : step m (.yield .sleep done) = .ok m') :
    Sleeper a m' ∧ m'.sched.Absent a (.list .paused) := by
  have ht := hw.transition hs
  have hin : a ∈ runningActions m.frames := hfr ▸ List.mem_cons_self
  have hres : m'.frames ≠ .coroutine a :: m.frames := fun heq => by
    have := congrArg List.length (heq ▸ hfr)
    simp only [List.length_cons] at this
    omega
  obtain ⟨hactive, hwaiting, hpaused, hevents⟩ := hc a (by rw [hfr]; rfl)
  have hsub : ∀ p, p ≠ .list m.sched.sleepState.getSleeping →
      m'.sched.nodesOf a p ⊆ m.sched.nodesOf a p := by
    intro p hp
    generalize hi : Input.yield .sleep done = i at hs
    cases fate_of_step hw hs a with
    | kept hk | orphaned _ _ hk => exact hk.nodes p
    | allocated | called | paused | unpaused | due | resumed | yieldedTimeout | terminated =>
      cases hi
    | woken hreg hv =>
      obtain ⟨k, n, hn⟩ := hreg
      rw [← nodesOf_eq_of_view hv] at hn
      exact absurd rfl (hevents k (n, a) hn)
    | yieldedList _ _ hl hv hv' =>
      cases hi
      obtain ⟨hr, _⟩ | ⟨_, rfl⟩ := hl
      · cases hr
      · rw [nodesOf_eq_of_view hv, nodesOf_eq_of_view hv']
        intro n hn
        rw [View.mem_put] at hn
        exact hn.resolve_right fun h => hp h.1
    | yieldedEvents _ _ hr =>
      cases hi
      cases hr
    | stopped hstops =>
      subst hi
      exact hstops.elim
  have habsent : ∀ p, p ≠ .list m.sched.sleepState.getSleeping → m.sched.Absent a p →
      m'.sched.Absent a p := by
    intro p hp hempty
    rw [← nodesOf_eq_empty] at hempty ⊢
    exact Set.subset_eq_empty (hsub p hp) hempty
  have hlist : ∀ l, l ≠ m.sched.sleepState.getSleeping → m.sched.Absent a (.list l) →
      m'.sched.Absent a (.list l) :=
    fun l hl => habsent _ fun heq => hl (Place.list.inj heq)
  have hst : m'.sched.sleepState = m.sched.sleepState := by
    generalize hi : Input.yield .sleep done = i at ht
    cases ht.roleStep hw with
    | same hst => exact hst
    | swapSleep _ htop | swapWait _ htop =>
      rw [hfr] at htop
      cases htop
  rw [hfr, List.tail_cons] at htop
  have hnil : m'.frames ≠ [.cycle .timeouts] := fun heq => htop (heq ▸ List.mem_singleton_self _)
  refine ⟨⟨(hw.frames_lt a hin).trans_le (ht.next_le hw), ?_, ?_,
    fun k => habsent _ (by simp) (hevents k), ?_, ?_,
    ⟨fun hmem => htop (List.mem_of_mem_tail hmem), hnil⟩,
    fun hhead => absurd (List.mem_of_mem_head? hhead) htop⟩, ?_⟩
  · have := hw.nodup
    rw [hfr, runningActions_coroutine, List.nodup_cons] at this
    exact this.1
  · intro action' ha'
    generalize hi : Input.yield .sleep done = i at ht
    cases ht.reason hw ha' with
    | fresh _ hb => exact absurd (hb.resolve_right hres) (hw.frames_lt a hin).not_ge
    | kept _ _ hno => exact absurd ⟨⟨done, hi.symm⟩, _, hfr⟩ (hno .sleep)
    | yielded hy =>
      obtain ⟨⟨_, hy⟩, _⟩ := hy
      rw [← hi] at hy
      exact (Input.yield.inj hy).1.symm
  · rw [hst]
    exact hlist _ (SleepSwapState.getActive_ne_getSleeping _) hactive
  · rw [hst]
    exact hlist _ (SleepSwapState.getWaiting_ne_getSleeping _) hwaiting
  · exact hlist _ (SleepSwapState.getSleeping_ne_paused _).symm hpaused

/-- **Not resumed again in the same cycle.** -/
theorem notResumedAgain {m₀ : Machine} (hw : m₀.Wf) (htop : .cycle .timeouts ∉ m₀.frames.tail) :
    NotResumedAgain SleepsOnce a m₀ := by
  intro done m₁ m₂ m₃ hfr hc hs h₁₂ h₂₃ i
  have hbase := sleeper_of_yield hw htop hfr hc hs
  have hw₁ := hw.step hs
  have hw_of : ∀ {Q : Machine → Input → Machine → Prop} {u v : Machine}, u.Wf → Steps step Q u v →
      v.Wf := fun hu h => h.invariant Wf hu fun _ _ _ hw _ hs => hw.step hs
  have h₂ : Sleeper a m₂ ∧ m₂.sched.Absent a (.list .paused) := by
    refine h₁₂.invariant_with Wf (fun m => Sleeper a m ∧ m.sched.Absent a (.list .paused))
      (fun u hu => hw_of hw₁ hu) hbase fun u i t hw ⟨hI, hempty⟩ ⟨hc, hpause, hne⟩ hs => ?_
    have hunpause : ¬ u.Unpauses a i := by
      intro hunp
      unfold Unpauses at hunp
      split at hunp
      · rename_i ref
        obtain ⟨action, ha, _⟩ := find_eq_some hunp
        exact hc hne a hunp (hI.hasSlept ha) hempty
      · exact hunp
    obtain ⟨hI', hempty'⟩ := sleeper_step hw hI hc hunpause hne hs
    exact ⟨hI', hempty' hpause hempty⟩
  have h₃ : Sleeper a m₃ :=
    h₂₃.invariant_with Wf (Sleeper a) (fun u hu => hw_of (hw_of hw₁ h₁₂) hu) h₂.1
      fun u i t hw hI ⟨hc, hunpause, hne⟩ hs => (sleeper_step hw hI hc hunpause hne hs).1
  exact h₃.not_resumed (hw_of (hw_of hw₁ h₁₂) h₂₃) i

end Sleeping

end Machine
end EgLang.Scheduler
