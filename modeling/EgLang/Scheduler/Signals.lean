import EgLang.Scheduler.Delivery

/-! # The compound operations

`signal`, and the first half of `stop`, deliver an event to the waiting map and then to the
sleeping one; `Signalled` is what the two deliveries have in common with their composition.
`Withdrawn` is the second half of `stop` and the first of `pause`: one action leaves the lists and
the event maps. Each comes with the condition under which it runs without undefined behaviour.
-/

namespace EgLang.Scheduler
open Library
set_option autoImplicit false

namespace BasicScheduler

/-! ## What no operation changes -/

/-- The data of an action that no operation on the containers touches. -/
structure SameAction (action action' : ActiveAction) : Prop where
  ref : action'.ref = action.ref
  pStopper : action'.pStopper = action.pStopper
  op : action'.op = action.op
  coroutine : action'.coroutine = action.coroutine
  bWaitAny : action'.bWaitAny = action.bWaitAny
  iterTimeout : action'.iterTimeout = action.iterTimeout

theorem SameAction.trans {action action' action'' : ActiveAction} (h : SameAction action action')
    (h' : SameAction action' action'') : SameAction action action'' :=
  ⟨h'.ref.trans h.ref, h'.pStopper.trans h.pStopper, h'.op.trans h.op,
    h'.coroutine.trans h.coroutine, h'.bWaitAny.trans h.bWaitAny,
    h'.iterTimeout.trans h.iterTimeout⟩

/-! ## Signals -/

/-- The reference wakes the action: it is registered on it, and waits for any event or is
registered on no other. -/
def Wakes (s : BasicScheduler) (ref : Reference) (a : ℕ) : Prop :=
  (∃ m, ∃ e ∈ s.events m, e.val = a ∧ e.key = ref) ∧
    ∃ action, s.actions.lookup a = some action ∧
      (action.bWaitAny = true ∨ ∀ m, ∀ e ∈ s.events m, e.val = a → e.key = ref)

instance (s : BasicScheduler) (ref : Reference) (a : ℕ) : Decidable (s.Wakes ref a) :=
  decidable_of_iff ((∃ m, ∃ e ∈ s.events m, e.val = a ∧ e.key = ref) ∧
    ∃ action ∈ s.actions.lookup a,
      (action.bWaitAny = true ∨ ∀ m, ∀ e ∈ s.events m, e.val = a → e.key = ref)) Iff.rfl

/-- Events on `ref` have been delivered, to one map or to both: the actions of `new` are woken. -/
structure Signalled (ref : Reference) (s s' : BasicScheduler) (new : List (Entry Unit ℕ)) :
    Prop where
  timeouts : s'.timeouts = s.timeouts
  currentAction : s'.currentAction = s.currentAction
  sleepState : s'.sleepState = s.sleepState
  otherLists : ∀ l, l ≠ s.sleepState.getActive → s'.lists l = s.lists l
  active : s'.lists s.sleepState.getActive = s.lists s.sleepState.getActive ++ new
  new_fresh : ∀ e ∈ new, s.next ≤ e.node
  next_le : s.next ≤ s'.next
  woken_nodup : (new.map Entry.val).Nodup
  wakes : ∀ a ∈ new.map Entry.val, s.Wakes ref a
  events_sub : ∀ m e, e ∈ s'.events m → e ∈ s.events m ∧ e.val ∉ new.map Entry.val
  events_kept : ∀ m e, e ∈ s.events m → e.val ∉ new.map Entry.val → e.key ≠ ref →
    e ∈ s'.events m
  events_left : ∀ a, s.Live a → a ∉ new.map Entry.val → (∃ m, ∃ e ∈ s.events m, e.val = a) →
    ∃ m, ∃ e ∈ s'.events m, e.val = a
  dead : ∀ a, s.actions.lookup a = none → s'.actions.lookup a = none
  lookup : ∀ a action, s.actions.lookup a = some action →
    ∃ action', s'.actions.lookup a = some action' ∧ SameAction action action' ∧
      (a ∉ new.map Entry.val → action'.iterList = action.iterList) ∧
      (a ∈ new.map Entry.val → ∃ n, (⟨n, (), a⟩ : Entry Unit ℕ) ∈ new ∧
        action'.iterList = Function.update action.iterList s.sleepState.getActive (some n))

section Signals
variable {ref : Reference} {s s' s'' : BasicScheduler} {new new' : List (Entry Unit ℕ)}

theorem Signalled.live_iff (h : Signalled ref s s' new) (a : ℕ) : s'.Live a ↔ s.Live a := by
  rw [BasicScheduler.live_iff, BasicScheduler.live_iff]
  constructor
  · rintro ⟨action', ha⟩
    cases hs : s.actions.lookup a with
    | none => rw [h.dead a hs] at ha; cases ha
    | some action => exact ⟨action, rfl⟩
  · rintro ⟨action, ha⟩
    obtain ⟨action', ha', _⟩ := h.lookup a action ha
    exact ⟨action', ha'⟩

theorem Delivered.signalled {m : MapId} (h : s.Wf) (h' : s'.Wf)
    (hd : Delivered m ref s s' new) : Signalled ref s s' new where
  timeouts := hd.timeouts
  currentAction := hd.currentAction
  sleepState := hd.sleepState
  otherLists := hd.otherLists
  active := hd.active
  new_fresh := fun e he => (hd.new_nodes e he).1
  next_le := hd.next_le
  woken_nodup := hd.woken_nodup
  wakes := fun a ha => by
    obtain ⟨⟨e, he, hea⟩, action, hl, hor⟩ := (hd.woken a).mp ha
    obtain ⟨hem, hek⟩ := List.mem_filter.mp he
    refine ⟨⟨m, e, hem, hea, by simpa using hek⟩, action, hl, hor.imp_right fun hall m' f hf hfa => ?_⟩
    have hfv : f.node ∈ action.iterEventRef := by
      subst hfa
      exact h.reg_mem hf hl
    obtain ⟨g, hg, hgf⟩ := NodeList.mem_nodes.mp (hall _ hfv)
    obtain ⟨hgm, hgk⟩ := List.mem_filter.mp hg
    have hx : (f.node, f.val) ∈ s.held (.events m') := mem_held_events.mpr ⟨f, hf, rfl, rfl⟩
    have hy : (g.node, g.val) ∈ s.held (.events m) := mem_held_events.mpr ⟨g, hgm, rfl, rfl⟩
    have hmm : m' = m := by simpa using h.containers.unique _ _ _ _ hx hy hgf.symm
    subst hmm
    have hn : (NodeList.nodes (s.events m')).Nodup := fst_held_events s m' ▸ h.containers.nodup _
    rw [NodeList.eq_of_node_eq hn hf hgm hgf.symm]
    simpa using hgk
  events_sub := fun m' e he => by
    by_cases hm : m' = m
    · subst hm
      rw [hd.events] at he
      obtain ⟨he, hk⟩ := List.mem_filter.mp he
      rw [decide_eq_true_eq] at hk
      exact ⟨he, hk.2⟩
    · refine ⟨hd.otherEvents m' hm ▸ he, fun hw => ?_⟩
      -- a woken action is left without registrations
      obtain ⟨_, action, hl, _⟩ := (hd.woken _).mp hw
      obtain ⟨n, _, hl'⟩ := hd.awake _ action hl hw
      have := h'.reg_mem he hl'
      simp [BasicScheduler.awake] at this
  events_kept := fun m' e he hw hk => by
    by_cases hm : m' = m
    · subst hm
      rw [hd.events]
      exact List.mem_filter.mpr ⟨he, by simpa using ⟨hk, by simpa using hw⟩⟩
    · rwa [hd.otherEvents m' hm]
  events_left := fun a hlive hw hex => by
    have hstay : ∀ m' e, e ∈ s.events m' → e.val = a → (m' = m → e.key ≠ ref) →
        ∃ m, ∃ e ∈ s'.events m, e.val = a := fun m' e he hea hk => by
      by_cases hm : m' = m
      · subst hm
        refine ⟨m', e, ?_, hea⟩
        rw [hd.events]
        exact List.mem_filter.mpr ⟨he, by simpa using ⟨hk rfl, by simpa [hea] using hw⟩⟩
      · exact ⟨m', e, by rwa [hd.otherEvents m' hm], hea⟩
    by_cases hreg : ∃ e ∈ s.registrations m ref, e.val = a
    · obtain ⟨action, hl⟩ := BasicScheduler.live_iff.mp hlive
      have hnot : ¬ s.WokenBy (s.registrations m ref) a := fun hwo => hw ((hd.woken a).mpr hwo)
      have hex' : ∃ n ∈ action.iterEventRef, n ∉ NodeList.nodes (s.registrations m ref) := by
        by_contra hall
        push Not at hall
        exact hnot ⟨hreg, action, hl, .inr hall⟩
      obtain ⟨n, hn, hnR⟩ := hex'
      obtain ⟨m', hm'⟩ := ((h.actions a action hl).regs n).mp hn
      obtain ⟨e, he, rfl, rfl⟩ := mem_held_events.mp hm'
      refine hstay m' e he rfl fun hm hk => hnR ?_
      subst hm
      exact NodeList.node_mem_nodes (List.mem_filter.mpr ⟨he, by simpa using hk⟩)
    · obtain ⟨m', e, he, hea⟩ := hex
      refine hstay m' e he hea fun hm hk => hreg ⟨e, ?_, hea⟩
      subst hm
      exact List.mem_filter.mpr ⟨he, by simpa using hk⟩
  dead := hd.dead
  lookup := fun a action ha => by
    by_cases hw : a ∈ new.map Entry.val
    · obtain ⟨n, hn, hl⟩ := hd.awake a action ha hw
      exact ⟨_, hl, ⟨rfl, rfl, rfl, rfl, rfl, rfl⟩, fun hnot => absurd hw hnot,
        fun _ => ⟨n, hn, rfl⟩⟩
    · exact ⟨_, hd.asleep a action ha hw, ⟨rfl, rfl, rfl, rfl, rfl, rfl⟩, fun _ => rfl,
        fun hin => absurd hin hw⟩

theorem Signalled.trans (h₁ : Signalled ref s s' new) (h₂ : Signalled ref s' s'' new') :
    Signalled ref s s'' (new ++ new') := by
  have hact : s'.sleepState.getActive = s.sleepState.getActive := by rw [h₁.sleepState]
  have hmem : ∀ a, a ∈ (new ++ new').map Entry.val ↔
      a ∈ new.map Entry.val ∨ a ∈ new'.map Entry.val := fun a => by
    rw [List.map_append, List.mem_append]
  -- whoever is woken by the second delivery still had a registration after the first
  have hdisj : ∀ a ∈ new'.map Entry.val, a ∉ new.map Entry.val := by
    intro a ha
    obtain ⟨⟨m, e, he, rfl, _⟩, _⟩ := h₂.wakes a ha
    exact (h₁.events_sub m e he).2
  refine
    { timeouts := h₂.timeouts.trans h₁.timeouts
      currentAction := h₂.currentAction.trans h₁.currentAction
      sleepState := h₂.sleepState.trans h₁.sleepState
      otherLists := fun l hl => (h₂.otherLists l (hact ▸ hl)).trans (h₁.otherLists l hl)
      active := ?_
      new_fresh := fun e he => ?_
      next_le := h₁.next_le.trans h₂.next_le
      woken_nodup := ?_
      wakes := fun a ha => ?_
      events_sub := fun m e he => ?_
      events_kept := fun m e he hw hk => ?_
      events_left := fun a hlive hw hex => ?_
      dead := fun a ha => h₂.dead a (h₁.dead a ha)
      lookup := fun a action ha => ?_ }
  · have := h₂.active
    rw [hact, h₁.active, List.append_assoc] at this
    exact this
  · rcases List.mem_append.mp he with he | he
    · exact h₁.new_fresh e he
    · exact h₁.next_le.trans (h₂.new_fresh e he)
  · rw [List.map_append]
    exact h₁.woken_nodup.append h₂.woken_nodup fun a ha ha' => hdisj a ha' ha
  · rcases (hmem a).mp ha with ha | ha
    · exact h₁.wakes a ha
    · obtain ⟨⟨m, e, he, hea, hk⟩, action', hl', hor⟩ := h₂.wakes a ha
      have hw := hdisj a ha
      cases hl : s.actions.lookup a with
      | none => rw [h₁.dead a hl] at hl'; cases hl'
      | some action =>
        obtain ⟨action₁, hl₁, hsame, _⟩ := h₁.lookup a action hl
        rw [hl', Option.some.injEq] at hl₁
        subst hl₁
        refine ⟨⟨m, e, (h₁.events_sub m e he).1, hea, hk⟩, action, hl, ?_⟩
        rcases hor with hany | hall
        · exact .inl (hsame.bWaitAny ▸ hany)
        · refine .inr fun m' f hf hfa => ?_
          by_contra hfk
          exact hfk (hall m' f (h₁.events_kept m' f hf (hfa ▸ hw) hfk) hfa)
  · obtain ⟨he', hw'⟩ := h₂.events_sub m e he
    obtain ⟨he'', hw''⟩ := h₁.events_sub m e he'
    exact ⟨he'', fun hin => ((hmem _).mp hin).elim hw'' hw'⟩
  · rw [hmem, not_or] at hw
    exact h₂.events_kept m e (h₁.events_kept m e he hw.1 hk) hw.2 hk
  · rw [hmem, not_or] at hw
    exact h₂.events_left a ((h₁.live_iff a).mpr hlive) hw.2 (h₁.events_left a hlive hw.1 hex)
  · obtain ⟨action', hl', hsame, hout, hin⟩ := h₁.lookup a action ha
    obtain ⟨action'', hl'', hsame', hout', hin'⟩ := h₂.lookup a action' hl'
    refine ⟨action'', hl'', hsame.trans hsame', fun hw => ?_, fun hw => ?_⟩
    · rw [hmem, not_or] at hw
      exact (hout' hw.2).trans (hout hw.1)
    · by_cases hw' : a ∈ new'.map Entry.val
      · obtain ⟨n, hn, hl⟩ := hin' hw'
        refine ⟨n, List.mem_append_right _ hn, ?_⟩
        rw [hl, hout (hdisj a hw'), hact]
      · obtain ⟨n, hn, hl⟩ := hin (((hmem a).mp hw).resolve_right hw')
        exact ⟨n, List.mem_append_left _ hn, (hout' hw').trans hl⟩

/-- Events on `ref` have been delivered to both maps. -/
structure SignalledAll (ref : Reference) (s s' : BasicScheduler) (new : List (Entry Unit ℕ)) :
    Prop extends Signalled ref s s' new where
  woken : ∀ a, s.Wakes ref a → a ∈ new.map Entry.val
  events_gone : ∀ m, ∀ e ∈ s'.events m, e.key ≠ ref

/-- **What `signal` does.** -/
theorem Wf.signal (h : s.Wf) (hs : s.signal ref = .ok s') :
    s'.Wf ∧ ∃ new, SignalledAll ref s s' new := by
  rw [BasicScheduler.signal, except_bind_ok] at hs
  obtain ⟨s₁, hs₁, hs₂⟩ := hs
  have h₁ := h.onEvent hs₁
  have h₂ := h₁.onEvent hs₂
  obtain ⟨new, hd⟩ := h.onEvent_delivers hs₁
  obtain ⟨new', hd'⟩ := h₁.onEvent_delivers hs₂
  have hsig₁ := hd.signalled h h₁
  have hsig := hsig₁.trans (hd'.signalled h₁ h₂)
  have hgone : ∀ m, ∀ e ∈ s'.events m, e.key ≠ ref := by
    intro m e he
    cases m with
    | sleep =>
      rw [hd'.events] at he
      have := (List.mem_filter.mp he).2
      rw [decide_eq_true_eq] at this
      exact this.1
    | wait =>
      rw [hd'.otherEvents .wait (by decide), hd.events] at he
      have := (List.mem_filter.mp he).2
      rw [decide_eq_true_eq] at this
      exact this.1
  refine ⟨h₂, new ++ new', hsig, fun a ⟨⟨m, e, he, hea, hek⟩, action, ha, hor⟩ => ?_, hgone⟩
  have hmem : a ∈ (new ++ new').map Entry.val ↔
      a ∈ new.map Entry.val ∨ a ∈ new'.map Entry.val := by rw [List.map_append, List.mem_append]
  rcases hor with hany | hall
  · rw [hmem]
    by_cases hw : a ∈ new.map Entry.val
    · exact .inl hw
    · refine .inr ((hd'.woken a).mpr ?_)
      obtain ⟨action', ha', hsame, _⟩ := hsig₁.lookup a action ha
      cases m with
      | wait =>
        refine absurd ((hd.woken a).mpr ⟨⟨e, ?_, hea⟩, action, ha, .inl hany⟩) hw
        exact List.mem_filter.mpr ⟨he, by simpa using hek⟩
      | sleep =>
        rw [← hd.otherEvents .sleep (by decide)] at he
        exact ⟨⟨e, List.mem_filter.mpr ⟨he, by simpa using hek⟩, hea⟩, action', ha',
          .inl (hsame.bWaitAny ▸ hany)⟩
  · by_contra hw
    obtain ⟨m', f, hf, hfa⟩ := hsig.events_left a (BasicScheduler.live_iff.mpr ⟨_, ha⟩) hw
      ⟨m, e, he, hea⟩
    exact hgone m' f hf (hall m' f (hsig.events_sub m' f hf).1 hfa)

/-- The states in which a reference can be signalled. -/
def SignalSafe (s : BasicScheduler) (ref : Reference) : Prop :=
  s.DeliverSafe .wait ref ∧ s.DeliverSafe .sleep ref

/-- A delivery to one map does not get in the way of one to the other. -/
theorem Delivered.deliverSafe {m m' : MapId} (h : s.Wf) (h' : s'.Wf)
    (hd : Delivered m ref s s' new) (hm : m' ≠ m) (hsafe : s.DeliverSafe m' ref) :
    s'.DeliverSafe m' ref := by
  have hev := hd.otherEvents m' hm
  have hreg : s'.registrations m' ref = s.registrations m' ref := by
    rw [registrations, registrations, hev]
  have hsig := hd.signalled h h'
  refine ⟨fun e he => ?_, fun u hu hup action' ha' hany e he => ?_⟩
  · rw [hreg] at he
    obtain ⟨action, ha, hin⟩ := hsafe.owners e he
    obtain ⟨action', ha', hsame, _⟩ := hsig.lookup _ action ha
    refine ⟨action', ha', fun hany n hn => ?_⟩
    rw [hev]
    refine hin (hsame.bWaitAny ▸ hany) n ?_
    obtain ⟨m₁, hm₁⟩ := ((h'.actions _ _ ha').regs n).mp hn
    obtain ⟨f, hf, hfn, hfv⟩ := mem_held_events.mp hm₁
    exact ((h.actions _ _ ha).regs n).mpr
      ⟨m₁, mem_held_events.mpr ⟨f, (hsig.events_sub m₁ f hf).1, hfn, hfv⟩⟩
  · rw [hev] at hu hup
    rw [hreg] at he
    cases ha : s.actions.lookup u.val with
    | none => rw [hsig.dead _ ha] at ha'; cases ha'
    | some action =>
      obtain ⟨action₁, h₁, hsame, _⟩ := hsig.lookup _ action ha
      rw [ha', Option.some.injEq] at h₁
      subst h₁
      exact hsafe.upper u hu hup action ha (hsame.bWaitAny ▸ hany) e he

theorem Wf.signal_total (h : s.Wf) (hsafe : s.SignalSafe ref) : ∃ s', s.signal ref = .ok s' := by
  obtain ⟨s₁, hs₁⟩ := h.onEvent_ok_iff.mpr hsafe.1
  have h₁ := h.onEvent hs₁
  obtain ⟨new, hd⟩ := h.onEvent_delivers hs₁
  obtain ⟨s₂, hs₂⟩ := h₁.onEvent_ok_iff.mpr (hd.deliverSafe h h₁ (by decide) hsafe.2)
  exact ⟨s₂, except_bind_ok.mpr ⟨s₁, hs₁, hs₂⟩⟩

end Signals

/-! ## Withdrawals -/

section Withdrawals
variable {a : ℕ} {l : ListId} {s s' : BasicScheduler} {action : ActiveAction}

/-- The effect of `listRemove`, whether or not the action has an iterator into the list. -/
structure Removed (l : ListId) (a : ℕ) (action : ActiveAction) (s s' : BasicScheduler) : Prop where
  timeouts : s'.timeouts = s.timeouts
  events : s'.events = s.events
  currentAction : s'.currentAction = s.currentAction
  sleepState : s'.sleepState = s.sleepState
  next : s'.next = s.next
  lists : s'.lists = Function.update s.lists l
    ((s.lists l).filter (fun e => action.iterList l ≠ some e.node))
  self : s'.actions.lookup a = some (action.setIterList l none)
  others : ∀ b, b ≠ a → s'.actions.lookup b = s.actions.lookup b

theorem removed_of_listRemove (ha : s.actions.lookup a = some action)
    (hs : s.listRemove l l a = .ok s') : Removed l a action s s' := by
  obtain ⟨action', ha', hor⟩ := listRemove_ok.mp hs
  rw [ha, Option.some.injEq] at ha'
  subst ha'
  rcases hor with ⟨hn, rfl⟩ | ⟨n, hn, _, rfl⟩
  · refine ⟨rfl, rfl, rfl, rfl, rfl, ?_, ?_, fun _ _ => rfl⟩
    · simp [hn]
    · rw [ha, ActiveAction.setIterList, ← hn, Function.update_eq_self]
  · refine ⟨rfl, rfl, rfl, rfl, rfl, ?_, AList.lookup_insert _, fun b hb => ?_⟩
    · have hfil : NodeList.erase (s.lists l) n =
          (s.lists l).filter (fun e => action.iterList l ≠ some e.node) := by
        refine List.filter_congr fun e _ => ?_
        simp [hn, eq_comm]
      simp [dropList, hfil]
    · exact AList.lookup_insert_ne hb

/-- The action with no iterator into the active, the waiting or the sleeping list. -/
def leftLists (action : ActiveAction) : ActiveAction :=
  { action with iterList := fun l => if l = .paused then action.iterList .paused else none }

/-- The action has left the lists but the paused one. -/
structure LeftLists (a : ℕ) (action : ActiveAction) (s s' : BasicScheduler) : Prop where
  timeouts : s'.timeouts = s.timeouts
  events : s'.events = s.events
  currentAction : s'.currentAction = s.currentAction
  sleepState : s'.sleepState = s.sleepState
  next : s'.next = s.next
  paused : s'.lists .paused = s.lists .paused
  lists : ∀ l, l ≠ .paused →
    s'.lists l = (s.lists l).filter (fun e => action.iterList l ≠ some e.node)
  self : s'.actions.lookup a = some (leftLists action)
  others : ∀ b, b ≠ a → s'.actions.lookup b = s.actions.lookup b

theorem leftLists_of_removed {s₁ s₂ s₃ : BasicScheduler}
    (r₁ : Removed s.sleepState.getActive a action s s₁)
    (r₂ : Removed s.sleepState.getWaiting a (action.setIterList s.sleepState.getActive none) s₁ s₂)
    (r₃ : Removed s.sleepState.getSleeping a
      ((action.setIterList s.sleepState.getActive none).setIterList s.sleepState.getWaiting none)
      s₂ s₃) : LeftLists a action s s₃ := by
  have hAW := s.sleepState.getActive_ne_getWaiting
  have hAS := s.sleepState.getActive_ne_getSleeping
  have hWS := s.sleepState.getWaiting_ne_getSleeping
  have hAP := s.sleepState.getActive_ne_paused
  have hWP := s.sleepState.getWaiting_ne_paused
  have hSP := s.sleepState.getSleeping_ne_paused
  refine
    { timeouts := (r₃.timeouts.trans r₂.timeouts).trans r₁.timeouts
      events := (r₃.events.trans r₂.events).trans r₁.events
      currentAction := (r₃.currentAction.trans r₂.currentAction).trans r₁.currentAction
      sleepState := (r₃.sleepState.trans r₂.sleepState).trans r₁.sleepState
      next := (r₃.next.trans r₂.next).trans r₁.next
      paused := ?_
      lists := fun l hl => ?_
      self := r₃.self.trans (congrArg some ?_)
      others := fun b hb => by rw [r₃.others b hb, r₂.others b hb, r₁.others b hb] }
  · rw [r₃.lists, Function.update_of_ne hSP.symm, r₂.lists, Function.update_of_ne hWP.symm,
      r₁.lists, Function.update_of_ne hAP.symm]
  · rcases s.sleepState.role_cases l hl with rfl | rfl | rfl
    · rw [r₃.lists, Function.update_of_ne hAS, r₂.lists, Function.update_of_ne hAW, r₁.lists,
        Function.update_self]
    · rw [r₃.lists, Function.update_of_ne hWS, r₂.lists, Function.update_self, r₁.lists,
        Function.update_of_ne hAW.symm, ActiveAction.setIterList_of_ne _ _ _ hAW.symm]
    · rw [r₃.lists, Function.update_self, r₂.lists, Function.update_of_ne hWS.symm, r₁.lists,
        Function.update_of_ne hAS.symm, ActiveAction.setIterList_of_ne _ _ _ hWS.symm,
        ActiveAction.setIterList_of_ne _ _ _ hAS.symm]
  · simp only [ActiveAction.setIterList, leftLists]
    congr 1
    funext l
    by_cases hl : l = .paused
    · subst hl
      rw [Function.update_of_ne hSP.symm, Function.update_of_ne hWP.symm,
        Function.update_of_ne hAP.symm, if_pos rfl]
    · rw [if_neg hl]
      rcases s.sleepState.role_cases l hl with rfl | rfl | rfl <;> simp [Function.update_apply]

/-- The action has left the lists but the paused one, and both event maps. -/
structure Withdrawn (a : ℕ) (action : ActiveAction) (s s' : BasicScheduler) : Prop where
  timeouts : s'.timeouts = s.timeouts
  currentAction : s'.currentAction = s.currentAction
  sleepState : s'.sleepState = s.sleepState
  next : s'.next = s.next
  paused : s'.lists .paused = s.lists .paused
  lists : ∀ l, l ≠ .paused →
    s'.lists l = (s.lists l).filter (fun e => action.iterList l ≠ some e.node)
  events : ∀ m, s'.events m = (s.events m).filter (fun e => e.val ≠ a)
  self : s'.actions.lookup a = some { leftLists action with iterEventRef := [] }
  others : ∀ b, b ≠ a → s'.actions.lookup b = s.actions.lookup b

/-- Erasing all registrations of an action, first from the waiting map. -/
theorem LeftLists.withdrawn {s₃ s₅ : BasicScheduler} (w₃ : s₃.Wf) (hl : LeftLists a action s s₃)
    (hs : (s₃.eventRemove .wait a >>= fun s => s.eventRemove .sleep a) = .ok s₅) :
    s₅.Wf ∧ Withdrawn a action s s₅ := by
  obtain ⟨s₄, hs₄, hs₅⟩ := except_bind_ok.mp hs
  have w₄ := w₃.eventRemove hs₄
  have w₅ := w₄.eventRemove hs₅
  obtain ⟨action₄, ha₄, hin, rfl⟩ := w₃.eventRemove_ok.mp hs₄
  rw [hl.self, Option.some.injEq] at ha₄
  subst ha₄
  obtain ⟨action₅, ha₅, _, rfl⟩ := w₄.eventRemove_ok.mp hs₅
  have hl₄ : (s₃.clearEvents .wait a (leftLists action)).actions.lookup a =
      some { leftLists action with iterEventRef := [] } := AList.lookup_insert _
  rw [hl₄, Option.some.injEq] at ha₅
  subst ha₅
  -- an entry of a map belongs to the action exactly if the action has an iterator to it
  have hown : ∀ m, ∀ e ∈ s.events m, (e.node ∈ (leftLists action).iterEventRef ↔ e.val = a) := by
    intro m e he
    rw [← hl.events] at he
    constructor
    · exact fun hn => (w₃.reg_owner he hl.self hn).symm
    · rintro rfl
      exact w₃.reg_mem he hl.self
  have hwait : ∀ e ∈ s.events .sleep, e.val ≠ a := by
    intro e he hea
    have hn := hin e.node ((hown .sleep e he).mpr hea)
    rw [← fst_held_events] at hn
    obtain ⟨x, hx, hxe⟩ := List.mem_map.mp hn
    have hy : (e.node, e.val) ∈ s₃.held (.events .sleep) :=
      mem_held_events.mpr ⟨e, hl.events ▸ he, rfl, rfl⟩
    have := w₃.containers.unique _ _ _ _ hx hy hxe
    simp at this
  refine ⟨w₅, hl.timeouts, hl.currentAction, hl.sleepState, hl.next, hl.paused, hl.lists,
    fun m => ?_, AList.lookup_insert _, fun b hb => ?_⟩
  · cases m with
    | wait =>
      simp only [BasicScheduler.clearEvents, dropEvents, BasicScheduler.setAction, hl.events]
      rw [Function.update_of_ne (by decide), Function.update_self]
      exact List.filter_congr fun e he => by simp [hown .wait e he]
    | sleep =>
      simp only [BasicScheduler.clearEvents, dropEvents, BasicScheduler.setAction, hl.events]
      rw [Function.update_self, Function.update_of_ne (by decide)]
      exact List.filter_congr fun e he => by simp [hwait e he]
  · simp only [BasicScheduler.clearEvents, BasicScheduler.setAction]
    rw [AList.lookup_insert_ne hb]
    simp only [dropEvents]
    rw [AList.lookup_insert_ne hb, hl.others b hb]

theorem Wf.withdraw (h : s.Wf) (ha : s.actions.lookup a = some action)
    (hs : s.withdraw a = .ok s') : s'.Wf ∧ Withdrawn a action s s' := by
  simp only [BasicScheduler.withdraw, activeRemove, waitRemove, sleepRemove,
    SleepSwapState.getActiveIter_eq, SleepSwapState.getWaitIter_eq,
    SleepSwapState.getSleepIter_eq] at hs
  obtain ⟨s₁, hs₁, hs⟩ := except_bind_ok.mp hs
  obtain ⟨s₂, hs₂, hs⟩ := except_bind_ok.mp hs
  obtain ⟨s₃, hs₃, hs⟩ := except_bind_ok.mp hs
  have w₁ := h.listRemove hs₁
  have w₂ := w₁.listRemove hs₂
  have w₃ := w₂.listRemove hs₃
  have r₁ := removed_of_listRemove ha hs₁
  have hst₁ : s₁.sleepState = s.sleepState := r₁.sleepState
  rw [hst₁] at hs₂
  have r₂ := removed_of_listRemove r₁.self hs₂
  rw [r₂.sleepState.trans hst₁] at hs₃
  have r₃ := removed_of_listRemove r₂.self hs₃
  exact (leftLists_of_removed r₁ r₂ r₃).withdrawn w₃ hs

/-- A withdrawal runs if the action is not registered in the sleeping map: the waiting map is
cleared first, of all its registrations. -/
theorem Wf.withdraw_total (h : s.Wf) (ha : s.Live a) (hsleep : ∀ e ∈ s.events .sleep, e.val ≠ a) :
    ∃ s', s.withdraw a = .ok s' := by
  have hlist : ∀ {t : BasicScheduler} (l : ListId), t.Wf → t.Live a → t.events = s.events →
      ∃ t', t.listRemove l l a = .ok t' ∧ t'.Wf ∧ t'.Live a ∧ t'.events = s.events := by
    intro t l ht hlive hev
    obtain ⟨t', ht'⟩ := ht.listRemove_total hlive (l := l)
    obtain ⟨action, ha⟩ := BasicScheduler.live_iff.mp hlive
    have hr := removed_of_listRemove ha ht'
    exact ⟨t', ht', ht.listRemove ht', BasicScheduler.live_iff.mpr ⟨_, hr.self⟩,
      hr.events.trans hev⟩
  obtain ⟨s₁, hs₁, w₁, l₁, e₁⟩ := hlist s.sleepState.getActive h ha rfl
  obtain ⟨s₂, hs₂, w₂, l₂, e₂⟩ := hlist s₁.sleepState.getWaiting w₁ l₁ e₁
  obtain ⟨s₃, hs₃, w₃, l₃, e₃⟩ := hlist s₂.sleepState.getSleeping w₂ l₂ e₂
  obtain ⟨s₄, hs₄⟩ := w₃.eventRemove_total (m := .wait) l₃ fun m hm e he => by
    cases m with
    | wait => exact absurd rfl hm
    | sleep => exact hsleep e (e₃ ▸ he)
  have w₄ := w₃.eventRemove hs₄
  obtain ⟨action, ha₃, _, rfl⟩ := w₃.eventRemove_ok.mp hs₄
  have hl₄ : (s₃.clearEvents .wait a action).actions.lookup a =
      some { action with iterEventRef := [] } := AList.lookup_insert _
  obtain ⟨s₅, hs₅⟩ := w₄.eventRemove_total (m := .sleep) (live_iff.mpr ⟨_, hl₄⟩)
    fun m _ e he hea => by
      subst hea
      have := w₄.reg_mem he hl₄
      simp at this
  refine ⟨s₅, ?_⟩
  simp only [BasicScheduler.withdraw, activeRemove, waitRemove, sleepRemove, except_bind_ok,
    SleepSwapState.getActiveIter_eq, SleepSwapState.getWaitIter_eq,
    SleepSwapState.getSleepIter_eq]
  exact ⟨s₁, hs₁, s₂, hs₂, s₃, hs₃, _, hs₄, hs₅⟩

end Withdrawals

end BasicScheduler
end EgLang.Scheduler
