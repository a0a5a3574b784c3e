import EgLang.Scheduler.Transitions

/-! # An event reaches exactly the actions that wait for it

`DeliversExactly` says what `on_event` is for, in terms of the registrations of a map and the modes
of their actions. The loop does that, and stays clear of the entries it has erased, exactly if the
entry at its upper bound is none that it erases on the way.
-/

namespace EgLang.Scheduler
open Library
set_option autoImplicit false

namespace BasicScheduler

/-- An event map: every entry belongs to a registered action, all of whose registrations are in
the map. -/
def EventMap (s : BasicScheduler) (m : MapId) : Prop :=
  ∀ e ∈ s.events m, ∃ action ∈ s.actions.lookup e.val,
    ∀ n ∈ action.iterEventRef, n ∈ NodeList.nodes (s.events m)

instance (s : BasicScheduler) (m : MapId) : Decidable (s.EventMap m) :=
  inferInstanceAs (Decidable (∀ e ∈ s.events m, ∃ action ∈ s.actions.lookup e.val,
    ∀ n ∈ action.iterEventRef, n ∈ NodeList.nodes (s.events m)))

def RegisteredOn (s : BasicScheduler) (m : MapId) (ref : Reference) (a : ℕ) : Prop :=
  ∃ e ∈ s.events m, e.val = a ∧ e.key = ref

instance (s : BasicScheduler) (m : MapId) (ref : Reference) (a : ℕ) :
    Decidable (s.RegisteredOn m ref a) :=
  inferInstanceAs (Decidable (∃ e ∈ s.events m, e.val = a ∧ e.key = ref))

/-- The event is one the action waits for: any of its events, or the only one it waits for. -/
def Activates (s : BasicScheduler) (m : MapId) (ref : Reference) (a : ℕ) : Prop :=
  s.RegisteredOn m ref a ∧
    ((∃ action ∈ s.actions.lookup a, action.bWaitAny = true) ∨
      ∀ e ∈ s.events m, e.val = a → e.key = ref)

/-- How many registrations on the reference the action has. -/
def registrationCount (s : BasicScheduler) (m : MapId) (ref : Reference) (a : ℕ) : ℕ :=
  (s.registrations m ref).countP (fun e => e.val = a)

/-- How often the reference is recorded in the events of an action that is activated. -/
def recordedCount (s : BasicScheduler) (m : MapId) (ref : Reference) (a : ℕ)
    (action : ActiveAction) : ℕ :=
  if action.bWaitAny then 1 else s.registrationCount m ref a

/-- An event goes to the actions it activates, and to them only: `new` are their entries in the
active list. -/
structure DeliversExactly (m : MapId) (ref : Reference) (s s' : BasicScheduler) : Prop where
  activated : ∃ new, s'.getActive = s.getActive ++ new ∧ (new.map Entry.val).Nodup ∧
    (∀ a, a ∈ new.map Entry.val ↔ s.Activates m ref a) ∧
    ∀ e ∈ new, ∀ action, s.actions.lookup e.val = some action →
      0 < s.recordedCount m ref e.val action ∧
      s'.actions.lookup e.val = some { action with
        iterEventRef := []
        events := action.events ++ List.replicate (s.recordedCount m ref e.val action) ref
        iterList := Function.update action.iterList s.sleepState.getActive (some e.node) }
  waiting : ∀ a action, s.actions.lookup a = some action → ¬ s.Activates m ref a →
    s'.actions.lookup a = some { action with
      iterEventRef := action.iterEventRef.filter
        (fun n => n ∉ NodeList.nodes (s.registrations m ref))
      events := action.events ++ List.replicate (s.registrationCount m ref a) ref }
  untouched : ∀ a, ¬ s.RegisteredOn m ref a → s'.actions.lookup a = s.actions.lookup a
  events_sublist : (s'.events m).Sublist (s.events m)
  events : ∀ e, e ∈ s'.events m ↔ e ∈ s.events m ∧ e.key ≠ ref ∧ ¬ s.Activates m ref e.val
  otherEvents : ∀ m', m' ≠ m → s'.events m' = s.events m'
  otherLists : ∀ l, l ≠ s.sleepState.getActive → s'.lists l = s.lists l
  timeouts : s'.timeouts = s.timeouts
  currentAction : s'.currentAction = s.currentAction
  sleepState : s'.sleepState = s.sleepState

section Exactly
variable {m : MapId} {ref : Reference} {s s' : BasicScheduler} {new : List (Entry Unit ℕ)}

theorem mem_registrations {e : Entry Reference ℕ} :
    e ∈ s.registrations m ref ↔ e ∈ s.events m ∧ e.key = ref := by
  simp [registrations, NodeList.range]

/-- The nodes on the reference are those of the registrations on it. -/
theorem Wf.node_mem_registrations (h : s.Wf) {e : Entry Reference ℕ} (he : e ∈ s.events m) :
    e.node ∈ NodeList.nodes (s.registrations m ref) ↔ e.key = ref := by
  have hn : (NodeList.nodes (s.events m)).Nodup := fst_held_events s m ▸ h.containers.nodup _
  constructor
  · intro hmem
    obtain ⟨f, hf, hfe⟩ := NodeList.mem_nodes.mp hmem
    obtain ⟨hfm, hk⟩ := mem_registrations.mp hf
    rw [NodeList.eq_of_node_eq hn he hfm hfe.symm]
    exact hk
  · exact fun hk => NodeList.node_mem_nodes (mem_registrations.mpr ⟨he, hk⟩)

/-- What the loop calls woken is what the event activates. -/
theorem Wf.wokenBy_iff (h : s.Wf) (hm : s.EventMap m) (a : ℕ) :
    s.WokenBy (s.registrations m ref) a ↔ s.Activates m ref a := by
  constructor
  · rintro ⟨⟨e, he, rfl⟩, action, ha, hor⟩
    obtain ⟨hem, hk⟩ := mem_registrations.mp he
    refine ⟨⟨e, hem, rfl, hk⟩, hor.imp (fun hany => ⟨action, ha, hany⟩) fun hall f hf hfe => ?_⟩
    exact (h.node_mem_registrations hf).mp
      (hall f.node (h.reg_mem hf (by rw [hfe]; exact ha)))
  · rintro ⟨⟨e, he, rfl, hk⟩, hor⟩
    obtain ⟨action, ha, hin⟩ := hm e he
    refine ⟨⟨e, mem_registrations.mpr ⟨he, hk⟩, rfl⟩, action, ha, hor.imp ?_ fun hall n hn => ?_⟩
    · rintro ⟨action', ha', hany⟩
      rw [Option.mem_def.mp ha, Option.mem_def, Option.some.injEq] at ha'
      exact ha' ▸ hany
    · obtain ⟨f, hf, rfl⟩ := NodeList.mem_nodes.mp (hin n hn)
      exact (h.node_mem_registrations hf).mpr (hall f hf (h.reg_owner hf ha hn).symm)

theorem Wf.deliverSafe_iff (hm : s.EventMap m) : s.DeliverSafe m ref ↔ s.UpperClear m ref := by
  refine ⟨DeliverSafe.upper, fun hupper => ⟨fun e he => ?_, hupper⟩⟩
  obtain ⟨action, ha, hin⟩ := hm e (mem_registrations.mp he).1
  exact ⟨action, ha, fun _ => hin⟩

theorem registrationCount_pos {a : ℕ} :
    0 < s.registrationCount m ref a ↔ s.RegisteredOn m ref a := by
  rw [registrationCount, List.countP_pos_iff]
  constructor
  · rintro ⟨e, he, hv⟩
    obtain ⟨hem, hk⟩ := mem_registrations.mp he
    exact ⟨e, hem, by simpa using hv, hk⟩
  · rintro ⟨e, he, hv, hk⟩
    exact ⟨e, mem_registrations.mpr ⟨he, hk⟩, by simpa using hv⟩

/-- An action without a registration on the reference keeps all its iterators. -/
theorem Wf.asleep_unregistered (h : s.Wf) {a : ℕ} {action : ActiveAction}
    (ha : s.actions.lookup a = some action) (hreg : ¬ s.RegisteredOn m ref a) :
    BasicScheduler.asleep ref (s.registrations m ref) a action = action := by
  have hcount : (s.registrations m ref).countP (fun e => e.val = a) = 0 :=
    Nat.eq_zero_of_not_pos fun hpos => hreg (registrationCount_pos.mp hpos)
  have hfilter : action.iterEventRef.filter
      (fun n => n ∉ NodeList.nodes (s.registrations m ref)) = action.iterEventRef := by
    refine List.filter_eq_self.mpr fun n hn => ?_
    rw [decide_eq_true_eq]
    intro hmem
    obtain ⟨e, he, rfl⟩ := NodeList.mem_nodes.mp hmem
    obtain ⟨hem, hk⟩ := mem_registrations.mp he
    exact hreg ⟨e, hem, (h.reg_owner hem ha hn).symm, hk⟩
  rw [BasicScheduler.asleep, hcount, hfilter, List.replicate_zero, List.append_nil]

/-- The effect of an event, read in terms of registrations. -/
theorem Delivered.exactly (h : s.Wf) (hm : s.EventMap m) (hd : Delivered m ref s s' new) :
    DeliversExactly m ref s s' := by
  have hwoken : ∀ a, a ∈ new.map Entry.val ↔ s.Activates m ref a := fun a => by
    rw [hd.woken, h.wokenBy_iff hm]
  refine
    { activated := ⟨new, ?_, hd.woken_nodup, hwoken, fun e he action ha => ⟨?_, ?_⟩⟩
      waiting := fun a action ha hact => hd.asleep a action ha fun hw => hact ((hwoken a).mp hw)
      untouched := fun a hreg => ?_
      events_sublist := by rw [hd.events]; exact List.filter_sublist
      events := fun e => by simp [hd.events, hwoken]
      otherEvents := hd.otherEvents
      otherLists := hd.otherLists
      timeouts := hd.timeouts
      currentAction := hd.currentAction
      sleepState := hd.sleepState }
  · rw [getActive, hd.sleepState]
    exact hd.active
  · have hreg := ((hwoken e.val).mp (List.mem_map_of_mem he)).1
    unfold recordedCount
    split
    · exact Nat.one_pos
    · exact registrationCount_pos.mpr hreg
  · obtain ⟨n, hn, hl⟩ := hd.awake e.val action ha (List.mem_map_of_mem he)
    have hne : e = ⟨n, (), e.val⟩ := List.inj_on_of_nodup_map hd.woken_nodup he hn rfl
    have hnode : e.node = n := congrArg Entry.node hne
    rw [hl, hnode]
    rfl
  · have hw : a ∉ new.map Entry.val := fun hw => hreg ((hwoken a).mp hw).1
    cases ha : s.actions.lookup a with
    | none => exact hd.dead a ha
    | some action => rw [hd.asleep a action ha hw, h.asleep_unregistered ha hreg]

end Exactly

/-- **Event delivery.** On an event map `onEvent` reaches exactly the actions the event activates,
without touching an entry it has erased, if and only if the entry at the upper bound of the
reference does not belong to an action that waits for any event and is registered on the
reference. -/
theorem onEvent_exactly_iff {s : BasicScheduler} {m : MapId} {ref : Reference} (h : s.Wf)
    (hm : s.EventMap m) :
    (∃ s', s.onEvent m ref = .ok s' ∧ DeliversExactly m ref s s') ↔ s.UpperClear m ref := by
  rw [← Wf.deliverSafe_iff hm, ← h.onEvent_ok_iff]
  constructor
  · rintro ⟨s', hs, _⟩
    exact ⟨s', hs⟩
  · rintro ⟨s', hs⟩
    obtain ⟨new, hd⟩ := h.onEvent_delivers hs
    exact ⟨s', hs, hd.exactly h hm⟩

/-- An action that sleeps until one of two events comes, with nothing else registered. -/
def sleepAnyInputs (first second : Reference) : List Input :=
  [.operation (.call ⟨0, 1, 1⟩ 0 true), .operation .cycle, .tick 0, .tick 0,
    .yield (.sleepAny [first, second]) false, .tick 0, .tick 0]

theorem onEvent_exactly_second : ∃ s s' : BasicScheduler, s.RegisteredOn .sleep ⟨0, 3, 1⟩ 0 ∧
    s.onEvent .sleep ⟨0, 3, 1⟩ = .ok s' ∧ DeliversExactly .sleep ⟨0, 3, 1⟩ s s' := by
  obtain ⟨m, hr, hmap, hreg, hclear⟩ := exists_reaches Machine.step
    (fun _ _ => True) (sleepAnyInputs ⟨0, 2, 1⟩ ⟨0, 3, 1⟩) Machine.initial
    (fun m => m.sched.EventMap .sleep ∧ m.sched.RegisteredOn .sleep ⟨0, 3, 1⟩ 0 ∧
      NodeList.upperBound (m.sched.events .sleep) ⟨0, 3, 1⟩ = none) (by decide +kernel)
  obtain ⟨s', hs, hd⟩ := (onEvent_exactly_iff (Machine.wf_of_steps hr).sched hmap).mpr
    fun u _ hu => by rw [hclear] at hu; cases hu
  exact ⟨m.sched, s', hreg, hs, hd⟩

/-- The event that comes is the first of the two: its upper bound is the other one. -/
theorem onEvent_erases_upper : ∃ m : Machine,
    Reaches Machine.step (fun _ _ => True) Machine.initial m ∧ m.sched.Wf ∧
      m.sched.EventMap .sleep ∧ m.sched.onEvent .sleep ⟨0, 2, 1⟩ = .error .erasedIterator ∧
        ¬ ∃ s', m.sched.onEvent .sleep ⟨0, 2, 1⟩ = .ok s' ∧
          DeliversExactly .sleep ⟨0, 2, 1⟩ m.sched s' := by
  obtain ⟨m, hr, hmap, hfault⟩ := exists_reaches Machine.step
    (fun _ _ => True) (sleepAnyInputs ⟨0, 2, 1⟩ ⟨0, 3, 1⟩) Machine.initial
    (fun m => m.sched.EventMap .sleep ∧
      failure (m.sched.onEvent .sleep ⟨0, 2, 1⟩) = some .erasedIterator) (by decide +kernel)
  rw [failure_eq_some] at hfault
  refine ⟨m, hr, (Machine.wf_of_steps hr).sched, hmap, hfault, ?_⟩
  rintro ⟨s', hs, _⟩
  rw [hfault] at hs
  cases hs

end BasicScheduler
end EgLang.Scheduler
