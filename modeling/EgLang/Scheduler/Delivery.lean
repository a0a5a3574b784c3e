import EgLang.Scheduler.WellFormed

/-! # Delivering an event

`onEvent` on a well formed scheduler, taken apart. Its walk is one pass over the nodes registered
on the reference (`NodeList.walk_range`), and `Handed` says what has happened to every action after
a part `D` of them: which actions are woken, which events they were handed, and which of their
registrations are gone. `Delivered` is the whole effect, and `onEvent_ok_iff` the exact condition
under which the loop stays clear of erased nodes.
-/

namespace EgLang.Scheduler
open Library
set_option autoImplicit false

namespace BasicScheduler

/-- The registrations on a reference. -/
def registrations (s : BasicScheduler) (m : MapId) (ref : Reference) :
    List (Entry Reference ℕ) :=
  NodeList.range (s.events m) ref

/-- Being handed the registrations `D` wakes the action: it has one of them and waits for any, or
has no others. -/
def WokenBy (s : BasicScheduler) (D : List (Entry Reference ℕ)) (a : ℕ) : Prop :=
  (∃ e ∈ D, e.val = a) ∧ ∃ action, s.actions.lookup a = some action ∧
    (action.bWaitAny = true ∨ ∀ n ∈ action.iterEventRef, n ∈ NodeList.nodes D)

/-- How often an action is handed the event by the registrations `D`: a wait for any ends with the
first. -/
def handedCount (action : ActiveAction) (a : ℕ) (D : List (Entry Reference ℕ)) : ℕ :=
  if action.bWaitAny then 1 else D.countP (fun e => e.val = a)

/-- An action that goes on waiting. -/
def asleep (ref : Reference) (D : List (Entry Reference ℕ)) (a : ℕ) (action : ActiveAction) :
    ActiveAction :=
  { action with
    iterEventRef := action.iterEventRef.filter (fun n => n ∉ NodeList.nodes D)
    events := action.events ++ List.replicate (D.countP (fun e => e.val = a)) ref }

/-- An action that has been woken, with its new iterator into the active list. -/
def awake (ref : Reference) (D : List (Entry Reference ℕ)) (active : ListId) (n a : ℕ)
    (action : ActiveAction) : ActiveAction :=
  { action with
    iterEventRef := []
    events := action.events ++ List.replicate (handedCount action a D) ref
    iterList := Function.update action.iterList active (some n) }

/-- After the registrations `D` on `ref` have been handed out, with the entries `new` behind the
active list. -/
structure Handed (m : MapId) (ref : Reference) (s₀ : BasicScheduler)
    (D : List (Entry Reference ℕ)) (s : BasicScheduler) (new : List (Entry Unit ℕ)) : Prop where
  timeouts : s.timeouts = s₀.timeouts
  currentAction : s.currentAction = s₀.currentAction
  sleepState : s.sleepState = s₀.sleepState
  otherLists : ∀ l, l ≠ s₀.sleepState.getActive → s.lists l = s₀.lists l
  otherEvents : ∀ m', m' ≠ m → s.events m' = s₀.events m'
  active : s.lists s₀.sleepState.getActive = s₀.getActive ++ new
  new_nodes : ∀ e ∈ new, s₀.next ≤ e.node ∧ e.node < s.next
  new_nodup : (NodeList.nodes new).Nodup
  next_le : s₀.next ≤ s.next
  woken_nodup : (new.map Entry.val).Nodup
  woken : ∀ a, a ∈ new.map Entry.val ↔ s₀.WokenBy D a
  dead : ∀ a, s₀.actions.lookup a = none → s.actions.lookup a = none
  asleep : ∀ a action, s₀.actions.lookup a = some action → a ∉ new.map Entry.val →
    s.actions.lookup a = some (asleep ref D a action)
  awake : ∀ a action, s₀.actions.lookup a = some action → a ∈ new.map Entry.val →
    ∃ n, (⟨n, (), a⟩ : Entry Unit ℕ) ∈ new ∧
      s.actions.lookup a = some (awake ref D s₀.sleepState.getActive n a action)

/-- The event map in the middle of the walk: the registrations of the woken actions that have not
been walked over are gone, the first one walked over is not. -/
def Walked (m : MapId) (s₀ : BasicScheduler) (D : List (Entry Reference ℕ)) (s : BasicScheduler)
    (woken : List ℕ) : Prop :=
  ∃ p : Entry Reference ℕ → Bool, s.events m = (s₀.events m).filter p ∧
    (∀ e ∈ s₀.events m, e ∉ D → (p e = true ↔ e.val ∉ woken)) ∧
    ∀ e, D.head? = some e → p e = true

/-- **The effect of an event**: `new` are the entries of the woken actions. -/
structure Delivered (m : MapId) (ref : Reference) (s s' : BasicScheduler)
    (new : List (Entry Unit ℕ)) : Prop extends Handed m ref s (s.registrations m ref) s' new where
  events : s'.events m = (s.events m).filter (fun e => e.key ≠ ref ∧ e.val ∉ new.map Entry.val)

/-! ## One round of the loop -/

/-- An action that has been handed one event. -/
def hand (ref : Reference) (e : Entry Reference ℕ) (action : ActiveAction) : ActiveAction :=
  { action with
    iterEventRef := action.iterEventRef.erase e.node
    events := action.events ++ [ref] }

/-- The state after a registration that wakes its action. -/
def wake (m : MapId) (ref : Reference) (e : Entry Reference ℕ) (action : ActiveAction)
    (s : BasicScheduler) : BasicScheduler :=
  { s with
    events := Function.update s.events m
      ((s.events m).filter (fun f => f.node ∉ action.iterEventRef.erase e.node))
    lists := Function.update s.lists s.sleepState.getActive
      (s.getActive ++ [⟨s.next, (), e.val⟩])
    next := s.next + 1
    actions := s.actions.insert e.val
      { action with
        iterEventRef := []
        events := action.events ++ [ref]
        iterList := Function.update action.iterList s.sleepState.getActive (some s.next) } }

theorem deliver_ok (m : MapId) (ref : Reference) {s : BasicScheduler} (s' : BasicScheduler)
    {e : Entry Reference ℕ} {action : ActiveAction} (ha : s.actions.lookup e.val = some action)
    (hn : action.iterEventRef.Nodup) (he : e.node ∈ action.iterEventRef) :
    deliver m ref s e = .ok s' ↔
      (action.iterEventRef.erase e.node ≠ [] ∧ action.bWaitAny = false ∧
        s' = s.setAction e.val (hand ref e action)) ∨
      ((action.iterEventRef.erase e.node = [] ∨ action.bWaitAny = true) ∧
        (∀ n ∈ action.iterEventRef.erase e.node, n ∈ NodeList.nodes (s.events m)) ∧
        s' = s.wake m ref e action) := by
  have hwake : ∀ {t : BasicScheduler},
      ((s.setAction e.val (hand ref e action)).eventRemove m e.val >>=
          fun s => s.activeInsert e.val) = .ok t ↔
      (∀ n ∈ action.iterEventRef.erase e.node, n ∈ NodeList.nodes (s.events m)) ∧
        t = s.wake m ref e action := by
    intro t
    rw [except_bind_ok]
    simp only [activeInsert, SleepSwapState.getActiveIter_eq]
    have hnodup : ∀ action', (s.setAction e.val (hand ref e action)).actions.lookup e.val =
        some action' → action'.iterEventRef.Nodup := by
      intro action' ha'
      simp only [setAction, AList.lookup_insert, Option.some.injEq] at ha'
      exact ha' ▸ hn.erase _
    simp only [eventRemove_eq_ok hnodup, listInsert_ok]
    simp only [setAction, AList.lookup_insert, Option.some.injEq, exists_eq_left', hand]
    constructor
    · rintro ⟨_, ⟨hm, rfl⟩, action', ha', rfl⟩
      simp only [clearEvents, dropEvents, setAction, AList.lookup_insert, Option.some.injEq] at ha'
      subst ha'
      refine ⟨hm, ?_⟩
      simp [clearEvents, dropEvents, setAction, putList, wake, getActive, AList.insert_insert,
        ActiveAction.setIterList]
    · rintro ⟨hm, rfl⟩
      refine ⟨_, ⟨hm, rfl⟩, { action with
        iterEventRef := [], events := action.events ++ [ref] }, ?_, ?_⟩
      · simp [clearEvents, dropEvents, setAction]
      · simp [clearEvents, dropEvents, setAction, putList, wake, getActive, AList.insert_insert,
        ActiveAction.setIterList]
  have hd : s.deref e.val = .ok action := deref_eq_ok.mpr ha
  unfold deliver
  rw [except_bind_ok]
  simp only [hd, Except.ok.injEq, exists_eq_left', if_pos he]
  change ((if (action.iterEventRef.erase e.node).isEmpty || action.bWaitAny then
    (s.setAction e.val (hand ref e action)).eventRemove m e.val >>= fun s => s.activeInsert e.val
    else .ok (s.setAction e.val (hand ref e action))) = .ok s') ↔ _
  by_cases hempty : action.iterEventRef.erase e.node = []
  · simp only [hempty, List.isEmpty_nil, Bool.true_or, if_true, ne_eq, not_true_eq_false,
      false_and, true_or, true_and, false_or]
    simpa [hempty] using hwake
  · have hemp : (action.iterEventRef.erase e.node).isEmpty = false := by
      simpa using hempty
    cases hany : action.bWaitAny with
    | true =>
      simp only [hemp, Bool.false_or, if_true, Bool.true_eq_false, and_false, false_and,
        false_or, or_true, true_and]
      exact hwake
    | false =>
      simp only [hemp, Bool.false_or, Bool.false_eq_true, if_false, hempty, or_false, false_and,
        ne_eq, not_false_eq_true, true_and, Except.ok.injEq]
      exact eq_comm

/-! ## What one registration does -/

section OneRegistration
variable {m : MapId} {ref : Reference} {s₀ s s' : BasicScheduler}
variable {D : List (Entry Reference ℕ)} {e : Entry Reference ℕ} {new : List (Entry Unit ℕ)}

/-- The registrations of different actions have different nodes. -/
theorem Wf.reg_owner (h : s₀.Wf) (he : e ∈ s₀.events m) {b : ℕ} {action : ActiveAction}
    (hb : s₀.actions.lookup b = some action) (hn : e.node ∈ action.iterEventRef) : b = e.val := by
  have hok := h.actions b action hb
  obtain ⟨m', hm'⟩ := (hok.regs _).mp hn
  have hx : (e.node, e.val) ∈ s₀.held (.events m) := mem_held_events.mpr ⟨e, he, rfl, rfl⟩
  have heq := h.containers.unique _ _ _ _ hm' hx rfl
  rw [heq] at hm'
  exact (Prod.ext_iff.mp (h.containers.eq_of_fst hm' hx rfl)).2

theorem Wf.reg_mem (h : s₀.Wf) (he : e ∈ s₀.events m) {action : ActiveAction}
    (ha : s₀.actions.lookup e.val = some action) : e.node ∈ action.iterEventRef :=
  ((h.actions _ _ ha).regs _).mpr ⟨m, mem_held_events.mpr ⟨e, he, rfl, rfl⟩⟩

theorem nodes_concat : NodeList.nodes (D ++ [e]) = NodeList.nodes D ++ [e.node] := by simp

theorem WokenBy.concat {a : ℕ} (h : s₀.WokenBy D a) : s₀.WokenBy (D ++ [e]) a := by
  obtain ⟨⟨f, hf, hfa⟩, action, ha, hany⟩ := h
  refine ⟨⟨f, List.mem_append_left _ hf, hfa⟩, action, ha, hany.imp_right fun hall n hn => ?_⟩
  rw [nodes_concat]
  exact List.mem_append_left _ (hall n hn)

/-- One more registration matters to its own action only. -/
theorem Wf.wokenBy_concat_other (h : s₀.Wf) (he : e ∈ s₀.events m) {b : ℕ} (hb : b ≠ e.val) :
    s₀.WokenBy (D ++ [e]) b ↔ s₀.WokenBy D b := by
  refine ⟨?_, WokenBy.concat⟩
  rintro ⟨⟨f, hf, hfb⟩, action, ha, hany⟩
  refine ⟨⟨f, ?_, hfb⟩, action, ha, hany.imp_right fun hall n hn => ?_⟩
  · rcases List.mem_append.mp hf with hf | hf
    · exact hf
    · rw [List.mem_singleton.mp hf] at hfb
      exact absurd hfb.symm hb
  · have hn' := hall n hn
    rw [nodes_concat, List.mem_append, List.mem_singleton] at hn'
    rcases hn' with hn' | rfl
    · exact hn'
    · exact absurd (h.reg_owner he ha hn) hb

theorem Wf.asleep_concat_other (h : s₀.Wf) (he : e ∈ s₀.events m) {b : ℕ} (hb : b ≠ e.val)
    {action : ActiveAction} (ha : s₀.actions.lookup b = some action) :
    BasicScheduler.asleep ref (D ++ [e]) b action = BasicScheduler.asleep ref D b action := by
  have h1 : action.iterEventRef.filter (fun n => n ∉ NodeList.nodes (D ++ [e])) =
      action.iterEventRef.filter (fun n => n ∉ NodeList.nodes D) := by
    refine List.filter_congr fun n hn => ?_
    have hne : n ≠ e.node := fun hne => hb (h.reg_owner he ha (hne ▸ hn))
    simp [hne]
  have h2 : (D ++ [e]).countP (fun f => f.val = b) = D.countP (fun f => f.val = b) := by
    rw [List.countP_append]
    simp [Ne.symm hb]
  simp only [BasicScheduler.asleep, h1, h2]

theorem awake_concat_other {b n : ℕ} {action : ActiveAction} {active : ListId}
    (hb : action.bWaitAny = true ∨ b ≠ e.val) :
    BasicScheduler.awake ref (D ++ [e]) active n b action =
      BasicScheduler.awake ref D active n b action := by
  have h2 : handedCount action b (D ++ [e]) = handedCount action b D := by
    unfold handedCount
    split
    · rfl
    · rename_i hany
      rw [List.countP_append]
      simp [Ne.symm (hb.resolve_left hany)]
  simp only [BasicScheduler.awake, h2]

/-- What is still in the map is exactly what its action has not been woken without. -/
theorem Walked.still_there (h : s₀.Wf) (hw : Walked m s₀ D s (new.map Entry.val))
    (he : e ∈ s₀.events m) (hD : e ∉ D) :
    e.node ∈ NodeList.nodes (s.events m) ↔ e.val ∉ new.map Entry.val := by
  obtain ⟨p, hp, hpe, _⟩ := hw
  have hn : (NodeList.nodes (s₀.events m)).Nodup := fst_held_events s₀ m ▸ h.containers.nodup _
  rw [hp, NodeList.node_mem_filter hn he, hpe e he hD]

/-- A registration that is no longer there is passed over. -/
theorem Handed.skip (h : s₀.Wf) (hh : Handed m ref s₀ D s new) (he : e ∈ s₀.events m)
    (hD : e.node ∉ NodeList.nodes D) (ha : e.val ∈ new.map Entry.val) :
    Handed m ref s₀ (D ++ [e]) s new := by
  have hany : ∀ b action, s₀.actions.lookup b = some action → b ∈ new.map Entry.val →
      action.bWaitAny = true ∨ b ≠ e.val := by
    intro b action hb hbn
    by_cases hbe : b = e.val
    · subst hbe
      obtain ⟨_, action', ha', hor⟩ := (hh.woken _).mp ha
      rw [hb, Option.some.injEq] at ha'
      subst ha'
      refine .inl (hor.resolve_right fun hall => hD (hall _ (h.reg_mem he hb)))
    · exact .inr hbe
  have hwoken : ∀ b, b ∈ new.map Entry.val ↔ s₀.WokenBy (D ++ [e]) b := by
    intro b
    by_cases hbe : b = e.val
    · subst hbe
      exact ⟨fun hb => ((hh.woken _).mp hb).concat, fun _ => ha⟩
    · rw [hh.woken, h.wokenBy_concat_other he hbe]
  refine { hh with woken := hwoken, asleep := fun b action hb hbn => ?_, awake := ?_ }
  · have hbe : b ≠ e.val := fun hbe => hbn (hbe ▸ ha)
    rw [h.asleep_concat_other he hbe hb]
    exact hh.asleep b action hb hbn
  · intro b action hb hbn
    obtain ⟨n, hn, hlook⟩ := hh.awake b action hb hbn
    refine ⟨n, hn, ?_⟩
    rw [awake_concat_other (hany b action hb hbn)]
    exact hlook

theorem Walked.skip (hh : Handed m ref s₀ D s new) (hw : Walked m s₀ D s (new.map Entry.val))
    (ha : e.val ∈ new.map Entry.val) : Walked m s₀ (D ++ [e]) s (new.map Entry.val) := by
  obtain ⟨p, hp, hpe, hhead⟩ := hw
  refine ⟨p, hp, fun f hf hfD => hpe f hf fun hfD' => hfD (List.mem_append_left _ hfD'), ?_⟩
  cases D with
  | nil =>
    obtain ⟨⟨f, hf, _⟩, _⟩ := (hh.woken _).mp ha
    cases hf
  | cons d D => exact hhead

/-- The iterators an action that is still asleep has left, without the one being handled. -/
theorem Wf.erase_asleep (h : s₀.Wf) {action : ActiveAction}
    (ha : s₀.actions.lookup e.val = some action) :
    (action.iterEventRef.filter (fun n => n ∉ NodeList.nodes D)).erase e.node =
      action.iterEventRef.filter (fun n => n ∉ NodeList.nodes (D ++ [e])) := by
  rw [List.Nodup.erase_eq_filter ((h.actions _ _ ha).regs_nodup.filter _), List.filter_filter]
  refine List.filter_congr fun n _ => ?_
  rw [nodes_concat]
  by_cases hne : n = e.node <;> simp [hne]

theorem countP_concat_self :
    (D ++ [e]).countP (fun f => f.val = e.val) = D.countP (fun f => f.val = e.val) + 1 := by
  rw [List.countP_append]
  simp

theorem Wf.hand_asleep (h : s₀.Wf) {action : ActiveAction}
    (ha : s₀.actions.lookup e.val = some action) :
    hand ref e (BasicScheduler.asleep ref D e.val action) =
      BasicScheduler.asleep ref (D ++ [e]) e.val action := by
  simp only [hand, BasicScheduler.asleep, h.erase_asleep ha, countP_concat_self,
    List.replicate_succ', List.append_assoc]

/-- A registration that leaves its action asleep. -/
theorem Handed.stay (h : s₀.Wf) (hh : Handed m ref s₀ D s new) (he : e ∈ s₀.events m)
    {action : ActiveAction} (ha : s₀.actions.lookup e.val = some action)
    (hasleep : e.val ∉ new.map Entry.val) (hany : action.bWaitAny = false)
    (hleft : action.iterEventRef.filter (fun n => n ∉ NodeList.nodes (D ++ [e])) ≠ []) :
    Handed m ref s₀ (D ++ [e])
      (s.setAction e.val (BasicScheduler.asleep ref (D ++ [e]) e.val action)) new := by
  have hlook : ∀ b, b ≠ e.val →
      (s.setAction e.val (BasicScheduler.asleep ref (D ++ [e]) e.val action)).actions.lookup b =
        s.actions.lookup b :=
    fun b hb => AList.lookup_insert_ne hb
  have hwoken : ∀ b, b ∈ new.map Entry.val ↔ s₀.WokenBy (D ++ [e]) b := by
    intro b
    by_cases hbe : b = e.val
    · subst hbe
      refine iff_of_false hasleep ?_
      rintro ⟨_, action', ha', hor⟩
      rw [ha, Option.some.injEq] at ha'
      subst ha'
      rcases hor with hor | hall
      · rw [hany] at hor
        cases hor
      · refine hleft (List.filter_eq_nil_iff.mpr fun n hn => ?_)
        rw [decide_eq_true_eq, not_not]
        exact hall n hn
    · rw [hh.woken, h.wokenBy_concat_other he hbe]
  refine { hh with woken := hwoken, dead := ?_, asleep := ?_, awake := ?_ }
  · intro b hb
    rw [hlook b fun hbe => by rw [hbe, ha] at hb; cases hb]
    exact hh.dead b hb
  · intro b action' hb hbn
    by_cases hbe : b = e.val
    · subst hbe
      rw [ha, Option.some.injEq] at hb
      subst hb
      exact AList.lookup_insert _
    · rw [hlook b hbe, h.asleep_concat_other he hbe hb]
      exact hh.asleep b action' hb hbn
  · intro b action' hb hbn
    have hbe : b ≠ e.val := fun hbe => hasleep (hbe ▸ hbn)
    obtain ⟨n, hn, hl⟩ := hh.awake b action' hb hbn
    exact ⟨n, hn, by rw [hlook b hbe, awake_concat_other (.inr hbe)]; exact hl⟩

/-- A registration that wakes its action. -/
theorem Handed.wake (h : s₀.Wf) (hh : Handed m ref s₀ D s new) (he : e ∈ s₀.events m)
    {action : ActiveAction}
    (ha : s₀.actions.lookup e.val = some action) (hasleep : e.val ∉ new.map Entry.val)
    (hor : action.iterEventRef.filter (fun n => n ∉ NodeList.nodes (D ++ [e])) = [] ∨
      action.bWaitAny = true) :
    Handed m ref s₀ (D ++ [e])
      (s.wake m ref e (BasicScheduler.asleep ref D e.val action))
      (new ++ [⟨s.next, (), e.val⟩]) := by
  have hactive : s.sleepState.getActive = s₀.sleepState.getActive := by rw [hh.sleepState]
  have hlook : ∀ b, b ≠ e.val →
      (s.wake m ref e (BasicScheduler.asleep ref D e.val action)).actions.lookup b =
        s.actions.lookup b :=
    fun b hb => AList.lookup_insert_ne hb
  have hmem : ∀ b, b ∈ (new ++ [(⟨s.next, (), e.val⟩ : Entry Unit ℕ)]).map Entry.val ↔
      b ∈ new.map Entry.val ∨ b = e.val := by
    intro b
    simp
  have hself : s₀.WokenBy (D ++ [e]) e.val := by
    refine ⟨⟨e, by simp, rfl⟩, action, ha, ?_⟩
    rcases hor with hnil | hany
    · refine .inr fun n hn => ?_
      have := List.filter_eq_nil_iff.mp hnil n hn
      rwa [decide_eq_true_eq, not_not] at this
    · exact .inl hany
  -- a wait for any has not been handed anything yet
  have hcount : action.bWaitAny = true → D.countP (fun f => f.val = e.val) = 0 := by
    intro hany
    refine List.countP_eq_zero.mpr fun f hf hfe => hasleep ((hh.woken _).mpr ?_)
    exact ⟨⟨f, hf, by simpa using hfe⟩, action, ha, .inl hany⟩
  have hself_action : ∀ n, BasicScheduler.awake ref (D ++ [e]) s₀.sleepState.getActive n e.val
      action = { BasicScheduler.asleep ref D e.val action with
        iterEventRef := []
        events := (BasicScheduler.asleep ref D e.val action).events ++ [ref]
        iterList := Function.update (BasicScheduler.asleep ref D e.val action).iterList
          s₀.sleepState.getActive (some n) } := by
    intro n
    have hc : handedCount action e.val (D ++ [e]) = D.countP (fun f => f.val = e.val) + 1 := by
      unfold handedCount
      split
      · rename_i hany
        rw [hcount hany]
      · exact countP_concat_self
    simp only [BasicScheduler.awake, BasicScheduler.asleep, hc, List.replicate_succ',
      List.append_assoc]
  refine
    { timeouts := hh.timeouts
      currentAction := hh.currentAction
      sleepState := hh.sleepState
      otherLists := fun l hl => ?_
      otherEvents := fun m' hm' => ?_
      active := ?_
      new_nodes := fun f hf => ?_
      new_nodup := ?_
      next_le := hh.next_le.trans (Nat.le_succ _)
      woken_nodup := ?_
      woken := fun b => ?_
      dead := fun b hb => ?_
      asleep := fun b action' hb hbn => ?_
      awake := fun b action' hb hbn => ?_ }
  · simp only [BasicScheduler.wake, hactive]
    rw [Function.update_of_ne hl]
    exact hh.otherLists l hl
  · simp only [BasicScheduler.wake]
    rw [Function.update_of_ne hm']
    exact hh.otherEvents m' hm'
  · simp only [BasicScheduler.wake, getActive, hactive, Function.update_self, hh.active,
      List.append_assoc]
  · rcases List.mem_append.mp hf with hf | hf
    · have := hh.new_nodes f hf
      exact ⟨this.1, this.2.trans (Nat.lt_succ_self _)⟩
    · rw [List.mem_singleton.mp hf]
      exact ⟨hh.next_le, Nat.lt_succ_self _⟩
  · rw [NodeList.nodes_append]
    refine hh.new_nodup.append (List.nodup_singleton _) fun n hn hn' => ?_
    obtain ⟨f, hf, rfl⟩ := NodeList.mem_nodes.mp hn
    have hlt := (hh.new_nodes f hf).2
    have heq : f.node = s.next := by simpa using hn'
    omega
  · rw [List.map_append]
    refine hh.woken_nodup.append (List.nodup_singleton _) fun b hb hb' => hasleep ?_
    have heq : b = e.val := by simpa using hb'
    exact heq ▸ hb
  · rw [hmem]
    by_cases hbe : b = e.val
    · subst hbe
      exact iff_of_true (.inr rfl) hself
    · rw [hh.woken, h.wokenBy_concat_other he hbe]
      simp [hbe]
  · rw [hlook b fun hbe => by rw [hbe, ha] at hb; cases hb]
    exact hh.dead b hb
  · rw [hmem, not_or] at hbn
    rw [hlook b hbn.2, h.asleep_concat_other he hbn.2 hb]
    exact hh.asleep b action' hb hbn.1
  · by_cases hbe : b = e.val
    · subst hbe
      rw [ha, Option.some.injEq] at hb
      subst hb
      refine ⟨s.next, by simp, ?_⟩
      rw [hself_action]
      simp only [BasicScheduler.wake, hactive]
      exact AList.lookup_insert _
    · obtain ⟨n, hn, hl⟩ := hh.awake b action' hb (((hmem b).mp hbn).resolve_right hbe)
      refine ⟨n, List.mem_append_left _ hn, ?_⟩
      rw [hlook b hbe, awake_concat_other (.inr hbe)]
      exact hl

theorem Walked.wake (h : s₀.Wf) (hw : Walked m s₀ D s (new.map Entry.val))
    (he : e ∈ s₀.events m) (hD : e.node ∉ NodeList.nodes D) {action : ActiveAction}
    (ha : s₀.actions.lookup e.val = some action) (hasleep : e.val ∉ new.map Entry.val)
    (hDsub : ∀ f ∈ D, f ∈ s₀.events m) :
    Walked m s₀ (D ++ [e]) (s.wake m ref e (BasicScheduler.asleep ref D e.val action))
      ((new ++ [(⟨s.next, (), e.val⟩ : Entry Unit ℕ)]).map Entry.val) := by
  obtain ⟨p, hp, hpe, hhead⟩ := hw
  have hn : (NodeList.nodes (s₀.events m)).Nodup := fst_held_events s₀ m ▸ h.containers.nodup _
  have heD : e ∉ D := fun heD => hD (NodeList.node_mem_nodes heD)
  have hvec : (BasicScheduler.asleep ref D e.val action).iterEventRef.erase e.node =
      action.iterEventRef.filter (fun n => n ∉ NodeList.nodes (D ++ [e])) := h.erase_asleep ha
  refine ⟨fun f => p f && decide (f.node ∉ action.iterEventRef.filter
    (fun n => n ∉ NodeList.nodes (D ++ [e]))), ?_, fun f hf hfD => ?_, fun f hf => ?_⟩
  · simp only [BasicScheduler.wake, Function.update_self, hvec, hp, List.filter_filter]
    exact List.filter_congr fun f _ => Bool.and_comm _ _
  · have hfD' : f ∉ D := fun hfD' => hfD (List.mem_append_left _ hfD')
    have hfnode : f.node ∉ NodeList.nodes (D ++ [e]) := by
      intro hmem
      obtain ⟨g, hg, hgf⟩ := NodeList.mem_nodes.mp hmem
      refine hfD ?_
      have hgm : g ∈ s₀.events m := by
        rcases List.mem_append.mp hg with hg | hg
        · exact hDsub g hg
        · rw [List.mem_singleton.mp hg]
          exact he
      rwa [NodeList.eq_of_node_eq hn hf hgm hgf.symm]
    rw [Bool.and_eq_true, hpe f hf hfD', decide_eq_true_eq, List.mem_filter, List.map_append,
      List.mem_append]
    simp only [List.map_cons, List.map_nil, List.mem_singleton, not_or]
    refine and_congr_right fun _ => ?_
    constructor
    · rintro hnot rfl'
      exact hnot ⟨h.reg_mem hf (rfl' ▸ ha), by simpa using hfnode⟩
    · rintro hne ⟨hmem, _⟩
      exact hne (h.reg_owner hf ha hmem).symm
  · have hpf : p f = true := by
      cases D with
      | nil =>
        obtain rfl : e = f := by simpa using hf
        exact (hpe _ he (by simp)).mpr hasleep
      | cons d D => exact hhead f hf
    have hfmem : f ∈ D ++ [e] := List.mem_of_mem_head? hf
    rw [Bool.and_eq_true, decide_eq_true_eq]
    refine ⟨hpf, fun hmem => ?_⟩
    have := (List.mem_filter.mp hmem).2
    rw [decide_eq_true_eq] at this
    exact this (NodeList.node_mem_nodes hfmem)

end OneRegistration

/-! ## The walk -/

/-- A registration whose action exists and, if it waits for any event, has all its registrations
in this map. -/
def OwnerOk (s : BasicScheduler) (m : MapId) (e : Entry Reference ℕ) : Prop :=
  ∃ action, s.actions.lookup e.val = some action ∧
    (action.bWaitAny = true → ∀ n ∈ action.iterEventRef, n ∈ NodeList.nodes (s.events m))

/-- The entry at the upper bound of the reference does not belong to an action that waits for any
event and is registered on the reference. -/
def UpperClear (s : BasicScheduler) (m : MapId) (ref : Reference) : Prop :=
  ∀ u ∈ s.events m, NodeList.upperBound (s.events m) ref = some u.node →
    ∀ action, s.actions.lookup u.val = some action → action.bWaitAny = true →
      ∀ e ∈ s.registrations m ref, e.val ≠ u.val

/-- The states in which an event can be delivered. -/
structure DeliverSafe (s : BasicScheduler) (m : MapId) (ref : Reference) : Prop where
  owners : ∀ e ∈ s.registrations m ref, s.OwnerOk m e
  upper : s.UpperClear m ref

section Walk
variable {m : MapId} {ref : Reference} {s₀ s s' : BasicScheduler}
variable {D : List (Entry Reference ℕ)} {e : Entry Reference ℕ} {new : List (Entry Unit ℕ)}

/-- What the walk keeps. -/
structure Walking (m : MapId) (ref : Reference) (s₀ : BasicScheduler)
    (D : List (Entry Reference ℕ)) (s : BasicScheduler) (new : List (Entry Unit ℕ)) : Prop where
  handed : Handed m ref s₀ D s new
  walked : Walked m s₀ D s (new.map Entry.val)
  owners : ∀ e ∈ D, s₀.OwnerOk m e
  sub : ∀ e ∈ D, e ∈ s₀.events m

theorem walking_nil (s : BasicScheduler) : Walking m ref s [] s [] where
  handed :=
    { timeouts := rfl
      currentAction := rfl
      sleepState := rfl
      otherLists := fun _ _ => rfl
      otherEvents := fun _ _ => rfl
      active := (List.append_nil _).symm
      new_nodes := fun _ h => by cases h
      new_nodup := List.nodup_nil
      next_le := le_rfl
      woken_nodup := List.nodup_nil
      woken := fun a => by simp [WokenBy]
      dead := fun _ h => h
      asleep := fun a action ha _ => by
        rw [ha]
        simp [BasicScheduler.asleep]
      awake := fun a action _ h => by cases h }
  walked := ⟨fun _ => true, by simp, fun _ _ _ => by simp, fun _ h => by cases h⟩
  owners := fun _ h => by cases h
  sub := fun _ h => by cases h

theorem Walking.skip (h : s₀.Wf) (hw : Walking m ref s₀ D s new) (he : e ∈ s₀.events m)
    (hD : e.node ∉ NodeList.nodes D) (hgone : e.node ∉ NodeList.nodes (s.events m)) :
    Walking m ref s₀ (D ++ [e]) s new := by
  have heD : e ∉ D := fun heD => hD (NodeList.node_mem_nodes heD)
  have ha : e.val ∈ new.map Entry.val := by
    by_contra ha
    exact hgone ((hw.walked.still_there h he heD).mpr ha)
  refine ⟨hw.handed.skip h he hD ha, hw.walked.skip hw.handed ha, fun f hf => ?_, fun f hf => ?_⟩
  · rcases List.mem_append.mp hf with hf | hf
    · exact hw.owners f hf
    · obtain ⟨⟨g, hg, hgv⟩, _⟩ := (hw.handed.woken _).mp ha
      have := hw.owners g hg
      rwa [OwnerOk, hgv, ← List.mem_singleton.mp hf] at this
  · rcases List.mem_append.mp hf with hf | hf
    · exact hw.sub f hf
    · rw [List.mem_singleton.mp hf]
      exact he

/-- The iterators of an action that is asleep lead to nodes that are still there. -/
theorem Walking.vec_there (h : s₀.Wf) (hw : Walking m ref s₀ D s new) {action : ActiveAction}
    (ha : s₀.actions.lookup e.val = some action) (hasleep : e.val ∉ new.map Entry.val) {n : ℕ}
    (hn : n ∈ action.iterEventRef) (hnm : n ∈ NodeList.nodes (s₀.events m))
    (hnD : n ∉ NodeList.nodes D) : n ∈ NodeList.nodes (s.events m) := by
  obtain ⟨g, hg, rfl⟩ := NodeList.mem_nodes.mp hnm
  have hgv : g.val = e.val := (h.reg_owner hg ha hn).symm
  refine (hw.walked.still_there h hg fun hgD => hnD (NodeList.node_mem_nodes hgD)).mpr ?_
  rwa [hgv]

/-- **One round** on a node that is still there. -/
theorem Walking.deliver (h : s₀.Wf) (hw : Walking m ref s₀ D s new) (he : e ∈ s₀.events m)
    (hD : e.node ∉ NodeList.nodes D) (hthere : e.node ∈ NodeList.nodes (s.events m)) :
    (∀ s', BasicScheduler.deliver m ref s e = .ok s' →
      ∃ new', Walking m ref s₀ (D ++ [e]) s' new') ∧
    (s₀.OwnerOk m e → ∃ s', BasicScheduler.deliver m ref s e = .ok s') := by
  have heD : e ∉ D := fun heD => hD (NodeList.node_mem_nodes heD)
  have hasleep := (hw.walked.still_there h he heD).mp hthere
  cases ha : s₀.actions.lookup e.val with
  | none =>
    have hdead := hw.handed.dead _ ha
    refine ⟨fun s' hs' => ?_, fun ⟨action, ha', _⟩ => by rw [ha] at ha'; cases ha'⟩
    have : s.deref e.val = .error .danglingAction := by rw [deref, hdead]
    simp [BasicScheduler.deliver, this, bind, Except.bind] at hs'
  | some action =>
    have hlook := hw.handed.asleep _ _ ha hasleep
    have hvec : (BasicScheduler.asleep ref D e.val action).iterEventRef.erase e.node =
        action.iterEventRef.filter (fun n => n ∉ NodeList.nodes (D ++ [e])) := h.erase_asleep ha
    have hmem : e.node ∈ (BasicScheduler.asleep ref D e.val action).iterEventRef :=
      List.mem_filter.mpr ⟨h.reg_mem he ha, by simpa using hD⟩
    have hok := fun s' => deliver_ok m ref s' hlook
      ((h.actions _ _ ha).regs_nodup.filter _) hmem
    have hany : (BasicScheduler.asleep ref D e.val action).bWaitAny = action.bWaitAny := rfl
    rw [hvec, hany] at hok
    have hsub : ∀ f ∈ D ++ [e], f ∈ s₀.events m := fun f hf => by
      rcases List.mem_append.mp hf with hf | hf
      · exact hw.sub f hf
      · rw [List.mem_singleton.mp hf]
        exact he
    have howners : s₀.OwnerOk m e → ∀ f ∈ D ++ [e], s₀.OwnerOk m f := fun hoe f hf => by
      rcases List.mem_append.mp hf with hf | hf
      · exact hw.owners f hf
      · rw [List.mem_singleton.mp hf]
        exact hoe
    refine ⟨fun s' hs' => ?_, fun hoe => ?_⟩
    · rcases (hok s').mp hs' with ⟨hleft, hall, rfl⟩ | ⟨hor, hin, rfl⟩
      · rw [h.hand_asleep ha]
        refine ⟨new, hw.handed.stay h he ha hasleep hall hleft, ?_, howners ?_, hsub⟩
        · obtain ⟨p, hp, hpe, hhead⟩ := hw.walked
          refine ⟨p, hp, fun f hf hfD => hpe f hf fun hfD' => hfD (List.mem_append_left _ hfD'),
            fun f hf => ?_⟩
          cases D with
          | nil =>
            obtain rfl : e = f := by simpa using hf
            exact (hpe _ he heD).mpr hasleep
          | cons d D => exact hhead f hf
        · exact ⟨action, ha, fun hany => by rw [hall] at hany; cases hany⟩
      · refine ⟨_, hw.handed.wake h he ha hasleep hor, hw.walked.wake h he hD ha hasleep hw.sub,
          howners ⟨action, ha, fun _ n hn => ?_⟩, hsub⟩
        by_cases hnD : n ∈ NodeList.nodes (D ++ [e])
        · obtain ⟨f, hf, rfl⟩ := NodeList.mem_nodes.mp hnD
          exact NodeList.node_mem_nodes (hsub f hf)
        · obtain ⟨p, hp, _⟩ := hw.walked
          have := hin n (List.mem_filter.mpr ⟨hn, by simpa using hnD⟩)
          rw [hp] at this
          exact (NodeList.nodes_filter_sublist _ _).subset this
    · obtain ⟨action', ha', hm⟩ := hoe
      rw [ha, Option.some.injEq] at ha'
      subst ha'
      by_cases hcase : action.iterEventRef.filter (fun n => n ∉ NodeList.nodes (D ++ [e])) = [] ∨
          action.bWaitAny = true
      · refine ⟨_, (hok _).mpr (.inr ⟨hcase, fun n hn => ?_, rfl⟩)⟩
        obtain ⟨hn, hnD⟩ := List.mem_filter.mp hn
        rw [decide_eq_true_eq, nodes_concat, List.mem_append, not_or] at hnD
        rcases hcase with hnil | hany
        · exact absurd (List.filter_eq_nil_iff.mp hnil n hn) (by simpa using hnD)
        · exact hw.vec_there h ha hasleep hn (hm hany n hn) hnD.1
      · rw [not_or] at hcase
        exact ⟨_, (hok _).mpr (.inl ⟨hcase.1, by simpa using hcase.2, rfl⟩)⟩

/-- The bound of the walk is still there unless its action has been woken. -/
theorem Walking.alive_iff (h : s₀.Wf) (hw : Walking m ref s₀ D s new)
    (hD : ∀ e ∈ D, e.key = ref) :
    NodeList.Alive (s.events m) (NodeList.upperBound (s₀.events m) ref) ↔
      ∀ u ∈ s₀.events m, NodeList.upperBound (s₀.events m) ref = some u.node →
        u.val ∉ new.map Entry.val := by
  have hn : (NodeList.nodes (s₀.events m)).Nodup := fst_held_events s₀ m ▸ h.containers.nodup _
  have hkey : ∀ u ∈ s₀.events m, NodeList.upperBound (s₀.events m) ref = some u.node → u ∉ D := by
    intro u hu hup huD
    obtain ⟨v, hv, hvu⟩ := Option.map_eq_some_iff.mp hup
    have hvm := List.mem_of_find?_eq_some hv
    have hlt : ref < v.key := by simpa using List.find?_some hv
    rw [NodeList.eq_of_node_eq hn hvm hu hvu, hD u huD] at hlt
    exact lt_irrefl _ hlt
  cases hup : NodeList.upperBound (s₀.events m) ref with
  | none => exact iff_of_true trivial fun u _ hu => by cases hu
  | some n =>
    obtain ⟨u, hu, hun⟩ := Option.map_eq_some_iff.mp hup
    have hum := List.mem_of_find?_eq_some hu
    subst hun
    have hstill := hw.walked.still_there h hum (hkey u hum hup)
    constructor
    · intro halive v hv hvu
      rw [NodeList.eq_of_node_eq hn hv hum (Option.some.inj hvu).symm]
      exact hstill.mp halive
    · intro hall
      exact hstill.mpr (hall u hum rfl)

/-- A condition on the upper bound that is enough for the whole walk. -/
theorem Walking.alive_of_clear (h : s₀.Wf) (hw : Walking m ref s₀ D s new)
    (hD : ∀ e ∈ D, e ∈ s₀.registrations m ref) (hclear : s₀.UpperClear m ref) :
    NodeList.Alive (s.events m) (NodeList.upperBound (s₀.events m) ref) := by
  have hkey : ∀ e ∈ D, e.key = ref := fun e he => by
    simpa using (List.mem_filter.mp (hD e he)).2
  refine (hw.alive_iff h hkey).mpr fun u hu hup huw => ?_
  obtain ⟨⟨e, he, heu⟩, action, ha, hor⟩ := (hw.handed.woken _).mp huw
  rcases hor with hany | hall
  · exact hclear u hu hup action ha hany e (hD e he) heu
  · obtain ⟨f, hf, hfu⟩ := NodeList.mem_nodes.mp (hall _ (h.reg_mem hu ha))
    have hn : (NodeList.nodes (s₀.events m)).Nodup := fst_held_events s₀ m ▸ h.containers.nodup _
    obtain ⟨v, hv, hvu⟩ := Option.map_eq_some_iff.mp hup
    have hlt : ref < v.key := by simpa using List.find?_some hv
    rw [NodeList.eq_of_node_eq hn (List.mem_of_find?_eq_some hv) hu hvu,
      ← NodeList.eq_of_node_eq hn (hw.sub f hf) hu hfu, hkey f hf] at hlt
    exact lt_irrefl _ hlt

/-- The next registration of the walk has not been walked over. -/
theorem Wf.reg_next {R : List (Entry Reference ℕ)} (h : s₀.Wf)
    (hR : s₀.registrations m ref = D ++ e :: R) :
    e ∈ s₀.registrations m ref ∧ e.node ∉ NodeList.nodes D := by
  refine ⟨by rw [hR]; simp, fun hD => ?_⟩
  have hnR : (NodeList.nodes (s₀.registrations m ref)).Nodup :=
    (fst_held_events s₀ m ▸ h.containers.nodup (.events m)).sublist
      (NodeList.nodes_filter_sublist _ _)
  rw [hR, NodeList.nodes_append] at hnR
  exact (List.nodup_append.mp hnR).2.2 _ hD _ (by simp) rfl

/-- **The walk**, from any point of it on. -/
theorem Walking.sweep (h : s₀.Wf) (R : List (Entry Reference ℕ)) :
    ∀ (D : List (Entry Reference ℕ)) (s : BasicScheduler) (new : List (Entry Unit ℕ)),
      s₀.registrations m ref = D ++ R → Walking m ref s₀ D s new →
      (∀ s', NodeList.sweep (fun s => s.events m) (BasicScheduler.deliver m ref) .erasedIterator
          (NodeList.upperBound (s₀.events m) ref) R s = .ok s' →
        ∃ new', Walking m ref s₀ (D ++ R) s' new' ∧
          NodeList.Alive (s'.events m) (NodeList.upperBound (s₀.events m) ref)) ∧
      (s₀.DeliverSafe m ref → ∃ s', NodeList.sweep (fun s => s.events m)
        (BasicScheduler.deliver m ref) .erasedIterator
          (NodeList.upperBound (s₀.events m) ref) R s = .ok s') := by
  induction R with
  | nil =>
    intro D s new hR hw
    rw [List.append_nil] at hR ⊢
    constructor
    · intro s' hs'
      simp only [NodeList.sweep] at hs'
      split at hs'
      · rename_i halive
        cases hs'
        exact ⟨new, hw, halive⟩
      · cases hs'
    · intro hsafe
      refine ⟨s, ?_⟩
      simp only [NodeList.sweep]
      rw [if_pos (hw.alive_of_clear h (fun e he => hR ▸ he) hsafe.upper)]
  | cons e R ih =>
    intro D s new hR hw
    obtain ⟨heR, hD⟩ := Wf.reg_next h hR
    have he : e ∈ s₀.events m := (List.mem_filter.mp heR).1
    have hR' : s₀.registrations m ref = (D ++ [e]) ++ R := by rw [hR]; simp
    have happ : D ++ e :: R = (D ++ [e]) ++ R := by simp
    have halive : s₀.DeliverSafe m ref →
        NodeList.Alive (s.events m) (NodeList.upperBound (s₀.events m) ref) := fun hsafe =>
      hw.alive_of_clear h (fun f hf => hR ▸ List.mem_append_left _ hf) hsafe.upper
    rw [happ]
    by_cases hthere : e.node ∈ NodeList.nodes (s.events m)
    · obtain ⟨hdel, htotal⟩ := hw.deliver h he hD hthere
      constructor
      · intro s' hs'
        simp only [NodeList.sweep, if_pos hthere] at hs'
        split at hs'
        · split at hs'
          · cases hs'
          · rename_i s₁ hs₁
            obtain ⟨new₁, hw₁⟩ := hdel s₁ hs₁
            exact (ih (D ++ [e]) s₁ new₁ hR' hw₁).1 s' hs'
        · cases hs'
      · intro hsafe
        obtain ⟨s₁, hs₁⟩ := htotal (hsafe.owners e heR)
        obtain ⟨new₁, hw₁⟩ := hdel s₁ hs₁
        obtain ⟨s', hs'⟩ := (ih (D ++ [e]) s₁ new₁ hR' hw₁).2 hsafe
        refine ⟨s', ?_⟩
        simp only [NodeList.sweep, if_pos hthere, if_pos (halive hsafe), hs₁]
        exact hs'
    · have hw₁ := hw.skip h he hD hthere
      obtain ⟨hok, htotal⟩ := ih (D ++ [e]) s new hR' hw₁
      constructor
      · intro s' hs'
        simp only [NodeList.sweep, if_neg hthere] at hs'
        split at hs'
        · exact hok s' hs'
        · cases hs'
      · intro hsafe
        obtain ⟨s', hs'⟩ := htotal hsafe
        refine ⟨s', ?_⟩
        simp only [NodeList.sweep, if_neg hthere, if_pos (halive hsafe)]
        exact hs'

end Walk

/-! ## The whole event -/

/-- No action holds an iterator into the event maps twice. -/
def RegsNodup (s : BasicScheduler) : Prop :=
  ∀ a action, s.actions.lookup a = some action → action.iterEventRef.Nodup

theorem Wf.regsNodup {s : BasicScheduler} (h : s.Wf) : s.RegsNodup :=
  fun a action ha => (h.actions a action ha).regs_nodup

theorem RegsNodup.insert {s s' : BasicScheduler} {a : ℕ} {action : ActiveAction}
    (h : s.RegsNodup) (hs' : s'.actions = s.actions.insert a action)
    (ha : action.iterEventRef.Nodup) : s'.RegsNodup := by
  intro b action' hb
  rw [hs'] at hb
  by_cases hba : b = a
  · subst hba
    rw [AList.lookup_insert, Option.some.injEq] at hb
    exact hb ▸ ha
  · rw [AList.lookup_insert_ne hba] at hb
    exact h b action' hb

/-- The body of the loop erases other nodes of the map only. -/
theorem deliver_erasesOthers (m : MapId) (ref : Reference) :
    NodeList.ErasesOthers RegsNodup (fun s : BasicScheduler => s.events m) (deliver m ref) := by
  intro s e s' hI _ hs'
  cases ha : s.actions.lookup e.val with
  | none =>
    have hd : s.deref e.val = .error .danglingAction := by rw [deref, ha]
    simp [deliver, hd, bind, Except.bind] at hs'
  | some action =>
    have hnd := hI _ _ ha
    by_cases he : e.node ∈ action.iterEventRef
    · rcases (deliver_ok _ _ _ ha hnd he).mp hs' with ⟨_, _, rfl⟩ | ⟨_, _, rfl⟩
      · exact ⟨hI.insert rfl (hnd.erase _), fun _ => true, rfl, by simp [setAction]⟩
      · refine ⟨hI.insert rfl List.nodup_nil,
          fun f => f.node ∉ action.iterEventRef.erase e.node, ?_, by simp [wake]⟩
        simpa using hnd.not_mem_erase
    · have hd : s.deref e.val = .ok action := deref_eq_ok.mpr ha
      have hs : deliver m ref s e = .ok s := by
        simp [deliver, hd, he, bind, Except.bind, pure, Except.pure]
      rw [hs, Except.ok.injEq] at hs'
      subst hs'
      exact ⟨hI, fun _ => true, rfl, by simp⟩

section Event
variable {m : MapId} {ref : Reference} {s s' : BasicScheduler}

/-- The loop of `onEvent` is one pass over the registrations on the reference. -/
theorem Wf.onEvent_walk (h : s.Wf) :
    NodeList.walk (fun s => s.events m) (deliver m ref) .erasedIterator .outOfFuel
        (NodeList.upperBound (s.events m) ref) ((s.events m).length + 1)
        (NodeList.lowerBound (s.events m) ref) s =
      NodeList.sweep (fun s => s.events m) (deliver m ref) .erasedIterator
        (NodeList.upperBound (s.events m) ref) (s.registrations m ref) s :=
  NodeList.walk_range _ _ (deliver_erasesOthers m ref) ref s h.regsNodup (h.containers.sorted m)
    (fst_held_events s m ▸ h.containers.nodup _) _ (Nat.lt_succ_self _)

/-- When the walk is over, the lower bound is still there and the rest of the range goes. -/
theorem Walking.finish {new : List (Entry Unit ℕ)} (h : s.Wf)
    (hw : Walking m ref s (s.registrations m ref) s' new)
    (halive : NodeList.Alive (s'.events m) (NodeList.upperBound (s.events m) ref)) :
    NodeList.Alive (s'.events m) (NodeList.lowerBound (s.events m) ref) ∧
      NodeList.eraseRange (NodeList.lowerBound (s.events m) ref)
          (NodeList.upperBound (s.events m) ref) (s'.events m) =
        (s.events m).filter (fun e => e.key ≠ ref ∧ e.val ∉ new.map Entry.val) := by
  have hn : (NodeList.nodes (s.events m)).Nodup := fst_held_events s m ▸ h.containers.nodup _
  have hsort := h.containers.sorted m
  obtain ⟨p, hp, hpe, hhead⟩ := hw.walked
  rw [registrations] at hhead
  have hsplit := hsort.split ref
  have hfinish := NodeList.eraseRange_filter (p := p) (hsplit ▸ hn)
    (by rw [← hsplit, ← hp, ← NodeList.upperBound_eq]; exact halive) hhead
  rw [← hsplit, ← hp, ← hsort.lowerBound_eq, ← NodeList.upperBound_eq] at hfinish
  refine ⟨hfinish.1, hfinish.2.trans ?_⟩
  have hfil : (s.events m).filter (fun e => e.key ≠ ref ∧ e.val ∉ new.map Entry.val) =
      (s.events m).filter (fun e => decide (e.key ≠ ref) && p e) := by
    refine List.filter_congr fun e he => ?_
    by_cases hk : e.key = ref
    · simp [hk]
    · have hpv := hpe e he fun heR => hk (by simpa using (List.mem_filter.mp heR).2)
      rw [Bool.eq_iff_iff, Bool.and_eq_true, hpv]
      simp [hk]
  have hA : ∀ e ∈ (s.events m).filter (fun e => e.key < ref), e.key ≠ ref := fun e he => by
    have : e.key < ref := by simpa using (List.mem_filter.mp he).2
    exact this.ne
  have hB : ∀ e ∈ (s.events m).filter (fun e => ref < e.key), e.key ≠ ref := fun e he => by
    have : ref < e.key := by simpa using (List.mem_filter.mp he).2
    exact this.ne'
  have hR : (NodeList.range (s.events m) ref).filter (fun e => decide (e.key ≠ ref) && p e) =
      [] := by
    refine List.filter_eq_nil_iff.mpr fun e he => ?_
    have : e.key = ref := by simpa using (List.mem_filter.mp he).2
    simp [this]
  rw [hfil]
  conv_rhs => rw [hsplit, List.filter_append, List.filter_append, hR, List.nil_append]
  congr 1
  · exact List.filter_congr fun e he => by simp [hA e he]
  · exact List.filter_congr fun e he => by simp [hB e he]

/-- **What `onEvent` does** when it succeeds. -/
theorem Wf.onEvent_delivers (h : s.Wf) (hs : s.onEvent m ref = .ok s') :
    ∃ new, Delivered m ref s s' new := by
  rw [onEvent, except_bind_ok] at hs
  obtain ⟨s₁, hs₁, hs'⟩ := hs
  rw [h.onEvent_walk] at hs₁
  obtain ⟨new, hw, halive⟩ :=
    (Walking.sweep h (s.registrations m ref) [] s [] rfl (walking_nil s)).1 s₁ hs₁
  rw [List.nil_append] at hw
  obtain ⟨hlower, herase⟩ := hw.finish h halive
  simp only [if_pos hlower, pure, Except.pure, Except.ok.injEq] at hs'
  refine ⟨new, ?_⟩
  subst hs'
  have hh := hw.handed
  exact
    { timeouts := hh.timeouts
      currentAction := hh.currentAction
      sleepState := hh.sleepState
      otherLists := hh.otherLists
      otherEvents := fun m' hm' => by simpa [hm'] using hh.otherEvents m' hm'
      active := hh.active
      new_nodes := hh.new_nodes
      new_nodup := hh.new_nodup
      next_le := hh.next_le
      woken_nodup := hh.woken_nodup
      woken := hh.woken
      dead := hh.dead
      asleep := hh.asleep
      awake := hh.awake
      events := by simpa using herase }

/-- **When `onEvent` succeeds.** -/
theorem Wf.onEvent_ok_iff (h : s.Wf) :
    (∃ s', s.onEvent m ref = .ok s') ↔ s.DeliverSafe m ref := by
  constructor
  · rintro ⟨s', hs⟩
    rw [onEvent, except_bind_ok] at hs
    obtain ⟨s₁, hs₁, _⟩ := hs
    rw [h.onEvent_walk] at hs₁
    obtain ⟨new, hw, halive⟩ :=
      (Walking.sweep h (s.registrations m ref) [] s [] rfl (walking_nil s)).1 s₁ hs₁
    rw [List.nil_append] at hw
    have hkey : ∀ e ∈ s.registrations m ref, e.key = ref := fun e he => by
      simpa using (List.mem_filter.mp he).2
    refine ⟨hw.owners, fun u hu hup action ha hany e he heu => ?_⟩
    refine (hw.alive_iff h hkey).mp halive u hu hup ((hw.handed.woken _).mpr ?_)
    exact ⟨⟨e, he, heu⟩, action, ha, .inl hany⟩
  · intro hsafe
    obtain ⟨s₁, hs₁⟩ :=
      (Walking.sweep h (s.registrations m ref) [] s [] rfl (walking_nil s)).2 hsafe
    obtain ⟨new, hw, halive⟩ :=
      (Walking.sweep h (s.registrations m ref) [] s [] rfl (walking_nil s)).1 s₁ hs₁
    rw [List.nil_append] at hw
    rw [← h.onEvent_walk] at hs₁
    simp only [onEvent, hs₁, bind, Except.bind, if_pos (hw.finish h halive).1]
    exact ⟨_, rfl⟩

/-! ## The invariant across an event -/

theorem Delivered.lookup {new : List (Entry Unit ℕ)} (hd : Delivered m ref s s' new) {a : ℕ}
    {action' : ActiveAction} (ha : s'.actions.lookup a = some action') :
    ∃ action, s.actions.lookup a = some action ∧
      ((a ∉ new.map Entry.val ∧
          action' = BasicScheduler.asleep ref (s.registrations m ref) a action) ∨
        (a ∈ new.map Entry.val ∧ ∃ n, (⟨n, (), a⟩ : Entry Unit ℕ) ∈ new ∧
          action' = BasicScheduler.awake ref (s.registrations m ref) s.sleepState.getActive n a
            action)) := by
  cases hs : s.actions.lookup a with
  | none => rw [hd.dead a hs] at ha; cases ha
  | some action =>
    refine ⟨action, rfl, ?_⟩
    by_cases hw : a ∈ new.map Entry.val
    · obtain ⟨n, hn, hl⟩ := hd.awake a action hs hw
      rw [hl, Option.some.injEq] at ha
      exact .inr ⟨hw, n, hn, ha.symm⟩
    · rw [hd.asleep a action hs hw, Option.some.injEq] at ha
      exact .inl ⟨hw, ha.symm⟩

theorem Delivered.live_iff {new : List (Entry Unit ℕ)} (hd : Delivered m ref s s' new) (a : ℕ) :
    s'.Live a ↔ s.Live a := by
  rw [BasicScheduler.live_iff, BasicScheduler.live_iff]
  constructor
  · rintro ⟨action', ha⟩
    obtain ⟨action, ha, _⟩ := hd.lookup ha
    exact ⟨action, ha⟩
  · rintro ⟨action, ha⟩
    by_cases hw : a ∈ new.map Entry.val
    · obtain ⟨n, _, hl⟩ := hd.awake a action ha hw
      exact ⟨_, hl⟩
    · exact ⟨_, hd.asleep a action ha hw⟩

/-- What the containers hold after the event. -/
theorem Delivered.held {new : List (Entry Unit ℕ)} (hd : Delivered m ref s s' new) (p : Place) :
    s'.held p =
      if p = .list s.sleepState.getActive then s.held p ++ new.map pair
      else if p = .events m then
        ((s.events m).filter (fun e => e.key ≠ ref ∧ e.val ∉ new.map Entry.val)).map pair
      else s.held p := by
  cases p with
  | list l =>
    by_cases hl : l = s.sleepState.getActive
    · subst hl
      simp only [BasicScheduler.held, hd.active, getActive, List.map_append, if_true]
    · simp [BasicScheduler.held, hd.otherLists l hl, hl]
  | timeouts => simp [BasicScheduler.held, hd.timeouts]
  | events m' =>
    by_cases hm : m' = m
    · subst hm
      simp only [BasicScheduler.held, hd.events, reduceCtorEq, if_false, if_true]
    · simp [BasicScheduler.held, hd.otherEvents m' hm, hm]

theorem Delivered.held_cases {new : List (Entry Unit ℕ)} (hd : Delivered m ref s s' new)
    {p : Place} {x : ℕ × ℕ} (hx : x ∈ s'.held p) :
    x ∈ s.held p ∨ (p = .list s.sleepState.getActive ∧ x ∈ new.map pair) := by
  rw [hd.held] at hx
  split at hx
  · rename_i hp
    exact (List.mem_append.mp hx).imp_right fun h => ⟨hp, h⟩
  · split at hx
    · rename_i hp
      subst hp
      obtain ⟨e, he, rfl⟩ := List.mem_map.mp hx
      exact .inl (List.mem_map_of_mem (List.mem_filter.mp he).1)
    · exact .inl hx

theorem Delivered.mem_regs {new : List (Entry Unit ℕ)} (h : s.Wf) (hd : Delivered m ref s s' new)
    {m' : MapId} {n a : ℕ} : (n, a) ∈ s'.held (.events m') ↔
      (n, a) ∈ s.held (.events m') ∧
        (m' = m → n ∉ NodeList.nodes (s.registrations m ref) ∧ a ∉ new.map Entry.val) := by
  rw [hd.held, if_neg (by simp)]
  split
  · rename_i hm
    obtain rfl : m' = m := by simpa using hm
    have hn : (NodeList.nodes (s.events m')).Nodup := fst_held_events s m' ▸ h.containers.nodup _
    simp only [List.mem_map, List.mem_filter, BasicScheduler.held, pair, Prod.mk.injEq,
      decide_eq_true_eq, true_imp_iff]
    constructor
    · rintro ⟨e, ⟨he, hk, hv⟩, rfl, rfl⟩
      refine ⟨⟨e, he, rfl, rfl⟩, fun hR => hk ?_, hv⟩
      obtain ⟨f, hf, hfe⟩ := NodeList.mem_nodes.mp hR
      obtain ⟨hfm, hfk⟩ := List.mem_filter.mp hf
      rw [NodeList.eq_of_node_eq hn he hfm hfe.symm]
      simpa using hfk
    · rintro ⟨⟨e, he, rfl, rfl⟩, hR, hv⟩
      exact ⟨e, ⟨he, fun hk => hR (NodeList.node_mem_nodes (List.mem_filter.mpr
        ⟨he, by simpa using hk⟩)), hv⟩, rfl, rfl⟩
  · rename_i hm
    have hm' : m' ≠ m := by simpa using hm
    simp [hm']

theorem Delivered.containers {new : List (Entry Unit ℕ)} (h : s.Wf)
    (hd : Delivered m ref s s' new) : s'.Containers := by
  have hnew : ∀ x ∈ new.map pair, s.next ≤ x.1 ∧ x.1 < s'.next := by
    intro x hx
    obtain ⟨e, he, rfl⟩ := List.mem_map.mp hx
    exact hd.new_nodes e he
  have hfst : (new.map pair).map Prod.fst = NodeList.nodes new := by
    simp [NodeList.nodes, pair, Function.comp_def]
  refine ⟨fun p => ?_, fun p q x y hx hy hxy => ?_, fun p x hx => ?_, fun m' => ?_⟩
  · rw [hd.held]
    split
    · rw [List.map_append, hfst]
      refine (h.containers.nodup p).append hd.new_nodup fun n hn hn' => ?_
      obtain ⟨x, hx, rfl⟩ := List.mem_map.mp hn
      rw [← hfst] at hn'
      obtain ⟨y, hy, hyx⟩ := List.mem_map.mp hn'
      have h1 := (h.containers.fresh p x hx).1
      have h2 := (hnew y hy).1
      omega
    · split
      · rename_i hp
        subst hp
        exact (h.containers.nodup (.events m)).sublist ((List.filter_sublist.map pair).map Prod.fst)
      · exact h.containers.nodup p
  · rcases hd.held_cases hx with hx | ⟨hp, hxn⟩
    · rcases hd.held_cases hy with hy | ⟨hq, hyn⟩
      · exact h.containers.unique p q x y hx hy hxy
      · have h1 := (h.containers.fresh p x hx).1
        have h2 := (hnew y hyn).1
        omega
    · rcases hd.held_cases hy with hy | ⟨hq, hyn⟩
      · have h1 := (h.containers.fresh q y hy).1
        have h2 := (hnew x hxn).1
        omega
      · rw [hp, hq]
  · have hnext := hd.next_le
    rcases hd.held_cases hx with hx | ⟨_, hxn⟩
    · have := h.containers.fresh p x hx
      omega
    · obtain ⟨e, he, rfl⟩ := List.mem_map.mp hxn
      obtain ⟨_, action, ha, _⟩ := (hd.woken e.val).mp (List.mem_map_of_mem he)
      have := h.live_lt e.val (BasicScheduler.live_iff.mpr ⟨_, ha⟩)
      exact ⟨(hnew _ hxn).2, this.trans_le hnext⟩
  · by_cases hm : m' = m
    · subst hm
      rw [hd.events]
      exact (h.containers.sorted m').filter _
    · rw [hd.otherEvents m' hm]
      exact h.containers.sorted m'

theorem Delivered.actionOk {new : List (Entry Unit ℕ)} (h : s.Wf) (hd : Delivered m ref s s' new)
    (hsafe : s.DeliverSafe m ref) {a : ℕ} {action' : ActiveAction}
    (ha : s'.actions.lookup a = some action') : s'.ActionOk a action' := by
  have hsub : ∀ p x, (∀ m', p ≠ .events m') → x ∈ s.held p → x ∈ s'.held p := by
    intro p x hp hx
    rw [hd.held]
    split
    · exact List.mem_append_left _ hx
    · rw [if_neg (hp m)]
      exact hx
  obtain ⟨action, hs, ⟨hw, rfl⟩ | ⟨hw, n, hn, rfl⟩⟩ := hd.lookup ha
  · have hok := h.actions a action hs
    refine ⟨fun l k hk => ?_, fun k hk => ?_, hok.regs_nodup.filter _, fun k => ?_⟩
    · exact hsub _ _ (by simp) (hok.list l k hk)
    · exact hsub _ _ (by simp) (hok.timeout k hk)
    · simp only [BasicScheduler.asleep, List.mem_filter, hok.regs k, hd.mem_regs h,
        decide_eq_true_eq]
      constructor
      · rintro ⟨⟨m', hm'⟩, hk⟩
        exact ⟨m', hm', fun _ => ⟨hk, hw⟩⟩
      · rintro ⟨m', hm', hk⟩
        refine ⟨⟨m', hm'⟩, fun hR => ?_⟩
        obtain ⟨f, hf, rfl⟩ := NodeList.mem_nodes.mp hR
        have hfm := (List.mem_filter.mp hf).1
        have := h.containers.unique _ _ _ _ hm'
          (mem_held_events.mpr ⟨f, hfm, rfl, rfl⟩ : (f.node, f.val) ∈ s.held (.events m)) rfl
        exact (hk (by simpa using this)).1 hR
  · have hok := h.actions a action hs
    refine ⟨fun l k hk => ?_, fun k hk => ?_, List.nodup_nil, fun k => ?_⟩
    · by_cases hl : l = s.sleepState.getActive
      · subst hl
        simp only [BasicScheduler.awake, Function.update_self, Option.some.injEq] at hk
        subst hk
        rw [hd.held, if_pos rfl]
        exact List.mem_append_right _ (List.mem_map_of_mem (f := pair) hn)
      · simp only [BasicScheduler.awake, Function.update_of_ne hl] at hk
        exact hsub _ _ (by simp) (hok.list l k hk)
    · exact hsub _ _ (by simp) (hok.timeout k hk)
    · simp only [BasicScheduler.awake, List.not_mem_nil, false_iff, not_exists]
      intro m' hk
      obtain ⟨hk, hkm⟩ := (hd.mem_regs h).mp hk
      have hm : m' ≠ m := fun hm => (hkm hm).2 hw
      have hkv := (hok.regs k).mpr ⟨m', hk⟩
      -- all its registrations are in `m`
      have hkn : k ∈ NodeList.nodes (s.events m) := by
        obtain ⟨⟨e, he, rfl⟩, action₁, h₁, hor⟩ := (hd.woken _).mp hw
        rw [hs, Option.some.injEq] at h₁
        subst h₁
        rcases hor with hany | hall
        · obtain ⟨action₂, h₂, hin⟩ := hsafe.owners e he
          rw [hs, Option.some.injEq] at h₂
          subst h₂
          exact hin hany k hkv
        · exact (NodeList.nodes_filter_sublist _ _).subset (hall k hkv)
      obtain ⟨f, hf, rfl⟩ := NodeList.mem_nodes.mp hkn
      have := h.containers.unique _ _ _ _ hk
        (mem_held_events.mpr ⟨f, hf, rfl, rfl⟩ : (f.node, f.val) ∈ s.held (.events m)) rfl
      exact hm (by simpa using this)

theorem Wf.onEvent (h : s.Wf) (hs : s.onEvent m ref = .ok s') : s'.Wf := by
  obtain ⟨new, hd⟩ := h.onEvent_delivers hs
  have hsafe := h.onEvent_ok_iff.mp ⟨s', hs⟩
  refine ⟨hd.containers h, fun a action' ha => hd.actionOk h hsafe ha, fun a ha => ?_,
    fun a b action' action'' ha hb hk => ?_⟩
  · exact (h.live_lt a ((hd.live_iff a).mp ha)).trans_le hd.next_le
  · obtain ⟨action₁, h₁, hor₁⟩ := hd.lookup ha
    obtain ⟨action₂, h₂, hor₂⟩ := hd.lookup hb
    have hr₁ : action'.ref = action₁.ref := by
      rcases hor₁ with ⟨_, rfl⟩ | ⟨_, _, _, rfl⟩ <;> rfl
    have hr₂ : action''.ref = action₂.ref := by
      rcases hor₂ with ⟨_, rfl⟩ | ⟨_, _, _, rfl⟩ <;> rfl
    exact h.keys a b action₁ action₂ h₁ h₂ (hr₁ ▸ hr₂ ▸ hk)

end Event

end BasicScheduler
end EgLang.Scheduler
