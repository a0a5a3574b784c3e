import EgLang.Scheduler.EventDelivery
import EgLang.Scheduler.Safety
import EgLang.Scheduler.Sleeping

/-! # The loop over the events that never came

At the end of `cycle` the actions that still wait for events are stopped, one round of a loop for each. To
stop an action signals its reference, which wakes those that wait for it, and its stopper may stop others.
No round adds a registration, and every round removes one.
-/

namespace EgLang.Scheduler
open Library
set_option autoImplicit false

namespace BasicScheduler

/-- Every registration belongs to a registered action, all of whose registrations are in the same map. -/
def Owned (s : BasicScheduler) : Prop := ∀ k, s.EventMap k

instance (s : BasicScheduler) : Decidable s.Owned := inferInstanceAs (Decidable (∀ k, s.EventMap k))

/-- The action is registered with the scheduler for an event. -/
def Awaits (s : BasicScheduler) (k : MapId) (a : ℕ) : Prop := ∃ e ∈ s.events k, e.val = a

instance (s : BasicScheduler) (k : MapId) (a : ℕ) : Decidable (s.Awaits k a) :=
  inferInstanceAs (Decidable (∃ e ∈ s.events k, e.val = a))

section Owned
variable {s s' : BasicScheduler} {a b : ℕ} {k k' : MapId} {e f : Entry Reference ℕ}

theorem Owned.live (h : s.Owned) (he : e ∈ s.events k) : s.Live e.val := by
  obtain ⟨action, ha, -⟩ := h k e he
  exact live_iff.mpr ⟨action, ha⟩

/-- The registrations of an action are in one map. -/
theorem Owned.eq_map (hw : s.Wf) (h : s.Owned) (he : e ∈ s.events k) (hf : f ∈ s.events k')
    (hval : f.val = e.val) : k' = k := by
  obtain ⟨action, ha, hall⟩ := h k e he
  have hreg : f.node ∈ action.iterEventRef := hw.reg_mem hf (by rw [hval]; exact ha)
  obtain ⟨g, hg, hnode⟩ := NodeList.mem_nodes.mp (hall f.node hreg)
  have hheld : (f.node, f.val) ∈ s.held (.events k') := mem_held_events.mpr ⟨f, hf, rfl, rfl⟩
  have hheld' : (g.node, g.val) ∈ s.held (.events k) := mem_held_events.mpr ⟨g, hg, rfl, rfl⟩
  have hplace := hw.containers.unique _ _ _ _ hheld hheld' hnode.symm
  exact Place.events.inj hplace

/-- Registrations stay owned when some of them go, with their actions or not. -/
theorem Owned.shrink (hw : s.Wf) (hw' : s'.Wf) (h : s.Owned)
    (hsub : ∀ k, ∀ e ∈ s'.events k, e ∈ s.events k ∧ s'.Live e.val) : s'.Owned := by
  intro k e he
  obtain ⟨hes, hlive⟩ := hsub k e he
  obtain ⟨action, ha⟩ := live_iff.mp hlive
  refine ⟨action, ha, fun n hn => ?_⟩
  obtain ⟨k', hk'⟩ := ((hw'.actions e.val action ha).regs n).mp hn
  obtain ⟨f, hf, rfl, hval⟩ := mem_held_events.mp hk'
  obtain rfl := h.eq_map hw hes (hsub k' f hf).1 hval
  exact NodeList.node_mem_nodes hf

end Owned

/-! ## Stopping one action -/

section Unregister
variable {s s₁ s₂ : BasicScheduler} {a b : ℕ} {action action₁ : ActiveAction} {new : List (Entry Unit ℕ)}
  {k : MapId} {e : Entry Reference ℕ}

theorem Unregistered.events_sub (h : Unregistered a action new action₁ s s₁ s₂)
    (he : e ∈ (s₂.eraseAction a).events k) : e ∈ s.events k ∧ e.val ≠ a := by
  have hevents : (s₂.eraseAction a).events k = (s₁.events k).filter fun e => e.val ≠ a := h.withdrawn.events k
  rw [hevents] at he
  obtain ⟨he₁, hne⟩ := List.mem_filter.mp he
  exact ⟨(h.signalled.events_sub k e he₁).1, of_decide_eq_true hne⟩

theorem Unregistered.live (h : Unregistered a action new action₁ s s₁ s₂) (hb : b ≠ a) (hlive : s.Live b) :
    (s₂.eraseAction a).Live b := by
  obtain ⟨actionb, hlookup⟩ := live_iff.mp ((h.signalled.live_iff b).mpr hlive)
  have hlookup₂ : (s₂.eraseAction a).actions.lookup b = some actionb := by
    rw [eraseAction, AList.lookup_erase_ne hb, h.withdrawn.others b hb, hlookup]
  exact live_iff.mpr ⟨actionb, hlookup₂⟩

/-- An action that is registered and neither stopped nor woken stays registered. -/
theorem Unregistered.registered (h : Unregistered a action new action₁ s s₁ s₂) (hb : b ≠ a)
    (hlive : s.Live b) (hnew : b ∉ new.map Entry.val) (he : ∃ k, ∃ e ∈ s.events k, e.val = b) :
    ∃ k, ∃ e ∈ (s₂.eraseAction a).events k, e.val = b := by
  obtain ⟨k, e, he₁, hval⟩ := h.signalled.events_left b hlive hnew he
  refine ⟨k, e, ?_, hval⟩
  have hevents : (s₂.eraseAction a).events k = (s₁.events k).filter fun e => e.val ≠ a := h.withdrawn.events k
  rw [hevents]
  exact List.mem_filter.mpr ⟨he₁, decide_eq_true (by rw [hval]; exact hb)⟩

theorem Unregistered.view_woken (h : Unregistered a action new action₁ s s₁ s₂) (hb : b ≠ a)
    (hnew : b ∈ new.map Entry.val) :
    s.Wakes action.ref b ∧ ∃ v n, s.view b = some v ∧
      (s₂.eraseAction a).view b = some (v.deregister.put s.sleepState.getActive n) := by
  obtain ⟨hwakes, v, n, hv, hv₁⟩ := h.signalled.view_woken hnew
  have hafter := (h.withdrawn.untouched h.lookup h.wf₁ hb).trans (untouched_eraseAction hb)
  exact ⟨hwakes, v, n, hv, hafter.view.trans hv₁⟩

end Unregister
end BasicScheduler

namespace Machine
open BasicScheduler

/-! ## The loop and its stoppers -/

def Frame.isStopper : Frame → Bool
  | .stopper _ _ _ => true
  | _ => false

/-- The loop is in progress above some frames, with the stoppers it has called. -/
def InCleanUp (frames : List Frame) (m : Machine) : Prop :=
  ∃ stoppers : List Frame, m.frames = stoppers ++ .cycle .ending :: frames ∧
    ∀ f ∈ stoppers, Frame.isStopper f = true

/-- What a stopper may do: stop further actions, start or unpause some, and return. It registers nothing and
signals nothing. The ticks are those of the loop. -/
def stopperInput : Input → Bool
  | .operation (.stop _) | .operation (.stopperStopped _) | .operation (.allocated _ _)
  | .operation (.call _ _ _) | .operation (.unpause _) => true
  | .ret | .tick _ => true
  | _ => false

/-- The steps of the loop and its stoppers. -/
def LoopStep (frames : List Frame) (m : Machine) (i : Input) : Prop :=
  InCleanUp frames m ∧ stopperInput i = true

/-- **The condition**: those that stop and delete nothing they must not. -/
def CleanUpStep (frames : List Frame) (m : Machine) (i : Input) : Prop := LoopStep frames m i ∧ m.StepClear i

theorem inCleanUp_iff {frames : List Frame} {m : Machine} :
    InCleanUp frames m ↔ m.frames.dropWhile Frame.isStopper = .cycle .ending :: frames := by
  constructor
  · rintro ⟨stoppers, hfr, hall⟩
    rw [hfr, List.dropWhile_append_of_pos hall]
    exact List.dropWhile_cons_of_neg (by simp [Frame.isStopper])
  · intro hfr
    refine ⟨m.frames.takeWhile Frame.isStopper, ?_, List.all_eq_true.mp List.all_takeWhile⟩
    rw [← hfr, List.takeWhile_append_dropWhile]

instance (frames : List Frame) (m : Machine) : Decidable (InCleanUp frames m) :=
  decidable_of_iff _ inCleanUp_iff.symm

instance (frames : List Frame) (m : Machine) (i : Input) : Decidable (CleanUpStep frames m i) :=
  inferInstanceAs (Decidable ((InCleanUp frames m ∧ stopperInput i = true) ∧ m.StepClear i))

/-- What a step of the loop does. -/
inductive CleanUpRound (frames : List Frame) (m : Machine) (i : Input) (m' : Machine) : Prop
  | stops {a : ℕ} {action : ActiveAction} {s' : BasicScheduler} (hstops : m.Stops a i)
      (ha : m.sched.actions.lookup a = some action) (hs : m.sched.unregister a action = .ok s')
      (hactions : m'.sched.actions = s'.actions) (hevents : m'.sched.events = s'.events)
      (hviews : ∀ c, Untouched c s' m'.sched) (hframes : InCleanUp frames m')
  | keeps (hevents : m'.sched.events = m.sched.events) (hlive : ∀ b, m.sched.Live b → m'.sched.Live b)
      (hnot : ∀ b, ¬ m.Stops b i) (htick : ∀ now, i ≠ .tick now) (hframes : InCleanUp frames m')
  | returns (hwait : m.sched.events .wait = []) (hsched : m'.sched = m.sched)
      (hnot : ∀ b, ¬ m.Stops b i) (hframes : m'.frames = frames)

section Rounds
variable {frames : List Frame} {m m' : Machine} {i : Input} {a b : ℕ}

theorem InCleanUp.stopper {s : BasicScheduler} {p q r : ℕ} (h : InCleanUp frames m) :
    InCleanUp frames ⟨s, .stopper p q r :: m.frames⟩ := by
  obtain ⟨stoppers, hfr, hall⟩ := h
  refine ⟨.stopper p q r :: stoppers, ?_, List.forall_mem_cons.mpr ⟨rfl, hall⟩⟩
  rw [hfr]
  rfl

theorem InCleanUp.same {s : BasicScheduler} (h : InCleanUp frames m) : InCleanUp frames ⟨s, m.frames⟩ := h

/-- The topmost frame is that of the loop or of a stopper. -/
theorem InCleanUp.top {f : Frame} {rest : List Frame} (h : InCleanUp frames m) (hfr : m.frames = f :: rest) :
    (f = .cycle .ending ∧ rest = frames) ∨
      (Frame.isStopper f = true ∧ ∀ s, InCleanUp frames ⟨s, rest⟩) := by
  obtain ⟨stoppers, hstoppers, hall⟩ := h
  rw [hfr] at hstoppers
  cases stoppers with
  | nil =>
    obtain ⟨rfl, rfl⟩ := List.cons.inj hstoppers
    exact Or.inl ⟨rfl, rfl⟩
  | cons g stoppers =>
    obtain ⟨rfl, rfl⟩ := List.cons.inj hstoppers
    rw [List.forall_mem_cons] at hall
    exact Or.inr ⟨hall.1, fun s => ⟨stoppers, rfl, hall.2⟩⟩

/-- Only actions that are registered with the scheduler are stopped. -/
theorem Stops.live (hown : m.sched.Owned) (h : m.Stops b i) : m.sched.Live b := by
  have hfind : ∀ {ref}, m.sched.find ref = some b → m.sched.Live b := by
    intro ref hf
    obtain ⟨action, ha, -⟩ := find_eq_some hf
    exact live_iff.mpr ⟨action, ha⟩
  cases i with
  | operation op =>
    cases op with
    | stop ref => exact hfind h
    | stopperStopped ref => exact hfind h
    | _ => cases h
  | tick now =>
    obtain ⟨e, he, rfl⟩ := Option.map_eq_some_iff.mp h.2
    exact hown.live (List.mem_of_mem_head? he)
  | _ => cases h

theorem cleanUpRound (hw : m.Wf) (hin : InCleanUp frames m) (hi : stopperInput i = true)
    (hstep : step m i = .ok m') : CleanUpRound frames m i m' := by
  have htop : ∀ {f : Frame} {rest : List Frame}, m.frames = f :: rest → f ≠ .cycle .ending →
      Frame.isStopper f = false → False := by
    intro f rest hfr hne hnot
    cases hin.top hfr with
    | inl hcycle => exact hne hcycle.1
    | inr hstopper =>
      rw [hstopper.1] at hnot
      cases hnot
  cases hw.transition hstep with
  | @idle op hu hop =>
    refine .keeps rfl (fun b hb => hb) (fun b hstops => ?_) (fun now h => by cases h) hin
    cases op with
    | stop ref =>
      have hnone : m.sched.find ref = none := hop
      rw [Stops, hnone] at hstops
      cases hstops
    | stopperStopped ref =>
      have hnone : m.sched.find ref = none := hop
      rw [Stops, hnone] at hstops
      cases hstops
    | _ => cases hstops
  | allocated hu hf =>
    refine .keeps rfl (fun b hb => ?_) (fun b h => by cases h) (fun now h => by cases h) hin.same
    exact (evolves_create _ _ _ _).live b hb (by simp)
  | @call ref pStopper op s' hu hf hs =>
    obtain ⟨action, -, rfl⟩ := listInsert_ok.mp hs
    refine .keeps rfl (fun b hb => ?_) (fun b h => by cases h) (fun now h => by cases h) hin.same
    exact ((evolves_create _ _ _ _).trans (evolves_listInsert hs)).live b hb (by simp)
  | signal hu hs => cases hi
  | stop hu hf ha hs => exact .stops hf ha hs rfl rfl (fun c => .refl c _) hin.stopper
  | @stopperStopped ref a action s' hu hf ha hs =>
    refine .stops hf ha hs (clearCurrent_actions s' a) ?_ (fun c => untouched_clearCurrent s' a) hin.same
    rw [BasicScheduler.clearCurrent]
    split <;> rfl
  | pause hu hf ha hw hs => cases hi
  | @unpause ref a action s₁ s' hu hf ha hr hs =>
    obtain ⟨action₂, -, rfl⟩ := listInsert_ok.mp hs
    refine .keeps ?_ (fun b hb => ?_) (fun b h => by cases h) (fun now h => by cases h) hin.same
    · obtain ⟨action₁, -, ⟨-, rfl⟩ | ⟨n, -, -, rfl⟩⟩ := listRemove_ok.mp hr <;> rfl
    · exact ((evolves_listRemove hr).trans (evolves_listInsert hs)).live b hb (by simp)
  | cycle hu => cases hi
  | orphan hfr hcur => cases hi
  | yieldWait hfr hcur ha hs => cases hi
  | yieldSleep hfr hcur ha hs => cases hi
  | yieldEvents hfr hcur ha hr hs => cases hi
  | yieldTimeout hfr hcur ha hs => cases hi
  | yieldTerminated hfr hcur ha hs => cases hi
  | @retStopper a p q rest hfr =>
    cases hin.top hfr with
    | inl hcycle => cases hcycle.1
    | inr hstopper =>
      refine .keeps ?_ (fun b hb => ?_) (fun b h => by cases h) (fun now h => by cases h) (hstopper.2 _)
      · change (BasicScheduler.clearCurrent a m.sched).events = _
        rw [BasicScheduler.clearCurrent]
        split <;> rfl
      · change (BasicScheduler.clearCurrent a m.sched).Live b
        rw [Live, clearCurrent_actions]
        exact hb
  | retTerminated hfr => exact (htop hfr (by simp) rfl).elim
  | due hfr ht hk hr hs => exact (htop hfr (by simp) rfl).elim
  | startSwap hfr => exact (htop hfr (by simp) rfl).elim
  | start hfr => exact (htop hfr (by simp) rfl).elim
  | toEnding hfr => exact (htop hfr (by simp) rfl).elim
  | resume hfr => exact (htop hfr (by simp) rfl).elim
  | returns hfr hev =>
    cases hin.top hfr with
    | inl hcycle =>
      refine .returns hev rfl (fun b hstops => ?_) hcycle.2
      have hhead := hstops.2
      rw [hev] at hhead
      cases hhead
    | inr hstopper => cases hstopper.1
  | @neverCame now e rest action s' frames' hfr hev ha hs =>
    refine .stops ⟨?_, ?_⟩ ha hs rfl rfl (fun c => .refl c _) hin.stopper
    · rw [hfr]
      rfl
    · rw [hev]
      rfl

theorem Stops.unique (h : m.Stops a i) (h' : m.Stops b i) : a = b := by
  cases i with
  | operation op =>
    cases op with
    | stop ref => exact Option.some.inj (Eq.trans (Eq.symm h) h')
    | stopperStopped ref => exact Option.some.inj (Eq.trans (Eq.symm h) h')
    | _ => cases h
  | tick now => exact Option.some.inj (h.2.symm.trans h'.2)
  | _ => cases h

theorem CleanUpRound.frames_cases (h : CleanUpRound frames m i m') :
    InCleanUp frames m' ∨ (m.sched.events .wait = [] ∧ m'.sched = m.sched ∧ m'.frames = frames) := by
  cases h with
  | stops hstops ha hs hactions hevents hviews hframes => exact Or.inl hframes
  | keeps hevents hlive hnot htick hframes => exact Or.inl hframes
  | returns hwait hsched hnot hframes => exact Or.inr ⟨hwait, hsched, hframes⟩

/-- No round adds a registration, and the action that is stopped loses its own. -/
theorem CleanUpRound.events_sub (hw : m.Wf) (h : CleanUpRound frames m i m') {k : MapId}
    {e : Entry Reference ℕ} (he : e ∈ m'.sched.events k) :
    e ∈ m.sched.events k ∧ ¬ m.Stops e.val i := by
  cases h with
  | @stops a action s' hstops ha hs hactions hevents hviews hframes =>
    obtain ⟨new, action₁, s₁, s₂, hun, rfl⟩ := hw.sched.unregister ha hs
    rw [hevents] at he
    obtain ⟨hes, hne⟩ := hun.events_sub he
    exact ⟨hes, fun hstop => hne (hstop.unique hstops)⟩
  | keeps hevents hlive hnot htick hframes =>
    rw [hevents] at he
    exact ⟨he, hnot e.val⟩
  | returns hwait hsched hnot hframes =>
    rw [hsched] at he
    exact ⟨he, hnot e.val⟩

theorem CleanUpRound.live (hw : m.Wf) (h : CleanUpRound frames m i m') (hb : ¬ m.Stops b i)
    (hlive : m.sched.Live b) : m'.sched.Live b := by
  cases h with
  | @stops a action s' hstops ha hs hactions hevents hviews hframes =>
    obtain ⟨new, action₁, s₁, s₂, hun, rfl⟩ := hw.sched.unregister ha hs
    rw [Live, hactions]
    exact hun.live (fun hba => hb (hba ▸ hstops)) hlive
  | keeps hevents hstays hnot htick hframes => exact hstays b hlive
  | returns hwait hsched hnot hframes => rwa [hsched]

theorem CleanUpRound.owned (hw : m.Wf) (hw' : m'.Wf) (hown : m.sched.Owned)
    (h : CleanUpRound frames m i m') : m'.sched.Owned := by
  refine hown.shrink hw.sched hw'.sched fun k e he => ?_
  obtain ⟨hes, hnot⟩ := h.events_sub hw he
  exact ⟨hes, h.live hw hnot (hown.live hes)⟩

/-- An action that is stopped is gone. -/
theorem CleanUpRound.gone (hw : m.Wf) (h : CleanUpRound frames m i m') (ha : m.Stops a i) :
    m'.sched.view a = none := by
  cases h with
  | @stops b action s' hstops hb hs hactions hevents hviews hframes =>
    obtain ⟨new, action₁, s₁, s₂, hun, rfl⟩ := hw.sched.unregister hb hs
    obtain rfl := ha.unique hstops
    rw [view_eq_none, hactions]
    exact AList.lookup_erase a _
  | keeps hevents hlive hnot htick hframes => exact (hnot a ha).elim
  | returns hwait hsched hnot hframes => exact (hnot a ha).elim

/-- An action is woken by the stop of one whose event it waits for. -/
def WokenByStop (a : ℕ) (t : Taken Machine Input) : Prop :=
  ∃ b action v n, b ≠ a ∧ t.before.Stops b t.input ∧ t.before.sched.actions.lookup b = some action ∧
    t.before.sched.RegisteredOn .wait action.ref a ∧ t.before.sched.view a = some v ∧
    t.after.sched.view a = some (v.deregister.put t.before.sched.sleepState.getActive n)

/-- An action that waits goes on waiting, is stopped, or is woken by a stop. -/
theorem CleanUpRound.waits (hw : m.Wf) (hown : m.sched.Owned) (h : CleanUpRound frames m i m')
    (hb : m.sched.Awaits .wait b) :
    (m'.sched.Awaits .wait b ∧ ¬ m.Stops b i) ∨ m.Stops b i ∨ WokenByStop b ⟨m, i, m'⟩ := by
  obtain ⟨e, he, hval⟩ := hb
  cases hround : h with
  | @stops a action s' hstops ha hs hactions hevents hviews hframes =>
    by_cases hba : b = a
    · rw [hba]
      exact Or.inr (Or.inl hstops)
    obtain ⟨new, action₁, s₁, s₂, hun, rfl⟩ := hw.sched.unregister ha hs
    have hnot : ¬ m.Stops b i := fun hb => hba (hb.unique hstops)
    by_cases hnew : b ∈ new.map Entry.val
    · obtain ⟨⟨⟨k, f, hf, hfval, hkey⟩, -⟩, v, n, hv, hv'⟩ := hun.view_woken hba hnew
      obtain rfl := hown.eq_map hw.sched he hf (hfval.trans hval.symm)
      exact Or.inr (Or.inr ⟨a, action, v, n, Ne.symm hba, hstops, ha, ⟨f, hf, hfval, hkey⟩, hv,
        (hviews b).view.trans hv'⟩)
    · obtain ⟨k, f, hf, hfval⟩ :=
        hun.registered hba (hval ▸ hown.live he) hnew ⟨.wait, e, he, hval⟩
      rw [← hevents] at hf
      obtain rfl := hown.eq_map hw.sched he (h.events_sub hw hf).1 (hfval.trans hval.symm)
      exact Or.inl ⟨⟨f, hf, hfval⟩, hnot⟩
  | keeps hevents hlive hnot htick hframes =>
    refine Or.inl ⟨⟨e, ?_, hval⟩, hnot b⟩
    rw [hevents]
    exact he
  | returns hwait hsched hnot hframes =>
    rw [hwait] at he
    cases he

theorem nodup_events (hw : m.Wf) (k : MapId) : (m.sched.events k).Nodup :=
  (fst_held_events m.sched k ▸ hw.sched.containers.nodup (.events k)).of_map

def isTick : Input → Bool
  | .tick _ => true
  | _ => false

theorem not_inCleanUp_self : ¬ InCleanUp m.frames m := by
  rintro ⟨stoppers, hfr, -⟩
  have hlength := congrArg List.length hfr
  rw [List.length_append, List.length_cons] at hlength
  omega

/-- The wait map does not grow, and every round of the loop but the last takes something out. -/
theorem CleanUpRound.length_events (hw : m.Wf) (hw' : m'.Wf) (h : CleanUpRound frames m i m') :
    (m'.sched.events .wait).length ≤ (m.sched.events .wait).length ∧
      (isTick i = true → InCleanUp frames m' →
        (m'.sched.events .wait).length < (m.sched.events .wait).length) := by
  have hsub : m'.sched.events .wait ⊆ m.sched.events .wait := fun e he => (h.events_sub hw he).1
  refine ⟨((nodup_events hw' .wait).subperm hsub).length_le, fun htick hin => ?_⟩
  cases hround : h with
  | @stops a action s' hstops ha hs hactions hevents hviews hframes =>
    cases i with
    | tick now =>
      obtain ⟨htop, hhead⟩ := hstops
      cases hev : m.sched.events .wait with
      | nil =>
        rw [hev] at hhead
        cases hhead
      | cons e rest =>
        -- the entry at the front is gone
        have hrest : m'.sched.events .wait ⊆ rest := by
          intro f hf
          obtain ⟨hfs, hnot⟩ := h.events_sub hw hf
          rw [hev] at hfs
          refine (List.mem_cons.mp hfs).resolve_left fun hfe => hnot ?_
          rw [hfe]
          refine ⟨htop, ?_⟩
          rw [hev]
          rfl
        have hle := ((nodup_events hw' .wait).subperm hrest).length_le
        rw [List.length_cons]
        omega
    | _ => cases htick
  | keeps hevents hlive hnot hnotick hframes =>
    cases i with
    | tick now => exact (hnotick now rfl).elim
    | _ => cases htick
  | returns hwait hsched hnot hframes => exact (not_inCleanUp_self (hframes ▸ hin)).elim

/-- Numbers are not used twice. -/
theorem view_gone (hw : m.Wf) (hs : step m i = .ok m') (hlt : b < m.sched.next) (hv : m.sched.view b = none) :
    m'.sched.view b = none := by
  cases fate_of_step hw hs b with
  | kept hk hrun => exact hk.gone hv
  | orphaned hfr hcur hk => exact hk.gone hv
  | allocated hb => omega
  | called hb => omega
  | woken hreg hb => rw [hv] at hb; cases hb
  | paused hf hb => rw [hv] at hb; cases hb
  | unpaused hf hb => rw [hv] at hb; cases hb
  | due hfr ht hk he hb => rw [hv] at hb; cases hb
  | resumed hfr hfr' hn hb => rw [hv] at hb; cases hb
  | yieldedList hfr hcur hl hb => rw [hv] at hb; cases hb
  | yieldedEvents hfr hcur hr hns hb => rw [hv] at hb; cases hb
  | yieldedTimeout hfr hcur hb => rw [hv] at hb; cases hb
  | stopped hi ha hb hw hgone => exact hgone
  | terminated hfr hcur hb hgone => exact hgone

/-! ## The whole loop -/

/-- How often an action is stopped in a run. -/
def stopsOf (a : ℕ) (log : List (Taken Machine Input)) : ℕ :=
  log.countP fun t => decide (t.before.Stops a t.input)

/-- How often the loop goes on in a run. -/
def ticksOf (log : List (Taken Machine Input)) : ℕ := log.countP fun t => isTick t.input

/-- **What the loop is for**: a step that is allowed goes on without undefined behaviour, and the loop ends
after at most as many rounds as there were registrations; then none is left, and whoever had one has been
stopped, once, or has been woken by the stop of an action it waited for. What the loop itself stops has
waited for an event, and not in the sleeping
map. -/
structure CleansUp (allowed : Machine → Input → Prop) (frames : List Frame) (m₀ : Machine)
    (log : List (Taken Machine Input)) (m : Machine) : Prop where
  safe : ∀ i f, allowed m i → m.step i = .error f → f = .disabled
  proceeds : ∀ now, m.frames = .cycle .ending :: frames → allowed m (.tick now) →
    ∃ m', m.step (.tick now) = .ok m'
  rounds : ticksOf log ≤ (m₀.sched.events .wait).length + 1
  drained : m.frames = frames → m.sched.events .wait = []
  settled : m.frames = frames → ∀ a, m₀.sched.Awaits .wait a →
    stopsOf a log = 1 ∨ ∃ t ∈ log, WokenByStop a t
  once : ∀ a, stopsOf a log ≤ 1
  sleepers : ∀ t ∈ log, isTick t.input = true → ∀ a, t.before.Stops a t.input →
    m₀.sched.Awaits .wait a ∧ ¬ m₀.sched.Awaits .sleep a

/-- The invariant of the loop. -/
structure Draining (frames : List Frame) (m₀ : Machine) (log : List (Taken Machine Input)) (m : Machine) :
    Prop where
  wf : m.Wf
  owned : m.sched.Owned
  place : InCleanUp frames m ∨ (m.sched.events .wait = [] ∧ m.frames = frames)
  events : ∀ k, m.sched.events k ⊆ m₀.sched.events k
  rounds : ticksOf log + (m.sched.events .wait).length ≤
    (m₀.sched.events .wait).length + if m.frames = frames then 1 else 0
  stops : ∀ a, stopsOf a log = 0 ∨ (stopsOf a log = 1 ∧ m.sched.view a = none ∧ a < m.sched.next)
  waits : ∀ a, m₀.sched.Awaits .wait a →
    m.sched.Awaits .wait a ∨ 0 < stopsOf a log ∨ ∃ t ∈ log, WokenByStop a t
  ticks : ∀ t ∈ log, isTick t.input = true → ∀ a, t.before.Stops a t.input → m₀.sched.Awaits .wait a

theorem stopsOf_concat (a : ℕ) (log : List (Taken Machine Input)) (t : Taken Machine Input) :
    stopsOf a (log ++ [t]) = stopsOf a log + if t.before.Stops a t.input then 1 else 0 := by
  rw [stopsOf, List.countP_append, List.countP_singleton]
  simp only [decide_eq_true_eq]
  rfl

theorem ticksOf_concat (log : List (Taken Machine Input)) (t : Taken Machine Input) :
    ticksOf (log ++ [t]) = ticksOf log + if isTick t.input = true then 1 else 0 := by
  rw [ticksOf, List.countP_append, List.countP_singleton]
  rfl

/-- The loop stops what waits. -/
theorem Stops.awaits (h : m.Stops a i) (htick : isTick i = true) : m.sched.Awaits .wait a := by
  cases i with
  | tick now =>
    obtain ⟨e, he, rfl⟩ := Option.map_eq_some_iff.mp h.2
    exact ⟨e, List.mem_of_mem_head? he, rfl⟩
  | _ => cases htick

theorem Draining.next {m₀ : Machine} {log : List (Taken Machine Input)} (h : Draining frames m₀ log m)
    (hi : CleanUpStep frames m i) (hs : step m i = .ok m') : Draining frames m₀ (log ++ [⟨m, i, m'⟩]) m' := by
  have hw' := h.wf.step hs
  have hround := cleanUpRound h.wf hi.1.1 hi.1.2 hs
  have hne : m.frames ≠ frames := fun heq => not_inCleanUp_self (heq ▸ hi.1.1)
  refine
    { wf := hw'
      owned := hround.owned h.wf hw' h.owned
      place := ?_
      events := fun k e he => h.events k (hround.events_sub h.wf he).1
      rounds := ?_
      stops := fun a => ?_
      waits := fun a ha => ?_
      ticks := fun t ht htick a hstops => ?_ }
  · cases hround.frames_cases with
    | inl hin => exact Or.inl hin
    | inr hret => exact Or.inr ⟨by rw [hret.2.1]; exact hret.1, hret.2.2⟩
  · have hrounds := h.rounds
    rw [if_neg hne] at hrounds
    obtain ⟨hle, hlt⟩ := hround.length_events h.wf hw'
    rw [ticksOf_concat]
    cases hround.frames_cases with
    | inl hin =>
      by_cases htick : isTick i = true
      · have hlt' := hlt htick hin
        rw [if_pos htick]
        omega
      · rw [if_neg htick]
        omega
    | inr hret =>
      rw [if_pos hret.2.2]
      split <;> omega
  · rw [stopsOf_concat]
    by_cases ha : m.Stops a i
    · obtain ⟨action, hlookup⟩ := live_iff.mp (ha.live h.owned)
      have hzero : stopsOf a log = 0 := by
        refine (h.stops a).resolve_right fun hdead => ?_
        rw [view_eq_none, hlookup] at hdead
        cases hdead.2.1
      have hlt := h.wf.sched.live_lt a (ha.live h.owned)
      refine Or.inr ⟨?_, hround.gone h.wf ha, hlt.trans_le ((h.wf.transition hs).next_le h.wf)⟩
      rw [if_pos ha, hzero]
    · rw [if_neg ha]
      refine (h.stops a).imp id fun hdead => ?_
      obtain ⟨hone, hview, hlt⟩ := hdead
      exact ⟨hone, view_gone h.wf hs hlt hview, hlt.trans_le ((h.wf.transition hs).next_le h.wf)⟩
  · rw [stopsOf_concat]
    rcases h.waits a ha with hwaits | hstopped | ⟨t, ht, hwoken⟩
    · rcases hround.waits h.wf h.owned hwaits with hstays | hstops | hwoken
      · exact Or.inl hstays.1
      · refine Or.inr (Or.inl ?_)
        rw [if_pos hstops]
        omega
      · exact Or.inr (Or.inr ⟨_, List.mem_append_right _ (List.mem_singleton_self _), hwoken⟩)
    · exact Or.inr (Or.inl (by omega))
    · exact Or.inr (Or.inr ⟨t, List.mem_append_left _ ht, hwoken⟩)
  · cases List.mem_append.mp ht with
    | inl hold => exact h.ticks t hold htick a hstops
    | inr hnew =>
      obtain rfl := List.mem_singleton.mp hnew
      obtain ⟨e, he, hval⟩ := hstops.awaits htick
      exact ⟨e, h.events .wait he, hval⟩

/-- The topmost frame belongs to the last loop of `cycle` or to a stopper. -/
theorem InCleanUp.head_ne {p : Phase} (h : InCleanUp frames m) (hp : p ≠ .ending) :
    m.frames.head? ≠ some (.cycle p) := by
  intro hhead
  obtain ⟨rest, hfr⟩ := List.head?_eq_some_iff.mp hhead
  cases h.top hfr with
  | inl hcycle =>
    cases hcycle.1
    exact hp rfl
  | inr hstopper => cases hstopper.1

/-- While registrations are owned, a step of the loop that meets the condition is well defined. -/
theorem CleanUpStep.safe (hown : m.sched.Owned) (hi : CleanUpStep frames m i) : m.StepSafe i := by
  obtain ⟨⟨hin, hinput⟩, hclear⟩ := hi
  refine ⟨hclear, touchesLive_of (fun k e he => hown.live he) (fun done a hterm => ?_) (fun a ha => ?_)
    fun a ha => ?_, touchesOneMap_of fun k e he action ha => ?_⟩
  · subst hterm
    cases hinput
  · cases i with
    | tick now =>
      rw [expiring, if_neg (hin.head_ne (by simp))] at ha
      cases ha
    | _ => cases ha
  · cases i with
    | tick now =>
      rw [resuming, if_neg (hin.head_ne (by simp))] at ha
      cases ha
    | _ => cases ha
  · obtain ⟨action', ha', hall⟩ := hown k e he
    rw [Option.mem_def.mp ha', Option.some.injEq] at ha
    exact ha ▸ hall

theorem cleanUpStep_safe (hw : m.Wf) (hown : m.sched.Owned) (hi : CleanUpStep frames m i) {f : Fault}
    (hs : m.step i = .error f) : f = .disabled := by
  have hsafe := hi.safe hown
  obtain ⟨⟨hin, hinput⟩, -⟩ := hi
  cases i with
  | operation op =>
    rw [step] at hs
    split at hs
    · obtain ⟨m', hm'⟩ := operate_safe op hw hsafe
      rw [hm'] at hs
      cases hs
    · exact (Except.error.inj hs).symm
  | yield reason done => cases hinput
  | ret =>
    -- the only fault of a return that is not undefined is that nothing returns
    have hdefined := step_safe hw hsafe hs
    rw [step] at hs
    split at hs
    · rw [deleteAction] at hs
      split at hs
      · cases hs
        cases hdefined
      · cases hs
    · cases hs
    · exact (Except.error.inj hs).symm
  | tick now =>
    rw [step] at hs
    split at hs
    · rename_i rest hfr
      exact absurd (by rw [hfr]; rfl) (hin.head_ne (p := .timeouts) (by simp))
    · rename_i rest hfr
      exact absurd (by rw [hfr]; rfl) (hin.head_ne (p := .running) (by simp))
    · rename_i rest hfr
      obtain ⟨m', hm'⟩ := ending_safe hw hsafe hfr
      rw [hm'] at hs
      cases hs
    · exact (Except.error.inj hs).symm

theorem Draining.start (hw : m.Wf) (hown : m.sched.Owned) (hfr : m.frames = .cycle .ending :: frames) :
    Draining frames m [] m where
  wf := hw
  owned := hown
  place := Or.inl ⟨[], hfr, fun f hf => (List.not_mem_nil hf).elim⟩
  events := fun k => List.Subset.refl _
  rounds := by
    rw [ticksOf, List.countP_nil]
    omega
  stops := fun a => Or.inl rfl
  waits := fun a ha => Or.inl ha
  ticks := fun t ht => (List.not_mem_nil ht).elim

theorem draining_of_run {m₀ : Machine} {log : List (Taken Machine Input)} (h₀ : Draining frames m₀ [] m₀)
    (hrun : LoggedRun step (CleanUpStep frames) m₀ log m) : Draining frames m₀ log m := by
  induction hrun with
  | start => exact h₀
  | next hr hguard hs ih => exact ih.next hguard hs

theorem Draining.cleansUp {m₀ : Machine} {log : List (Taken Machine Input)} (h₀ : Draining frames m₀ [] m₀)
    (h : Draining frames m₀ log m) : CleansUp (CleanUpStep frames) frames m₀ log m := by
  have hdrained : m.frames = frames → m.sched.events .wait = [] := by
    intro hfr
    cases h.place with
    | inl hin => exact (not_inCleanUp_self (hfr ▸ hin)).elim
    | inr hret => exact hret.1
  refine
    { safe := fun i f hi => cleanUpStep_safe h.wf h.owned hi
      proceeds := fun now hfr hi => ?_
      rounds := ?_
      drained := hdrained
      settled := fun hfr a ha => ?_
      once := fun a => ?_
      sleepers := fun t ht htick a hstops => ?_ }
  · rw [step, hfr]
    exact ending_safe h.wf (hi.safe h.owned) hfr
  · have hrounds := h.rounds
    split at hrounds <;> omega
  · refine (h.waits a ha).elim (fun hwaits => ?_) fun hsettled => hsettled.imp (fun hpos => ?_) id
    · obtain ⟨e, he, -⟩ := hwaits
      rw [hdrained hfr] at he
      cases he
    · exact (h.stops a).elim (fun hzero => by omega) fun hone => hone.1
  · exact (h.stops a).elim (fun hzero => by omega) fun hone => hone.1.le
  · have hwaits := h.ticks t ht htick a hstops
    refine ⟨hwaits, ?_⟩
    obtain ⟨e, he, rfl⟩ := hwaits
    rintro ⟨f, hf, hfe⟩
    have hmap := h₀.owned.eq_map h₀.wf.sched he hf hfe
    cases hmap

end Rounds

/-- Two actions that wait, the second for the first or for any of some events. -/
def waitingInputs (events : List Reference) : List Input :=
  [.operation (.call ⟨0, 2, 1⟩ 0 true), .operation (.call ⟨0, 5, 1⟩ 0 true), .operation .cycle, .tick 0,
    .tick 0, .yield (.waitAny [⟨0, 1, 1⟩]) false, .tick 0, .yield (.waitAny events) false, .tick 0]

end Machine
end EgLang.Scheduler
