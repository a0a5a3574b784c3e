import EgLang.Library.KeyCoherence
import EgLang.Scheduler.EventDelivery

/-! # References as keys

References are the keys of a hashed map, `m_actions`, and of two ordered maps, those of the events. All null
references are equal; the order and the hash look at the type and the instance of a null reference as at those
of any other. So the maps agree as long as no two null references are in use that differ.
-/

namespace EgLang.Scheduler
open Library
set_option autoImplicit false

/-! ## Equality, order and hash -/

def EqualReferences (a b : Reference) : Prop := a.equal b = true

def LessReference (a b : Reference) : Prop := a.less b = true

instance (a b : Reference) : Decidable (EqualReferences a b) := inferInstanceAs (Decidable (a.equal b = true))

instance (a b : Reference) : Decidable (LessReference a b) := inferInstanceAs (Decidable (a.less b = true))

/-- Equality, order and hash say the same of the references of a set. -/
def CoherentReferences (S : Set Reference) : Prop :=
  CoherentOn EqualReferences LessReference BasicScheduler.referenceHash S

/-- **The condition**: the null references of a set are one. -/
def OneNull (S : Set Reference) : Prop :=
  ∀ a ∈ S, ∀ b ∈ S, a.timestamp = INVALID_TIMESTAMP → b.timestamp = INVALID_TIMESTAMP → a = b

section References
variable {S : Set Reference}

theorem equivalenceOn_equal : EquivalenceOn EqualReferences S where
  refl a _ := a.equal_self
  symm a _ b _ h := (b.equal_comm a).trans h
  trans _ _ _ _ _ _ h h' := Reference.equal_trans h h'

theorem tellsApart_less : TellsApart LessReference S := tellsApart_of_linearOrder S

theorem coherentReferences_iff : CoherentReferences S ↔ OneNull S := by
  have horder : StrictWeakOn LessReference S := strictWeakOn_of_linearOrder S
  rw [CoherentReferences, coherentOn_iff_of_tellsApart equivalenceOn_equal horder tellsApart_less]
  refine forall₄_congr fun a _ b _ => ?_
  rw [EqualReferences, Reference.equal_iff]
  constructor
  · intro h ha hb
    exact h (Or.inl ⟨ha, hb⟩)
  · intro h hab
    cases hab with
    | inl hnull => exact h hnull.1 hnull.2
    | inr heq => exact heq

end References

namespace BasicScheduler

/-! ## The keys of the maps -/

/-- All keys of the three maps are from a set. -/
structure KeysIn (S : Set Reference) (s : BasicScheduler) : Prop where
  actions : ∀ a action, s.actions.lookup a = some action → action.ref ∈ S
  events : ∀ k, ∀ e ∈ s.events k, e.key ∈ S

/-- The maps agree on the references they hold: the hashed map finds the action whose reference the order does not
tell from the one that is looked for, and the ordered maps find the registrations on equal references. -/
structure MapsAgree (S : Set Reference) (s : BasicScheduler) : Prop where
  hashed : ∀ ref ∈ S, ∀ a, s.find ref = some a ↔
    ∃ action, s.actions.lookup a = some action ∧ Incomparable LessReference action.ref ref
  ordered : ∀ ref ∈ S, ∀ k e, e ∈ s.registrations k ref ↔ e ∈ s.events k ∧ EqualReferences e.key ref

section Keys
variable {S : Set Reference} {s s' : BasicScheduler} {a : ℕ} {action action' : ActiveAction}

/-- What a look-up in the hashed map finds. -/
theorem Wf.find_eq_some_iff (h : s.Wf) {ref : Reference} :
    s.find ref = some a ↔ ∃ action, s.actions.lookup a = some action ∧ SameKey action.ref ref := by
  refine ⟨find_eq_some, fun hfound => ?_⟩
  obtain ⟨action, ha, hsame⟩ := hfound
  cases hf : s.find ref with
  | none => exact (find_eq_none hf ha hsame).elim
  | some b =>
    obtain ⟨actionb, hb, hsameb⟩ := find_eq_some hf
    have heq : b = a := h.keys b a actionb action hb ha (sameKey_trans hsameb (sameKey_symm hsame))
    rw [heq]

theorem KeysIn.mapsAgree (hw : s.Wf) (hkeys : s.KeysIn S) (hS : CoherentReferences S) : s.MapsAgree S where
  hashed ref href a := by
    rw [hw.find_eq_some_iff]
    refine exists_congr fun action => and_congr_right fun ha => ?_
    exact hS.same_iff (hkeys.actions a action ha) href
  ordered ref href k e := by
    rw [mem_registrations]
    refine and_congr_right fun he => ?_
    rw [hS.agree e.key (hkeys.events k e he) ref href]
    exact (tellsApart_less (S := S) e.key (hkeys.events k e he) ref href).symm

/-! ## Nothing but the inputs brings references in -/

theorem KeysIn.of_eq (h : s.KeysIn S) (hactions : s'.actions = s.actions) (hevents : s'.events = s.events) :
    s'.KeysIn S := by
  refine ⟨fun a action ha => h.actions a action ?_, fun k e he => h.events k e ?_⟩
  · rw [← hactions]
    exact ha
  · rw [← hevents]
    exact he

theorem KeysIn.lookup_insert (h : s.KeysIn S) (href : action'.ref ∈ S) {b : ℕ} {actionb : ActiveAction}
    (hb : (s.actions.insert a action').lookup b = some actionb) : actionb.ref ∈ S := by
  by_cases hba : b = a
  · rw [hba, AList.lookup_insert, Option.some.injEq] at hb
    rw [← hb]
    exact href
  · rw [AList.lookup_insert_ne hba] at hb
    exact h.actions b actionb hb

theorem KeysIn.insert (h : s.KeysIn S) (hactions : s'.actions = s.actions.insert a action')
    (hevents : s'.events = s.events) (href : action'.ref ∈ S) : s'.KeysIn S := by
  refine ⟨fun b actionb hb => ?_, fun k e he => h.events k e ?_⟩
  · rw [hactions] at hb
    exact h.lookup_insert href hb
  · rw [← hevents]
    exact he

theorem KeysIn.listInsert {l : ListId} (h : s.KeysIn S) (hs : s.listInsert l l a = .ok s') : s'.KeysIn S := by
  obtain ⟨action, ha, rfl⟩ := listInsert_ok.mp hs
  exact h.insert rfl rfl (h.actions a action ha)

theorem KeysIn.listRemove {l : ListId} (h : s.KeysIn S) (hs : s.listRemove l l a = .ok s') : s'.KeysIn S := by
  obtain ⟨action, ha, hor⟩ := listRemove_ok.mp hs
  cases hor with
  | inl hnone => rwa [hnone.2]
  | inr hsome =>
    obtain ⟨n, -, -, rfl⟩ := hsome
    exact h.insert rfl rfl (h.actions a action ha)

theorem KeysIn.timeoutInsert {timeout : ℤ} (h : s.KeysIn S) (hs : s.timeoutInsert a timeout = .ok s') :
    s'.KeysIn S := by
  obtain ⟨action, ha, rfl⟩ := timeoutInsert_ok.mp hs
  exact h.insert rfl rfl (h.actions a action ha)

theorem KeysIn.timeoutRemove (h : s.KeysIn S) (hs : s.timeoutRemove a = .ok s') : s'.KeysIn S := by
  obtain ⟨action, ha, hor⟩ := timeoutRemove_ok.mp hs
  cases hor with
  | inl hnone => rwa [hnone.2]
  | inr hsome =>
    obtain ⟨n, -, -, rfl⟩ := hsome
    exact h.insert rfl rfl (h.actions a action ha)

theorem KeysIn.eraseAction (h : s.KeysIn S) : (s.eraseAction a).KeysIn S := by
  refine ⟨fun b action hb => ?_, h.events⟩
  by_cases hba : b = a
  · rw [hba, BasicScheduler.eraseAction, AList.lookup_erase] at hb
    cases hb
  · rw [BasicScheduler.eraseAction, AList.lookup_erase_ne hba] at hb
    exact h.actions b action hb

theorem KeysIn.signalled {ref : Reference} {new : List (Entry Unit ℕ)} (h : s.KeysIn S)
    (hs : Signalled ref s s' new) : s'.KeysIn S := by
  refine ⟨fun a action' ha => ?_, fun k e he => h.events k e (hs.events_sub k e he).1⟩
  cases hlookup : s.actions.lookup a with
  | none =>
    rw [hs.dead a hlookup] at ha
    cases ha
  | some action =>
    obtain ⟨action₁, ha₁, hsame, -⟩ := hs.lookup a action hlookup
    rw [ha, Option.some.injEq] at ha₁
    rw [ha₁, hsame.ref]
    exact h.actions a action hlookup

theorem KeysIn.withdrawn (h : s.KeysIn S) (ha : s.actions.lookup a = some action)
    (hs : Withdrawn a action s s') : s'.KeysIn S := by
  refine ⟨fun b actionb hb => ?_, fun k e he => h.events k e ?_⟩
  · by_cases hba : b = a
    · rw [hba, hs.self, Option.some.injEq] at hb
      rw [← hb]
      exact h.actions a action ha
    · rw [hs.others b hba] at hb
      exact h.actions b actionb hb
  · rw [hs.events k] at he
    exact List.mem_of_mem_filter he

theorem KeysIn.unregister (hw : s.Wf) (h : s.KeysIn S) (ha : s.actions.lookup a = some action)
    (hs : s.unregister a action = .ok s') : s'.KeysIn S := by
  obtain ⟨new, action₁, s₁, s₂, hun, rfl⟩ := hw.unregister ha hs
  exact ((h.signalled hun.signalled.toSignalled).withdrawn hun.lookup hun.withdrawn).eraseAction

theorem KeysIn.insertEvents {k : MapId} {evs : List Reference} (h : s.KeysIn S) (hevs : ∀ ev ∈ evs, ev ∈ S)
    (hs : Machine.insertEvents k a evs s = .ok s') : s'.KeysIn S := by
  induction evs generalizing s with
  | nil =>
    cases hs
    exact h
  | cons ev evs ih =>
    obtain ⟨hev, hrest⟩ := List.forall_mem_cons.mp hevs
    obtain ⟨s₁, hs₁, hs₂⟩ := except_bind_ok.mp hs
    obtain ⟨action, ha, rfl⟩ := eventInsert_ok.mp hs₁
    refine ih ⟨fun b actionb hb => ?_, fun k' e he => ?_⟩ hrest hs₂
    · have hactions : (s.putEvent k a ev action).actions =
          s.actions.insert a { action with iterEventRef := action.iterEventRef ++ [s.next] } := rfl
      rw [hactions] at hb
      refine h.lookup_insert ?_ hb
      exact h.actions a action ha
    have hevents : (s.putEvent k a ev action).events =
        Function.update s.events k (NodeList.insert ⟨s.next, ev, a⟩ (s.events k)) := rfl
    by_cases hk : k' = k
    · rw [hevents, hk, Function.update_self] at he
      cases List.mem_cons.mp ((NodeList.insert_perm _ _).mem_iff.mp he) with
      | inl hnew => rw [hnew]; exact hev
      | inr hold => exact h.events k e hold
    · rw [hevents, Function.update_of_ne hk] at he
      exact h.events k' e he

theorem KeysIn.registerEvents {k : MapId} {any : Bool} {evs : List Reference} (h : s.KeysIn S)
    (hevs : ∀ ev ∈ evs, ev ∈ S) (hs : Machine.registerEvents k any a evs s = .ok s') : s'.KeysIn S := by
  obtain ⟨s₁, hs₁, hs⟩ := except_bind_ok.mp hs
  obtain ⟨action, ha, hs⟩ := except_bind_ok.mp hs
  cases hs
  have h₁ := h.insertEvents hevs hs₁
  exact h₁.insert rfl rfl (h₁.actions a action (deref_eq_ok.mp ha))

end Keys
end BasicScheduler

namespace Machine
open BasicScheduler

/-- The references an input brings in. -/
def references : Input → List Reference
  | .operation op =>
    match op with
    | .allocated ref _ | .call ref _ _ => [ref]
    | .signal ref | .stop ref | .stopperStopped ref | .pause ref | .unpause ref => [ref]
    | .cycle => []
  | .yield reason _ =>
    match reason with
    | .waitAll events | .waitAny events | .sleepAll events | .sleepAny events => events
    | _ => []
  | .ret | .tick _ => []

/-- The input's references are from a set. -/
def Uses (S : Set Reference) (_ : Machine) (i : Input) : Prop := ∀ ref ∈ references i, ref ∈ S

section Uses
variable {S : Set Reference} {m m' : Machine} {i : Input}

theorem references_registration {reason : ReturnReason} {k : MapId} {any : Bool} {evs : List Reference}
    {done : Bool} (h : registration reason = some (k, any, evs)) : references (.yield reason done) = evs := by
  cases reason with
  | waitAll events => cases h; rfl
  | waitAny events => cases h; rfl
  | sleepAll events => cases h; rfl
  | sleepAny events => cases h; rfl
  | _ => cases h

theorem keysIn_suspend {s : BasicScheduler} (h : s.KeysIn S) (a : ℕ) (reason : ReturnReason) (done : Bool) :
    (suspend a reason done s).KeysIn S := by
  cases ha : s.actions.lookup a with
  | none =>
    rw [suspend_gone reason done ha]
    exact h
  | some action =>
    rw [suspend_lookup reason done ha]
    exact h.insert rfl rfl (h.actions a action ha)

theorem resume_ref {action action' : ActiveAction} (h : resume action = .ok action') :
    action'.ref = action.ref := by
  unfold resume at h
  split at h
  · cases h
  · split at h
    · split at h
      · cases h
        rfl
      · cases h
    · cases h
      rfl

/-- No step brings in a reference of its own. -/
theorem Transition.keysIn (hw : m.Wf) (h : m.sched.KeysIn S) (hi : Uses S m i) (ht : Transition m i m') :
    m'.sched.KeysIn S := by
  cases ht with
  | idle hu hop => exact h
  | @allocated ref pStopper hu hf =>
    exact h.insert rfl rfl (hi ref (List.mem_singleton_self ref))
  | @call ref pStopper op s' hu hf hs =>
    have hcreate : (m.sched.create (.new ref pStopper op)).KeysIn S :=
      h.insert rfl rfl (hi ref (List.mem_singleton_self ref))
    exact hcreate.listInsert hs
  | signal hu hs =>
    obtain ⟨-, new, hsig⟩ := hw.sched.signal hs
    exact h.signalled hsig.toSignalled
  | stop hu hf ha hs => exact h.unregister hw.sched ha hs
  | @stopperStopped ref a action s' hu hf ha hs =>
    have hs' := h.unregister hw.sched ha hs
    refine hs'.of_eq (clearCurrent_actions s' a) ?_
    rw [BasicScheduler.clearCurrent]
    split <;> rfl
  | pause hu hf ha hs₁ hs =>
    obtain ⟨-, hwd⟩ := hw.sched.withdraw ha hs₁
    exact (h.withdrawn ha hwd).listInsert hs
  | unpause hu hf ha hr hs => exact (h.listRemove hr).listInsert hs
  | cycle hu => exact h
  | orphan hfr hcur => exact keysIn_suspend h _ _ _
  | yieldWait hfr hcur ha hs => exact ((keysIn_suspend h _ _ _).listInsert hs).of_eq rfl rfl
  | yieldSleep hfr hcur ha hs => exact ((keysIn_suspend h _ _ _).listInsert hs).of_eq rfl rfl
  | @yieldEvents a reason done frames action em any evs s' hfr hcur ha hr hs =>
    have hevs : ∀ ev ∈ evs, ev ∈ S := by
      rw [Uses, references_registration hr] at hi
      exact hi
    exact ((keysIn_suspend h _ _ _).registerEvents hevs hs).of_eq rfl rfl
  | yieldTimeout hfr hcur ha hs => exact ((keysIn_suspend h _ _ _).timeoutInsert hs).of_eq rfl rfl
  | yieldTerminated hfr hcur ha hs =>
    have hws := suspend_wf hw.sched
    obtain ⟨-, new, hsig⟩ := ((hws _ _ _).eraseAction _).signal hs
    exact (keysIn_suspend h _ _ _).eraseAction.signalled hsig.toSignalled
  | @retStopper a p q frames hfr =>
    refine h.of_eq (clearCurrent_actions m.sched a) ?_
    change (BasicScheduler.clearCurrent a m.sched).events = _
    rw [BasicScheduler.clearCurrent]
    split <;> rfl
  | retTerminated hfr => exact h.of_eq rfl rfl
  | due hfr ht hk hr hs => exact (h.timeoutRemove hr).listInsert hs
  | startSwap hfr => exact h.of_eq rfl rfl
  | start hfr => exact h
  | toEnding hfr => exact h
  | @resume now frames s front rest s₁ action action' hfr hs hfront hrem ha hres =>
    have hkeys : s.KeysIn S := by
      rw [hs]
      split
      · exact h.of_eq rfl rfl
      · exact h
    have h₁ := hkeys.listRemove hrem
    have href := h₁.actions front.val action ha
    rw [← resume_ref hres] at href
    exact h₁.insert rfl rfl href
  | returns hfr hev => exact h
  | neverCame hfr hev ha hs => exact h.unregister hw.sched ha hs

theorem keysIn_of_reaches (h : Reaches step (Uses S) initial m) : m.sched.KeysIn S := by
  suffices hinv : m.Wf ∧ m.sched.KeysIn S from hinv.2
  refine h.invariant (fun m => m.Wf ∧ m.sched.KeysIn S) ⟨wf_initial, ?_⟩ ?_
  · refine ⟨fun a action ha => ?_, fun k e he => ?_⟩
    · cases ha
    · cases he
  · intro m i m' hm hi hs
    exact ⟨hm.1.step hs, (hm.1.transition hs).keysIn hm.1 hm.2 hi⟩

end Uses

/-- **Coherence** of the references of a set: equality, order and hash say the same of them, and the maps of the
scheduler agree on the references they hold in every state reached with them. -/
structure Coherent (S : Set Reference) : Prop where
  references : CoherentReferences S
  maps : ∀ m, Reaches step (Uses S) initial m → m.sched.MapsAgree S

/-- **References are coherent if and only if the null references among them are one.** -/
theorem coherent_iff_oneNull (S : Set Reference) : Coherent S ↔ OneNull S := by
  constructor
  · intro h
    exact coherentReferences_iff.mp h.references
  · intro h
    have hS : CoherentReferences S := coherentReferences_iff.mpr h
    exact ⟨hS, fun m hr => (keysIn_of_reaches hr).mapsAgree (wf_of_steps hr).sched hS⟩

/-- Two null references are equal, but ordered and with two hashes: an action called under the first is not found
under the second. -/
theorem nulls_not_coherent : ∃ a b : Reference, a.equal b = true ∧ a.less b = true ∧
    referenceHash a ≠ referenceHash b ∧
      (∃ m, Reaches step (fun _ _ => True) initial m ∧ m.sched.find a = some 0 ∧ m.sched.find b = none) ∧
        ¬ Coherent Set.univ := by
  refine ⟨⟨0, 1, 0⟩, ⟨0, 2, 0⟩, by decide, by decide, by decide, ?_, fun h => ?_⟩
  · exact exists_reaches step (fun _ _ => True) [.operation (.call ⟨0, 1, 0⟩ 0 true)] initial
      (fun m => m.sched.find ⟨0, 1, 0⟩ = some 0 ∧ m.sched.find ⟨0, 2, 0⟩ = none) (by decide +kernel)
  · have hequal := (h.references.agree ⟨0, 1, 0⟩ (Set.mem_univ _) ⟨0, 2, 0⟩ (Set.mem_univ _)).mp (by decide)
    exact hequal.1 (by decide)

end Machine
end EgLang.Scheduler
