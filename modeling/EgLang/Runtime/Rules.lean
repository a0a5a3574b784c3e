import EgLang.Runtime.Generated

/-! # A rule for stoppers

Stoppers, breakers and `stop_ref` call each other, but touch instances in one place only: where a
stopper releases its instance. So what holds of every release, and does not depend on links, holds of
every stopper, breaker and write of a link.
-/

namespace EgLang.Runtime
open Library
set_option autoImplicit false

namespace State
variable {p : Program}

/-- The two states differ in links and in what the scheduler has registered only. -/
structure SameInstances (s t : State p) : Prop where
  clock : t.clock = s.clock
  state : t.state = s.state
  stopCycle : t.stopCycle = s.stopCycle
  reference : t.reference = s.reference
  alloc : t.alloc = s.alloc

/-- A relation of the states before and after that links have no part in. -/
structure InstanceRel (R : State p → State p → Prop) : Prop where
  same : ∀ {s t}, SameInstances s t → R s t
  trans : ∀ {s t u}, R s t → R t u → R s u

theorem InstanceRel.refl {R : State p → State p → Prop} (hR : InstanceRel R) (s : State p) : R s s :=
  hR.same ⟨rfl, rfl, rfl, rfl, rfl⟩

theorem sameInstances_addLinkRefCount {o : p.Action} {gid delta : ℕ} {s t : State p}
    (h : s.addLinkRefCount o gid delta = .ok t) : SameInstances s t := by
  unfold addLinkRefCount at h
  split at h
  · cases h
    exact ⟨rfl, rfl, rfl, rfl, rfl⟩
  · cases h

section Calls
variable {R : State p → State p → Prop} {stop : p.Action → ℕ → State p → Except Fault (State p)}
variable {s t : State p} {a l c : p.Action} {gid : ℕ}

/-- The stoppers that are called keep to the relation. -/
def StopsBy (R : State p → State p → Prop)
    (stop : p.Action → ℕ → State p → Except Fault (State p)) : Prop :=
  ∀ {a gid s t}, stop a gid s = .ok t → R s t

theorem stopRef_rel (hR : InstanceRel R) (hstop : StopsBy R stop) {ref : Reference}
    (h : stopRef stop ref s = .ok t) : R s t := by
  have hun : R s (s.unregister ref) := hR.same ⟨rfl, rfl, rfl, rfl, rfl⟩
  unfold stopRef at h
  split at h
  · split at h
    · exact hR.trans hun (hstop h)
    · cases h
      exact hun
  · cases h
    exact hR.refl s

theorem breaker_rel (hR : InstanceRel R) (hstop : StopsBy R stop)
    (h : breaker stop l gid s = .ok t) : R s t := by
  unfold breaker at h
  dsimp only at h
  split at h
  · split at h
    · cases h
      exact hR.refl s
    · rename_i g _
      split at h
      · cases h
        exact hR.refl s
      · rename_i target _
        split at h
        · cases h
          exact hR.refl s
        · have hback : R s (s.setBack g target (s.base l gid).inst .null) :=
            hR.same ⟨rfl, rfl, rfl, rfl, rfl⟩
          split at h
          · cases h
            exact hback
          · rw [except_bind_ok] at h
            obtain ⟨u, hu, h⟩ := h
            have hcount := hR.trans hback (hR.same (sameInstances_addLinkRefCount hu))
            split at h
            · exact hR.trans hcount (hstop h)
            · cases h
              exact hcount
  · cases h
    exact hR.refl s

theorem breakLink_rel (hR : InstanceRel R) (hstop : StopsBy R stop) {pObject : p.Action}
    {g : p.GroupId} (h : breakLink stop pObject a gid s g = .ok t) : R s t := by
  unfold breakLink at h
  dsimp only at h
  split at h
  · split at h
    · cases h
      exact hR.refl s
    · rename_i link _
      rw [except_bind_ok] at h
      obtain ⟨u, hu, h⟩ := h
      refine hR.trans (hR.same (sameInstances_addLinkRefCount hu)) (hR.trans (hR.same ?_)
        (stopRef_rel hR hstop h))
      exact ⟨rfl, rfl, rfl, rfl, rfl⟩
  · cases h
    exact hR.refl s

theorem linkBreaks_rel (hR : InstanceRel R) (hstop : StopsBy R stop)
    (h : linkBreaks stop a gid s = .ok t) : R s t := by
  unfold linkBreaks at h
  rw [except_bind_ok] at h
  obtain ⟨u, hu, h⟩ := h
  have hbreaker : R s u := by
    split at hu
    · exact breaker_rel hR hstop hu
    · cases hu
      exact hR.refl s
  unfold targetBreaks at h
  split at h
  · cases h
    exact hbreaker
  · exact hR.trans hbreaker (foldlM_rel hR.refl hR.trans
      (fun g _ => breakLink_rel hR hstop) h)

theorem stopInstance_rel (hR : InstanceRel R) (hstop : StopsBy R stop)
    (h : stopInstance stop c s gid = .ok t) : R s t := by
  unfold stopInstance at h
  split at h
  · exact hstop h
  · cases h
    exact hR.refl s

theorem stopChild_rel (hR : InstanceRel R) (hstop : StopsBy R stop)
    (h : stopChild stop gid s c = .ok t) : R s t := by
  unfold stopChild at h
  split at h
  · cases h
    exact hR.refl s
  · exact stopInstance_rel hR hstop h
  · split at h
    · exact foldlM_rel hR.refl hR.trans (fun i _ => stopInstance_rel hR hstop) h
    · cases h
      exact hR.refl s

theorem subTreeStop_rel (hR : InstanceRel R) (hstop : StopsBy R stop)
    (h : subTreeStop stop a gid s = .ok t) : R s t :=
  foldlM_rel hR.refl hR.trans (fun _ _ => stopChild_rel hR hstop) h

theorem setLink_rel (hR : InstanceRel R) {g : p.GroupId} {i : ℕ}
    (h : setLink g l gid a i s = .ok t) : R s t := by
  have hback : R s (s.setBack g a i (s.reference l gid)) := hR.same ⟨rfl, rfl, rfl, rfl, rfl⟩
  unfold setLink at h
  dsimp only at h
  split at h
  · cases h
    exact hback
  · split at h
    · cases h
      exact hback
    · exact hR.trans hback (hR.same (sameInstances_addLinkRefCount h))

theorem assignBase_rel (hR : InstanceRel R) (hstop : StopsBy R stop) {value : Reference}
    (h : assignBase stop l gid value s = .ok t) : R s t := by
  have hbase : R s (s.setBase l gid value) := hR.same ⟨rfl, rfl, rfl, rfl, rfl⟩
  unfold assignBase at h
  dsimp only at h
  split at h
  · cases h
    exact hbase
  · split at h
    · cases h
      exact hbase
    · rw [except_bind_ok] at h
      obtain ⟨u, hu, h⟩ := h
      refine hR.trans hbase (hR.trans ?_ (setLink_rel hR h))
      unfold stopPrevious at hu
      split at hu
      · exact stopRef_rel hR hstop hu
      · cases hu
        exact hR.refl _

theorem writeLink_rel (hR : InstanceRel R) (hstop : StopsBy R stop) {value : Reference}
    (h : writeLink stop l gid value s = .ok t) : R s t := by
  unfold writeLink at h
  split at h
  · cases h
    exact hR.refl s
  · rw [except_bind_ok] at h
    obtain ⟨u, hu, h⟩ := h
    refine hR.trans ?_ (assignBase_rel hR hstop h)
    split at hu
    · exact breaker_rel hR hstop hu
    · cases hu
      exact hR.refl s

end Calls

/-- **The rule**: a relation that holds of the release of every instance that is not stopped holds of
every stopper. -/
theorem stopper_rel {R : State p → State p → Prop} (hR : InstanceRel R)
    (hrelease : ∀ (s : State p) a gid, s.state a gid ≠ .stopped → R s (s.release a gid))
    (fuel : ℕ) : StopsBy R (stopper fuel) := by
  induction fuel with
  | zero =>
    intro a gid s t h
    cases h
  | succ fuel ih =>
    intro a gid s t h
    rw [stopper] at h
    split at h
    · rename_i hstate
      rw [except_bind_ok] at h
      obtain ⟨u, hu, h⟩ := h
      exact hR.trans (hrelease s a gid hstate)
        (hR.trans (linkBreaks_rel hR ih hu) (subTreeStop_rel hR ih h))
    · cases h
      exact hR.refl s

theorem call_fst (a : p.Action) (parentId : ℕ) (s : State p) :
    SameInstances (s.starter a parentId).1 (s.call a parentId).1 := by
  unfold call
  dsimp only
  split <;> exact ⟨rfl, rfl, rfl, rfl, rfl⟩

/-- **The step rule**: what a relation must hold of to hold of every step. -/
theorem step_rel {R : State p → State p → Prop} (hR : InstanceRel R)
    (hstop : StopsBy R (stopper p.fuel)) {s t : State p} {op : Operation p} (hs : s.step op = .ok t)
    (hmain : ∀ a, p.isMainExecutable a = true → R s (s.mainStarter a).1)
    (hcall : ∀ a parentId, op = .call a parentId → R s (s.starter a parentId).1)
    (hpause : ∀ a gid, R s (s.pause a gid)) (hresume : ∀ a gid, R s (s.resume a gid))
    (hnext : op = .next → R s { s with clock := (s.clock + 1) % 2 ^ 32 }) : R s t := by
  cases op with
  | startMain a =>
    rw [step] at hs
    split at hs
    · rename_i hm
      cases hs
      exact hR.trans (hmain a hm.1) (hR.same ⟨rfl, rfl, rfl, rfl, rfl⟩)
    · cases hs
  | call a parentId =>
    rw [step] at hs
    split at hs
    · split at hs
      · cases hs
        exact hR.trans (hcall a parentId rfl) (hR.same (call_fst a parentId s))
      · cases hs
    · cases hs
  | stop a gid =>
    rw [step] at hs
    split at hs
    · exact stopRef_rel hR hstop hs
    · cases hs
  | stopper a gid =>
    rw [step] at hs
    split at hs
    · exact hstop hs
    · cases hs
  | pause a gid =>
    rw [step] at hs
    split at hs
    · cases hs
      exact hpause a gid
    · cases hs
  | resume a gid =>
    rw [step] at hs
    split at hs
    · cases hs
      exact hresume a gid
    · cases hs
  | writeLink l gid value =>
    rw [step] at hs
    split at hs
    · exact writeLink_rel hR hstop hs
    · cases hs
  | next =>
    cases hs
    exact hnext rfl

end State
end EgLang.Runtime
