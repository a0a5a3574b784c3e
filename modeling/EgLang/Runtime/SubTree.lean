import EgLang.Runtime.References

/-! # Stopping the subtree

A stopper stops the children of its instance, whatever their links stop besides. A starter does not
look at the parent of its instance: so an instance that is not stopped has a parent that is not
stopped, unless it was started under a stopped one. -/

namespace EgLang.Runtime
open Library
set_option autoImplicit false

namespace State
variable {p : Program} {s t : State p} {a c : p.Action} {gid : ℕ}

/-- The instance of the parent that an instance belongs to. -/
def Under (p : Program) (c : p.Action) (j : ℕ) (a : p.Action) (i : ℕ) : Prop :=
  p.parent c = some a ∧ j / p.localDomainSize c = i

/-! ## What a stopper leaves behind -/

/-- **What stopping does**: nothing is started, and the children of every instance that has been
stopped are stopped. -/
structure StopRel (s t : State p) : Prop where
  mono : ∀ {a i}, s.state a i = .stopped → t.state a i = .stopped
  children : ∀ {a i}, s.state a i ≠ .stopped → t.state a i = .stopped →
    ∀ {c j}, p.allocator c ≠ .nothing → Under p c j a i → t.state c j = .stopped

theorem StopRel.of_state (h : t.state = s.state) : StopRel s t where
  mono hs := by rwa [h]
  children hs ht := absurd (h ▸ ht) hs

theorem StopRel.trans {u : State p} (h : StopRel s t) (h' : StopRel t u) : StopRel s u where
  mono hs := h'.mono (h.mono hs)
  children {a i} hs hu {c j} hc hj := by
    by_cases ht : t.state a i = .stopped
    · exact h'.mono (h.children hs ht hc hj)
    · exact h'.children ht hu hc hj

/-- The relation of stoppers: allocators go on to agree, and children are stopped. -/
def Stopping (s t : State p) : Prop := s.Agrees → t.Agrees ∧ StopRel s t

theorem stopping_rel : InstanceRel (Stopping (p := p)) where
  same h hs := ⟨agrees_rel.same h hs, .of_state h.state⟩
  trans h h' hs := by
    obtain ⟨ht, hst⟩ := h hs
    obtain ⟨hu, htu⟩ := h' ht
    exact ⟨hu, hst.trans htu⟩

/-- The stoppers that are called stop their instance. -/
def StopsInstance (stop : p.Action → ℕ → State p → Except Fault (State p)) : Prop :=
  ∀ {a gid s t}, stop a gid s = .ok t → s.Agrees → t.state a gid = .stopped

section Post
variable {stop : p.Action → ℕ → State p → Except Fault (State p)}

theorem stopInstance_post (hstop : StopsBy Stopping stop) (hpost : StopsInstance stop)
    {childIndex : ℕ} (ha : s.Agrees) (h : stopInstance stop c s childIndex = .ok t) :
    t.Agrees ∧ StopRel s t ∧ t.state c childIndex = .stopped := by
  obtain ⟨ht, hst⟩ := stopInstance_rel stopping_rel hstop h ha
  refine ⟨ht, hst, ?_⟩
  unfold stopInstance at h
  split at h
  · exact hpost h ha
  · rename_i hstate
    exact hst.mono (not_not.mp hstate)

theorem stopChild_post (hstop : StopsBy Stopping stop) (hpost : StopsInstance stop)
    (ha : s.Agrees) (h : stopChild stop gid s c = .ok t) :
    t.Agrees ∧ StopRel s t ∧ (p.allocator c ≠ .nothing →
      ∀ j, j / p.localDomainSize c = gid → t.state c j = .stopped) := by
  obtain ⟨ht, hst⟩ := stopChild_rel stopping_rel hstop h ha
  refine ⟨ht, hst, fun hc j hj => ?_⟩
  have hpos := p.localDomainSize_pos c
  unfold stopChild at h
  split at h
  · rename_i hk
    exact absurd hk hc
  · rename_i hk
    rw [Program.localDomainSize_of_singleton hk, Nat.div_one] at hj
    exact hj ▸ (stopInstance_post hstop hpost ha h).2.2
  · rename_i hk
    split at h
    · obtain ⟨-, -, hall⟩ := foldlM_post (I := Agrees) (R := StopRel)
        (Q := fun i (s : State p) => s.state c i = .stopped) (fun s => .of_state rfl)
        (fun h h' => h.trans h') (fun hst hs => hst.mono hs)
        (fun i _ {_ _} ha h => stopInstance_post hstop hpost ha h) ha h
      refine hall j (List.mem_range'_1.mpr ?_)
      rw [← hj]
      have := Nat.div_add_mod' j (p.localDomainSize c)
      have := Nat.mod_lt j hpos
      omega
    · rename_i hempty
      cases h
      -- the allocator is empty, so all of them are stopped
      obtain ⟨hw, hiff⟩ := ha c hk gid
      have hnone := hw.empty_iff.mp (by simpa using hempty) (j % p.localDomainSize c)
      rw [hiff _ (Nat.mod_lt j hpos), not_not, ← hj, Nat.div_add_mod'] at hnone
      exact hnone

theorem subTreeStop_post (hstop : StopsBy Stopping stop) (hpost : StopsInstance stop)
    (ha : s.Agrees) (h : subTreeStop stop a gid s = .ok t) {j : ℕ} (hc : p.allocator c ≠ .nothing)
    (hj : Under p c j a gid) : t.state c j = .stopped := by
  obtain ⟨-, -, hall⟩ := foldlM_post (I := Agrees) (R := StopRel)
    (Q := fun c (s : State p) => p.allocator c ≠ .nothing →
      ∀ j, j / p.localDomainSize c = gid → s.state c j = .stopped)
    (fun s => .of_state rfl) (fun h h' => h.trans h')
    (fun hst hs hc j hj => hst.mono (hs hc j hj))
    (fun c _ {_ _} ha h => stopChild_post hstop hpost ha h) ha h
  exact hall c (Program.mem_children.mpr hj.1) hc j hj.2

end Post

/-- **Every stopper** stops its instance, and the children of all that it stops. -/
theorem stopping_stopper (fuel : ℕ) :
    StopsBy Stopping (stopper (p := p) fuel) ∧ StopsInstance (stopper (p := p) fuel) := by
  induction fuel with
  | zero =>
    constructor
    · intro a gid s t h
      cases h
    · intro a gid s t h
      cases h
  | succ fuel ih =>
    obtain ⟨hstop, hpost⟩ := ih
    have hrun : ∀ {a : p.Action} {gid : ℕ} {s t : State p}, stopper (fuel + 1) a gid s = .ok t →
        s.Agrees → (t.Agrees ∧ StopRel s t) ∧ t.state a gid = .stopped := by
      intro a gid s t h hs
      rw [stopper] at h
      split at h
      · rename_i hstate
        rw [except_bind_ok] at h
        obtain ⟨u, hu, h⟩ := h
        have hrel := hs.release hstate
        obtain ⟨hau, hru⟩ := linkBreaks_rel stopping_rel hstop hu hrel
        obtain ⟨hat, hut⟩ := subTreeStop_rel stopping_rel hstop h hau
        have hself : (s.release a gid).state a gid = .stopped := by simp
        have hrest := hru.trans hut
        refine ⟨⟨hat, fun {b i} hb => hrest.mono ?_, fun {b i} hb ht {c j} hc hj => ?_⟩,
          hrest.mono hself⟩
        · rw [release_state, write_apply]
          split
          · rfl
          · exact hb
        · by_cases heq : b = a ∧ i = gid
          · obtain ⟨rfl, rfl⟩ := heq
            exact subTreeStop_post hstop hpost hau h hc hj
          · refine hrest.children ?_ ht hc hj
            rw [release_state, write_of_ne _ _ _ _ heq]
            exact hb
      · rename_i hstate
        cases h
        exact ⟨⟨hs, .of_state rfl⟩, not_not.mp hstate⟩
    exact ⟨fun h hs => (hrun h hs).1, fun h hs => (hrun h hs).2⟩

/-! ## Parents are not stopped -/

/-- If the instance is not stopped, neither is the parent instance. -/
def ParentLives (c : p.Action) (j : ℕ) (a : p.Action) (i : ℕ) (s : State p) : Prop :=
  s.state c j ≠ .stopped → s.state a i ≠ .stopped

/-- **The condition**: the instance's action is started under this parent instance only while it is
not stopped. -/
def StartsUnder (c a : p.Action) (i : ℕ) (s : State p) (op : Operation p) : Prop :=
  op = .call c i → s.state a i ≠ .stopped

section Parent
variable {i j : ℕ}

theorem ParentLives.stopRel (h : ParentLives c j a i s) (hst : StopRel s t)
    (hc : p.allocator c ≠ .nothing) (hj : Under p c j a i) : ParentLives c j a i t := by
  intro htc hta
  have hsc : s.state c j ≠ .stopped := fun hs => htc (hst.mono hs)
  exact htc (hst.children (h hsc) hta hc hj)

/-- Setting the state of an instance to another than stopped. -/
theorem ParentLives.write (h : ParentLives c j a i s) {b : p.Action} {k : ℕ} {v : ActionState}
    (hv : v ≠ .stopped) (hstate : t.state = Runtime.write s.state b k v)
    (hb : b = c → k = j → s.state a i ≠ .stopped) : ParentLives c j a i t := by
  intro htc hta
  rw [hstate, write_apply] at htc hta
  split at hta
  · exact hv hta
  · split at htc
    · rename_i heq
      exact hb heq.1.symm heq.2.symm hta
    · exact h htc hta

theorem ParentLives.starter (h : ParentLives c j a i s) (ha : s.Agrees) (hj : Under p c j a i)
    (b : p.Action) (parentId : ℕ)
    (hstart : b = c → parentId = i → s.state a i ≠ .stopped) :
    ParentLives c j a i (s.starter b parentId).1 := by
  rcases starter_cases b parentId s with heq | ⟨hk, -, -, heq⟩ |
    ⟨free, k, u, hk, hfull, rfl, rfl, -, rfl, heq⟩
  · rw [heq]
    exact h
  · rw [heq]
    refine h.write (by decide) start_state fun hbc hpj => hstart hbc ?_
    have hone : p.localDomainSize b = 1 := by
      unfold Program.allocator at hk
      split at hk
      · cases hk
      · cases hk
      · split_ifs at hk with hg h1
        exact h1
    rw [← hj.2, ← hbc, hone, Nat.div_one, hpj]
  · rw [heq]
    refine h.write (s := s.allocateInstance b parentId _) (by decide) start_state
      fun hbc hkj => hstart hbc ?_
    obtain ⟨hlt, -⟩ := (ha b hk parentId).1.nextFree hfull
    rw [← hj.2, ← hbc]
    exact ((instance_eq_iff hlt).mp hkj).1

/-- **One step.** -/
theorem parentLives_step (ha : s.Agrees) (h : ParentLives c j a i s) (hj : Under p c j a i)
    (hc : p.allocator c ≠ .nothing) (hmain : p.isMainExecutable c = false) {op : Operation p}
    (hop : StartsUnder c a i s op) (hs : s.step op = .ok t) : ParentLives c j a i t := by
  have hrel : InstanceRel fun s t : State p => s.Agrees →
      t.Agrees ∧ (ParentLives c j a i s → ParentLives c j a i t) :=
    { same := fun {s t} hsame hs =>
        ⟨agrees_rel.same hsame hs, fun h => by rw [ParentLives, hsame.state]; exact h⟩
      trans := fun h h' hs => ⟨(h' (h hs).1).1, fun hl => (h' (h hs).1).2 ((h hs).2 hl)⟩ }
  have hstop : StopsBy (fun s t : State p => s.Agrees →
      t.Agrees ∧ (ParentLives c j a i s → ParentLives c j a i t)) (stopper p.fuel) := by
    intro b k s t hst hs
    obtain ⟨ht, hst⟩ := (stopping_stopper p.fuel).1 hst hs
    exact ⟨ht, fun h => h.stopRel hst hc hj⟩
  refine (step_rel hrel hstop hs (fun b hb ha => ?_) (fun b parentId hcall ha => ?_)
    (fun b k ha => ⟨ha.pause, fun h => ?_⟩) (fun b k ha => ⟨ha.resume, fun h => ?_⟩)
    (fun _ ha => ⟨ha, id⟩) ha).2 h
  · refine ⟨ha.of_not_range (main_not_range hb) rfl rfl, fun h => ?_⟩
    refine h.write (b := b) (k := 0) (v := .running) (by decide) rfl fun hbc _ => ?_
    rw [hbc, hmain] at hb
    cases hb
  · refine ⟨ha.starter parentId, fun h => h.starter ha hj b parentId ?_⟩
    rintro rfl rfl
    exact hop hcall
  · unfold State.pause
    split
    · rename_i hrun
      refine h.write (by decide) rfl fun hbc hkj => h ?_
      rw [← hbc, ← hkj, hrun]
      decide
    · exact h
  · unfold State.resume
    split
    · rename_i hpaused
      refine h.write (by decide) rfl fun hbc hkj => h ?_
      rw [← hbc, ← hkj, hpaused]
      decide
    · exact h

end Parent

/-- A starter and a stopper are generated for the action. -/
def HasStarter (p : Program) (a : p.Action) : Prop :=
  p.allocator a ≠ .nothing ∧ p.isExecutable a = true

instance (a : p.Action) : Decidable (HasStarter p a) :=
  inferInstanceAs (Decidable (_ ∧ _))

/-- An instance below another, of an action that is no root. -/
inductive Below (p : Program) (a : p.Action) (i : ℕ) : p.Action → ℕ → Prop
  | child {c j} (hc : HasStarter p c) (hm : p.isMainExecutable c = false) (h : Under p c j a i) :
    Below p a i c j
  | step {b k c j} (hb : Below p a i b k) (hc : HasStarter p c)
      (hm : p.isMainExecutable c = false) (h : Under p c j b k) : Below p a i c j

theorem Below.hasStarter {b : p.Action} {i k : ℕ} (h : Below p a i b k) : HasStarter p b := by
  cases h with
  | child hc => exact hc
  | step _ hc => exact hc

/-- **The condition**: an instance is started only under a parent instance that is not stopped, where
there is a starter for the parent. -/
def StartsUnderParent (s : State p) : Operation p → Prop
  | .call c parentId => ∀ a ∈ p.parent c, HasStarter p a → s.state a parentId ≠ .stopped
  | _ => True

instance (s : State p) (op : Operation p) : Decidable (s.StartsUnderParent op) := by
  refine op.casesOn ?_ ?_ ?_ ?_ ?_ ?_ ?_ ?_ <;> intros <;> dsimp only [StartsUnderParent] <;> infer_instance

/-- Below an instance that is stopped everything is stopped. -/
theorem below_stopped {a : p.Action} {i : ℕ} (ha : HasStarter p a)
    (hlives : ∀ c j b k, HasStarter p c → p.isMainExecutable c = false → HasStarter p b →
      Under p c j b k → ParentLives c j b k s) (hs : s.state a i = .stopped) {j : ℕ}
    (h : Below p a i c j) : s.state c j = .stopped := by
  induction h with
  | child hc hm hj => exact not_not.mp fun hstate => hlives _ _ _ _ hc hm ha hj hstate hs
  | step hb hc hm hj ih => exact not_not.mp fun hstate => hlives _ _ _ _ hc hm hb.hasStarter hj hstate ih

end State
end EgLang.Runtime
