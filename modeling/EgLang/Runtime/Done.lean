import EgLang.Runtime.SubTree

/-! # The done operation

`DoneOperation` looks at the allocators of the children of an instance only. That it answers for the
children is the agreement of the allocators with the action states; that it answers for the whole
subtree needs that nothing is running under a child that is stopped.
-/

namespace EgLang.Runtime
open Library
set_option autoImplicit false

namespace State
variable {p : Program} {s t : State p} {a c : p.Action} {gid : ℕ}

/-! ## The generated body -/

/-- The test that is generated for the allocator of a child, `false` where it returns. An event is
stopped by the call that starts it, so that there is no test for it here. -/
def doneChild (gid : ℕ) (s : State p) (c : p.Action) : Bool :=
  match p.allocator c with
  | .nothing => true
  | .singleton => s.state c gid = .stopped
  | .range => (s.alloc c gid).empty

/-- `DoneOperation`. -/
def done (a : p.Action) (gid : ℕ) (s : State p) : Bool := (p.children a).all (s.doneChild gid)

/-! ## What it answers -/

theorem doneChild_iff (ha : s.Agrees) : s.doneChild gid c = true ↔
    (p.allocator c ≠ .nothing → ∀ j, j / p.localDomainSize c = gid → s.state c j = .stopped) := by
  unfold doneChild
  cases hk : p.allocator c with
  | nothing => simp
  | singleton =>
    simp [Program.localDomainSize_of_singleton hk]
  | range =>
    obtain ⟨hw, hiff⟩ := ha c hk gid
    have hpos := p.localDomainSize_pos c
    rw [hw.empty_iff]
    constructor
    · intro hempty _ j hj
      have hnone := hempty (j % p.localDomainSize c)
      rw [hiff _ (Nat.mod_lt j hpos), not_not, ← hj, Nat.div_add_mod'] at hnone
      exact hnone
    · intro hstopped i halloc
      have hlt := halloc.1
      apply (hiff i hlt).mp halloc
      apply hstopped (by decide)
      rw [Nat.mul_comm, Nat.mul_add_div hpos, Nat.div_eq_of_lt hlt, Nat.add_zero]

/-- **The children**: an instance is done if every instance under it is stopped. -/
theorem done_iff (ha : s.Agrees) : s.done a gid = true ↔
    ∀ c j, p.allocator c ≠ .nothing → Under p c j a gid → s.state c j = .stopped := by
  rw [done, List.all_eq_true]
  constructor
  · intro h c j hc hj
    exact (doneChild_iff ha).mp (h c (Program.mem_children.mpr hj.1)) hc j hj.2
  · intro h c hmem
    refine (doneChild_iff ha).mpr fun hc j hj => h c j hc ⟨?_, hj⟩
    exact Program.mem_children.mp hmem

/-- The children of the action that have instances are those a starter is generated for. -/
def StartersBelow (p : Program) (a : p.Action) : Prop :=
  ∀ c, p.parent c = some a → p.allocator c ≠ .nothing →
    HasStarter p c ∧ p.isMainExecutable c = false

instance (a : p.Action) : Decidable (StartersBelow p a) :=
  inferInstanceAs (Decidable (∀ _, _ → _ → _))

/-- Where no instance is running under one that is stopped, the children answer for the subtree. -/
theorem done_iff_below (ha : s.Agrees) (hstarters : StartersBelow p a)
    (hlives : ∀ c j b k, HasStarter p c → p.isMainExecutable c = false → HasStarter p b →
      Under p c j b k → ParentLives c j b k s) :
    s.done a gid = true ↔ ∀ c j, Below p a gid c j → s.state c j = .stopped := by
  rw [done_iff ha]
  constructor
  · intro h c j hb
    induction hb with
    | child hc hm hj => exact h _ _ hc.1 hj
    | step hb hc hm hj ih =>
      by_contra hstate
      exact hlives _ _ _ _ hc hm hb.hasStarter hj hstate ih
  · intro h c j hc hj
    obtain ⟨hstart, hm⟩ := hstarters c hj.1 hc
    exact h c j (.child hstart hm hj)

/-! ## Runs -/

/-- A stopper that has an instance to stop leaves it done. -/
theorem done_of_stopper {fuel : ℕ} (ha : s.Agrees) (hs : s.state a gid ≠ .stopped)
    (h : stopper fuel a gid s = .ok t) : t.done a gid = true := by
  obtain ⟨hrel, hpost⟩ := stopping_stopper (p := p) fuel
  obtain ⟨ht, hst⟩ := hrel h ha
  rw [done_iff ht]
  intro c j hc hj
  exact hst.children hs (hpost h ha) hc hj

/-- What is done stays so when others are stopped. -/
theorem done_mono {b : p.Action} {k fuel : ℕ} (ha : s.Agrees) (hstop : stopper fuel b k s = .ok t)
    (h : s.done a gid = true) : t.done a gid = true := by
  obtain ⟨ht, hst⟩ := (stopping_stopper (p := p) fuel).1 hstop ha
  rw [done_iff ha] at h
  rw [done_iff ht]
  intro c j hc hj
  exact hst.mono (h c j hc hj)

theorem agrees_of_run {guard : State p → Operation p → Prop}
    (hr : Reaches step guard (initial p) s) : s.Agrees :=
  hr.invariant Agrees agrees_initial fun _ _ _ hI _ hs => agrees_step hI hs

theorem parentLives_of_run {i j : ℕ} (hr : Reaches step StartsUnderParent (initial p) s)
    (hc : HasStarter p c) (hm : p.isMainExecutable c = false) (ha : HasStarter p a)
    (hj : Under p c j a i) : ParentLives c j a i s := by
  have hrun : s.Agrees ∧ ParentLives c j a i s := by
    refine hr.invariant (fun s => s.Agrees ∧ ParentLives c j a i s)
      ⟨agrees_initial, fun h => absurd rfl h⟩ fun u op v hI hop hs => ?_
    refine ⟨agrees_step hI.1 hs, parentLives_step hI.1 hI.2 hj hc.1 hm ?_ hs⟩
    rintro rfl
    exact hop a hj.1 ha
  exact hrun.2

/-- **Done means that nothing is left.** In every state that is reached by starting instances only
under parent instances that are not stopped, `done` of an instance is true exactly when every instance
below it, at any depth, is stopped. Every stopper leaves its instance done, and no stopper, whatever its
links and objects bring down, undoes that of another. -/
theorem done_exact (hr : Reaches step StartsUnderParent (initial p) s) (a : p.Action)
    (hstarters : StartersBelow p a) (gid : ℕ) :
    (s.done a gid = true ↔ ∀ c j, Below p a gid c j → s.state c j = .stopped) ∧
    (∀ fuel t, HasStarter p a → stopper fuel a gid s = .ok t → t.done a gid = true) ∧
    ∀ b k fuel t, stopper fuel b k s = .ok t → s.done a gid = true → t.done a gid = true := by
  have hagrees := agrees_of_run hr
  have hlives : ∀ c j b k, HasStarter p c → p.isMainExecutable c = false → HasStarter p b →
      Under p c j b k → ParentLives c j b k s :=
    fun c j b k hc hm hb hj => parentLives_of_run hr hc hm hb hj
  have hdone : s.done a gid = true ↔ ∀ c j, Below p a gid c j → s.state c j = .stopped :=
    done_iff_below hagrees hstarters hlives
  refine ⟨hdone, fun fuel t ha hstop => ?_, fun b k fuel t hstop h => done_mono hagrees hstop h⟩
  by_cases hs : s.state a gid = .stopped
  · exact done_mono hagrees hstop (hdone.mpr fun c j => below_stopped ha hlives hs)
  · exact done_of_stopper hagrees hs hstop

/-- An object is not done while an action in it runs, and is done when it has been stopped. -/
theorem done_exact_object : ∃ s t : State .sample, s.done Program.sample.object 0 = false ∧
    stopper 7 Program.sample.object 0 s = .ok t ∧ t.done Program.sample.object 0 = true := by
  obtain ⟨s, hr, hX, hstop⟩ := exists_reaches step StartsUnderParent
    [.startMain Program.sample.root, .call Program.sample.object 0,
      .call Program.sample.X 0] (initial .sample)
    (fun s => s.state Program.sample.X 0 = .running ∧
      (stopper 7 Program.sample.object 0 s).toOption.any (fun _ => decide True) = true)
    (by decide +kernel)
  obtain ⟨t, ht, -⟩ := exists_ok hstop
  obtain ⟨hdone, hstopped, -⟩ := done_exact hr Program.sample.object (by decide +kernel) 0
  refine ⟨s, t, ?_, ht, hstopped 7 t (by decide +kernel) ht⟩
  refine Bool.eq_false_iff.mpr fun h => ?_
  have hbelow : Below .sample Program.sample.object 0 Program.sample.X 0 :=
    .child (by decide +kernel) (by decide +kernel) ⟨rfl, rfl⟩
  exact absurd (hX.symm.trans (hdone.mp h _ _ hbelow)) (by decide)

end State
end EgLang.Runtime
