import EgLang.Runtime.Rules

/-! # Allocators and action states

The allocator of an action in an instance of its parent has allocated the indices of the instances
that are not stopped. -/

namespace EgLang.Runtime
open Library
set_option autoImplicit false

namespace State
variable {p : Program} {s t : State p} {a : p.Action} {gid : ℕ}

/-! ## What starters and releases write -/

@[simp] theorem start_clock : (s.start a gid).clock = s.clock := by
  unfold start
  dsimp only
  split <;> rfl

@[simp] theorem start_state : (s.start a gid).state = write s.state a gid .running := by
  unfold start
  dsimp only
  split <;> rfl

@[simp] theorem start_stopCycle : (s.start a gid).stopCycle = s.stopCycle := by
  unfold start
  dsimp only
  split <;> rfl

@[simp] theorem start_alloc : (s.start a gid).alloc = s.alloc := by
  unfold start
  dsimp only
  split <;> rfl

@[simp] theorem start_reference : (s.start a gid).reference =
    write s.reference a gid ⟨(s.reference a gid).inst, p.index a, s.clock⟩ := by
  unfold start
  dsimp only
  split <;> rfl

@[simp] theorem release_clock : (s.release a gid).clock = s.clock := by
  simp only [release, setState]
  split_ifs <;> rfl

@[simp] theorem release_state : (s.release a gid).state = write s.state a gid .stopped := by
  simp only [release, setState]
  split_ifs <;> rfl

@[simp] theorem release_stopCycle :
    (s.release a gid).stopCycle = write s.stopCycle a gid s.clock := by
  simp only [release, setState]
  split_ifs <;> rfl

@[simp] theorem release_reference : (s.release a gid).reference = s.reference := by
  simp only [release, setState]
  split_ifs <;> rfl

theorem release_alloc : (s.release a gid).alloc =
    if p.allocator a = .range then (s.freeInstance a gid).alloc else s.alloc := by
  simp only [release, setState]
  split_ifs <;> rfl

/-- **What a starter does**: nothing, or it starts an instance, which it may have allocated. -/
theorem starter_cases (a : p.Action) (parentId : ℕ) (s : State p) :
    s.starter a parentId = (s, .null) ∨
    (p.allocator a = .singleton ∧ s.state a parentId = .stopped ∧
      s.stopCycle a parentId < s.clock ∧
      s.starter a parentId =
        (s.start a parentId, (s.start a parentId).reference a parentId)) ∨
    ∃ free gid u, p.allocator a = .range ∧ (s.alloc a parentId).full = false ∧
      free = (s.alloc a parentId).nextFree ∧ gid = parentId * p.localDomainSize a + free ∧
      s.stopCycle a gid < s.clock ∧ u = s.allocateInstance a parentId free ∧
      s.starter a parentId = (u.start a gid, (u.start a gid).reference a gid) := by
  unfold starter
  split
  · exact .inl rfl
  · rename_i hk
    split
    · rename_i h
      exact .inr (.inl ⟨hk, h.1, h.2, rfl⟩)
    · exact .inl rfl
  · rename_i hk
    split
    · rename_i hfull
      dsimp only
      split
      · rename_i hcycle
        exact .inr (.inr ⟨_, _, _, hk, by simpa using hfull, rfl, rfl, hcycle, rfl, rfl⟩)
      · exact .inl rfl
    · exact .inl rfl

/-! ## The agreement -/

/-- **The invariant**: index `i` of a parent instance is allocated if and only if the instance it
stands for is not stopped. -/
def Agrees (s : State p) : Prop :=
  ∀ a, p.allocator a = .range → ∀ parentId, (s.alloc a parentId).Wf ∧
    ∀ i < p.localDomainSize a, ((s.alloc a parentId).Allocated i ↔
      s.state a (parentId * p.localDomainSize a + i) ≠ .stopped)

theorem agrees_initial : (initial p).Agrees := by
  refine fun a _ parentId => ⟨RangeAllocator.wf_initial _, fun i _ => ?_⟩
  exact iff_of_false (RangeAllocator.not_allocated_initial i) fun h => h rfl

/-- The parent and the local index of an instance. -/
theorem instance_eq_iff {size parent i gid : ℕ} (hi : i < size) :
    parent * size + i = gid ↔ parent = gid / size ∧ i = gid % size := by
  constructor
  · rintro rfl
    have hpos : 0 < size := Nat.zero_lt_of_lt hi
    rw [Nat.mul_comm, Nat.mul_add_div hpos, Nat.div_eq_of_lt hi, Nat.mul_add_mod,
      Nat.mod_eq_of_lt hi]
    exact ⟨rfl, rfl⟩
  · rintro ⟨rfl, rfl⟩
    exact Nat.div_add_mod' gid size

theorem Agrees.setState (h : s.Agrees) {v : ActionState} (hv : v ≠ .stopped)
    (hs : s.state a gid ≠ .stopped) : (s.setState a gid v).Agrees := by
  refine fun b hb parentId => ⟨(h b hb parentId).1, fun i hi => ?_⟩
  rw [show (s.setState a gid v).alloc = s.alloc from rfl, (h b hb parentId).2 i hi]
  rw [show (s.setState a gid v).state = write s.state a gid v from rfl, write_apply]
  split
  · rename_i heq
    obtain ⟨rfl, rfl⟩ := heq
    exact iff_of_true hs hv
  · exact Iff.rfl

theorem Agrees.pause (h : s.Agrees) : (s.pause a gid).Agrees := by
  unfold State.pause
  split
  · rename_i hs
    exact h.setState (by simp) (by simp [hs])
  · exact h

theorem Agrees.resume (h : s.Agrees) : (s.resume a gid).Agrees := by
  unfold State.resume
  split
  · rename_i hs
    exact h.setState (by simp) (by simp [hs])
  · exact h

/-- A write to the state of an action without range allocator. -/
theorem Agrees.of_not_range (h : s.Agrees) (ha : p.allocator a ≠ .range)
    (halloc : t.alloc = s.alloc) {v : ActionState} (hstate : t.state = write s.state a gid v) :
    t.Agrees := by
  refine fun b hb parentId => ?_
  rw [halloc]
  refine ⟨(h b hb parentId).1, fun i hi => ?_⟩
  rw [(h b hb parentId).2 i hi, hstate, write_of_ne]
  rintro ⟨rfl, _⟩
  exact ha hb

/-- An allocator and the state of an instance change together. -/
theorem Agrees.write (h : s.Agrees) (parentId : ℕ) {k : ℕ} (hk : k < p.localDomainSize a)
    {al : RangeAllocator (p.localDomainSize a)} {v : ActionState} (hw : al.Wf)
    (hal : ∀ i < p.localDomainSize a, (al.Allocated i ↔
      if i = k then v ≠ .stopped else (s.alloc a parentId).Allocated i))
    (halloc : t.alloc = Runtime.write s.alloc a parentId al)
    (hstate : t.state = Runtime.write s.state a (parentId * p.localDomainSize a + k) v) :
    t.Agrees := by
  intro b hb parentId'
  rw [halloc, hstate]
  by_cases hpa : b = a ∧ parentId' = parentId
  · obtain ⟨rfl, rfl⟩ := hpa
    rw [write_self]
    refine ⟨hw, fun i hi => ?_⟩
    rw [hal i hi, write_apply]
    by_cases hik : i = k
    · simp [hik]
    · have hne : ¬ (b = b ∧ parentId' * p.localDomainSize b + i =
          parentId' * p.localDomainSize b + k) := by omega
      rw [if_neg hik, if_neg hne, (h b hb parentId').2 i hi]
  · rw [write_of_ne _ _ _ _ hpa]
    refine ⟨(h b hb parentId').1, fun i hi => ?_⟩
    rw [(h b hb parentId').2 i hi, write_of_ne]
    rintro ⟨rfl, heq⟩
    rw [instance_eq_iff hi] at heq
    obtain ⟨hq, -⟩ := heq
    obtain ⟨hq', -⟩ := (instance_eq_iff hk).mp rfl
    exact hpa ⟨rfl, hq.trans hq'.symm⟩

theorem Agrees.release (h : s.Agrees) (hs : s.state a gid ≠ .stopped) :
    (s.release a gid).Agrees := by
  by_cases ha : p.allocator a = .range
  · have hpos := p.localDomainSize_pos a
    have hmod := Nat.mod_lt gid hpos
    have hindex : gid - gid / p.localDomainSize a * p.localDomainSize a =
        gid % p.localDomainSize a := by
      have := Nat.div_add_mod' gid (p.localDomainSize a)
      omega
    obtain ⟨hw, hiff⟩ := h a ha (gid / p.localDomainSize a)
    have halloc : (s.alloc a (gid / p.localDomainSize a)).Allocated
        (gid % p.localDomainSize a) := by
      rw [hiff _ hmod, Nat.div_add_mod']
      exact hs
    obtain ⟨hwf, hfree⟩ := hw.free halloc
    refine h.write (gid / p.localDomainSize a) hmod hwf (v := .stopped)
      (fun i _ => ?_) ?_ ?_
    · rw [hfree]
      by_cases hi : i = gid % p.localDomainSize a <;> simp [hi]
    · rw [release_alloc, if_pos ha, freeInstance, hindex]
    · rw [release_state, Nat.div_add_mod']
  · exact h.of_not_range ha (by rw [release_alloc, if_neg ha]) release_state

theorem Agrees.starter (h : s.Agrees) (parentId : ℕ) : (s.starter a parentId).1.Agrees := by
  rcases starter_cases a parentId s with heq | ⟨ha, -, -, heq⟩ |
    ⟨free, gid, u, ha, hfull, rfl, rfl, -, rfl, heq⟩
  · rw [heq]
    exact h
  · rw [heq]
    exact h.of_not_range (by rw [ha]; decide) start_alloc start_state
  · rw [heq]
    obtain ⟨hw, -⟩ := h a ha parentId
    obtain ⟨hlt, -⟩ := hw.nextFree hfull
    obtain ⟨hwf, halloc⟩ := hw.allocate hfull
    refine h.write parentId hlt hwf (v := .running) (fun i _ => ?_) start_alloc start_state
    rw [halloc]
    by_cases hi : i = (s.alloc a parentId).nextFree <;> simp [hi]

theorem agrees_rel : InstanceRel fun s t : State p => s.Agrees → t.Agrees where
  same {s t} h hs := by
    intro a ha parentId
    rw [h.alloc, h.state]
    exact hs a ha parentId
  trans h h' hs := h' (h hs)

theorem main_not_range (ha : p.isMainExecutable a = true) : p.allocator a ≠ .range := by
  have hroot : p.context a = .root .fileRoot := by simpa [Program.isMainExecutable] using ha
  unfold Program.allocator
  rw [hroot]
  dsimp only
  split
  · rw [if_pos (p.localDomainSize_root a _ hroot)]
    decide
  · decide

theorem agrees_stopper (fuel : ℕ) :
    StopsBy (fun s t : State p => s.Agrees → t.Agrees) (stopper fuel) :=
  stopper_rel agrees_rel (fun _ _ _ hstate h => h.release hstate) fuel

/-- **One step** keeps the agreement. -/
theorem agrees_step (h : s.Agrees) {op : Operation p} (hs : s.step op = .ok t) : t.Agrees :=
  step_rel agrees_rel (agrees_stopper _) hs
    (fun _ ha h => h.of_not_range (main_not_range ha) rfl rfl) (fun _ parentId _ h => h.starter parentId)
    (fun _ _ h => h.pause) (fun _ _ h => h.resume) (fun _ h => h) h

/-- **Allocator and action state agree** in every state that is reached: the allocator of a parent
instance has allocated the indices of the instances that are not stopped. So the index a starter is
handed is that of a stopped instance, an allocator is full only if every instance is in use, and the
index a stopper frees is allocated. -/
theorem agrees_of_reaches (hr : Reaches step (fun _ _ => True) (initial p) s) (a : p.Action)
    (ha : p.allocator a = .range) (parentId : ℕ) :
    (∀ i < p.localDomainSize a, ((s.alloc a parentId).Allocated i ↔
      s.state a (parentId * p.localDomainSize a + i) ≠ .stopped)) ∧
    ((s.alloc a parentId).full = false → (s.alloc a parentId).nextFree < p.localDomainSize a ∧
      s.state a (parentId * p.localDomainSize a + (s.alloc a parentId).nextFree) = .stopped) ∧
    ((s.alloc a parentId).full = true → ∀ i < p.localDomainSize a,
      s.state a (parentId * p.localDomainSize a + i) ≠ .stopped) ∧
    ∀ gid, s.state a gid ≠ .stopped →
      (s.alloc a (gid / p.localDomainSize a)).Allocated (gid % p.localDomainSize a) := by
  have h : s.Agrees := hr.invariant Agrees agrees_initial fun _ _ _ hI _ hs => agrees_step hI hs
  obtain ⟨hw, hiff⟩ := h a ha parentId
  refine ⟨hiff, fun hfull => ?_, fun hfull i hi => ?_, fun gid hstate => ?_⟩
  · obtain ⟨hlt, hfree⟩ := hw.nextFree hfull
    rw [hiff _ hlt, not_not] at hfree
    exact ⟨hlt, hfree⟩
  · exact (hiff i hi).mp (hw.full_iff.mp hfull i hi)
  · rw [((h a ha _).2 _ (Nat.mod_lt _ (p.localDomainSize_pos a))), Nat.div_add_mod']
    exact hstate

/-- Of two links in the root one has been stopped: its index is free again. -/
theorem agrees_of_two_links : ∃ s : State .sample, s.state Program.sample.outer 0 = .stopped ∧
    s.state Program.sample.outer 1 = .running ∧
      (s.alloc Program.sample.outer 0).Allocated 1 ∧
        ¬ (s.alloc Program.sample.outer 0).Allocated 0 := by
  obtain ⟨s, hr, h0, h1⟩ := exists_reaches step (fun _ _ => True)
    [.startMain Program.sample.root, .call Program.sample.outer 0,
      .call Program.sample.outer 0, .next, .stop Program.sample.outer 0]
    (initial .sample)
    (fun s => s.state Program.sample.outer 0 = .stopped ∧
      s.state Program.sample.outer 1 = .running) (by decide +kernel)
  have h := (agrees_of_reaches hr Program.sample.outer (by decide +kernel) 0).1
  refine ⟨s, h0, h1, (h 1 (by decide)).mpr ?_, fun halloc => (h 0 (by decide)).mp halloc h0⟩
  exact fun hstate => absurd (h1.symm.trans hstate) (by decide)

end State
end EgLang.Runtime
