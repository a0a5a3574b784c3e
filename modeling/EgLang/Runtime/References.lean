import EgLang.Runtime.AllocatorAgreement

/-! # References are never reused

A time stamp is a cycle of the clock, and an instance is stopped and started within a few cycles. What
keeps its references apart is the cycle it was last stopped in: it is not started before the next
one. -/

namespace EgLang.Runtime
open Library
set_option autoImplicit false

namespace State
variable {p : Program} {s t : State p} {a : p.Action} {gid : ℕ}

/-- Every instance's reference names the instance and its type. -/
def Named (s : State p) : Prop :=
  ∀ a gid, (s.reference a gid).inst = gid ∧ (s.reference a gid).type = p.index a

theorem named_initial : (initial p).Named := fun _ _ => ⟨rfl, rfl⟩

theorem Named.write (h : s.Named) {timestamp : ℕ}
    (ht : t.reference = write s.reference a gid ⟨gid, p.index a, timestamp⟩) : t.Named := by
  intro b i
  rw [ht, write_apply]
  split
  · rename_i heq
    obtain ⟨rfl, rfl⟩ := heq
    exact ⟨rfl, rfl⟩
  · exact h b i

theorem Named.start (h : s.Named) : (s.start a gid).Named :=
  h.write (start_reference.trans (by rw [(h a gid).1]))

/-- What a starter that starts an instance returns. -/
theorem start_ref (h : s.Named) :
    (s.start a gid).reference a gid = ⟨gid, p.index a, s.clock⟩ := by
  rw [start_reference, write_self, (h a gid).1]

theorem Named.starter (h : s.Named) (parentId : ℕ) : (s.starter a parentId).1.Named := by
  rcases starter_cases a parentId s with heq | ⟨-, -, -, heq⟩ |
    ⟨free, gid, u, -, -, -, -, -, rfl, heq⟩
  · rw [heq]
    exact h
  · rw [heq]
    exact h.start
  · rw [heq]
    exact Named.start (s := s.allocateInstance a parentId free) h

theorem named_rel : InstanceRel fun s t : State p => s.Named → t.Named where
  same {s t} h hs := by
    intro a gid
    rw [h.reference]
    exact hs a gid
  trans h h' hs := h' (h hs)

theorem call_snd (a : p.Action) (parentId : ℕ) (s : State p) :
    (s.call a parentId).2 = (s.starter a parentId).2 := by
  unfold call
  dsimp only
  split <;> rfl

/-- **One step** keeps the names. -/
theorem named_step (h : s.Named) {op : Operation p} (hs : s.step op = .ok t) : t.Named := by
  refine step_rel named_rel (stopper_rel named_rel (fun _ _ _ _ h => ?_) _) hs (fun a _ h => ?_)
    (fun _ parentId _ h => h.starter parentId) (fun a gid h => ?_) (fun a gid h => ?_)
    (fun _ h => h) h
  · intro b i
    rw [release_reference]
    exact h b i
  · have hw : (s.mainStarter a).1.reference =
        Runtime.write s.reference a 0 ⟨0, p.index a, s.clock⟩ := by
      change Runtime.write s.reference a 0
        ⟨(s.reference a 0).inst, (s.reference a 0).type, s.clock⟩ = _
      rw [(h a 0).1, (h a 0).2]
    exact h.write hw
  · unfold State.pause
    split <;> exact h
  · unfold State.resume
    split <;> exact h

/-! ## A reference is spent -/

/-- The clock does not wrap around. -/
def NoWrap (s : State p) : Operation p → Prop
  | .next => s.clock + 1 < 2 ^ 32
  | _ => True

instance (s : State p) (op : Operation p) : Decidable (s.NoWrap op) := by
  unfold NoWrap
  split <;> infer_instance

/-- An instance that is stopped now was stopped no earlier than in the given cycle, which has
begun. -/
def Spent (a : p.Action) (gid timestamp : ℕ) (s : State p) : Prop :=
  timestamp ≤ s.clock ∧ (s.state a gid = .stopped → timestamp ≤ s.stopCycle a gid)

section Spent
variable {timestamp : ℕ}

theorem spent_rel : InstanceRel fun s t : State p =>
    Spent a gid timestamp s → Spent a gid timestamp t where
  same {s t} h hs := by
    unfold Spent
    rw [h.clock, h.state, h.stopCycle]
    exact hs
  trans h h' hs := h' (h hs)

/-- Setting the state of an instance to another than stopped. -/
theorem Spent.write (h : Spent a gid timestamp s) {b : p.Action} {i : ℕ} {v : ActionState}
    (hv : v ≠ .stopped) (hclock : t.clock = s.clock) (hcycle : t.stopCycle = s.stopCycle)
    (hstate : t.state = Runtime.write s.state b i v) : Spent a gid timestamp t := by
  refine ⟨hclock ▸ h.1, fun hstop => ?_⟩
  rw [hcycle]
  refine h.2 ?_
  rw [hstate, write_apply] at hstop
  split at hstop
  · exact absurd hstop hv
  · exact hstop

theorem Spent.release (h : Spent a gid timestamp s) {b : p.Action} {i : ℕ} :
    Spent a gid timestamp (s.release b i) := by
  refine ⟨by rw [release_clock]; exact h.1, fun hstop => ?_⟩
  rw [release_state, write_apply] at hstop
  rw [release_stopCycle, write_apply]
  split at hstop
  · rename_i heq
    rw [if_pos heq]
    exact h.1
  · rename_i heq
    rw [if_neg heq]
    exact h.2 hstop

theorem Spent.starter (h : Spent a gid timestamp s) (b : p.Action) (parentId : ℕ) :
    Spent a gid timestamp (s.starter b parentId).1 := by
  rcases starter_cases b parentId s with heq | ⟨-, -, -, heq⟩ |
    ⟨free, i, u, -, -, -, -, -, rfl, heq⟩
  · rw [heq]
    exact h
  · rw [heq]
    exact h.write (by decide) start_clock start_stopCycle start_state
  · rw [heq]
    exact h.write (by decide) start_clock start_stopCycle start_state

/-- **One step** leaves a spent reference spent, unless the clock wraps around. -/
theorem spent_step (h : Spent a gid timestamp s) {op : Operation p} (hwrap : s.NoWrap op)
    (hs : s.step op = .ok t) : Spent a gid timestamp t := by
  refine step_rel spent_rel (stopper_rel spent_rel (fun _ _ _ _ h => h.release) _) hs
    (fun _ _ h => h.write (by decide) rfl rfl rfl) (fun b parentId _ h => h.starter b parentId)
    (fun b i h => ?_) (fun b i h => ?_) (fun hop h => ?_) h
  · unfold State.pause
    split
    · exact h.write (by decide) rfl rfl rfl
    · exact h
  · unfold State.resume
    split
    · exact h.write (by decide) rfl rfl rfl
    · exact h
  · subst hop
    have hlt : s.clock + 1 < 2 ^ 32 := hwrap
    refine ⟨?_, h.2⟩
    change timestamp ≤ (s.clock + 1) % 2 ^ 32
    rw [Nat.mod_eq_of_lt hlt]
    exact Nat.le_succ_of_le h.1

end Spent

/-- **What a successful start yields**: the reference of a stopped instance that was not stopped in
this cycle, stamped with it; and it is spent. -/
theorem call_yields (hn : s.Named) (ha : s.Agrees) {parentId : ℕ}
    (hok : (s.call a parentId).2.timestamp ≠ INVALID_TIMESTAMP) :
    ∃ gid, (s.call a parentId).2 = ⟨gid, p.index a, s.clock⟩ ∧ s.state a gid = .stopped ∧
      s.stopCycle a gid < s.clock ∧ Spent a gid s.clock (s.call a parentId).1 := by
  have hspent : ∀ u : State p, u.clock = s.clock → ∀ gid,
      (s.starter a parentId).1 = u.start a gid → Spent a gid s.clock (s.call a parentId).1 := by
    intro u hu gid heq
    have hsame := call_fst a parentId s
    refine ⟨?_, fun hstop => ?_⟩
    · rw [hsame.clock, heq, start_clock, hu]
    · rw [hsame.state, heq, start_state, write_self] at hstop
      cases hstop
  rw [call_snd] at hok ⊢
  rcases starter_cases a parentId s with heq | ⟨-, hstop, hcycle, heq⟩ |
    ⟨free, gid, u, hk, hfull, rfl, rfl, hcycle, rfl, heq⟩
  · rw [heq] at hok
    exact absurd rfl hok
  · refine ⟨parentId, ?_, hstop, hcycle, hspent s rfl parentId (by rw [heq])⟩
    rw [heq, start_ref hn]
  · obtain ⟨hw, hiff⟩ := ha a hk parentId
    obtain ⟨hlt, hfree⟩ := hw.nextFree hfull
    rw [hiff _ hlt, not_not] at hfree
    refine ⟨_, ?_, hfree, hcycle, hspent (s.allocateInstance a parentId _) rfl _ (by rw [heq])⟩
    rw [heq, start_ref (s := s.allocateInstance a parentId _) hn]
    rfl

/-- **References are never reused**: two successful starts in a run yield different references. -/
theorem references_differ {s₀ s₁ s₂ : State p} {a b : p.Action} {i j : ℕ}
    (h₀ : Reaches step NoWrap (initial p) s₀) (h₁ : s₀.step (.call a i) = .ok s₁)
    (hr₁ : (s₀.call a i).2.timestamp ≠ INVALID_TIMESTAMP) (h₂ : Reaches step NoWrap s₁ s₂)
    (hr₂ : (s₂.call b j).2.timestamp ≠ INVALID_TIMESTAMP) :
    (s₀.call a i).2 ≠ (s₂.call b j).2 := by
  have hinv : ∀ {u v : State p}, Reaches step NoWrap u v → u.Named ∧ u.Agrees →
      v.Named ∧ v.Agrees := fun hr h =>
    hr.invariant (fun s => s.Named ∧ s.Agrees) h
      fun _ _ _ h _ hs => ⟨named_step h.1 hs, agrees_step h.2 hs⟩
  have hi₀ := hinv h₀ ⟨named_initial, agrees_initial⟩
  have hi₂ := hinv h₂ ⟨named_step hi₀.1 h₁, agrees_step hi₀.2 h₁⟩
  obtain ⟨gid, heq, -, -, hspent⟩ := call_yields hi₀.1 hi₀.2 hr₁
  obtain ⟨gid', heq', hstop, hcycle, -⟩ := call_yields hi₂.1 hi₂.2 hr₂
  have hs₁ : s₁ = (s₀.call a i).1 := by
    rw [step] at h₁
    split at h₁
    · split at h₁
      · cases h₁
        rfl
      · cases h₁
    · cases h₁
  have hspent₂ : Spent a gid s₀.clock s₂ :=
    h₂.invariant (Spent a gid s₀.clock) (hs₁ ▸ hspent) fun _ _ _ h hw hs => spent_step h hw hs
  rw [heq, heq']
  intro hsame
  rw [Reference.mk.injEq] at hsame
  obtain ⟨rfl, hindex, hclock⟩ := hsame
  obtain rfl := p.index_injective _ _ hindex
  have := hspent₂.2 hstop
  omega

/-- A link that is stopped and started again in the next cycle. -/
theorem references_differ_restarted : ∃ s₀ s₂ : State .sample,
    (s₀.call Program.sample.inner 0).2 = ⟨0, 5, 1⟩ ∧
      (s₂.call Program.sample.inner 0).2 = ⟨0, 5, 2⟩ ∧
        (s₀.call Program.sample.inner 0).2 ≠ (s₂.call Program.sample.inner 0).2 := by
  obtain ⟨s₀, hr, hr₁, hrun⟩ := exists_reaches step NoWrap
    [.startMain Program.sample.root, .call Program.sample.object 0]
    (initial .sample)
    (fun s => (s.call Program.sample.inner 0).2 = ⟨0, 5, 1⟩ ∧
      ((s.step (.call Program.sample.inner 0)).toOption.bind (checkedRun step NoWrap
        [.stop Program.sample.inner 0, .next])).any
          (fun u => decide ((u.call Program.sample.inner 0).2 = ⟨0, 5, 2⟩)) = true)
    (by decide +kernel)
  obtain ⟨s₁, s₂, h₁, h₂, hr₂⟩ := exists_step_reaches _ _ _ _ _ _ hrun
  refine ⟨s₀, s₂, hr₁, hr₂, references_differ hr h₁ ?_ h₂ ?_⟩
  · rw [hr₁]
    decide
  · rw [hr₂]
    decide

end State
end EgLang.Runtime
