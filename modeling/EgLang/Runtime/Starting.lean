import EgLang.Runtime.AllocatorAgreement

/-! # When a starter starts

A starter with a range allocator tries one index only, the one `nextFree` returns, and refuses to start
it in the cycle it was stopped in. Another free index of the same parent is not looked at: whether an
instance is started turns on which index the allocator offers.
-/

namespace EgLang.Runtime
open Library
set_option autoImplicit false

/-- What an allocator holds after any uses. -/
def RangeAllocator.Reachable {size : ℕ} (a : RangeAllocator size) : Prop :=
  ∃ free, Reaches RangeAllocator.use (fun _ _ => True) (.initial size, Finset.range size) (a, free)

theorem RangeAllocator.Reachable.wf {size : ℕ} {a : RangeAllocator size} (h : a.Reachable) :
    a.Wf := by
  obtain ⟨free, hr⟩ := h
  have hrep : a.Represents free :=
    hr.invariant (fun s => s.1.Represents s.2) (RangeAllocator.represents_initial size)
      fun _ _ _ hI _ hs => RangeAllocator.represents_use hI hs
  exact hrep.wf

/-- The bit set of an allocator that has one. -/
def RangeAllocator.mask {size : ℕ} : RangeAllocator size → Option (Bitmask size)
  | .bitmask32 _ bits | .bitmask64 _ bits => some bits
  | .ring _ _ => none

theorem RangeAllocator.eq_of_mask {size : ℕ} {a b : RangeAllocator size} (h : a.mask = b.mask)
    (hsome : a.mask.isSome) : a = b := by
  cases a with
  | bitmask32 hsize bits =>
    cases b with
    | bitmask32 _ bits' => exact congrArg _ (Option.some.inj h)
    | bitmask64 hsize' _ => exact absurd hsize (Nat.not_le.mpr hsize'.1)
    | ring _ _ => cases h
  | bitmask64 hsize bits =>
    cases b with
    | bitmask32 hsize' _ => exact absurd hsize' (Nat.not_le.mpr hsize.1)
    | bitmask64 _ bits' => exact congrArg _ (Option.some.inj h)
    | ring _ _ => cases h
  | ring _ _ => cases hsome

namespace State
variable {p : Program} (a : p.Action) (parentId : ℕ) (s : State p)

/-- The instance that a local index of a parent stands for. -/
def instanceOf (i : ℕ) : ℕ := parentId * p.localDomainSize a + i

/-- The local index is free and was not stopped in this cycle. -/
def Startable (i : ℕ) : Prop :=
  (i < p.localDomainSize a ∧ ¬ (s.alloc a parentId).Allocated i) ∧
    s.stopCycle a (instanceOf a parentId i) ≠ s.clock

/-- The starter has started the instance of a local index, and returns its reference. -/
structure StartedAt (i : ℕ) : Prop where
  state : (s.starter a parentId).1.state a (instanceOf a parentId i) = .running
  allocated : ((s.starter a parentId).1.alloc a parentId).Allocated i
  reference : (s.starter a parentId).2 =
    (s.starter a parentId).1.reference a (instanceOf a parentId i)
  notNull : (s.starter a parentId).2.timestamp ≠ INVALID_TIMESTAMP

/-- Starting succeeds whenever it can, and changes nothing when it cannot. -/
structure StartsWheneverItCan : Prop where
  starts : (∃ i, Startable a parentId s i) → ∃ i, Startable a parentId s i ∧ StartedAt a parentId s i
  refuses : (¬ ∃ i, Startable a parentId s i) → s.starter a parentId = (s, .null)

/-- The index the allocator offers was not stopped in this cycle, if any free index was not. -/
def OffersStartable : Prop :=
  (∃ i, Startable a parentId s i) →
    s.stopCycle a (instanceOf a parentId (s.alloc a parentId).nextFree) < s.clock

variable {a parentId s}

/-- A range starter starts the index that is offered, or does nothing. -/
theorem starter_of_range (ha : p.allocator a = .range) : s.starter a parentId =
    if (s.alloc a parentId).full = false ∧
        s.stopCycle a (instanceOf a parentId (s.alloc a parentId).nextFree) < s.clock then
      let u := (s.allocateInstance a parentId (s.alloc a parentId).nextFree).start a
        (instanceOf a parentId (s.alloc a parentId).nextFree)
      (u, u.reference a (instanceOf a parentId (s.alloc a parentId).nextFree))
    else (s, .null) := by
  unfold starter instanceOf
  rw [ha]
  cases hfull : (s.alloc a parentId).full with
  | true => simp
  | false => simp

theorem startable_nextFree (hw : (s.alloc a parentId).Wf) (hfull : (s.alloc a parentId).full = false)
    (hcycle : s.stopCycle a (instanceOf a parentId (s.alloc a parentId).nextFree) < s.clock) :
    Startable a parentId s (s.alloc a parentId).nextFree :=
  ⟨hw.nextFree hfull, hcycle.ne⟩

theorem not_full_of_startable (hw : (s.alloc a parentId).Wf) {i : ℕ} (h : Startable a parentId s i) :
    (s.alloc a parentId).full = false := by
  cases hfull : (s.alloc a parentId).full with
  | false => rfl
  | true => exact absurd (hw.full_iff.mp hfull i h.1.1) h.1.2

theorem startedAt_nextFree (ha : p.allocator a = .range) (hw : (s.alloc a parentId).Wf)
    (hfull : (s.alloc a parentId).full = false)
    (hcycle : s.stopCycle a (instanceOf a parentId (s.alloc a parentId).nextFree) < s.clock) :
    StartedAt a parentId s (s.alloc a parentId).nextFree := by
  have hstarter := @starter_of_range _ _ parentId s ha
  rw [if_pos ⟨hfull, hcycle⟩] at hstarter
  refine ⟨?_, ?_, ?_, ?_⟩
  · rw [hstarter]
    simp [start_state]
  · rw [hstarter]
    have hnew := ((hw.allocate hfull).2 (s.alloc a parentId).nextFree).mpr (.inr rfl)
    simpa [start_alloc, allocateInstance] using hnew
  · rw [hstarter]
  · rw [hstarter]
    have hpos : 0 < s.clock := Nat.zero_lt_of_lt hcycle
    simpa [start_reference, allocateInstance, INVALID_TIMESTAMP] using hpos.ne'

/-- **When starting succeeds whenever it can**: exactly when the index that the allocator offers was not
stopped in this cycle, unless every free index was. -/
theorem startsWheneverItCan_iff (ha : p.allocator a = .range)
    (hr : (s.alloc a parentId).Reachable) :
    StartsWheneverItCan a parentId s ↔ OffersStartable a parentId s := by
  have hw : (s.alloc a parentId).Wf := hr.wf
  have hstarter := @starter_of_range _ _ parentId s ha
  constructor
  · intro h hexists
    by_contra hcycle
    obtain ⟨i, -, hstarted⟩ := h.starts hexists
    rw [if_neg fun hboth => hcycle hboth.2] at hstarter
    apply hstarted.notNull
    rw [hstarter]
    rfl
  · intro h
    refine ⟨fun hexists => ?_, fun hnone => ?_⟩
    · obtain ⟨i, hi⟩ := hexists
      have hfull := not_full_of_startable hw hi
      have hcycle := h ⟨i, hi⟩
      exact ⟨_, startable_nextFree hw hfull hcycle, startedAt_nextFree ha hw hfull hcycle⟩
    · rw [if_neg fun hboth => hnone ⟨_, startable_nextFree hw hboth.1 hboth.2⟩] at hstarter
      exact hstarter

/-- Two links are started, and stopped in one cycle after the other. The second was stopped in the current
cycle, and the allocator offers the first. -/
theorem startsWheneverItCan_afterStops : ∃ s, Reaches step (fun _ _ => True) (initial .sample) s ∧
    ¬ (s.alloc Program.sample.outer 0).Allocated 1 ∧
      s.stopCycle Program.sample.outer (instanceOf Program.sample.outer 0 1) = s.clock ∧
        Startable Program.sample.outer 0 s 0 ∧ StartsWheneverItCan Program.sample.outer 0 s := by
  obtain ⟨s, hr, hfree, hfree', hstopped, hcycle, hoffered, hused⟩ := exists_reaches step (fun _ _ => True)
    [.startMain Program.sample.root, .call Program.sample.outer 0, .call Program.sample.outer 0, .next,
      .stop Program.sample.outer 0, .next, .stop Program.sample.outer 1] (initial .sample)
    (fun s => s.state Program.sample.outer 0 = .stopped ∧ s.state Program.sample.outer 1 = .stopped ∧
      s.stopCycle Program.sample.outer (instanceOf Program.sample.outer 0 1) = s.clock ∧
      s.stopCycle Program.sample.outer (instanceOf Program.sample.outer 0 0) ≠ s.clock ∧
      s.stopCycle Program.sample.outer
        (instanceOf Program.sample.outer 0 (s.alloc Program.sample.outer 0).nextFree) < s.clock ∧
      (checkedRun RangeAllocator.use (fun _ _ => True) [.allocate, .allocate, .free 0, .free 1]
        (.initial _, Finset.range (Program.sample.localDomainSize Program.sample.outer))).any
          (fun t => decide (t.1.mask = (s.alloc Program.sample.outer 0).mask ∧ t.1.mask.isSome)) = true)
    (by decide +kernel)
  have hagrees : s.Agrees :=
    hr.invariant Agrees agrees_initial fun _ _ _ hI _ hs => agrees_step hI hs
  have hagree := (hagrees Program.sample.outer (by decide +kernel) 0).2
  have hallocated : ∀ i < 2, s.state Program.sample.outer i = .stopped →
      ¬ (s.alloc Program.sample.outer 0).Allocated i := by
    intro i hi hstop halloc
    refine (hagree i hi).mp halloc ?_
    rw [Nat.zero_mul, Nat.zero_add]
    exact hstop
  obtain ⟨⟨alloc, free⟩, hreach, hmask, hsome⟩ := exists_reaches _ _ _ _ _ hused
  have hreachable : (s.alloc Program.sample.outer 0).Reachable :=
    ⟨free, RangeAllocator.eq_of_mask hmask hsome ▸ hreach⟩
  refine ⟨s, hr, hallocated 1 (by decide) hfree', hstopped,
    ⟨⟨by decide, hallocated 0 (by decide) hfree⟩, hcycle⟩, ?_⟩
  exact (startsWheneverItCan_iff (by decide +kernel) hreachable).mpr fun _ => hoffered

/-- Of two links the first is started, and stopped in the next cycle. The second has never been used, but
the allocator offers the first. -/
theorem starter_refuses : ∃ s, Reaches step (fun _ _ => True) (initial .sample) s ∧
    ¬ StartsWheneverItCan Program.sample.outer 0 s := by
  obtain ⟨s, hr, hfree, hcycle, hnull⟩ := exists_reaches step (fun _ _ => True)
    [.startMain Program.sample.root, .call Program.sample.outer 0, .next, .stop Program.sample.outer 0]
    (initial .sample)
    (fun s => (s.state Program.sample.outer 1 = .stopped) ∧
      s.stopCycle Program.sample.outer (instanceOf Program.sample.outer 0 1) ≠ s.clock ∧
      (s.starter Program.sample.outer 0).2 = .null) (by decide +kernel)
  refine ⟨s, hr, fun h => ?_⟩
  have hagrees : s.Agrees :=
    hr.invariant Agrees agrees_initial fun _ _ _ hI _ hs => agrees_step hI hs
  have hagree := (hagrees Program.sample.outer (by decide +kernel) 0).2
  have hstartable : Startable Program.sample.outer 0 s 1 := by
    refine ⟨⟨by decide, fun halloc => (hagree 1 (by decide)).mp halloc ?_⟩, hcycle⟩
    exact hfree
  obtain ⟨i, -, hstarted⟩ := h.starts ⟨1, hstartable⟩
  exact hstarted.notNull (by rw [hnull]; rfl)

end State
end EgLang.Runtime
