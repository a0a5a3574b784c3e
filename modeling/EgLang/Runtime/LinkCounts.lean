import EgLang.Runtime.Links

/-! # Reference counts

The reference count of an object counts the back references in its targets. The generator finds the
instance of the object from that of the target with the factor of the object, which is 1: so what is
counted for instance `k` of an object are the back references of the instances `k` of its targets.
-/

namespace EgLang.Runtime
open Library
set_option autoImplicit false

namespace State
variable {p : Program} {s u : State p} {o t : p.Action} {g : p.GroupId} {k : ℕ}

/-- The targets in an object whose instances `k` refer back to a link. -/
def backsInto (o : p.Action) (k : ℕ) (s : State p) : Finset (p.GroupId × p.Action) :=
  Finset.univ.filter fun x =>
    p.getObject x.2 = some o ∧ (s.back x k).timestamp ≠ INVALID_TIMESTAMP

theorem mem_backsInto {x : p.GroupId × p.Action} : x ∈ s.backsInto o k ↔
    p.getObject x.2 = some o ∧ (s.back x k).timestamp ≠ INVALID_TIMESTAMP := by
  simp [backsInto]

/-- **The invariant** of the reference counts, as the generated code keeps them. Those of a main
executable are not used. -/
def Counted (s : State p) : Prop :=
  ∀ o, p.isMainExecutable o = false → ∀ k,
    s.linkRefCount o k = (s.backsInto o k).card % 2 ^ 32

theorem counted_initial : (initial p).Counted := by
  intro o _ k
  have hempty : (initial p).backsInto o k = ∅ :=
    Finset.filter_eq_empty_iff.mpr fun x _ h => h.2 rfl
  rw [hempty]
  rfl

theorem Counted.congr (h : s.Counted) (hback : u.back = s.back)
    (hcount : u.linkRefCount = s.linkRefCount) : u.Counted := by
  intro o ho k
  rw [hcount, h o ho k, backsInto, backsInto, hback]

/-! ## Writing a back reference -/

section Write
variable {r : Reference}

/-- The targets of other objects, and other instances, refer back as before. -/
theorem backsInto_of_ne (ht : p.getObject t = some o) (hback : u.back = write s.back (g, t) k r)
    {o' : p.Action} {k' : ℕ} (hne : ¬ (o' = o ∧ k' = k)) : u.backsInto o' k' = s.backsInto o' k' := by
  ext x
  rw [mem_backsInto, mem_backsInto, hback, write_apply]
  refine and_congr_right fun hx => ?_
  rw [if_neg]
  rintro ⟨rfl, rfl⟩
  exact hne ⟨Option.some.inj (hx.symm.trans ht), rfl⟩

theorem backsInto_null (hback : u.back = write s.back (g, t) k .null) :
    u.backsInto o k = (s.backsInto o k).erase (g, t) := by
  ext x
  rw [Finset.mem_erase, mem_backsInto, mem_backsInto, hback, write_apply]
  by_cases hx : x = (g, t)
  · simp [hx, Reference.null]
  · simp [hx]

theorem backsInto_valid (ht : p.getObject t = some o) (hr : r.timestamp ≠ INVALID_TIMESTAMP)
    (hback : u.back = write s.back (g, t) k r) :
    u.backsInto o k = insert (g, t) (s.backsInto o k) := by
  ext x
  rw [Finset.mem_insert, mem_backsInto, mem_backsInto, hback, write_apply]
  by_cases hx : x = (g, t)
  · subst hx
    simp [ht, hr]
  · simp [hx]

/-- A target of a main executable is written. -/
theorem Counted.main (h : s.Counted) (ht : p.getObject t = some o)
    (ho : p.isMainExecutable o = true) (hback : u.back = write s.back (g, t) k r)
    (hcount : ∀ o', o' ≠ o → u.linkRefCount o' = s.linkRefCount o') : u.Counted := by
  intro o' ho' k'
  have hne : o' ≠ o := by
    rintro rfl
    rw [ho] at ho'
    cases ho'
  rw [hcount o' hne, h o' ho' k', backsInto_of_ne ht hback fun hx => hne hx.1]

/-- A target lets go of its link, and the count of its object is one less. -/
theorem Counted.letGo (h : s.Counted) (ht : p.getObject t = some o)
    (hb : (s.back (g, t) k).timestamp ≠ INVALID_TIMESTAMP)
    (hback : u.back = write s.back (g, t) k .null)
    (hcount : u.linkRefCount =
      write s.linkRefCount o k ((s.linkRefCount o k + (2 ^ 32 - 1)) % 2 ^ 32)) : u.Counted := by
  intro o' ho' k'
  rw [hcount, write_apply]
  by_cases hx : o' = o ∧ k' = k
  · obtain ⟨rfl, rfl⟩ := hx
    have hmem : (g, t) ∈ s.backsInto o' k' := mem_backsInto.mpr ⟨ht, hb⟩
    have hpos := Finset.card_pos.mpr ⟨_, hmem⟩
    rw [if_pos ⟨rfl, rfl⟩, h o' ho' k', backsInto_null hback, Finset.card_erase_of_mem hmem]
    omega
  · rw [if_neg hx, h o' ho' k', backsInto_of_ne ht hback hx]

/-- A target is linked that was not, and the count of its object is one more. -/
theorem Counted.link (h : s.Counted) (ht : p.getObject t = some o)
    (hb : ¬ (s.back (g, t) k).timestamp ≠ INVALID_TIMESTAMP)
    (hr : r.timestamp ≠ INVALID_TIMESTAMP) (hback : u.back = write s.back (g, t) k r)
    (hcount : u.linkRefCount = write s.linkRefCount o k ((s.linkRefCount o k + 1) % 2 ^ 32)) :
    u.Counted := by
  intro o' ho' k'
  rw [hcount, write_apply]
  by_cases hx : o' = o ∧ k' = k
  · obtain ⟨rfl, rfl⟩ := hx
    have hmem : (g, t) ∉ s.backsInto o' k' := fun hmem => hb (mem_backsInto.mp hmem).2
    rw [if_pos ⟨rfl, rfl⟩, h o' ho' k', backsInto_valid ht hr hback,
      Finset.card_insert_of_notMem hmem]
    omega
  · rw [if_neg hx, h o' ho' k', backsInto_of_ne ht hback hx]

end Write

/-- The back references that are gone are as many as the object counts, if it counts no more. -/
theorem card_gone (hs : s.Counted) (hu : u.Counted) (ho : p.isMainExecutable o = false)
    (hsub : u.backsInto o k ⊆ s.backsInto o k) (hzero : u.linkRefCount o k = 0) :
    (s.backsInto o k \ u.backsInto o k).card % 2 ^ 32 = s.linkRefCount o k := by
  have hle := Finset.card_le_card hsub
  have hu' := hu o ho k
  rw [hs o ho k, Finset.card_sdiff_of_subset hsub]
  omega

end State
end EgLang.Runtime
