import EgLang.Runtime.LinkRuns

/-! # Re-linking

A target that is taken over from another link, or is given by a link to itself again, loses the link it
had before it gains the new one. If that was the last link its object counts, the object is stopped in
between.
-/

namespace EgLang.Runtime
open Library
set_option autoImplicit false

namespace State
variable {p : Program} {s t u : State p} {a l o : p.Action} {g : p.GroupId} {gid i k : ℕ}
variable {value : Reference}

/-- The link is running, and its base refers to the target. The base of a link that is stopped is left as
it is until the link is started again. -/
def LinkedTo (s : State p) (l : p.Action) (gid : ℕ) (a : p.Action) (i : ℕ) : Prop :=
  s.state l gid ≠ .stopped ∧ Refers (s.base l gid) a i

/-- No other link is linked to the target. -/
def Unshared (s : State p) (l : p.Action) (gid : ℕ) (g : p.GroupId) (a : p.Action) (i : ℕ) : Prop :=
  ∀ l' i', Refers (s.back (g, a) i) l' i' → l' = l ∧ i' = gid

/-- The instance of the target's object is what it was, the link and the target refer to each other, and
the previous link is linked to the target no longer. -/
structure Regained (s : State p) (l : p.Action) (gid : ℕ) (g : p.GroupId) (a : p.Action) (i : ℕ)
    (o : p.Action) (k : ℕ) (u : State p) : Prop where
  object : u.state o k = s.state o k ∧ u.reference o k = s.reference o k
  released : ∀ l' i', Refers (s.back (g, a) i) l' i' → ¬ (l' = l ∧ i' = gid) → ¬ LinkedTo u l' i' a i
  base : LinkedTo u l gid a i
  back : u.back (g, a) i = u.reference l gid

/-- **The target has been re-linked**, and the base of the previous link refers to it no longer. -/
structure Relinked (s : State p) (l : p.Action) (gid : ℕ) (g : p.GroupId) (a : p.Action) (i : ℕ)
    (o : p.Action) (k : ℕ) (u : State p) : Prop extends Regained s l gid g a i o k u where
  previous : ∀ l' i', Refers (s.back (g, a) i) l' i' → ¬ (l' = l ∧ i' = gid) →
    ¬ Refers (u.base l' i') a i

theorem Regained.relinked (h : Regained s l gid g a i o k u) (hs : s.Unshared l gid g a i) :
    Relinked s l gid g a i o k u :=
  ⟨h, fun l' i' hr hne => absurd (hs l' i' hr) hne⟩

/-- The links of a state that a write has left behind. -/
theorem Inv.regained (h : u.Inv) (hrun : u.state l gid ≠ .stopped) (hnew : NewTarget l value g a)
    (hvalid : value.timestamp ≠ INVALID_TIMESTAMP) (hbase : u.base l gid = value)
    (hback : u.back (g, a) value.inst = u.reference l gid)
    (hobject : u.state o k = s.state o k ∧ u.reference o k = s.reference o k)
    (hs : s.Inv) : Regained s l gid g a value.inst o k u := by
  obtain ⟨ha, htype, -⟩ := Program.targetOf_eq_some.mp hnew.2
  have hrefers : Refers (u.base l gid) a value.inst := by
    rw [hbase]
    exact ⟨hvalid, htype.symm, rfl⟩
  refine ⟨hobject, fun l' i' hr hne hto => ?_, ⟨hrun, hrefers⟩, hback⟩
  -- the back reference is that of one link
  have hl' := (hs.linked.of_refers hs.named hr).1.1
  have heq := h.linked.base hl' ha id hto.1 hto.2
  exact hne (eq_of_reference h.named (heq.symm.trans hback))

/-- A link that the target is taken from is stopped, but its base is left as it is. -/
theorem Written.unshared (h : s.Inv) (hw : Written s l gid value u)
    (hF : ¬ Falls s l gid value a value.inst)
    (hu : Relinked s l gid g a value.inst o k u) : s.Unshared l gid g a value.inst := by
  intro l' i' hr
  by_contra hne
  have hbase := (h.linked.of_refers h.named hr).2.2.2
  exact hu.previous l' i' hr hne (hw.bases hne hbase hF ▸ hbase)

/-- The steps that the theorem is about. -/
def KeepsInBounds (s : State p) (op : Operation p) : Prop := s.KeepsWriter op ∧ s.CountsInBounds op

theorem inBounds_of_reaches (hr : Reaches step KeepsInBounds (initial p) s) : s.Inv ∧ s.InBounds := by
  refine hr.invariant (fun s => s.Inv ∧ s.InBounds) ⟨inv_initial, ?_⟩ ?_
  · intro g t j o hb
    exact absurd rfl hb
  · intro s op t h hop hs
    have hkept := (inv_step h.1 hop.1.1 hop.1.2).of_ok hs
    exact ⟨hkept.inv, hkept.inBounds h.2 hop.2⟩

/-- **Re-linking keeps the target's object**, if the write brings down neither the object nor the link:
in every state that is reached without a write that stops its own link or counts beyond the instances of
an object, the write succeeds. The target is re-linked if it is linked by no other link, and unless the
target is stopped on the way only then: the base of the other link would be left as it is. -/
theorem relinked_of_reaches (hr : Reaches step KeepsInBounds (initial p) s)
    (hrun : s.state l gid ≠ .stopped) (hnew : NewTarget l value g a)
    (hin : p.HasInstance a value.inst) (hvalid : value.timestamp ≠ INVALID_TIMESTAMP)
    (ho : p.getObject a = some o)
    (hcond : (s.base l gid).equal value = true ∨ (¬ Falls s l gid value l gid ∧
      ¬ Falls s l gid value o (value.inst / p.getObjectDomainFactor a) ∧
        (p.isMainExecutable o = false →
          p.HasInstance o (value.inst / p.getObjectDomainFactor o)))) :
    ∃ u, s.step (.writeLink l gid value) = .ok u ∧
      Regained s l gid g a value.inst o (value.inst / p.getObjectDomainFactor a) u ∧
      (s.Unshared l gid g a value.inst →
        Relinked s l gid g a value.inst o (value.inst / p.getObjectDomainFactor a) u) ∧
      (¬ Falls s l gid value a value.inst →
        Relinked s l gid g a value.inst o (value.inst / p.getObjectDomainFactor a) u →
          s.Unshared l gid g a value.inst) := by
  obtain ⟨h, hbounds⟩ := inBounds_of_reaches hr
  have hlink : p.context l = .link := Program.context_of_linkGroup hnew.1
  have hmem := Program.linkGroup_eq_some.mp hnew.1
  have ha := (Program.targetOf_eq_some.mp hnew.2).1
  have hstep : s.step (.writeLink l gid value) = writeLink (stopper p.fuel) l gid value s := by
    rw [step, if_pos ⟨hlink, h.started.inside hrun⟩]
  cases heq : (s.base l gid).equal value with
  | true =>
    have hbase : s.base l gid = value := by
      rcases (Reference.equal_iff _ _).mp heq with hnull | hbase
      · exact absurd hnull.2 hvalid
      · exact hbase
    have htype := (Program.targetOf_eq_some.mp hnew.2).2.1
    have hback : s.back (g, a) value.inst = s.reference l gid :=
      h.linked.base hmem ha id hrun (by rw [hbase]; exact ⟨hvalid, htype.symm, rfl⟩)
    have hregained : Regained s l gid g a value.inst o (value.inst / p.getObjectDomainFactor a) s :=
      h.regained hrun hnew hvalid hbase hback ⟨rfl, rfl⟩ h
    refine ⟨s, ?_, hregained, hregained.relinked, fun _ _ l' i' hr' => ?_⟩
    · rw [hstep, writeLink, if_pos heq]
    · rw [hback] at hr'
      obtain ⟨rfl, rfl⟩ := hr'.unique (refers_reference h.named hr'.1)
      exact ⟨rfl, rfl⟩
  | false =>
    obtain ⟨hfalls, hobject, hcount⟩ := hcond.resolve_left (by rw [heq]; decide)
    have hwritten := writeLink_written h hlink hrun (.inr ⟨g, a, hnew, hin, hvalid⟩)
      (nullUntyped_of_valid hvalid) hfalls heq
    obtain ⟨u, hu, hw⟩ := hwritten.exists_ok fun e he => he.2 ⟨hbounds, fun g' a' o' hnew' ho' => by
      obtain ⟨rfl, rfl⟩ := hnew.unique hnew'
      obtain rfl := Option.some.inj (ho.symm.trans ho')
      exact hcount⟩
    have hregained : Regained s l gid g a value.inst o (value.inst / p.getObjectDomainFactor a) u := by
      refine hw.inv.regained (by rw [hw.alive hfalls]; exact hrun) hnew hvalid hw.base ?_ ?_ h
      · rw [hw.reference]
        exact hw.target hnew
      · rw [hw.reference]
        exact ⟨hw.alive hobject, rfl⟩
    exact ⟨u, hstep.trans hu, hregained, hregained.relinked, fun hF => hw.unshared h hF⟩

/-- A link in the root is given an action in an object. -/
theorem relinked_sample : ∃ s u : State .sample,
    s.step (.writeLink Program.sample.outer 0 ⟨0, 6, 1⟩) = .ok u ∧
      Relinked s Program.sample.outer 0 Program.sample.outerGroup Program.sample.X 0
        Program.sample.object (0 / Program.sample.getObjectDomainFactor Program.sample.X) u := by
  obtain ⟨s, t, hr, hrun, -⟩ := exists_written_sample
  have hreach : Reaches step KeepsInBounds (initial .sample) s := by
    refine hr.mono fun u op _ h => ⟨h.keepsWriter, ?_⟩
    cases op with
    | writeLink l gid value => exact h.elim
    | _ => trivial
  have hnone := unlinked_of_reaches hr
  have hnew : NewTarget Program.sample.outer ⟨0, 6, 1⟩ Program.sample.outerGroup Program.sample.X := by
    decide +kernel
  have ho : Program.sample.getObject Program.sample.X = some Program.sample.object := by decide +kernel
  obtain ⟨u, hu, -, hrelinked, -⟩ := relinked_of_reaches hreach hrun hnew (by decide +kernel)
    (by decide) ho (.inr ⟨not_falls_of_unlinked hnone, not_falls_of_unlinked hnone, by decide +kernel⟩)
  refine ⟨s, u, hu, hrelinked fun l' i' hr' => ?_⟩
  rw [hnone] at hr'
  exact absurd hr' not_refers_null

/-- An action in an object is taken over from its only link: the object is stopped in between. -/
theorem not_relinked : ∃ s u : State .sample, Reaches step AssignsRunning (initial .sample) s ∧
    s.AssignsRunning (.writeLink Program.sample.outer 1 ⟨0, 6, 1⟩) ∧
      s.state Program.sample.outer 1 = .running ∧ s.state Program.sample.object 0 = .running ∧
        s.step (.writeLink Program.sample.outer 1 ⟨0, 6, 1⟩) = .ok u ∧
          ¬ Relinked s Program.sample.outer 1 Program.sample.outerGroup Program.sample.X 0
            Program.sample.object (0 / Program.sample.getObjectDomainFactor Program.sample.X) u := by
  obtain ⟨s, hr, hassigns, hrun, hobject, hwrite⟩ := exists_reaches step AssignsRunning
    [.startMain Program.sample.root, .call Program.sample.object 0, .call Program.sample.X 0,
      .call Program.sample.outer 0, .call Program.sample.outer 0,
      .writeLink Program.sample.outer 0 ⟨0, 6, 1⟩] (initial .sample)
    (fun s => s.AssignsRunning (.writeLink Program.sample.outer 1 ⟨0, 6, 1⟩) ∧
      s.state Program.sample.outer 1 = .running ∧ s.state Program.sample.object 0 = .running ∧
      (s.step (.writeLink Program.sample.outer 1 ⟨0, 6, 1⟩)).toOption.any
        (fun u => decide (u.state Program.sample.object 0 = .stopped)) = true)
    (by decide +kernel)
  obtain ⟨u, hu, hstopped⟩ := exists_ok hwrite
  refine ⟨s, u, hr, hassigns, hrun, hobject, hu, fun h => ?_⟩
  have heq := h.object.1
  rw [Nat.zero_div, hstopped, hobject] at heq
  cases heq

end State
end EgLang.Runtime
