import EgLang.Runtime.LinkRuns

/-! # Reference counts in a run

An object counts the back references that its targets hold, if the generator finds the instance of the
object: it divides the index of the target by the factor of the object, which is 1, and not by the
factor of the target.
-/

namespace EgLang.Runtime
open Library
set_option autoImplicit false

namespace State
variable {p : Program} {s t : State p} {a l o : p.Action} {g : p.GroupId} {gid i j k : ℕ}

/-- The back references that are held by target instances which belong to an instance of an object. -/
def numBackReferences (s : State p) (o : p.Action) (k : ℕ) : ℕ :=
  ∑ x : p.GroupId × p.Action with (p.group x.1).targets.contains x.2 ∧ p.getObject x.2 = some o,
    ((Finset.range (p.getTotalDomainSize x.2)).filter fun j =>
      j / p.getObjectDomainFactor x.2 = k ∧ (s.back x j).timestamp ≠ INVALID_TIMESTAMP).card

/-- A breaker's result, before the object is stopped: the target has let go, and its object counts
one link less. -/
def unlinked (s : State p) (g : p.GroupId) (t : p.Action) (j : ℕ) (o : p.Action) (k : ℕ) : State p :=
  { s.setBack g t j .null with
    linkRefCount := write s.linkRefCount o k (s.linkRefCount o k - 1) }

/-- **Reference counts are exact**, and an object is stopped by the breaker of a link, called by a
write or once a stopper has released the link, exactly if it is the last one. -/
structure CountsExact (s : State p) : Prop where
  count : ∀ o, p.isMainExecutable o = false → ∀ k, s.linkRefCount o k = s.numBackReferences o k
  breaks : ∀ {g l i t j o}, l ∈ (p.group g).concreteLinks → t ∈ (p.group g).targets →
    s.state l i ≠ .stopped → Refers (s.base l i) t j → p.getObject t = some o →
    p.isMainExecutable o = false → ∀ v, v = s ∨ v = s.release l i →
      0 < s.linkRefCount o (j / p.getObjectDomainFactor t) ∧
      ∀ stop, breaker stop l i v =
        if s.numBackReferences o (j / p.getObjectDomainFactor t) = 1 then
          stop o (j / p.getObjectDomainFactor t)
            (v.unlinked g t j o (j / p.getObjectDomainFactor t))
        else .ok (v.unlinked g t j o (j / p.getObjectDomainFactor t))

/-! ## The indices -/

/-- **The condition**: the index that the object of a new target counts it at is that of the object. -/
def CountsForObject (s : State p) : Operation p → Prop
  | .writeLink l gid value => (s.base l gid).equal value = true ∨ ∀ g t o, NewTarget l value g t →
      p.getObject t = some o →
        value.inst / p.getObjectDomainFactor o = value.inst / p.getObjectDomainFactor t
  | _ => True

/-- A target that refers back is counted at the index of its object. -/
def Indexed (s : State p) : Prop :=
  ∀ {g t j o}, (s.back (g, t) j).timestamp ≠ INVALID_TIMESTAMP → p.getObject t = some o →
    p.HasInstance t j ∧ j / p.getObjectDomainFactor o = j / p.getObjectDomainFactor t

/-- The instance of the object that an instance belongs to. -/
theorem hasInstance_object (ho : p.getObject a = some o) (h : p.HasInstance a j) :
    p.HasInstance o (j / p.getObjectDomainFactor a) := by
  unfold Program.HasInstance at h ⊢
  rw [Program.getTotalDomainSize_object ho, Nat.mul_comm] at h
  exact Nat.div_lt_of_lt_mul h

theorem Indexed.inBounds (h : s.Indexed) : s.InBounds := by
  intro g t j o hb ho
  obtain ⟨hin, heq⟩ := h hb ho
  rw [heq]
  exact hasInstance_object ho hin

/-- The instance that is assigned is one of the new target. -/
theorem hasInstance_of_assignable {value : Reference} (hvalue : Assignable l value)
    (huntyped : NullUntyped l value) (hnew : NewTarget l value g a) : p.HasInstance a value.inst := by
  rcases hvalue with hnull | ⟨g', b, hnew', hin, -⟩
  · exact absurd hnew (huntyped hnull g a)
  · obtain ⟨rfl, rfl⟩ := hnew.unique hnew'
    exact hin

/-- The steps that the theorem is about. -/
def KeepsCounts (s : State p) (op : Operation p) : Prop := s.KeepsWriter op ∧ s.CountsForObject op

theorem KeepsCounts.countsInBounds {op : Operation p} (h : s.KeepsCounts op) :
    s.CountsInBounds op := by
  cases op with
  | writeLink l gid value =>
    rcases h.1.2 with heq | ⟨-, huntyped, -⟩
    · exact .inl heq
    · refine h.2.imp_right fun hcount g t o hnew ho => ?_
      rw [hcount g t o hnew ho]
      exact hasInstance_object ho (hasInstance_of_assignable h.1.1 huntyped hnew)
  | _ => trivial

theorem indexed_step {op : Operation p} (h : s.Indexed) (hop : s.KeepsCounts op)
    (ht : Kept s op t) : t.Indexed := by
  intro g a j o hb ho
  rcases ht.back (g, a) j with hback | hback | ⟨l, gid, value, rfl, hne, hnew, rfl⟩
  · exact h (hback ▸ hb) ho
  · exact absurd (congrArg Reference.timestamp hback) hb
  · have huntyped := (hop.1.2.resolve_left (by rw [hne]; decide)).2.1
    refine ⟨hasInstance_of_assignable hop.1.1 huntyped hnew, ?_⟩
    exact hop.2.resolve_left (by rw [hne]; decide) g a o hnew ho

theorem indexed_of_reaches (hr : Reaches step KeepsCounts (initial p) s) : s.Inv ∧ s.Indexed := by
  refine hr.invariant (fun s => s.Inv ∧ s.Indexed) ⟨inv_initial, ?_⟩ ?_
  · intro g t j o hb
    exact absurd rfl hb
  · intro s op t h hop hs
    have hkept := (inv_step h.1 hop.1.1 hop.1.2).of_ok hs
    exact ⟨hkept.inv, indexed_step h.2 hop hkept⟩

/-! ## The counts -/

/-- What is counted at an index of an object are the back references of the object's instance. -/
theorem numBackReferences_eq (h : s.Inv) (hi : s.Indexed) (o : p.Action) (k : ℕ) :
    s.numBackReferences o k = (s.backsInto o k).card := by
  have hone : ∀ x : p.GroupId × p.Action, p.getObject x.2 = some o →
      ((Finset.range (p.getTotalDomainSize x.2)).filter fun j =>
        j / p.getObjectDomainFactor x.2 = k ∧
          (s.back x j).timestamp ≠ INVALID_TIMESTAMP).card =
        if (s.back x k).timestamp ≠ INVALID_TIMESTAMP then 1 else 0 := by
    intro x ho
    have hindex : ∀ j, (s.back x j).timestamp ≠ INVALID_TIMESTAMP →
        j < p.getTotalDomainSize x.2 ∧ j / p.getObjectDomainFactor x.2 = j := by
      intro j hb
      obtain ⟨hin, heq⟩ := hi (g := x.1) (t := x.2) hb ho
      rw [Program.getObjectDomainFactor_of_object ho, Nat.div_one] at heq
      exact ⟨hin, heq.symm⟩
    split
    · rename_i hb
      rw [Finset.card_eq_one]
      refine ⟨k, Finset.ext fun j => ?_⟩
      rw [Finset.mem_filter, Finset.mem_range, Finset.mem_singleton]
      constructor
      · rintro ⟨-, hj, hbj⟩
        rw [← (hindex j hbj).2]
        exact hj
      · rintro rfl
        exact ⟨(hindex j hb).1, (hindex j hb).2, hb⟩
    · rename_i hb
      rw [Finset.card_eq_zero, Finset.filter_eq_empty_iff]
      rintro j - ⟨hj, hbj⟩
      rw [(hindex j hbj).2] at hj
      exact hb (hj ▸ hbj)
  unfold numBackReferences
  rw [Finset.sum_congr rfl fun x hx => hone x (Finset.mem_filter.mp hx).2.2, Finset.sum_boole,
    Nat.cast_id, Finset.filter_filter]
  congr 1
  ext x
  rw [Finset.mem_filter, mem_backsInto]
  constructor
  · rintro ⟨-, ⟨-, ho⟩, hb⟩
    exact ⟨ho, hb⟩
  · rintro ⟨ho, hb⟩
    obtain ⟨l, i, ⟨-, ht, -⟩, -⟩ := h.linked.back (g := x.1) (t := x.2) hb
    exact ⟨Finset.mem_univ _, ⟨List.contains_iff_mem.mpr ht, ho⟩, hb⟩

/-- Fewer back references than dimensions: the count does not wrap around. -/
theorem card_backsInto_lt (hfew : p.groups.length * p.numActions < 2 ^ 32) :
    (s.backsInto o k).card < 2 ^ 32 := by
  have hle := Finset.card_le_univ (s.backsInto o k)
  rw [Fintype.card_prod, Fintype.card_fin, Fintype.card_fin] at hle
  exact Nat.lt_of_le_of_lt hle hfew

theorem linkRefCount_eq (h : s.Inv) (hi : s.Indexed) (hfew : p.groups.length * p.numActions < 2 ^ 32)
    (ho : p.isMainExecutable o = false) (k : ℕ) : s.linkRefCount o k = s.numBackReferences o k := by
  rw [h.counted o ho k, numBackReferences_eq h hi, Nat.mod_eq_of_lt (card_backsInto_lt hfew)]

/-- A breaker of a link that its target refers back to. -/
theorem breaker_eq (hl : l ∈ (p.group g).concreteLinks) (ht : a ∈ (p.group g).targets)
    (hr : Refers (s.base l i) a j) (ho : p.getObject a = some o)
    (hm : p.isMainExecutable o = false) (hin : p.HasInstance o j)
    (hpos : 0 < s.linkRefCount o j) (hlt : s.linkRefCount o j < 2 ^ 32)
    (hn : s.Named) (stop : p.Action → ℕ → State p → Except Fault (State p)) :
    breaker stop l i s =
      if s.linkRefCount o j = 1 then stop o j (s.unlinked g a j o j)
      else .ok (s.unlinked g a j o j) := by
  have hcount : (s.linkRefCount o j + (2 ^ 32 - 1)) % 2 ^ 32 = s.linkRefCount o j - 1 := by omega
  have hdec : (s.setBack g a j .null).decLinkRefCount o j = .ok (s.unlinked g a j o j) := by
    unfold decLinkRefCount addLinkRefCount unlinked
    rw [if_pos (show j < p.getTotalDomainSize o from hin), ← hcount]
    rfl
  have hzero : (s.unlinked g a j o j).linkRefCount o j = 0 ↔ s.linkRefCount o j = 1 := by
    rw [show (s.unlinked g a j o j).linkRefCount o j = s.linkRefCount o j - 1 from write_self _ _ _ _]
    omega
  unfold breaker
  dsimp only
  rw [if_pos hr.1, Program.linkGroup_eq_some.mpr hl]
  dsimp only
  rw [Program.targetOf_eq_some.mpr ⟨ht, hr.2.1.symm, by rw [ho]; rfl⟩]
  dsimp only
  rw [ho]
  dsimp only
  rw [hm, hr.2.2, Program.getObjectDomainFactor_of_object ho, Nat.div_one]
  rw [if_neg (by decide), hdec]
  refine Eq.trans (b := if (s.unlinked g a j o j).linkRefCount o j = 0 then
    stop o (s.reference o j).inst (s.unlinked g a j o j) else .ok (s.unlinked g a j o j)) rfl ?_
  rw [if_congr hzero rfl rfl, (hn o j).1]

/-- **Reference counts are exact** in every run no write of which stops the link that is written or
assigns a target whose object the generator does not find; and no step of it counts beyond the instances
of an object. -/
theorem countsExact_of_reaches (hfew : p.groups.length * p.numActions < 2 ^ 32)
    (hr : Reaches step KeepsCounts (initial p) s) :
    CountsExact s ∧ ∀ op, s.KeepsCounts op →
      s.step op ≠ .error .outOfBounds ∧ s.step op ≠ .error .outOfFuel := by
  obtain ⟨h, hi⟩ := indexed_of_reaches hr
  refine ⟨⟨fun o ho k => linkRefCount_eq h hi hfew ho k, ?_⟩,
    fun op hop => ⟨fun herr => ?_, fun herr => ?_⟩⟩
  · intro g l i a j o hl ht hrun hrefers ho hm v hv
    have hmain := not_main_of_link (p.concreteLinks_link _ (List.get_mem _ g) l hl)
    have hb : (s.back (g, a) j).timestamp ≠ INVALID_TIMESTAMP := by
      rw [h.linked.base hl ht id hrun hrefers]
      exact h.started.stamped hmain hrun
    obtain ⟨hin, hindex⟩ := hi hb ho
    have hout := hi.inBounds hb ho
    rw [Program.getObjectDomainFactor_of_object ho, Nat.div_one] at hindex hout
    rw [← hindex]
    have hpos : 0 < s.linkRefCount o j := by
      rw [linkRefCount_eq h hi hfew hm, numBackReferences_eq h hi]
      exact Finset.card_pos.mpr ⟨(g, a), mem_backsInto.mpr ⟨ho, hb⟩⟩
    have hlt : s.linkRefCount o j < 2 ^ 32 := by
      rw [h.counted o hm j]
      exact Nat.mod_lt _ (by decide)
    refine ⟨hpos, fun stop => ?_⟩
    rw [← linkRefCount_eq h hi hfew hm]
    rcases hv with rfl | rfl
    · exact breaker_eq hl ht hrefers ho hm hout hpos hlt h.named stop
    · have hv := breaker_eq (s := s.release l i) hl ht (by rw [release_base]; exact hrefers) ho hm hout
        (by rw [release_linkRefCount]; exact hpos) (by rw [release_linkRefCount]; exact hlt) ?_ stop
      · rw [hv, release_linkRefCount]
      · intro b k
        rw [release_reference]
        exact h.named b k
  · rcases (inv_step h hop.1.1 hop.1.2).of_error herr with hfault | ⟨-, hfault⟩
    · cases hfault
    · exact hfault ⟨hi.inBounds, hop.countsInBounds⟩
  · rcases (inv_step h hop.1.1 hop.1.2).of_error herr with hfault | ⟨hfault, -⟩ <;> cases hfault

/-- The object counts the link to its first action. -/
theorem countsExact_sample : ∃ s : State .sample,
    s.numBackReferences Program.sample.object 0 = 1 := by
  obtain ⟨s, t, hr, -, hop, hs, -, -, hcount⟩ := exists_written_sample
  have hkeeps : ∀ {u : State .sample} {op}, u.NoWrite op → u.KeepsCounts op := by
    intro u op h
    refine ⟨h.keepsWriter, ?_⟩
    cases op with
    | writeLink l gid value => exact h.elim
    | _ => trivial
  have hreach : Reaches step KeepsCounts (initial .sample) t := by
    refine (hr.mono fun _ _ _ => hkeeps).tail ⟨_, ⟨hop, .inr fun g a o _ _ => ?_⟩, hs⟩
    rw [Nat.zero_div, Nat.zero_div]
  have hexact := (countsExact_of_reaches (by decide) hreach).1
  exact ⟨t, by rw [← hexact.count _ (by decide +kernel), hcount]⟩

/-- A link is given the second action of the first object: the second object counts it, which has not
been started. -/
theorem not_countsExact : ∃ s : State .sample,
    Reaches step AssignsRunning (initial .sample) s ∧
      s.numBackReferences Program.sample.object 0 = 1 ∧
        s.linkRefCount Program.sample.object 0 = 0 ∧ ¬ CountsExact s := by
  obtain ⟨s, hr, hnum, hcount⟩ := exists_reaches step AssignsRunning
    [.startMain Program.sample.root, .call Program.sample.object 0, .call Program.sample.X 0,
      .call Program.sample.X 0, .call Program.sample.outer 0,
      .writeLink Program.sample.outer 0 ⟨1, 6, 1⟩] (initial .sample)
    (fun s => s.numBackReferences Program.sample.object 0 = 1 ∧
      s.linkRefCount Program.sample.object 0 = 0) (by decide +kernel)
  refine ⟨s, hr, hnum, hcount, fun h => ?_⟩
  have heq := h.count Program.sample.object (by decide +kernel) 0
  rw [hnum, hcount] at heq
  cases heq

end State
end EgLang.Runtime
