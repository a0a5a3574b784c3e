import EgLang.Runtime.Cascades

/-! # Writing the base of a link

A link that is given a new base lets go of its target first, which may take the target's object along,
and everything below it. Then the previous link of the new target is stopped. The link itself is counted
last: nothing keeps the object of the new target, or the link, from being stopped on the way.
-/

namespace EgLang.Runtime
open Library
set_option autoImplicit false

namespace State
variable {p : Program} {s t u : State p} {a l : p.Action} {g : p.GroupId} {gid i : ℕ}
variable {value : Reference}

/-! ## The invariants of a run -/

/-- The target that the new base refers to. One that is in no object is passed over: no stopper is
generated for it either. -/
def NewTarget (l : p.Action) (value : Reference) (g : p.GroupId) (a : p.Action) : Prop :=
  p.linkGroup l = some g ∧ p.targetOf g value.type = some a

instance (l : p.Action) (value : Reference) (g : p.GroupId) (a : p.Action) :
    Decidable (NewTarget l value g a) :=
  inferInstanceAs (Decidable (_ ∧ _))

theorem NewTarget.unique {b : p.Action} {g' : p.GroupId} (h : NewTarget l value g a)
    (h' : NewTarget l value g' b) : g = g' ∧ a = b := by
  obtain rfl := Option.some.inj (h.1.symm.trans h'.1)
  exact ⟨rfl, Option.some.inj (h.2.symm.trans h'.2)⟩

/-- What a base is given: a null, which may have kept a type and an instance, or a valid reference to an
instance of a target. -/
def Assignable (l : p.Action) (value : Reference) : Prop :=
  value.timestamp = INVALID_TIMESTAMP ∨ ∃ g a, NewTarget l value g a ∧ p.HasInstance a value.inst ∧
    value.timestamp ≠ INVALID_TIMESTAMP

instance (l : p.Action) (value : Reference) : Decidable (Assignable l value) :=
  inferInstanceAs (Decidable (_ ∨ ∃ _ _, _ ∧ _ ∧ _))

/-- A null has the type of no target. The generated code looks at the type alone, and links what is of
the type of a target. -/
def NullUntyped (l : p.Action) (value : Reference) : Prop :=
  value.timestamp = INVALID_TIMESTAMP → ∀ g a, ¬ NewTarget l value g a

theorem nullUntyped_of_valid (h : value.timestamp ≠ INVALID_TIMESTAMP) : NullUntyped l value :=
  fun hnull => absurd hnull h

/-- **What holds between the operations**: links and targets refer to each other, and what is counted
are the back references. -/
structure Inv (s : State p) : Prop where
  named : s.Named
  agrees : s.Agrees
  linked : s.Linked nobody nobody
  counted : s.Counted
  started : s.Started nobody

theorem inv_initial : (initial p).Inv :=
  ⟨named_initial, agrees_initial, linked_initial, counted_initial, started_initial⟩

/-- No back reference makes an object count beyond its instances. -/
def InBounds (s : State p) : Prop :=
  ∀ {g t j o}, (s.back (g, t) j).timestamp ≠ INVALID_TIMESTAMP → p.getObject t = some o →
    p.HasInstance o (j / p.getObjectDomainFactor o)

/-! ## What falls -/

/-- **What is stopped on the way** when a link is given a new base: the previous link of the new
target; with an instance that is running what is below it, and the links to it; and an object with the
last link it counts. The link that is written lets go of its target, but is not stopped for that. -/
inductive Falls (s : State p) (l : p.Action) (gid : ℕ) (value : Reference) : Instances p
  | previous {g t l' i} (hg : p.linkGroup l = some g) (ht : p.targetOf g value.type = some t)
      (hb : Refers (s.back (g, t) value.inst) l' i) (hne : ¬ only l gid l' i) :
      Falls s l gid value l' i
  | child {a i b j} (ha : Falls s l gid value a i) (hrun : s.state a i ≠ .stopped)
      (hb : Under p b j a i) : Falls s l gid value b j
  | target {a i g l' j} (ha : Falls s l gid value a i) (hrun : s.state a i ≠ .stopped)
      (hg : g ∈ p.getLinks a) (hb : Refers (s.back (g, a) i) l' j) (hne : ¬ only l gid l' j) :
      Falls s l gid value l' j
  | object {o k} (links : Finset (p.GroupId × p.Action)) (ho : p.isMainExecutable o = false)
      (hne : links.Nonempty) (hsub : links ⊆ s.backsInto o k)
      (hall : ∀ x ∈ links, ∀ l' i, Refers (s.back x k) l' i → ¬ only l gid l' i →
        Falls s l gid value l' i)
      (hcard : links.card % 2 ^ 32 = s.linkRefCount o k) : Falls s l gid value o k

/-- Where nothing is linked nothing falls. -/
theorem not_falls_of_unlinked (hs : ∀ x j, s.back x j = .null) : ¬ Falls s l gid value a i := by
  intro h
  induction h with
  | previous _ _ hb => exact not_refers_null (hs _ _ ▸ hb)
  | child _ _ _ ih => exact ih
  | target _ _ _ hb => exact not_refers_null (hs _ _ ▸ hb)
  | object links _ hne hsub =>
    obtain ⟨x, hx⟩ := hne
    have hb := (mem_backsInto.mp (hsub hx)).2
    rw [hs] at hb
    exact hb rfl

/-- The write of a link that is not stopped by it begins a cascade. -/
def Inv.cascade (h : s.Inv) (hl : ¬ Falls s l gid value l gid) : Cascade p where
  start := s
  letting := only l gid
  falls := Falls s l gid value
  named := h.named
  counted := h.counted
  disjoint := by
    rintro a i ⟨rfl, rfl⟩
    exact hl
  child := .child
  target {a i g l' j} ha hrun hg hb := by
    by_cases hx : only l gid l' j
    · exact .inl hx
    · exact .inr (.target ha hrun hg hb hx)
  object links ho hne hsub hall hcard := by
    refine .object links ho hne hsub (fun x hx l' i hr hx' => ?_) hcard
    exact (hall x hx l' i hr).resolve_left hx'

/-! ## What a write does -/

/-- The bases of the links to what does not fall are those there were. -/
def KeepsBases (s : State p) (l : p.Action) (gid : ℕ) (value : Reference) (t : State p) : Prop :=
  ∀ {l' i b j}, ¬ (l' = l ∧ i = gid) → Refers (s.base l' i) b j → ¬ Falls s l gid value b j →
    t.base l' i = s.base l' i

/-- **What a write leaves behind.** -/
structure Written (s : State p) (l : p.Action) (gid : ℕ) (value : Reference) (t : State p) :
    Prop where
  inv : t.Inv
  reference : t.reference = s.reference
  alive : ∀ {a i}, ¬ Falls s l gid value a i → t.state a i = s.state a i
  base : t.base l gid = value
  bases : KeepsBases s l gid value t
  target : ∀ {g a}, NewTarget l value g a → t.back (g, a) value.inst = s.reference l gid
  back : ∀ x j, t.back x j = s.back x j ∨ t.back x j = .null ∨
    (NewTarget l value x.1 x.2 ∧ j = value.inst)

/-- The faults of a write: a reference count beyond the instances of an object. -/
def WriteFaults (s : State p) (l : p.Action) (value : Reference) (e : Fault) : Prop :=
  e = .outOfBounds ∧ ¬ (s.InBounds ∧ ∀ g t o, NewTarget l value g t → p.getObject t = some o →
    p.isMainExecutable o = false → p.HasInstance o (value.inst / p.getObjectDomainFactor o))

section Write
variable {c : Cascade p} {N : ℕ} {stop : p.Action → ℕ → State p → Except Fault (State p)}

/-- The link lets go of the target it has. -/
theorem letGo_mid (hstop : c.Stops N stop) (hletting : c.letting = only l gid)
    (h : s.Inv) (hmid : c.Mid (only l gid) nobody N s) (hlink : p.context l = .link)
    (hrun : s.state l gid ≠ .stopped) :
    Meets c.Faults (fun t => (c.Mid nobody nobody N t ∧ c.Spares s t) ∧ NoBack l gid t)
      (if (s.base l gid).timestamp ≠ INVALID_TIMESTAMP then breaker stop l gid s else .ok s) := by
  split
  · refine Cascade.breaker_mid hstop hmid id (.inl ?_) (.inl ?_)
      (h.started.stamped (not_main_of_link hlink) hrun) fun hl ht => h.linked.base hl ht id hrun
    · rw [hletting]
      exact ⟨rfl, rfl⟩
    · rw [hletting]
      exact ⟨rfl, rfl⟩
  · rename_i hinvalid
    have hno : NoBack l gid s := fun x j hr => hinvalid (h.linked.of_refers h.named hr).2.2.2.1
    have hall : ∀ {b k}, only l gid b k → NoBack b k s := by
      rintro b k ⟨rfl, rfl⟩
      exact hno
    refine ⟨⟨{ hmid with noBack := ?_, linked := hmid.linked.settle h.named fun b k => hall },
      .refl s⟩, hno⟩
    intro b k hE _
    rw [hletting] at hE
    exact hall hE

/-- The previous link of the new target is stopped. -/
theorem stopPrevious_mid (hstop : c.Stops N stop) (h : c.Mid nobody nobody N s)
    (hfalls : ∀ {l'}, Refers (s.back (g, a) i) l' (s.back (g, a) i).inst →
      c.falls l' (s.back (g, a) i).inst) :
    Meets c.Faults (fun t => (c.Mid nobody nobody N t ∧ c.Spares s t) ∧
      ¬ (t.back (g, a) i).timestamp ≠ INVALID_TIMESTAMP)
      (stopPrevious stop g (s.back (g, a) i) s) := by
  unfold stopPrevious
  by_cases hvalid : (s.back (g, a) i).timestamp ≠ INVALID_TIMESTAMP
  · obtain ⟨l', k, hlink, rfl, hb⟩ := h.linked.linkOf h.named hvalid
    rw [if_pos ⟨hvalid, by rw [hlink]; rfl⟩]
    have hmem := (h.linked.of_refers h.named hb).1.1
    have hmain : p.isMainExecutable l' = false :=
      not_main_of_link (p.concreteLinks_link _ (List.get_mem _ g) l' hmem)
    have hstopped := Cascade.stopRef_mid hstop h (hfalls hb)
    rw [← (h.linked.of_refers h.named hb).2.1] at hstopped
    refine hstopped.imp fun t ht => ⟨ht.1, fun hts => ?_⟩
    -- a link that is stopped has no target that refers back to it
    have heq := ht.1.2.quieter.back_eq hts
    have hr : Refers (t.back (g, a) i) l' (s.back (g, a) i).inst := by
      rw [heq]
      exact hb
    have hrun := (ht.1.1.linked.of_refers ht.1.1.named hr).2.2.1
    exact hrun.elim (fun hrun => hrun (ht.2 hmain)) id
  · rw [if_neg fun hx => hvalid hx.1]
    exact ⟨⟨h, .refl s⟩, hvalid⟩

end Write

/-- The link that was excepted refers to nothing. -/
theorem Linked.of_base {E : Instances p} (h : s.Linked (only l gid) E)
    (hbase : ∀ (a : p.Action) j, ¬ Refers (s.base l gid) a j) : s.Linked nobody E where
  base hl ht _ hrun hr := by
    refine h.base hl ht ?_ hrun hr
    rintro ⟨rfl, rfl⟩
    exact hbase _ _ hr
  back := h.back

section Written
variable {w : State p}

/-- Nothing is linked: the new base is null. -/
theorem written_null (h : s.Inv) (hl : ¬ Falls s l gid value l gid)
    (hw : (h.cascade hl).Mid nobody nobody s.active.card w) (hbase : w.base l gid = value)
    (hbases : KeepsBases s l gid value w) (hvalue : value.timestamp = INVALID_TIMESTAMP)
    (hnone : ∀ g a, ¬ NewTarget l value g a) (ha : w.Agrees) : Written s l gid value w where
  inv := by
    refine ⟨hw.named, ha, hw.linked.of_base fun a j hr => ?_, hw.counted, hw.started⟩
    rw [hbase] at hr
    exact hr.1 hvalue
  reference := hw.reference
  alive := hw.alive
  base := hbase
  bases := hbases
  target hnew := absurd hnew (hnone _ _)
  back x j := (hw.quieter.back x j).imp_right .inl

/-- The link and the new target are linked. -/
theorem written_link (h : s.Inv) (hl : ¬ Falls s l gid value l gid)
    (hrun : s.state l gid ≠ .stopped) (hw : (h.cascade hl).Mid nobody nobody s.active.card w)
    (hnew : NewTarget l value g a) (hvalid : value.timestamp ≠ INVALID_TIMESTAMP)
    (hfree : ¬ (w.back (g, a) value.inst).timestamp ≠ INVALID_TIMESTAMP)
    (hwbase : w.base l gid = value) (hbases : KeepsBases s l gid value w) (hbase : u.base = w.base)
    (hback : u.back = write w.back (g, a) value.inst (w.reference l gid))
    (href : u.reference = w.reference) (hstate : u.state = w.state)
    (hreg : u.registered = w.registered) (hcounted : u.Counted) (ha : u.Agrees) :
    Written s l gid value u := by
  obtain ⟨htarget, htype, hsome⟩ := Program.targetOf_eq_some.mp hnew.2
  have hmem := Program.linkGroup_eq_some.mp hnew.1
  have hlive : w.state l gid ≠ .stopped := by
    rw [hw.alive hl]
    exact hrun
  have hmain : ∀ {l'}, l' ∈ (p.group g).concreteLinks → p.isMainExecutable l' = false :=
    fun hl' => not_main_of_link (p.concreteLinks_link _ (List.get_mem _ g) _ hl')
  have hlinked : u.Linked nobody nobody :=
    hw.linked.link hlive hmem htarget hsome (by rw [hwbase]; exact ⟨hvalid, htype.symm, rfl⟩) hfree
      (fun hl' => hw.started.stamped (hmain hl')) hbase hback href hstate
  have hnamed : u.Named := by
    intro b k
    rw [href]
    exact hw.named b k
  refine ⟨⟨hnamed, ha, hlinked, hcounted, hw.started.congr hstate href hreg⟩,
    href.trans hw.reference, fun hF => ?_, ?_, fun hne hr hF => ?_, fun {g' a'} hnew' => ?_,
    fun x j => ?_⟩
  · rw [hstate]
    exact hw.alive hF
  · rw [hbase, hwbase]
  · rw [hbase]
    exact hbases hne hr hF
  · obtain ⟨rfl, rfl⟩ := hnew.unique hnew'
    rw [hback, write_self, hw.reference]
    rfl
  · rw [hback, write_apply]
    split
    · rename_i hx
      obtain ⟨rfl, rfl⟩ := hx
      exact .inr (.inr ⟨hnew, rfl⟩)
    · exact (hw.quieter.back x j).imp_right .inl

end Written

/-- What a link lets go of, and what falls, is assigned the new base. -/
theorem assignBase_written (h : s.Inv) (hl : ¬ Falls s l gid value l gid)
    (hrun : s.state l gid ≠ .stopped) (hvalue : Assignable l value) (huntyped : NullUntyped l value)
    (hu : (h.cascade hl).Mid nobody nobody s.active.card u) (hspared : (h.cascade hl).Spares s u)
    (hno : NoBack l gid u) :
    Meets (WriteFaults s l value) (fun t => t.Agrees → Written s l gid value t)
      (assignBase (stopper p.fuel) l gid value u) := by
  have hstop := Cascade.stops_stopper (h.cascade hl) p.fuel s.active.card (card_active_lt s)
  have hfaults : ∀ e, (h.cascade hl).Faults e → WriteFaults s l value e := by
    rintro e ⟨rfl, g, t, j, o, hb, ho, hout⟩
    exact ⟨rfl, fun hin => hout (hin.1 hb ho)⟩
  have hv : (h.cascade hl).Mid nobody nobody s.active.card (u.setBase l gid value) :=
    ⟨⟨hu.quieter.stopped, hu.quieter.back⟩, hu.reference, hu.alive, hu.letGo, hu.noBack,
      hu.linked.setBase hu.named hno value, hu.counted.congr rfl rfl, hu.started.congr rfl rfl rfl,
      hu.few⟩
  have hvbase : (u.setBase l gid value).base l gid = value := write_self _ _ _ _
  have hvbases : KeepsBases s l gid value (u.setBase l gid value) := fun hne hr hF =>
    (write_of_ne _ _ _ _ hne).trans (hspared.target hr hF)
  -- without a target there is null only
  have hnull : (∀ g a, ¬ NewTarget l value g a) → value.timestamp = INVALID_TIMESTAMP := by
    intro hnone
    refine hvalue.resolve_right ?_
    rintro ⟨g, a, hnew, -⟩
    exact hnone g a hnew
  unfold assignBase
  dsimp only
  split
  · rename_i hg
    have hnone : ∀ g a, ¬ NewTarget l value g a := fun g a hnew => by
      rw [hnew.1] at hg
      cases hg
    exact fun ha => written_null h hl hv hvbase hvbases (hnull hnone) hnone ha
  · rename_i g hg
    split
    · rename_i ht
      have hnone : ∀ g a, ¬ NewTarget l value g a := fun g' a hnew => by
        obtain rfl := Option.some.inj (hg.symm.trans hnew.1)
        rw [hnew.2] at ht
        cases ht
      exact fun ha => written_null h hl hv hvbase hvbases (hnull hnone) hnone ha
    · rename_i a ht
      have hnew : NewTarget l value g a := ⟨hg, ht⟩
      have hvalid : value.timestamp ≠ INVALID_TIMESTAMP := fun hts => huntyped hts g a hnew
      have hfalls : ∀ {l'}, Refers ((u.setBase l gid value).back (g, a) value.inst) l'
          ((u.setBase l gid value).back (g, a) value.inst).inst →
          (h.cascade hl).falls l' ((u.setBase l gid value).back (g, a) value.inst).inst := by
        intro l' hb
        refine .previous hg ht (hv.quieter.back_eq hb.1 ▸ hb) ?_
        rintro ⟨rfl, heq⟩
        exact hno _ _ (heq ▸ hb)
      refine Meets.bind ((stopPrevious_mid hstop hv hfalls).imp_fault hfaults) fun w hw => ?_
      obtain ⟨⟨hmid, hspares⟩, hfree⟩ := hw
      have hwbase : w.base l gid = value := (hspares.base hl).trans hvbase
      have hwbases : KeepsBases s l gid value w := fun hne hr hF => by
        have heq := hvbases hne hr hF
        exact (hspares.target (heq ▸ hr) hF).trans heq
      have hts : (w.reference l gid).timestamp ≠ INVALID_TIMESTAMP := by
        rw [hmid.reference]
        exact h.started.stamped (not_main_of_link (Program.context_of_linkGroup hg)) hrun
      obtain ⟨o, ho⟩ := Option.isSome_iff_exists.mp (Program.targetOf_eq_some.mp ht).2.2
      unfold setLink
      rw [ho]
      dsimp only
      split
      · rename_i hmain
        refine fun ha =>
          written_link h hl hrun hmid hnew hvalid hfree hwbase hwbases rfl rfl rfl rfl rfl ?_ ha
        exact hmid.counted.main ho hmain rfl fun _ _ => rfl
      · rename_i hmain
        have hmain : p.isMainExecutable o = false := by simpa using hmain
        unfold incLinkRefCount addLinkRefCount
        split
        · refine fun ha =>
            written_link h hl hrun hmid hnew hvalid hfree hwbase hwbases rfl rfl rfl rfl rfl ?_ ha
          refine hmid.counted.link ho hfree hts rfl ?_
          rw [Program.getObjectDomainFactor_of_object ho, Nat.div_one]
          rfl
        · rename_i hlt
          exact ⟨rfl, fun hin => hlt (hin.2 g a o hnew ho hmain)⟩

/-- **A write of a running link** that it does not stop. -/
theorem writeLink_written (h : s.Inv) (hlink : p.context l = .link)
    (hrun : s.state l gid ≠ .stopped) (hvalue : Assignable l value) (huntyped : NullUntyped l value)
    (hl : ¬ Falls s l gid value l gid) (hne : (s.base l gid).equal value = false) :
    Meets (WriteFaults s l value) (Written s l gid value)
      (writeLink (stopper p.fuel) l gid value s) := by
  have hstop := Cascade.stops_stopper (h.cascade hl) p.fuel s.active.card (card_active_lt s)
  have hmid : (h.cascade hl).Mid (only l gid) nobody s.active.card s :=
    ⟨.refl s, rfl, fun _ => rfl, fun hne => absurd rfl hne, fun hE hB => absurd hE hB,
      ⟨fun hl ht _ => h.linked.base hl ht id, fun hb => ?_⟩, h.counted, h.started, le_rfl⟩
  · have hmeets : Meets (WriteFaults s l value) (fun t => t.Agrees → Written s l gid value t)
        (writeLink (stopper p.fuel) l gid value s) := by
      unfold writeLink
      rw [if_neg (by simp [hne])]
      refine Meets.bind ((letGo_mid hstop rfl h hmid hlink hrun).imp_fault ?_) fun u hu =>
        assignBase_written h hl hrun hvalue huntyped hu.1.1 hu.1.2 hu.2
      rintro e ⟨rfl, g, t, j, o, hb, ho, hout⟩
      exact ⟨rfl, fun hin => hout (hin.1 hb ho)⟩
    cases hw : writeLink (stopper p.fuel) l gid value s with
    | error e => exact hmeets.of_error hw
    | ok t => exact hmeets.of_ok hw (writeLink_rel agrees_rel (agrees_stopper _) hw h.agrees)
  · obtain ⟨l', i, hmem, heq, hlive, hr⟩ := h.linked.back hb
    exact ⟨l', i, hmem, heq, hlive.imp_right False.elim, hr⟩

end State
end EgLang.Runtime
