import EgLang.Runtime.LinkWrites

/-! # Links in a run

Links and their targets refer to each other in every state that is reached, as long as no write of a
link stops the link that is written: if it does, the write goes on with a link that is stopped. -/

namespace EgLang.Runtime
open Library
set_option autoImplicit false

namespace State
variable {p : Program} {s t : State p} {a l : p.Action} {g : p.GroupId} {gid i : ℕ}

/-! ## Starting -/

@[simp] theorem start_back : (s.start a gid).back = s.back := by
  unfold start
  dsimp only
  split <;> rfl

@[simp] theorem start_linkRefCount : (s.start a gid).linkRefCount = s.linkRefCount := by
  unfold start
  dsimp only
  split <;> rfl

@[simp] theorem start_registered : (s.start a gid).registered = s.registered := by
  unfold start
  dsimp only
  split <;> rfl

theorem start_base : (s.start a gid).base =
    if p.context a = .link then write s.base a gid .null else s.base := by
  unfold start
  dsimp only
  split <;> rfl

/-- **What a call does**: nothing, or it starts a stopped instance and registers it. -/
theorem call_cases (hn : s.Named) (ha : s.Agrees) {b : p.Action} {parentId : ℕ}
    (hp : p.parent a = some b) (hin : p.HasInstance b parentId) :
    (s.call a parentId).1 = s ∨ ∃ gid v, s.state a gid = .stopped ∧ p.HasInstance a gid ∧
      s.clock ≠ INVALID_TIMESTAMP ∧ (v = s ∨ ∃ free, v = s.allocateInstance a parentId free) ∧
        (s.call a parentId).1 = (v.start a gid).register ⟨gid, p.index a, s.clock⟩ := by
  have hcall : ∀ gid, ∀ v : State p, v.Named → v.clock = s.clock → s.clock ≠ INVALID_TIMESTAMP →
      s.starter a parentId = (v.start a gid, (v.start a gid).reference a gid) →
      (s.call a parentId).1 = (v.start a gid).register ⟨gid, p.index a, s.clock⟩ := by
    intro gid v hv hclock hne heq
    unfold call
    rw [heq, start_ref hv, hclock]
    dsimp only
    rw [if_pos hne]
  rcases starter_cases a parentId s with heq | ⟨hk, hstop, hcycle, heq⟩ |
    ⟨free, gid, u, hk, hfull, rfl, rfl, hcycle, rfl, heq⟩
  · left
    unfold call
    rw [heq]
    rfl
  · have hne : s.clock ≠ INVALID_TIMESTAMP := (Nat.zero_lt_of_lt hcycle).ne'
    refine .inr ⟨parentId, s, hstop, ?_, hne, .inl rfl, hcall _ s hn rfl hne heq⟩
    unfold Program.HasInstance
    rw [Program.getTotalDomainSize_child hp, Program.localDomainSize_of_singleton hk, Nat.mul_one]
    exact hin
  · have hne : s.clock ≠ INVALID_TIMESTAMP := (Nat.zero_lt_of_lt hcycle).ne'
    obtain ⟨hw, hiff⟩ := ha a hk parentId
    obtain ⟨hlt, hfree⟩ := hw.nextFree hfull
    rw [hiff _ hlt, not_not] at hfree
    refine .inr ⟨_, s.allocateInstance a parentId (s.alloc a parentId).nextFree, hfree, ?_, hne,
      .inr ⟨_, rfl⟩, hcall _ _ hn rfl hne heq⟩
    unfold Program.HasInstance
    rw [Program.getTotalDomainSize_child hp]
    calc parentId * p.localDomainSize a + (s.alloc a parentId).nextFree
        < parentId * p.localDomainSize a + p.localDomainSize a := Nat.add_lt_add_left hlt _
      _ = (parentId + 1) * p.localDomainSize a := (Nat.succ_mul _ _).symm
      _ ≤ p.getTotalDomainSize b * p.localDomainSize a := Nat.mul_le_mul_right _ hin

/-- An instance is started. -/
theorem Inv.start_one (h : s.Inv) (hn : t.Named) (ha : t.Agrees) (hin : p.HasInstance a gid)
    (hlink : p.context a = .link → s.state a gid = .stopped ∧ t.base a gid = .null)
    (hbase : ∀ l i, ¬ (l = a ∧ i = gid) → t.base l i = s.base l i) (hback : t.back = s.back)
    (hcount : t.linkRefCount = s.linkRefCount) {r : Reference}
    (href : t.reference = write s.reference a gid r)
    (hstate : t.state = write s.state a gid .running) (hreg : t.registered = insert r s.registered)
    (hvalid : p.isMainExecutable a = false → r.timestamp ≠ INVALID_TIMESTAMP) : t.Inv := by
  have hcases : ∀ {b k}, t.state b k ≠ .stopped →
      (b = a ∧ k = gid ∧ t.reference b k = r) ∨
        s.state b k ≠ .stopped ∧ t.reference b k = s.reference b k := by
    intro b k hb
    rw [hstate, write_apply] at hb
    rw [href, write_apply]
    by_cases hx : b = a ∧ k = gid
    · rw [if_pos hx]
      exact .inl ⟨hx.1, hx.2, rfl⟩
    · rw [if_neg hx] at hb ⊢
      exact .inr ⟨hb, rfl⟩
  refine ⟨hn, ha, h.linked.started hlink hbase hback href hstate, h.counted.congr hback hcount,
    fun hb => ?_, fun hm hb => ?_, fun hm _ hb => ?_⟩
  · rcases hcases hb with ⟨rfl, rfl, -⟩ | ⟨hb, -⟩
    · exact hin
    · exact h.started.inside hb
  · rcases hcases hb with ⟨rfl, rfl, heq⟩ | ⟨hb, heq⟩
    · rw [heq]
      exact hvalid hm
    · rw [heq]
      exact h.started.stamped hm hb
  · rw [hreg]
    rcases hcases hb with ⟨rfl, rfl, heq⟩ | ⟨hb, heq⟩
    · rw [heq]
      exact Finset.mem_insert_self _ _
    · rw [heq]
      exact Finset.mem_insert_of_mem (h.started.registered hm id hb)

theorem Inv.call (h : s.Inv) {b : p.Action} {parentId : ℕ} (hp : p.parent a = some b)
    (hin : p.HasInstance b parentId) (hn : (s.call a parentId).1.Named)
    (ha : (s.call a parentId).1.Agrees) :
    (s.call a parentId).1.Inv ∧ (s.call a parentId).1.back = s.back := by
  rcases call_cases h.named h.agrees hp hin with heq | ⟨gid, v, hstop, hinst, hne, hv, heq⟩
  · rw [heq]
    exact ⟨h, rfl⟩
  · rw [heq] at hn ha ⊢
    have hv : v.back = s.back ∧ v.linkRefCount = s.linkRefCount ∧ v.reference = s.reference ∧
        v.state = s.state ∧ v.registered = s.registered ∧ v.base = s.base ∧ v.clock = s.clock := by
      rcases hv with rfl | ⟨free, rfl⟩ <;> exact ⟨rfl, rfl, rfl, rfl, rfl, rfl, rfl⟩
    obtain ⟨hback, hcount, href, hstate, hreg, hbase, hclock⟩ := hv
    have hb : ((v.start a gid).register ⟨gid, p.index a, s.clock⟩).back = s.back :=
      start_back.trans hback
    refine ⟨h.start_one hn ha hinst (fun hl => ⟨hstop, ?_⟩) (fun l i hx => ?_) hb
      (start_linkRefCount.trans hcount) (r := ⟨gid, p.index a, s.clock⟩) ?_ ?_ ?_ (fun _ => hne), hb⟩
    · change (v.start a gid).base a gid = .null
      rw [start_base, if_pos hl, write_self]
    · change (v.start a gid).base l i = s.base l i
      rw [start_base, ← hbase]
      split
      · exact write_of_ne _ _ _ _ hx
      · rfl
    · change (v.start a gid).reference = _
      rw [start_reference, href, hclock, (h.named a gid).1]
    · change (v.start a gid).state = _
      rw [start_state, hstate]
    · change insert _ (v.start a gid).registered = _
      rw [start_registered, hreg]

theorem Inv.main (h : s.Inv) (hm : p.isMainExecutable a = true)
    (hn : ((s.mainStarter a).1.register (s.mainStarter a).2).Named)
    (ha : ((s.mainStarter a).1.register (s.mainStarter a).2).Agrees) :
    ((s.mainStarter a).1.register (s.mainStarter a).2).Inv := by
  have href : (s.mainStarter a).2 = { s.reference a 0 with timestamp := s.clock } :=
    write_self _ _ _ _
  refine h.start_one hn ha (p.getTotalDomainSize_pos a) (fun hl => ?_) (fun _ _ _ => rfl) rfl rfl
    (r := { s.reference a 0 with timestamp := s.clock }) rfl rfl ?_ fun hne => ?_
  · rw [not_main_of_link hl] at hm
    cases hm
  · rw [← href]
    rfl
  · rw [hm] at hne
    cases hne

/-- The state of an instance is set from and to another than stopped. -/
theorem Inv.setState (h : s.Inv) {v : ActionState} (hv : v ≠ .stopped)
    (hs : s.state a gid ≠ .stopped) : (s.setState a gid v).Inv := by
  have hiff : ∀ b k, (s.setState a gid v).state b k ≠ .stopped ↔ s.state b k ≠ .stopped := by
    intro b k
    rw [show (s.setState a gid v).state = write s.state a gid v from rfl, write_apply]
    split
    · rename_i hx
      obtain ⟨rfl, rfl⟩ := hx
      exact iff_of_true hv hs
    · exact Iff.rfl
  exact ⟨h.named, h.agrees.setState hv hs, h.linked.congr rfl rfl rfl hiff,
    h.counted.congr rfl rfl, fun hb => h.started.inside ((hiff _ _).mp hb),
    fun hm hb => h.started.stamped hm ((hiff _ _).mp hb),
    fun hm hX hb => h.started.registered hm hX ((hiff _ _).mp hb)⟩

/-! ## One step -/

/-- What is assigned to a base is a null or a reference to a target. -/
def Assigns : Operation p → Prop
  | .writeLink l _ value => Assignable l value
  | _ => True

/-- What is assigned is null, or the target is running, and the reference the one it has. -/
def AssignsRunning (s : State p) : Operation p → Prop
  | .writeLink l _ value => Assignable l value ∧ ∀ g a, NewTarget l value g a →
      s.state a value.inst = .running ∧ value = s.reference a value.inst
  | _ => True

instance (s : State p) (op : Operation p) : Decidable (s.AssignsRunning op) := by
  refine op.casesOn ?_ ?_ ?_ ?_ ?_ ?_ ?_ ?_ <;> intros <;> dsimp only [AssignsRunning] <;> infer_instance

/-- **The condition**: a write that changes the base of a link is made by a running link, which is not
stopped on the way, and a null that it assigns has the type of no target. -/
def SparesWriter (s : State p) : Operation p → Prop
  | .writeLink l gid value => (s.base l gid).equal value = true ∨
      (s.state l gid ≠ .stopped ∧ NullUntyped l value ∧ ¬ Falls s l gid value l gid)
  | _ => True

/-- The object of a new target counts it within its instances. The count of a main executable is not
incremented, but the stopper of the target decrements it. -/
def CountsInBounds (s : State p) : Operation p → Prop
  | .writeLink l gid value => (s.base l gid).equal value = true ∨ ∀ g t o, NewTarget l value g t →
      p.getObject t = some o → p.HasInstance o (value.inst / p.getObjectDomainFactor o)
  | _ => True

/-- The faults of a step: it is none of the program, or counts beyond the instances of an object. -/
def StepFaults (s : State p) (op : Operation p) (e : Fault) : Prop :=
  e = .disabled ∨ (e = .outOfBounds ∧ ¬ (s.InBounds ∧ s.CountsInBounds op))

/-- Anything may fall. -/
def Inv.everything (h : s.Inv) : Cascade p where
  start := s
  letting := nobody
  falls _ _ := True
  named := h.named
  counted := h.counted
  disjoint hE := hE.elim
  child _ _ _ := trivial
  target _ _ _ _ := .inr trivial
  object _ _ _ _ _ _ := trivial

theorem Inv.mid (h : s.Inv) : h.everything.Mid nobody nobody s.active.card s :=
  ⟨.refl s, rfl, fun _ => rfl, fun hne => absurd rfl hne, fun hE => hE.elim, h.linked, h.counted,
    h.started, le_rfl⟩

/-- **Stopping** keeps the invariants. -/
theorem Inv.of_stop {m : Except Fault (State p)} (h : s.Inv) (op : Operation p)
    (hm : Meets h.everything.Faults
      (fun t => h.everything.Mid nobody nobody s.active.card t ∧ h.everything.Spares s t) m)
    (hagrees : ∀ t, m = .ok t → t.Agrees) :
    Meets (StepFaults s op) (fun t => t.Inv ∧ Quieter s t) m := by
  cases m with
  | error e =>
    obtain ⟨rfl, g, t, j, o, hb, ho, hout⟩ := hm
    exact .inr ⟨rfl, fun hin => hout (hin.1 hb ho)⟩
  | ok t =>
    obtain ⟨hmid, hspares⟩ := hm
    exact ⟨⟨hmid.named, hagrees t rfl, hmid.linked, hmid.counted, hmid.started⟩, hspares.quieter⟩

/-- The step links the instance of a target. -/
def Links (s : State p) (op : Operation p) (x : p.GroupId × p.Action) (j : ℕ) : Prop :=
  ∃ l gid value, op = .writeLink l gid value ∧ (s.base l gid).equal value = false ∧
    NewTarget l value x.1 x.2 ∧ j = value.inst

/-- What a step leaves behind: the invariants, and the back references that there were, some of which
may be gone; but for a target that it links. -/
structure Kept (s : State p) (op : Operation p) (t : State p) : Prop where
  inv : t.Inv
  back : ∀ x j, t.back x j = s.back x j ∨ t.back x j = .null ∨ s.Links op x j

theorem Kept.inBounds {op : Operation p} (h : Kept s op t) (hin : s.InBounds)
    (hop : s.CountsInBounds op) : t.InBounds := by
  intro g a j o hb ho
  rcases h.back (g, a) j with hback | hback | ⟨l, gid, value, rfl, hne, hnew, rfl⟩
  · exact hin (hback ▸ hb) ho
  · exact absurd (congrArg Reference.timestamp hback) hb
  · exact hop.resolve_left (by rw [hne]; decide) g a o hnew ho

/-- **One step** keeps the invariants, and never runs out of fuel. -/
theorem inv_step (h : s.Inv) {op : Operation p} (hop : Assigns op) (hw : s.SparesWriter op) :
    Meets (StepFaults s op) (Kept s op) (s.step op) := by
  have hstop := Cascade.stops_stopper h.everything p.fuel s.active.card (card_active_lt s)
  have hdisabled : StepFaults s op .disabled := .inl rfl
  have hquiet : ∀ {t : State p}, t.Inv ∧ Quieter s t → Kept s op t :=
    fun ht => ⟨ht.1, fun x j => (ht.2.back x j).imp_right .inl⟩
  have hsame : ∀ {t : State p}, t.Inv → t.back = s.back → Kept s op t :=
    fun ht hback => ⟨ht, fun x j => .inl (by rw [hback])⟩
  have hnamed : ∀ {t}, s.step op = .ok t → t.Named := named_step h.named
  have hagrees : ∀ {t}, s.step op = .ok t → t.Agrees := agrees_step h.agrees
  cases op with
  | startMain a =>
    rw [step] at hnamed hagrees ⊢
    split
    · rename_i hm
      rw [if_pos hm] at hnamed hagrees
      exact hsame (h.main hm.1 (hnamed rfl) (hagrees rfl)) rfl
    · exact hdisabled
  | call a parentId =>
    rw [step] at hnamed hagrees ⊢
    cases hp : p.parent a with
    | none => exact hdisabled
    | some b =>
      rw [hp] at hnamed hagrees
      dsimp only at hnamed hagrees ⊢
      split
      · rename_i hm
        rw [if_pos hm] at hnamed hagrees
        obtain ⟨hinv, hback⟩ := h.call hp hm.2.2.2 (hnamed rfl) (hagrees rfl)
        exact hsame hinv hback
      · exact hdisabled
  | stop a gid =>
    rw [step] at hagrees ⊢
    split
    · rename_i hm
      rw [if_pos hm] at hagrees
      refine (h.of_stop _ ((Cascade.stopRef_mid hstop h.mid trivial).imp fun t ht => ht.1) ?_).imp
        fun t ht => hquiet ht
      exact fun t ht => hagrees ht
    · exact hdisabled
  | stopper a gid =>
    rw [step] at hagrees ⊢
    split
    · rename_i hm
      rw [if_pos hm] at hagrees
      have hmid := { h.mid with started := h.started.of_nobody (X := only a gid) }
      refine (h.of_stop _ ((hstop trivial hmid).imp fun t ht => ht.1) ?_).imp fun t ht => hquiet ht
      exact fun t ht => hagrees ht
    · exact hdisabled
  | pause a gid =>
    rw [step]
    split
    · unfold State.pause
      split
      · rename_i hs
        exact hsame (h.setState (by decide) (by rw [hs]; decide)) rfl
      · exact hsame h rfl
    · exact hdisabled
  | resume a gid =>
    rw [step]
    split
    · unfold State.resume
      split
      · rename_i hs
        exact hsame (h.setState (by decide) (by rw [hs]; decide)) rfl
      · exact hsame h rfl
    · exact hdisabled
  | writeLink l gid value =>
    rw [step]
    split
    · rename_i hm
      cases heq : (s.base l gid).equal value with
      | true =>
        unfold writeLink
        rw [if_pos heq]
        exact hsame h rfl
      | false =>
        obtain ⟨hrun, huntyped, hfalls⟩ := hw.resolve_left (by rw [heq]; decide)
        refine ((writeLink_written h hm.1 hrun hop huntyped hfalls heq).imp fun t ht => ?_).imp_fault
          fun e he => .inr ⟨he.1, fun hin => he.2 ⟨hin.1, fun g a o hnew ho _ =>
            hin.2.resolve_left (by rw [heq]; decide) g a o hnew ho⟩⟩
        refine ⟨ht.inv, fun x j => ?_⟩
        rcases ht.back x j with hback | hback | hnew
        · exact .inl hback
        · exact .inr (.inl hback)
        · exact .inr (.inr ⟨l, gid, value, rfl, heq, hnew.1, hnew.2⟩)
    · exact hdisabled
  | next =>
    refine hsame ⟨h.named, h.agrees, ?_, ?_, ?_⟩ rfl
    · exact h.linked.congr rfl rfl rfl fun _ _ => Iff.rfl
    · exact h.counted.congr rfl rfl
    · exact h.started.congr rfl rfl rfl

/-! ## Every run -/

/-- **Links are symmetric**: a running link refers to an instance of a target if and only if that
refers back to it, and no target refers back to a link that is stopped. -/
structure LinksSymmetric (s : State p) : Prop where
  both : ∀ g, ∀ l ∈ (p.group g).concreteLinks, ∀ i, s.state l i ≠ .stopped →
    ∀ t ∈ (p.group g).targets, ∀ j, Refers (s.base l i) t j ↔ s.back (g, t) j = s.reference l i
  running : ∀ g, ∀ t ∈ (p.group g).targets, ∀ j l i, Refers (s.back (g, t) j) l i →
    s.state l i ≠ .stopped

theorem Inv.linksSymmetric (h : s.Inv) : LinksSymmetric s where
  both g l hl i hrun t ht j := by
    refine ⟨h.linked.base hl ht id hrun, fun heq => ?_⟩
    have hmain := not_main_of_link (p.concreteLinks_link _ (List.get_mem _ g) l hl)
    have hr := refers_reference h.named (h.started.stamped hmain hrun)
    exact (h.linked.of_refers h.named (heq ▸ hr)).2.2.2
  running g t _ j l i hr := (h.linked.of_refers h.named hr).2.2.1.resolve_right id

/-- The steps that the theorem is about. -/
def KeepsWriter (s : State p) (op : Operation p) : Prop := Assigns op ∧ s.SparesWriter op

theorem inv_of_reaches (hr : Reaches step KeepsWriter (initial p) s) : s.Inv :=
  hr.invariant Inv inv_initial fun _ _ _ h hop hs => ((inv_step h hop.1 hop.2).of_ok hs).inv

/-- **Links stay symmetric** in every run no write of which stops the link that is written or assigns a
null with the type of a target; and no step of it needs more fuel than there is. -/
theorem linksSymmetric_of_reaches (hr : Reaches step KeepsWriter (initial p) s) :
    LinksSymmetric s ∧ ∀ op, s.KeepsWriter op → s.step op ≠ .error .outOfFuel := by
  have h := inv_of_reaches hr
  refine ⟨h.linksSymmetric, fun op hop herr => ?_⟩
  rcases (inv_step h hop.1 hop.2).of_error herr with hfault | ⟨hfault, -⟩ <;> cases hfault

/-- Nothing is written. -/
def NoWrite : State p → Operation p → Prop
  | _, .writeLink .. => False
  | _, _ => True

instance (s : State p) (op : Operation p) : Decidable (s.NoWrite op) := by
  refine op.casesOn ?_ ?_ ?_ ?_ ?_ ?_ ?_ ?_ <;> intros <;> dsimp only [NoWrite] <;> infer_instance

theorem NoWrite.keepsWriter {op : Operation p} (h : s.NoWrite op) : s.KeepsWriter op := by
  cases op with
  | writeLink l gid value => exact h.elim
  | _ => exact ⟨trivial, trivial⟩

theorem unlinked_of_reaches (hr : Reaches step NoWrite (initial p) s) (x : p.GroupId × p.Action)
    (j : ℕ) : s.back x j = .null := by
  refine (hr.invariant (fun s => s.Inv ∧ s.back x j = .null) ⟨inv_initial, rfl⟩ ?_).2
  intro s op t h hop hs
  have hkept := (inv_step h.1 hop.keepsWriter.1 hop.keepsWriter.2).of_ok hs
  refine ⟨hkept.inv, ?_⟩
  rcases hkept.back x j with hback | hback | ⟨l, gid, value, rfl, -⟩
  · rw [hback, h.2]
  · exact hback
  · exact hop.elim

/-- A link in the root is given an action in an object. -/
theorem exists_written_sample : ∃ s t : State .sample, Reaches step NoWrite (initial .sample) s ∧
    s.state Program.sample.outer 0 ≠ .stopped ∧
    s.KeepsWriter (.writeLink Program.sample.outer 0 ⟨0, 6, 1⟩) ∧
      s.step (.writeLink Program.sample.outer 0 ⟨0, 6, 1⟩) = .ok t ∧
        t.state Program.sample.outer 0 ≠ .stopped ∧
          Refers (t.base Program.sample.outer 0) Program.sample.X 0 ∧
            t.linkRefCount Program.sample.object 0 = 1 := by
  obtain ⟨s, hr, hrun, hwrite⟩ := exists_reaches step NoWrite
    [.startMain Program.sample.root, .call Program.sample.object 0, .call Program.sample.X 0,
      .call Program.sample.outer 0] (initial .sample)
    (fun s => s.state Program.sample.outer 0 ≠ .stopped ∧
      (s.step (.writeLink Program.sample.outer 0 ⟨0, 6, 1⟩)).toOption.any
        (fun t => decide (t.state Program.sample.outer 0 ≠ .stopped ∧
          Refers (t.base Program.sample.outer 0) Program.sample.X 0 ∧
            t.linkRefCount Program.sample.object 0 = 1)) = true)
    (by decide +kernel)
  obtain ⟨t, ht, hlive, hbase, hcount⟩ := exists_ok hwrite
  refine ⟨s, t, hr, hrun, ⟨(by decide +kernel : Assignable _ _),
    .inr ⟨hrun, nullUntyped_of_valid (by decide), ?_⟩⟩, ht, hlive, hbase, hcount⟩
  exact not_falls_of_unlinked (unlinked_of_reaches hr)

theorem linksSymmetric_sample : ∃ s : State .sample,
    Refers (s.base Program.sample.outer 0) Program.sample.X 0 ∧
      s.back (Program.sample.outerGroup, Program.sample.X) 0 =
        s.reference Program.sample.outer 0 := by
  obtain ⟨s, t, hr, -, hop, hs, hlive, hbase, -⟩ := exists_written_sample
  have hreach : Reaches step KeepsWriter (initial .sample) t :=
    (hr.mono fun _ _ _ => NoWrite.keepsWriter).tail ⟨_, hop, hs⟩
  refine ⟨t, hbase, ?_⟩
  exact ((linksSymmetric_of_reaches hreach).1.both Program.sample.outerGroup _ (by decide +kernel) 0
    hlive _ (by decide +kernel) 0).mp hbase

/-- A link in an object, to an action of the object, is given an action of another object: its own
object is stopped with the last link it counts, and the link with the object; the write goes on. -/
theorem not_linksSymmetric : ∃ s : State .sample,
    Reaches step AssignsRunning (initial .sample) s ∧ ¬ LinksSymmetric s := by
  obtain ⟨s, hr, hback, hstop⟩ := exists_reaches step AssignsRunning
    [.startMain Program.sample.root, .call Program.sample.object 0, .call Program.sample.object 0,
      .call Program.sample.T 0, .call Program.sample.T 1, .call Program.sample.inner 0,
      .writeLink Program.sample.inner 0 ⟨0, 4, 1⟩, .writeLink Program.sample.inner 0 ⟨1, 4, 1⟩]
    (initial .sample)
    (fun s => Refers (s.back (Program.sample.innerGroup, Program.sample.T) 1) Program.sample.inner 0 ∧
      s.state Program.sample.inner 0 = .stopped) (by decide +kernel)
  refine ⟨s, hr, fun h => ?_⟩
  exact h.running Program.sample.innerGroup Program.sample.T (by decide +kernel) 1 _ 0 hback hstop

end State
end EgLang.Runtime
