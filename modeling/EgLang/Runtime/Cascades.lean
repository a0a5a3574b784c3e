import Mathlib.Data.Fintype.Sigma
import EgLang.Runtime.LinkCounts

/-! # Cascades

A stopper stops what is below its instance and the links to it; a link that is stopped takes its
target's object along if it was the last one the object counts; and so on. A cascade is a set of
instances that is closed under this. The stopper of one of them stops no other instance, and leaves
links and reference counts as they should be. -/

namespace EgLang.Runtime
open Library
set_option autoImplicit false

namespace State
variable {p : Program} {s t u : State p} {a l o : p.Action} {g : p.GroupId} {gid i j : ℕ}

/-- Nothing has been started or linked. -/
structure Quieter (s t : State p) : Prop where
  stopped : ∀ {a i}, s.state a i = .stopped → t.state a i = .stopped
  back : ∀ x j, t.back x j = s.back x j ∨ t.back x j = .null

theorem Quieter.refl (s : State p) : Quieter s s := ⟨id, fun _ _ => .inl rfl⟩

theorem Quieter.trans (h : Quieter s t) (h' : Quieter t u) : Quieter s u where
  stopped hs := h'.stopped (h.stopped hs)
  back x j := by
    rcases h'.back x j with heq | hnull
    · rw [heq]
      exact h.back x j
    · exact .inr hnull

/-- A back reference that is left is the one there was. -/
theorem Quieter.back_eq (h : Quieter s t) {x : p.GroupId × p.Action}
    (hb : (t.back x j).timestamp ≠ INVALID_TIMESTAMP) : t.back x j = s.back x j := by
  rcases h.back x j with heq | hnull
  · exact heq
  · exact absurd (congrArg Reference.timestamp hnull) hb

theorem Quieter.backsInto (h : Quieter s t) : t.backsInto o i ⊆ s.backsInto o i := by
  intro x hx
  rw [mem_backsInto] at hx ⊢
  exact ⟨hx.1, h.back_eq hx.2 ▸ hx.2⟩

theorem Quieter.noBack (h : Quieter s t) (hno : NoBack l i s) : NoBack l i t := by
  intro x j hr
  exact hno x j (h.back_eq hr.1 ▸ hr)

/-- What is not stopped is one of the action's instances, has a time stamp, and is known to the
scheduler, unless it is one of `X`. Main executables are never looked up. -/
structure Started (X : Instances p) (s : State p) : Prop where
  inside : ∀ {a i}, s.state a i ≠ .stopped → p.HasInstance a i
  stamped : ∀ {a i}, p.isMainExecutable a = false → s.state a i ≠ .stopped →
    (s.reference a i).timestamp ≠ INVALID_TIMESTAMP
  registered : ∀ {a i}, p.isMainExecutable a = false → ¬ X a i → s.state a i ≠ .stopped →
    s.reference a i ∈ s.registered

theorem started_initial : (initial p).Started nobody where
  inside h := absurd rfl h
  stamped _ h := absurd rfl h
  registered _ _ h := absurd rfl h

theorem Started.congr {X : Instances p} (h : s.Started X) (hstate : u.state = s.state)
    (href : u.reference = s.reference) (hreg : u.registered = s.registered) : u.Started X where
  inside hu := h.inside (hstate ▸ hu)
  stamped ha hu := href ▸ h.stamped ha (hstate ▸ hu)
  registered ha hX hu := hreg ▸ href ▸ h.registered ha hX (hstate ▸ hu)

theorem Started.of_nobody {X : Instances p} (h : s.Started nobody) : s.Started X :=
  { h with registered := fun ha _ => h.registered ha id }

theorem not_main_of_link (hl : p.context l = .link) : p.isMainExecutable l = false := by
  simp [Program.isMainExecutable, hl]

/-- The instances that are not stopped. -/
def active (s : State p) : Finset (Σ a : p.Action, Fin (p.getTotalDomainSize a)) :=
  Finset.univ.filter fun x => s.state x.1 x.2 ≠ .stopped

theorem card_active_lt (s : State p) : s.active.card < p.fuel := by
  have hall : Fintype.card (Σ a : p.Action, Fin (p.getTotalDomainSize a)) + 1 = p.fuel := by
    rw [Fintype.card_sigma, Program.fuel, ← List.sum_ofFn, List.ofFn_eq_map]
    simp only [Fintype.card_fin]
  have hle := Finset.card_le_univ s.active
  omega

/-- Stopping an instance leaves one less. -/
theorem card_active_stopped (h : p.HasInstance a gid) (hs : s.state a gid ≠ .stopped)
    (hu : u.state = write s.state a gid .stopped) : u.active.card < s.active.card := by
  refine Finset.card_lt_card (Finset.ssubset_iff_subset_ne.mpr ⟨fun x hx => ?_, fun heq => ?_⟩)
  · rw [active, Finset.mem_filter] at hx ⊢
    refine ⟨hx.1, fun hstop => hx.2 ?_⟩
    rw [hu, write_apply]
    split
    · rfl
    · exact hstop
  · have hmem : (⟨a, ⟨gid, h⟩⟩ : Σ a : p.Action, Fin (p.getTotalDomainSize a)) ∈ u.active := by
      rw [heq, active, Finset.mem_filter]
      exact ⟨Finset.mem_univ _, hs⟩
    rw [active, Finset.mem_filter] at hmem
    exact hmem.2 (by rw [hu, write_self])

/-! ## What a release leaves alone -/

@[simp] theorem release_base : (s.release a gid).base = s.base := by
  simp only [release, setState]
  split_ifs <;> rfl

@[simp] theorem release_back : (s.release a gid).back = s.back := by
  simp only [release, setState]
  split_ifs <;> rfl

@[simp] theorem release_linkRefCount : (s.release a gid).linkRefCount = s.linkRefCount := by
  simp only [release, setState]
  split_ifs <;> rfl

theorem mem_release_registered {ref : Reference} (hne : ref ≠ s.reference a gid)
    (h : ref ∈ s.registered) : ref ∈ (s.release a gid).registered := by
  simp only [release, setState]
  split_ifs <;> first | exact h | exact Finset.mem_erase.mpr ⟨hne, h⟩

/-! ## The set that falls -/

/-- **A cascade**: the state it begins in, the link that lets go of its target but goes on, and what
falls. -/
structure Cascade (p : Program) where
  start : State p
  letting : Instances p
  falls : Instances p
  named : start.Named
  counted : start.Counted
  disjoint : ∀ {a i}, letting a i → ¬ falls a i
  child : ∀ {a i c k}, falls a i → start.state a i ≠ .stopped → Under p c k a i → falls c k
  /-- a target takes its links along -/
  target : ∀ {a i g l k}, falls a i → start.state a i ≠ .stopped → g ∈ p.getLinks a →
    Refers (start.back (g, a) i) l k → letting l k ∨ falls l k
  /-- an object falls with the last link it counts -/
  object : ∀ {o k} (links : Finset (p.GroupId × p.Action)), p.isMainExecutable o = false →
    links.Nonempty → links ⊆ start.backsInto o k →
    (∀ x ∈ links, ∀ l i, Refers (start.back x k) l i → letting l i ∨ falls l i) →
    links.card % 2 ^ 32 = start.linkRefCount o k → falls o k

namespace Cascade
variable (c : Cascade p)

/-- **What holds all the time** in the cascade, up to an instance that has been stopped while the
target refers back to it and one that has been taken out of the scheduler's books. -/
structure Mid (B X : Instances p) (N : ℕ) (s : State p) : Prop where
  quieter : Quieter c.start s
  reference : s.reference = c.start.reference
  alive : ∀ {a i}, ¬ c.falls a i → s.state a i = c.start.state a i
  letGo : ∀ {x j l i}, s.back x j ≠ c.start.back x j → Refers (c.start.back x j) l i →
    c.letting l i ∨ c.falls l i
  noBack : ∀ {l i}, c.letting l i → ¬ B l i → NoBack l i s
  linked : s.Linked c.letting B
  counted : s.Counted
  started : s.Started X
  few : s.active.card ≤ N

/-- The only fault is a reference count beyond the object's instances. -/
def Faults (e : Fault) : Prop :=
  e = .outOfBounds ∧ ∃ g t j o, (c.start.back (g, t) j).timestamp ≠ INVALID_TIMESTAMP ∧
    p.getObject t = some o ∧ ¬ p.HasInstance o (j / p.getObjectDomainFactor o)

/-- Nothing has been started or linked, and the bases of what does not fall, or refers to a target that
does not, are as they were. -/
structure Spares (s t : State p) : Prop where
  quieter : Quieter s t
  base : ∀ {l i}, ¬ c.falls l i → t.base l i = s.base l i
  target : ∀ {l i a j}, Refers (s.base l i) a j → ¬ c.falls a j → t.base l i = s.base l i

/-- The stoppers that are called keep to the cascade, and stop their instance. -/
def Stops (N : ℕ) (stop : p.Action → ℕ → State p → Except Fault (State p)) : Prop :=
  ∀ ⦃a i s⦄, c.falls a i → c.Mid nobody (only a i) N s →
    Meets c.Faults (fun t => (c.Mid nobody nobody N t ∧ c.Spares s t) ∧ t.state a i = .stopped)
      (stop a i s)

variable {c} {B X : Instances p} {N : ℕ}
variable {stop : p.Action → ℕ → State p → Except Fault (State p)}

theorem spares_of_base (h : Quieter s t) (hbase : t.base = s.base) : c.Spares s t :=
  ⟨h, fun _ => by rw [hbase], fun _ _ => by rw [hbase]⟩

theorem Spares.refl (s : State p) : c.Spares s s := spares_of_base (.refl s) rfl

theorem Spares.trans (h : c.Spares s t) (h' : c.Spares t u) : c.Spares s u := by
  refine ⟨h.quieter.trans h'.quieter, fun hl => (h'.base hl).trans (h.base hl), fun hr hfalls => ?_⟩
  have heq := h.target hr hfalls
  exact (h'.target (heq ▸ hr) hfalls).trans heq

theorem Mid.named (h : c.Mid B X N s) : s.Named := by
  intro a i
  rw [h.reference]
  exact c.named a i

theorem Mid.mono {M : ℕ} (h : c.Mid B X N s) (hN : N ≤ M) : c.Mid B X M s :=
  { h with few := h.few.trans hN }

/-- A target of the cascade lets go of a link. -/
theorem Mid.unlink (h : c.Mid B X N s) {t : p.Action} (hfree : c.letting l i ∨ c.falls l i)
    (hb : Refers (s.back (g, t) j) l i) (hbase : Quieter s u → c.Spares s u)
    (hback : u.back = write s.back (g, t) j .null) (href : u.reference = s.reference)
    (hstate : u.state = s.state) (hreg : u.registered = s.registered)
    (hno : ∀ {l i}, B l i → NoBack l i u) (hlinked : u.Linked c.letting nobody)
    (hcounted : u.Counted) : c.Mid nobody X N u ∧ c.Spares s u := by
  have hquiet : Quieter s u := by
    refine ⟨fun hs => by rwa [hstate], fun x k => ?_⟩
    rw [hback, write_apply]
    split
    · exact .inr rfl
    · exact .inl rfl
  refine ⟨⟨h.quieter.trans hquiet, href.trans h.reference, fun hF => ?_, fun {x k l' i'} hne hr => ?_,
    fun {l' i'} hl _ => ?_, hlinked, hcounted, h.started.congr hstate href hreg, ?_⟩, hbase hquiet⟩
  · rw [hstate]
    exact h.alive hF
  · by_cases hx : x = (g, t) ∧ k = j
    · obtain ⟨rfl, rfl⟩ := hx
      rw [← h.quieter.back_eq hb.1] at hr
      obtain ⟨rfl, rfl⟩ := hr.unique hb
      exact hfree
    · rw [hback, write_of_ne _ _ _ _ hx] at hne
      exact h.letGo hne hr
  · by_cases hB : B l' i'
    · exact hno hB
    · exact hquiet.noBack (h.noBack hl hB)
  · unfold active
    rw [hstate]
    exact h.few

/-- A reference count that is written is one of the object's, or the fault is allowed. -/
theorem Mid.meets_addLinkRefCount (h : c.Mid B X N s) {v : State p} {t : p.Action} {delta : ℕ}
    (hb : (s.back (g, t) j).timestamp ≠ INVALID_TIMESTAMP) (ho : p.getObject t = some o) :
    Meets c.Faults
      (fun u => u = { v with
        linkRefCount := write v.linkRefCount o j ((v.linkRefCount o j + delta) % 2 ^ 32) })
      (v.addLinkRefCount o (j / p.getObjectDomainFactor o) delta) := by
  have hone := Program.getObjectDomainFactor_of_object ho
  unfold addLinkRefCount
  split
  · rw [hone, Nat.div_one]
    rfl
  · rename_i hlt
    exact ⟨rfl, g, t, j, o, h.quieter.back_eq hb ▸ hb, ho, hlt⟩

/-- An object of which no link is left falls. -/
theorem Mid.falls_object (h : c.Mid B X N s) (ho : p.isMainExecutable o = false)
    {x : p.GroupId × p.Action} (hx : x ∈ c.start.backsInto o j) (hgone : x ∉ s.backsInto o j)
    (hzero : s.linkRefCount o j = 0) : c.falls o j := by
  refine c.object (c.start.backsInto o j \ s.backsInto o j) ho
    ⟨x, Finset.mem_sdiff.mpr ⟨hx, hgone⟩⟩ Finset.sdiff_subset (fun y hy l i hr => ?_)
    (card_gone c.counted h.counted ho h.quieter.backsInto hzero)
  obtain ⟨hy, hnot⟩ := Finset.mem_sdiff.mp hy
  refine h.letGo (fun heq => hnot ?_) hr
  rw [mem_backsInto] at hy ⊢
  exact ⟨hy.1, heq ▸ hy.2⟩

/-! ## The stoppers of the cascade -/

/-- A link lets go of its target. -/
theorem breaker_mid (hstop : c.Stops N stop) (h : c.Mid B nobody N s)
    (hB : ∀ {b k}, B b k → b = l ∧ k = i) (hfree : c.letting l i ∨ c.falls l i)
    (hgone : c.letting l i ∨ s.state l i = .stopped)
    (hts : (s.reference l i).timestamp ≠ INVALID_TIMESTAMP)
    (hbase : ∀ {g t j}, l ∈ (p.group g).concreteLinks → t ∈ (p.group g).targets →
      Refers (s.base l i) t j → s.back (g, t) j = s.reference l i) :
    Meets c.Faults (fun t => (c.Mid nobody nobody N t ∧ c.Spares s t) ∧ NoBack l i t)
      (breaker stop l i s) := by
  -- no target refers back to it
  have hnone : (∀ g t j, l ∈ (p.group g).concreteLinks → t ∈ (p.group g).targets →
      (p.getObject t).isSome = true → ¬ Refers (s.base l i) t j) →
      (c.Mid nobody nobody N s ∧ c.Spares s s) ∧ NoBack l i s := by
    intro hno
    have hback : NoBack l i s := by
      rintro ⟨g, t⟩ j hr
      obtain ⟨⟨hl, ht, ho⟩, -, -, hr⟩ := h.linked.of_refers h.named hr
      exact hno g t j hl ht ho hr
    have hall : ∀ {b k}, B b k → NoBack b k s := by
      intro b k hb
      obtain ⟨rfl, rfl⟩ := hB hb
      exact hback
    refine ⟨⟨{ h with linked := h.linked.settle h.named fun b k => hall, noBack := ?_ },
      .refl s⟩, hback⟩
    intro b k hE _
    by_cases hb : B b k
    · exact hall hb
    · exact h.noBack hE hb
  unfold breaker
  dsimp only
  split
  · rename_i hvalid
    split
    · rename_i hgroup
      refine hnone fun g t j hl _ _ _ => ?_
      rw [Program.linkGroup_eq_some.mpr hl] at hgroup
      cases hgroup
    · rename_i g hgroup
      have hl := Program.linkGroup_eq_some.mp hgroup
      split
      · rename_i htarget
        refine hnone fun g' t j hl' ht ho hr => ?_
        obtain rfl := p.groups_disjoint g g' l hl hl'
        rw [Program.targetOf_eq_some.mpr ⟨ht, hr.2.1.symm, ho⟩] at htarget
        cases htarget
      · rename_i t htarget
        obtain ⟨ht, htype, hsome⟩ := Program.targetOf_eq_some.mp htarget
        have heq := hbase hl ht ⟨hvalid, htype.symm, rfl⟩
        have hb : Refers (s.back (g, t) (s.base l i).inst) l i :=
          heq ▸ refers_reference h.named hts
        split
        · rename_i ho
          rw [ho] at hsome
          cases hsome
        · rename_i o ho
          have hall : ∀ {u : State p}, NoBack l i u → ∀ {b k}, B b k → NoBack b k u := by
            intro u hno b k hb
            obtain ⟨rfl, rfl⟩ := hB hb
            exact hno
          have hlinked : ∀ u : State p, u.base = s.base →
              u.back = write s.back (g, t) (s.base l i).inst .null → u.reference = s.reference →
              u.state = s.state → u.Linked c.letting nobody ∧ NoBack l i u :=
            fun u => h.linked.letGo h.named hB hgone hb
          split
          · rename_i hmain
            obtain ⟨hl, hno⟩ :=
              hlinked (s.setBack g t (s.base l i).inst .null) rfl rfl rfl rfl
            exact ⟨h.unlink hfree hb (spares_of_base · rfl) rfl rfl rfl rfl (hall hno) hl
              (h.counted.main ho hmain rfl fun _ _ => rfl), hno⟩
          · rename_i hmain
            have hmain : p.isMainExecutable o = false := by simpa using hmain
            refine (h.meets_addLinkRefCount hb.1 ho).bind fun u hu => ?_
            rw [Program.getObjectDomainFactor_of_object ho, Nat.div_one]
            have hback : u.back = write s.back (g, t) (s.base l i).inst .null := by rw [hu]; rfl
            obtain ⟨hl, hno⟩ := hlinked u (by rw [hu]; rfl) hback (by rw [hu]; rfl) (by rw [hu]; rfl)
            obtain ⟨hmid, hspares⟩ := h.unlink hfree hb (spares_of_base · (by rw [hu]; rfl)) hback
              (by rw [hu]; rfl) (by rw [hu]; rfl) (by rw [hu]; rfl) (hall hno) hl
              (h.counted.letGo ho hb.1 hback (by rw [hu]; rfl))
            split
            · rename_i hzero
              -- the object has lost its last link
              have hmem : (g, t) ∈ s.backsInto o (s.base l i).inst := mem_backsInto.mpr ⟨ho, hb.1⟩
              have hnot : (g, t) ∉ u.backsInto o (s.base l i).inst := by
                rw [backsInto_null hback]
                exact Finset.notMem_erase _ _
              have hfalls := hmid.falls_object hmain (h.quieter.backsInto hmem) hnot hzero
              rw [(hmid.named o _).1]
              refine (hstop hfalls { hmid with started := hmid.started.of_nobody }).imp fun v hv => ?_
              exact ⟨⟨hv.1.1, hspares.trans hv.1.2⟩, hv.1.2.quieter.noBack hno⟩
            · exact ⟨⟨hmid, hspares⟩, hno⟩
  · rename_i hinvalid
    exact hnone fun g t j _ _ _ hr => hinvalid hr.1

/-- `stop_ref` of an instance of the cascade. -/
theorem stopRef_mid (hstop : c.Stops N stop) (h : c.Mid nobody nobody N s) (hF : c.falls a i) :
    Meets c.Faults (fun t => (c.Mid nobody nobody N t ∧ c.Spares s t) ∧
      (p.isMainExecutable a = false → t.state a i = .stopped))
      (stopRef stop (s.reference a i) s) := by
  unfold stopRef
  split
  · rw [(h.named a i).2, Program.actionOf_eq_some.mpr rfl, (h.named a i).1]
    dsimp only
    have hstarted : (s.unregister (s.reference a i)).Started (only a i) := by
      refine ⟨h.started.inside, h.started.stamped, fun {b k} hb hX hrun => ?_⟩
      refine Finset.mem_erase.mpr ⟨fun heq => hX ?_, h.started.registered hb id hrun⟩
      exact eq_of_reference h.named heq
    have hmid : c.Mid nobody (only a i) N (s.unregister (s.reference a i)) :=
      ⟨⟨h.quieter.stopped, h.quieter.back⟩, h.reference, h.alive, h.letGo, h.noBack,
        h.linked.congr rfl rfl rfl fun _ _ => Iff.rfl, h.counted.congr rfl rfl, hstarted, h.few⟩
    refine (hstop hF hmid).imp fun t ht =>
      ⟨⟨ht.1.1, ⟨?_, ?_⟩, ht.1.2.base, ht.1.2.target⟩, fun _ => ht.2⟩
    · exact ht.1.2.quieter.stopped
    · exact ht.1.2.quieter.back
  · rename_i hreg
    refine ⟨⟨h, .refl s⟩, fun ha => ?_⟩
    by_contra hrun
    exact hreg (h.started.registered ha id hrun)

/-- A target of the cascade lets go of the link of one group. -/
theorem breakLink_mid (hstop : c.Stops N stop) (h : c.Mid nobody nobody N s)
    (hF : c.falls a gid) (hrun : c.start.state a gid ≠ .stopped) (ho : p.getObject a = some o)
    (hg : g ∈ p.getLinks a) :
    Meets c.Faults (fun t => c.Mid nobody nobody N t ∧ c.Spares s t)
      (breakLink stop o a gid s g) := by
  unfold breakLink
  dsimp only
  split
  · rename_i hvalid
    obtain ⟨l, i, hlink, rfl, hb⟩ := h.linked.linkOf h.named hvalid
    have hfalls : c.falls l (s.back (g, a) gid).inst :=
      (c.target hF hrun hg (h.quieter.back_eq hvalid ▸ hb)).resolve_left fun hE => h.noBack hE id _ _ hb
    rw [hlink]
    dsimp only
    refine (h.meets_addLinkRefCount hvalid ho).bind fun v hv => ?_
    have href : s.back (g, a) gid = v.reference l (s.back (g, a) gid).inst := by
      rw [hv]
      exact (h.linked.of_refers h.named hb).2.1
    set u := (v.setBack g a gid .null).setBase l (s.back (g, a) gid).inst .null with hu
    have hback : u.back = write s.back (g, a) gid .null := by rw [hu, hv]; rfl
    have hcounted : u.Counted := by
      cases hmain : p.isMainExecutable o with
      | true =>
        refine h.counted.main ho hmain hback fun o' hne => ?_
        rw [hu, hv]
        funext k
        exact write_of_ne _ _ _ _ fun hx => hne hx.1
      | false => exact h.counted.letGo ho hvalid hback (by rw [hu, hv]; rfl)
    have hlinked : u.Linked c.letting nobody :=
      h.linked.break h.named hb (by rw [hu, hv]; rfl) hback (by rw [hu, hv]; rfl) (by rw [hu, hv]; rfl)
    have hother : ∀ {l' k}, ¬ (l' = l ∧ k = (s.back (g, a) gid).inst) → u.base l' k = s.base l' k := by
      intro l' k hne
      rw [hu, hv]
      exact write_of_ne _ _ _ _ hne
    have hbase : Quieter s u → c.Spares s u := by
      refine fun hquiet => ⟨hquiet, fun hl' => hother ?_, fun hr hnot => hother ?_⟩
      · rintro ⟨rfl, rfl⟩
        exact hl' hfalls
      · rintro ⟨rfl, rfl⟩
        -- it is the target that is falling
        obtain ⟨rfl, rfl⟩ := hr.unique (h.linked.of_refers h.named hb).2.2.2
        exact hnot hF
    obtain ⟨hmid, hspares⟩ := h.unlink (.inr hfalls) hb hbase hback (by rw [hu, hv]; rfl)
      (by rw [hu, hv]; rfl) (by rw [hu, hv]; rfl) False.elim hlinked hcounted
    have hstopped := stopRef_mid hstop hmid hfalls
    rw [show u.reference l (s.back (g, a) gid).inst = s.back (g, a) gid from href.symm] at hstopped
    exact hstopped.imp fun t ht => ⟨ht.1.1, hspares.trans ht.1.2⟩
  · exact ⟨h, .refl s⟩

/-- What a loop keeps of the cascade. -/
theorem foldlM_mid {β : Type} {f : State p → β → Except Fault (State p)} {xs : List β}
    (h : c.Mid nobody nobody N s)
    (hf : ∀ x ∈ xs, ∀ t, c.Mid nobody nobody N t →
      Meets c.Faults (fun u => c.Mid nobody nobody N u ∧ c.Spares t u) (f t x)) :
    Meets c.Faults (fun t => c.Mid nobody nobody N t ∧ c.Spares s t) (xs.foldlM f s) := by
  refine Meets.foldlM (I := fun t => c.Mid nobody nobody N t ∧ c.Spares s t) ⟨h, .refl s⟩ ?_
  intro x hx t ht
  exact (hf x hx t ht.1).imp fun u hu => ⟨hu.1, ht.2.trans hu.2⟩

theorem targetBreaks_mid (hstop : c.Stops N stop) (h : c.Mid nobody nobody N s)
    (hF : c.falls a gid) (hrun : c.start.state a gid ≠ .stopped) :
    Meets c.Faults (fun t => c.Mid nobody nobody N t ∧ c.Spares s t)
      (targetBreaks stop a gid s) := by
  unfold targetBreaks
  split
  · exact ⟨h, .refl s⟩
  · rename_i o ho
    exact foldlM_mid h fun g hg t ht => breakLink_mid hstop ht hF hrun ho hg

theorem stopInstance_mid (hstop : c.Stops N stop) (h : c.Mid nobody nobody N s)
    (hF : c.falls a i) :
    Meets c.Faults (fun t => c.Mid nobody nobody N t ∧ c.Spares s t)
      (stopInstance stop a s i) := by
  unfold stopInstance
  split
  · exact (hstop hF { h with started := h.started.of_nobody }).imp fun t ht => ht.1
  · exact ⟨h, .refl s⟩

theorem subTreeStop_mid (hstop : c.Stops N stop) (h : c.Mid nobody nobody N s)
    (hF : c.falls a gid) (hrun : c.start.state a gid ≠ .stopped) :
    Meets c.Faults (fun t => c.Mid nobody nobody N t ∧ c.Spares s t) (subTreeStop stop a gid s) := by
  refine foldlM_mid h fun b hb t ht => ?_
  have hparent := Program.mem_children.mp hb
  have hfalls : ∀ k, k / p.localDomainSize b = gid → c.falls b k :=
    fun k hk => c.child hF hrun ⟨hparent, hk⟩
  unfold stopChild
  split
  · exact ⟨ht, .refl t⟩
  · rename_i hkind
    refine stopInstance_mid hstop ht (hfalls gid ?_)
    rw [Program.localDomainSize_of_singleton hkind, Nat.div_one]
  · split
    · refine foldlM_mid ht fun k hk u hu => stopInstance_mid hstop hu (hfalls k ?_)
      rw [List.mem_range'_1] at hk
      exact Nat.div_eq_of_lt_le hk.1 (by rw [Nat.succ_mul]; exact hk.2)
    · exact ⟨ht, .refl t⟩

/-- The instance is released: if it is a link, its target refers back to it still. -/
theorem Mid.release {M : ℕ} (h : c.Mid nobody (only a i) (M + 1) s) (hF : c.falls a i)
    (hrun : s.state a i ≠ .stopped) :
    c.Mid (only a i) nobody M (s.release a i) ∧ c.Spares s (s.release a i) := by
  have hquiet : Quieter s (s.release a i) := by
    refine ⟨fun {b k} hs => ?_, fun x j => .inl (by rw [release_back])⟩
    rw [release_state, write_apply]
    split
    · rfl
    · exact hs
  have hother : ∀ {b k}, (s.release a i).state b k ≠ .stopped →
      ¬ (b = a ∧ k = i) ∧ s.state b k ≠ .stopped := by
    intro b k hb
    rw [release_state, write_apply] at hb
    split at hb
    · exact absurd rfl hb
    · rename_i hne
      exact ⟨hne, hb⟩
  refine ⟨⟨h.quieter.trans hquiet, release_reference.trans h.reference, fun {b k} hb => ?_,
    fun {x j l k} hne hr => ?_, fun {l k} hl _ => hquiet.noBack (h.noBack hl id), ?_, ?_,
    ⟨fun hb => h.started.inside (hother hb).2, fun hm hb => ?_, fun {b k} hm _ hb => ?_⟩, ?_⟩,
    spares_of_base hquiet release_base⟩
  · rw [release_state, write_of_ne, h.alive hb]
    rintro ⟨rfl, rfl⟩
    exact hb hF
  · rw [release_back] at hne
    exact h.letGo hne hr
  · exact h.linked.stopped release_base release_back release_reference release_state
  · exact h.counted.congr release_back release_linkRefCount
  · rw [release_reference]
    exact h.started.stamped hm (hother hb).2
  · obtain ⟨hne, hb⟩ := hother hb
    rw [release_reference]
    refine mem_release_registered ?_ (h.started.registered hm hne hb)
    exact fun heq => hne (eq_of_reference h.named heq)
  · have hlt := card_active_stopped (h.started.inside hrun) hrun release_state
    have hfew := h.few
    omega

/-- **Every stopper** that is called in a cascade keeps to it, and needs no more fuel than there are
instances to stop. -/
theorem stops_stopper (c : Cascade p) (fuel : ℕ) : ∀ N < fuel, c.Stops N (stopper fuel) := by
  induction fuel with
  | zero => exact fun N hN => absurd hN (Nat.not_lt_zero N)
  | succ fuel ih =>
    intro N hN a i s hF h
    rw [stopper]
    split
    · rename_i hrun
      obtain ⟨M, rfl⟩ : ∃ M, N = M + 1 := by
        refine Nat.exists_eq_succ_of_ne_zero fun hzero => ?_
        have hlt := card_active_stopped (h.started.inside hrun) hrun
          (u := s.setState a i .stopped) rfl
        have hfew := h.few
        omega
      have hstop := ih M (Nat.lt_of_succ_lt_succ hN)
      have hstart : c.start.state a i ≠ .stopped := fun hs => hrun (h.quieter.stopped hs)
      obtain ⟨hmid, hspares⟩ := h.release hF hrun
      have hself : (s.release a i).state a i = .stopped := by rw [release_state, write_self]
      have hlinks : Meets c.Faults
          (fun t => c.Mid nobody nobody M t ∧ c.Spares (s.release a i) t)
          (linkBreaks (stopper fuel) a i (s.release a i)) := by
        unfold linkBreaks
        refine Meets.bind (P := fun t => c.Mid nobody nobody M t ∧ c.Spares (s.release a i) t) ?_
          fun t ht => (targetBreaks_mid hstop ht.1 hF hstart).imp fun u hu => ⟨hu.1, ht.2.trans hu.2⟩
        split
        · rename_i hlink
          refine (breaker_mid hstop hmid id (.inr hF) (.inr hself) ?_ ?_).imp fun t ht => ht.1
          · rw [release_reference]
            exact h.started.stamped (not_main_of_link hlink) hrun
          · intro g t j hl ht hr
            rw [release_base] at hr
            rw [release_back, release_reference]
            exact h.linked.base hl ht (fun hE => c.disjoint hE hF) hrun hr
        · rename_i hlink
          have hno : NoBack a i (s.release a i) := hmid.linked.noBack_of_context hmid.named hlink
          refine ⟨{ hmid with linked := hmid.linked.settle hmid.named ?_, noBack := ?_ }, .refl _⟩
          · exact fun hE _ => hspares.quieter.noBack (h.noBack hE id)
          · rintro b k ⟨rfl, rfl⟩
            exact hno
      refine hlinks.bind fun t ht => ?_
      refine (subTreeStop_mid hstop ht.1 hF hstart).imp fun u hu => ?_
      have hall := hspares.trans (ht.2.trans hu.2)
      refine ⟨⟨hu.1.mono (Nat.le_succ M), hall⟩, ?_⟩
      exact hu.2.quieter.stopped (ht.2.quieter.stopped hself)
    · rename_i hstopped
      rw [not_not] at hstopped
      refine ⟨⟨{ h with started := ?_ }, .refl s⟩, hstopped⟩
      refine { h.started with registered := fun {b k} hm _ hb => h.started.registered hm ?_ hb }
      rintro ⟨rfl, rfl⟩
      exact hb hstopped

end Cascade
end State
end EgLang.Runtime
