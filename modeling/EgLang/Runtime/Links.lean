import EgLang.Library.Outcome
import EgLang.Runtime.SubTree

/-! # Links and their targets

The base of a running link and the back reference of its target say the same, each from its side. While
a stopper or a write of a link is under way the two sides are not written at once: so each direction
is stated with the links that are excepted from it.
-/

namespace EgLang.Runtime
open Library
set_option autoImplicit false

section Refers
variable {p : Program} {a b : p.Action} {i j : ℕ} {ref : Reference}

/-- The reference is valid and names the instance. -/
def Refers (ref : Reference) (a : p.Action) (gid : ℕ) : Prop :=
  ref.timestamp ≠ INVALID_TIMESTAMP ∧ ref.type = p.index a ∧ ref.inst = gid

instance (ref : Reference) (a : p.Action) (gid : ℕ) : Decidable (Refers ref a gid) :=
  inferInstanceAs (Decidable (_ ∧ _))

theorem Refers.unique (h : Refers ref a i) (h' : Refers ref b j) : a = b ∧ i = j :=
  ⟨p.index_injective a b (h.2.1.symm.trans h'.2.1), h.2.2.symm.trans h'.2.2⟩

@[simp] theorem not_refers_null : ¬ Refers .null a i := fun h => h.1 rfl

end Refers

namespace State
variable {p : Program} {s u : State p} {a l t : p.Action} {g : p.GroupId} {gid i j : ℕ}

/-- A set of instances. -/
abbrev Instances (p : Program) : Type := p.Action → ℕ → Prop

def nobody : Instances p := fun _ _ => False

def only (a : p.Action) (gid : ℕ) : Instances p := fun b j => b = a ∧ j = gid

theorem refers_reference (hn : s.Named)
    (h : (s.reference a gid).timestamp ≠ INVALID_TIMESTAMP) : Refers (s.reference a gid) a gid :=
  ⟨h, (hn a gid).2, (hn a gid).1⟩

/-- The instance that a reference of the state names. -/
theorem eq_of_reference (hn : s.Named) {b : p.Action}
    (h : s.reference a i = s.reference b j) : a = b ∧ i = j := by
  refine ⟨p.index_injective a b ?_, ?_⟩
  · rw [← (hn a i).2, ← (hn b j).2, h]
  · rw [← (hn a i).1, ← (hn b j).1, h]

/-- No target refers back to the link. -/
def NoBack (l : p.Action) (gid : ℕ) (s : State p) : Prop := ∀ x j, ¬ Refers (s.back x j) l gid

/-- **The invariant**: the target of a running link refers back to it, unless the link is one of
`E`; and a back reference is that of a running link that refers to the target, unless the link is one
of `B`, which is stopped already. -/
structure Linked (E B : Instances p) (s : State p) : Prop where
  base : ∀ {g l t i j}, l ∈ (p.group g).concreteLinks → t ∈ (p.group g).targets → ¬ E l i →
    s.state l i ≠ .stopped → Refers (s.base l i) t j → s.back (g, t) j = s.reference l i
  back : ∀ {g t j}, (s.back (g, t) j).timestamp ≠ INVALID_TIMESTAMP → ∃ l i,
    (l ∈ (p.group g).concreteLinks ∧ t ∈ (p.group g).targets ∧ (p.getObject t).isSome = true) ∧
      s.back (g, t) j = s.reference l i ∧ (s.state l i ≠ .stopped ∨ B l i) ∧ Refers (s.base l i) t j

theorem linked_initial : (initial p).Linked nobody nobody where
  base _ _ _ h := absurd rfl h
  back h := absurd rfl h

variable {E B : Instances p}

/-- The target that refers back to a link is the one the link refers to. -/
theorem Linked.of_refers (h : s.Linked E B) (hn : s.Named) (hb : Refers (s.back (g, t) j) l i) :
    (l ∈ (p.group g).concreteLinks ∧ t ∈ (p.group g).targets ∧ (p.getObject t).isSome = true) ∧
      s.back (g, t) j = s.reference l i ∧ (s.state l i ≠ .stopped ∨ B l i) ∧
        Refers (s.base l i) t j := by
  obtain ⟨l', i', hmem, heq, hrest⟩ := h.back hb.1
  have hts : (s.reference l' i').timestamp ≠ INVALID_TIMESTAMP := heq ▸ hb.1
  obtain ⟨rfl, rfl⟩ := hb.unique (heq ▸ refers_reference hn hts)
  exact ⟨hmem, heq, hrest⟩

/-- The link that a back reference names is found among the links of the group. -/
theorem Linked.linkOf (h : s.Linked E B) (hn : s.Named)
    (hb : (s.back (g, t) j).timestamp ≠ INVALID_TIMESTAMP) :
    ∃ l i, p.linkOf g (s.back (g, t) j).type = some l ∧ (s.back (g, t) j).inst = i ∧
      Refers (s.back (g, t) j) l i := by
  obtain ⟨l, i, ⟨hl, -, -⟩, heq, -, -⟩ := h.back hb
  have href : Refers (s.back (g, t) j) l i := heq ▸ refers_reference hn (heq ▸ hb)
  exact ⟨l, i, Program.linkOf_eq_some.mpr ⟨hl, href.2.1.symm⟩, href.2.2, href⟩

/-- A link has one target. -/
theorem Linked.unique (h : s.Linked E B) (hn : s.Named) {g' : p.GroupId} {t' : p.Action} {j' : ℕ}
    (hb : Refers (s.back (g, t) j) l i) (hb' : Refers (s.back (g', t') j') l i) :
    (g, t) = (g', t') ∧ j = j' := by
  obtain ⟨⟨hl, -, -⟩, -, -, hbase⟩ := h.of_refers hn hb
  obtain ⟨⟨hl', -, -⟩, -, -, hbase'⟩ := h.of_refers hn hb'
  obtain ⟨rfl, rfl⟩ := hbase.unique hbase'
  have hg : g = g' := p.groups_disjoint g g' l hl hl'
  exact ⟨by rw [hg], rfl⟩

/-- No target refers back to what is not a link. -/
theorem Linked.noBack_of_context (h : s.Linked E B) (hn : s.Named) (hl : p.context l ≠ .link) :
    NoBack l i s := by
  rintro ⟨g, t⟩ j hb
  have hmem := (h.of_refers hn hb).1.1
  exact hl (p.concreteLinks_link _ (List.get_mem _ g) l hmem)

/-- Where nothing refers back to the excepted links there is no exception. -/
theorem Linked.settle (h : s.Linked E B) (hn : s.Named) (hno : ∀ l i, B l i → NoBack l i s) :
    s.Linked E nobody where
  base := h.base
  back hb := by
    obtain ⟨l, i, hmem, heq, hlive, hbase⟩ := h.back hb
    refine ⟨l, i, hmem, heq, .inl ?_, hbase⟩
    rcases hlive with hlive | hB
    · exact hlive
    · exact absurd (heq ▸ refers_reference hn (heq ▸ hb)) (hno l i hB _ _)

/-! ## What the operations do to it -/

/-- The states agree on what links are made of. -/
theorem Linked.congr (h : s.Linked E B) (hbase : u.base = s.base) (hback : u.back = s.back)
    (href : u.reference = s.reference)
    (hstate : ∀ l i, u.state l i ≠ .stopped ↔ s.state l i ≠ .stopped) : u.Linked E B where
  base hl ht hE hu hb := by
    rw [hbase] at hb
    rw [hback, href]
    exact h.base hl ht hE ((hstate _ _).mp hu) hb
  back hb := by
    rw [hback] at hb
    obtain ⟨l, i, hmem, heq, hlive, hr⟩ := h.back hb
    rw [hback, href, hbase]
    exact ⟨l, i, hmem, heq, hlive.imp_left (hstate l i).mpr, hr⟩

/-- An instance is stopped: if it is a link, its target refers back to it still. -/
theorem Linked.stopped (h : s.Linked E nobody) (hbase : u.base = s.base) (hback : u.back = s.back)
    (href : u.reference = s.reference) (hstate : u.state = write s.state a gid .stopped) :
    u.Linked E (only a gid) where
  base {g l t i j} hl ht hE hu hb := by
    rw [hbase] at hb
    rw [hback, href]
    refine h.base hl ht hE (fun hs => hu ?_) hb
    rw [hstate, write_apply]
    split
    · rfl
    · exact hs
  back hb := by
    rw [hback] at hb
    obtain ⟨l, i, hmem, heq, hlive, hr⟩ := h.back hb
    rw [hback, href, hbase]
    refine ⟨l, i, hmem, heq, ?_, hr⟩
    rw [hstate, write_apply]
    by_cases hx : l = a ∧ i = gid
    · exact .inr hx
    · rw [if_neg hx]
      exact hlive.imp_right False.elim

/-- A target lets go of a link that is excepted, or is stopped. -/
theorem Linked.letGo (h : s.Linked E B) (hn : s.Named) (hB : ∀ {b k}, B b k → b = l ∧ k = i)
    (hfree : E l i ∨ s.state l i = .stopped) (hb : Refers (s.back (g, t) j) l i)
    (hbase : u.base = s.base) (hback : u.back = write s.back (g, t) j .null)
    (href : u.reference = s.reference) (hstate : u.state = s.state) :
    u.Linked E nobody ∧ NoBack l i u := by
  have hno : NoBack l i u := by
    intro x k hr
    rw [hback, write_apply] at hr
    split at hr
    · exact not_refers_null hr
    · rename_i hx
      exact hx (h.unique hn hr hb)
  refine ⟨⟨fun {g' l' t' i' j'} hl ht hE hu hr => ?_, fun {g' t' j'} hr => ?_⟩, hno⟩
  · rw [hstate] at hu
    rw [hbase] at hr
    have heq := h.base hl ht hE hu hr
    rw [hback, href, write_apply]
    split
    · rename_i hx
      -- it would be the link that is let go
      obtain ⟨⟨rfl, rfl⟩, rfl⟩ := Prod.mk.injEq .. ▸ hx
      obtain ⟨rfl, rfl⟩ := eq_of_reference hn ((h.of_refers hn hb).2.1.symm.trans heq)
      exact hfree.elim (absurd · hE) (absurd · hu)
    · exact heq
  · have hx : s.back (g', t') j' = u.back (g', t') j' := by
      rw [hback, write_apply] at hr ⊢
      split at hr
      · exact absurd rfl hr
      · rename_i hx
        rw [if_neg hx]
    obtain ⟨l', i', hmem, heq, hlive, hrefers⟩ := h.back (hx ▸ hr)
    rw [hstate, hbase, href, ← hx]
    refine ⟨l', i', hmem, heq, ?_, hrefers⟩
    rcases hlive with hlive | hB'
    · exact .inl hlive
    · obtain ⟨rfl, rfl⟩ := hB hB'
      exact absurd (hx ▸ heq ▸ refers_reference hn (heq ▸ hx ▸ hr)) (hno _ _)

/-- A target lets go of its link, and the link of the target. -/
theorem Linked.break (h : s.Linked E nobody) (hn : s.Named) (hb : Refers (s.back (g, t) j) l i)
    (hbase : u.base = write s.base l i .null) (hback : u.back = write s.back (g, t) j .null)
    (href : u.reference = s.reference) (hstate : u.state = s.state) : u.Linked E nobody := by
  have hbefore : ∀ {l' t' : p.Action} {i' j'}, Refers (u.base l' i') t' j' →
      ¬ (l' = l ∧ i' = i) ∧ Refers (s.base l' i') t' j' := by
    intro l' t' i' j' hr
    rw [hbase, write_apply] at hr
    split at hr
    · exact absurd hr not_refers_null
    · rename_i hx
      exact ⟨hx, hr⟩
  refine ⟨fun {g' l' t' i' j'} hl ht hE hu hr => ?_, fun {g' t' j'} hr => ?_⟩
  · rw [hstate] at hu
    obtain ⟨hne, hr⟩ := hbefore hr
    have heq := h.base hl ht hE hu hr
    rw [hback, href, write_apply]
    split
    · rename_i hx
      obtain ⟨⟨rfl, rfl⟩, rfl⟩ := Prod.mk.injEq .. ▸ hx
      exact absurd (eq_of_reference hn (heq.symm.trans (h.of_refers hn hb).2.1)) hne
    · exact heq
  · rw [hback, write_apply] at hr
    split at hr
    · exact absurd rfl hr
    · rename_i hx
      obtain ⟨l', i', hmem, heq, hlive, hrefers⟩ := h.back hr
      rw [hback, write_apply, if_neg hx, href, hstate, hbase]
      refine ⟨l', i', hmem, heq, hlive, ?_⟩
      rw [write_apply]
      split
      · rename_i hl
        obtain ⟨rfl, rfl⟩ := hl
        exact absurd (h.unique hn (heq ▸ refers_reference hn (heq ▸ hr)) hb) hx
      · exact hrefers

/-- The base of an excepted link that no target refers back to is written. -/
theorem Linked.setBase (h : s.Linked (only l i) nobody) (hn : s.Named) (hno : NoBack l i s)
    (v : Reference) : (s.setBase l i v).Linked (only l i) nobody := by
  have hbefore : ∀ {l' i'}, ¬ (l' = l ∧ i' = i) → (s.setBase l i v).base l' i' = s.base l' i' :=
    fun hne => write_of_ne _ _ _ _ hne
  refine ⟨fun hl ht hE hu hr => ?_, fun hr => ?_⟩
  · rw [hbefore hE] at hr
    exact h.base hl ht hE hu hr
  · obtain ⟨l', i', hmem, heq, hlive, hrefers⟩ := h.back hr
    refine ⟨l', i', hmem, heq, hlive, ?_⟩
    rw [hbefore]
    · exact hrefers
    · rintro ⟨rfl, rfl⟩
      exact hno _ _ (heq ▸ refers_reference hn (heq ▸ hr))

/-- A running link and its new target are linked. -/
theorem Linked.link (h : s.Linked (only l i) nobody)
    (hrun : s.state l i ≠ .stopped) (hl : l ∈ (p.group g).concreteLinks)
    (ht : t ∈ (p.group g).targets) (ho : (p.getObject t).isSome = true)
    (hb : Refers (s.base l i) t j) (hfree : ¬ (s.back (g, t) j).timestamp ≠ INVALID_TIMESTAMP)
    (hts : ∀ {l' i'}, l' ∈ (p.group g).concreteLinks → s.state l' i' ≠ .stopped →
      (s.reference l' i').timestamp ≠ INVALID_TIMESTAMP)
    (hbase : u.base = s.base) (hback : u.back = write s.back (g, t) j (s.reference l i))
    (href : u.reference = s.reference) (hstate : u.state = s.state) : u.Linked nobody nobody := by
  refine ⟨fun {g' l' t' i' j'} hl' ht' _ hu hr => ?_, fun {g' t' j'} hr => ?_⟩
  · rw [hbase] at hr
    rw [hstate] at hu
    rw [hback, href, write_apply]
    by_cases hx : l' = l ∧ i' = i
    · obtain ⟨rfl, rfl⟩ := hx
      obtain ⟨rfl, rfl⟩ := hr.unique hb
      obtain rfl := p.groups_disjoint g' g l' hl' hl
      rw [if_pos ⟨rfl, rfl⟩]
    · have heq := h.base hl' ht' hx hu hr
      rw [if_neg, heq]
      intro hslot
      obtain ⟨⟨rfl, rfl⟩, rfl⟩ := Prod.mk.injEq .. ▸ hslot
      exact hfree (heq ▸ hts hl' hu)
  · rw [hback, write_apply] at hr ⊢
    rw [href, hstate, hbase]
    split at hr
    · rename_i hx
      obtain ⟨⟨rfl, rfl⟩, rfl⟩ := Prod.mk.injEq .. ▸ hx
      rw [if_pos ⟨rfl, rfl⟩]
      exact ⟨l, i, ⟨hl, ht, ho⟩, rfl, .inl hrun, hb⟩
    · rename_i hx
      rw [if_neg hx]
      exact h.back hr

/-- An instance is started that was stopped, with a null base, or that is no link. -/
theorem Linked.started (h : s.Linked nobody nobody)
    (hlink : p.context a = .link → s.state a gid = .stopped ∧ u.base a gid = .null)
    (hbase : ∀ l i, ¬ (l = a ∧ i = gid) → u.base l i = s.base l i) (hback : u.back = s.back)
    {ref : Reference} (href : u.reference = write s.reference a gid ref)
    (hstate : u.state = write s.state a gid .running) : u.Linked nobody nobody := by
  have hother : ∀ {g : p.GroupId} {l : p.Action} {i}, l ∈ (p.group g).concreteLinks →
      s.state l i ≠ .stopped ∨ u.base l i ≠ .null → ¬ (l = a ∧ i = gid) := by
    rintro g l i hl hx ⟨rfl, rfl⟩
    obtain ⟨hs, hnull⟩ := hlink (p.concreteLinks_link _ (List.get_mem _ g) l hl)
    exact hx.elim (absurd hs) (absurd hnull)
  refine ⟨fun {g l t i j} hl ht hE hu hr => ?_, fun {g t j} hr => ?_⟩
  · have hne := hother (i := i) hl (.inr fun hnull => not_refers_null (hnull ▸ hr))
    rw [hbase l i hne] at hr
    rw [hstate, write_of_ne _ _ _ _ hne] at hu
    rw [hback, href, write_of_ne _ _ _ _ hne]
    exact h.base hl ht hE hu hr
  · rw [hback] at hr
    obtain ⟨l, i, hmem, heq, hlive, hrefers⟩ := h.back hr
    have hne := hother hmem.1 (.inl (hlive.resolve_right id))
    refine ⟨l, i, hmem, ?_, ?_, ?_⟩
    · rw [hback, href, write_of_ne _ _ _ _ hne]
      exact heq
    · rw [hstate, write_of_ne _ _ _ _ hne]
      exact hlive
    · rw [hbase l i hne]
      exact hrefers

end State
end EgLang.Runtime
