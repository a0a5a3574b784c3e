import EgLang.Library.KeyOrders

/-!
# Maps ordered by a comparison

A map kept as the list of its entries in the order of a given comparison of keys. Looking a key up
passes over the entries before it; the next entry is the key's own unless the key comes before it.
Where the comparison is a strict order that tells the keys of a set apart, a key finds its own entry
and no other.
-/

namespace EgLang.Library.OrderedMap

open EgLang.Library

set_option autoImplicit false

variable {K V : Type} (lt : K → K → Prop)

/-- The keys are those of a set, in order. -/
structure Ordered (S : Set K) (m : List (K × V)) : Prop where
  keys : ∀ e ∈ m, e.1 ∈ S
  sorted : m.Pairwise fun e e' => lt e.1 e'.1

theorem Ordered.nil {lt : K → K → Prop} {S : Set K} : Ordered lt S ([] : List (K × V)) :=
  ⟨by simp, by simp⟩

/-- No two entries have one key. -/
theorem eq_of_key_eq {lt : K → K → Prop} {S : Set K} {m : List (K × V)} {e e' : K × V}
    (hirrefl : ∀ a ∈ S, ¬ lt a a) (hm : Ordered lt S m) (he : e ∈ m) (he' : e' ∈ m)
    (h : e.1 = e'.1) : e = e' := by
  have hnodup : (m.map Prod.fst).Nodup := by
    refine List.pairwise_map.mpr (hm.sorted.imp_of_mem fun {a b} ha _ hlt hsame => ?_)
    rw [← hsame] at hlt
    exact hirrefl a.1 (hm.keys a ha) hlt
  exact List.inj_on_of_nodup_map hnodup he he' h

variable [DecidableRel lt]

/-- The entries from the first one on that does not come before the key. -/
def lowerBound (k : K) (m : List (K × V)) : List (K × V) :=
  m.dropWhile fun e => lt e.1 k

def below (k : K) (m : List (K × V)) : List (K × V) :=
  m.takeWhile fun e => lt e.1 k

def find (k : K) (m : List (K × V)) : Option (K × V) :=
  match lowerBound lt k m with
  | [] => none
  | e :: _ => if lt k e.1 then none else some e

def insert (k : K) (v : V) (m : List (K × V)) : List (K × V) :=
  below lt k m ++ (k, v) :: lowerBound lt k m

/-- Change the value of the entry that the key finds. -/
def modify (k : K) (f : V → V) (m : List (K × V)) : List (K × V) :=
  match lowerBound lt k m with
  | [] => m
  | e :: rest => below lt k m ++ (e.1, f e.2) :: rest

variable {lt} {S : Set K} {m : List (K × V)} {k : K}

theorem below_append_lowerBound : below lt k m ++ lowerBound lt k m = m :=
  List.takeWhile_append_dropWhile

theorem lt_of_mem_below {e : K × V} (h : e ∈ below lt k m) : lt e.1 k := by
  simpa using List.mem_takeWhile_imp h

theorem mem_of_mem_lowerBound {e : K × V} (h : e ∈ lowerBound lt k m) : e ∈ m :=
  (List.dropWhile_sublist _).subset h

theorem not_lt_of_lowerBound {e : K × V} {rest : List (K × V)} (h : lowerBound lt k m = e :: rest) :
    ¬ lt e.1 k := by
  rw [lowerBound] at h
  have hne : m.dropWhile (fun e => decide (lt e.1 k)) ≠ [] := by
    rw [h]
    exact List.cons_ne_nil e rest
  have hhead := List.head_dropWhile_not _ hne
  simpa [h] using hhead

section Found
variable {e : K × V} {rest : List (K × V)}

theorem find_eq_some : find lt k m = some e ↔
    ∃ rest, lowerBound lt k m = e :: rest ∧ ¬ lt k e.1 := by
  unfold find
  split
  · next h => simp [h]
  · next e' rest' h =>
    rw [h]
    by_cases hk : lt k e'.1
    · simp only [hk, if_true, reduceCtorEq, List.cons.injEq, false_iff, not_exists, not_and]
      rintro rest ⟨rfl, -⟩ hnot
      exact hnot hk
    · simp only [hk, if_false, Option.some.injEq, List.cons.injEq]
      constructor
      · rintro rfl
        exact ⟨rest', ⟨rfl, rfl⟩, hk⟩
      · rintro ⟨rest, ⟨rfl, -⟩, -⟩
        rfl

theorem mem_of_find (h : find lt k m = some e) : e ∈ m := by
  obtain ⟨rest, hlower, -⟩ := find_eq_some.mp h
  apply @mem_of_mem_lowerBound _ _ lt _ _ k
  rw [hlower]
  exact List.mem_cons_self

/-- The entry that a key finds is its own. -/
theorem key_of_find (happart : TellsApart lt S) (hm : Ordered lt S m) (hk : k ∈ S)
    (h : find lt k m = some e) : e.1 = k := by
  obtain ⟨rest, hlower, hnot⟩ := find_eq_some.mp h
  have he : e.1 ∈ S := hm.keys e (mem_of_find h)
  exact (happart e.1 he k hk).mp ⟨not_lt_of_lowerBound hlower, hnot⟩

/-- A key that finds nothing comes before everything from the lower bound on. -/
theorem lt_of_find_eq_none (hweak : StrictWeakOn lt S) (hm : Ordered lt S m) (hk : k ∈ S)
    (h : find lt k m = none) : ∀ e ∈ lowerBound lt k m, lt k e.1 := by
  intro e he
  unfold find at h
  split at h
  · next hnil =>
    rw [hnil] at he
    cases he
  · next e' rest hlower =>
    have hk' : lt k e'.1 := by
      by_contra hnot
      simp [hnot] at h
    have hsorted : (e' :: rest).Pairwise fun e e' => lt e.1 e'.1 := by
      rw [← hlower]
      exact hm.sorted.sublist (List.dropWhile_sublist _)
    rw [hlower] at he
    have hmem : ∀ e ∈ e' :: rest, e.1 ∈ S := fun e he =>
      hm.keys e (mem_of_mem_lowerBound (by rw [hlower]; exact he))
    rcases List.mem_cons.mp he with rfl | hrest
    · exact hk'
    · exact hweak.trans k hk e'.1 (hmem e' List.mem_cons_self) e.1 (hmem e he) hk'
        ((List.pairwise_cons.mp hsorted).1 e hrest)

end Found

theorem mem_insert_iff {v : V} {e : K × V} : e ∈ insert lt k v m ↔ e = (k, v) ∨ e ∈ m := by
  rw [insert, List.mem_append, List.mem_cons, ← @below_append_lowerBound _ _ lt _ m k,
    List.mem_append, below_append_lowerBound]
  tauto

theorem countP_insert (q : K × V → Bool) (v : V) :
    (insert lt k v m).countP q = m.countP q + if q (k, v) then 1 else 0 := by
  have hparts : m.countP q = (below lt k m).countP q + (lowerBound lt k m).countP q := by
    rw [← List.countP_append, below_append_lowerBound]
  rw [insert, List.countP_append, List.countP_cons, hparts, Nat.add_assoc]

theorem Ordered.insert (hweak : StrictWeakOn lt S) (hm : Ordered lt S m) (hk : k ∈ S) (v : V)
    (h : find lt k m = none) : Ordered lt S (insert lt k v m) := by
  have hafter := lt_of_find_eq_none hweak hm hk h
  have hparts := List.pairwise_append.mp
    (show (below lt k m ++ lowerBound lt k m).Pairwise fun e e' => lt e.1 e'.1 by
      rw [below_append_lowerBound]
      exact hm.sorted)
  refine ⟨fun e he => ?_, ?_⟩
  · rcases mem_insert_iff.mp he with rfl | he
    · exact hk
    · exact hm.keys e he
  · refine List.pairwise_append.mpr ⟨hparts.1, List.pairwise_cons.mpr ⟨hafter, hparts.2.1⟩, ?_⟩
    intro e he e' he'
    rcases List.mem_cons.mp he' with rfl | he'
    · exact lt_of_mem_below he
    · exact hparts.2.2 e he e' he'

section Modify
variable {e : K × V} {f : V → V}

theorem modify_eq (h : find lt k m = some e) :
    ∃ rest, m = below lt k m ++ e :: rest ∧ modify lt k f m = below lt k m ++ (e.1, f e.2) :: rest := by
  obtain ⟨rest, hlower, -⟩ := find_eq_some.mp h
  refine ⟨rest, ?_, ?_⟩
  · rw [← hlower, below_append_lowerBound]
  · rw [modify, hlower]

theorem Ordered.modify (hm : Ordered lt S m) (h : find lt k m = some e) :
    Ordered lt S (modify lt k f m) := by
  obtain ⟨rest, heq, hmodify⟩ := modify_eq (f := f) h
  have hkeys : (OrderedMap.modify lt k f m).map Prod.fst = m.map Prod.fst := by
    rw [hmodify, congrArg (List.map Prod.fst) heq]
    simp
  constructor
  · intro e he
    have hfst : e.1 ∈ (OrderedMap.modify lt k f m).map Prod.fst := List.mem_map_of_mem he
    rw [hkeys] at hfst
    obtain ⟨e', he', heq'⟩ := List.mem_map.mp hfst
    rw [← heq']
    exact hm.keys e' he'
  · have hsorted := List.pairwise_map.mpr hm.sorted
    rw [← hkeys] at hsorted
    exact List.pairwise_map.mp hsorted

/-- Only the entry of the key that was found is changed. -/
theorem mem_modify_iff (hirrefl : ∀ a ∈ S, ¬ lt a a) (hm : Ordered lt S m) (h : find lt k m = some e)
    {e' : K × V} : e' ∈ OrderedMap.modify lt k f m ↔
      e' = (e.1, f e.2) ∨ e' ∈ m ∧ e'.1 ≠ e.1 := by
  obtain ⟨rest, heq, hmodify⟩ := modify_eq (f := f) h
  have hsorted := List.pairwise_append.mp (heq ▸ hm.sorted)
  have hmem : e ∈ m := by
    rw [heq]
    exact List.mem_append_right _ List.mem_cons_self
  have hne : ∀ a : K × V, (lt a.1 e.1 ∨ lt e.1 a.1) → a.1 ≠ e.1 := by
    intro a ha hsame
    rw [hsame, or_self] at ha
    exact hirrefl e.1 (hm.keys e hmem) ha
  have hbefore : ∀ a ∈ below lt k m, a.1 ≠ e.1 := fun a ha =>
    hne a (.inl (hsorted.2.2 a ha e List.mem_cons_self))
  have hafter : ∀ a ∈ rest, a.1 ≠ e.1 := fun a ha =>
    hne a (.inr ((List.pairwise_cons.mp hsorted.2.1).1 a ha))
  have hmem' : e' ∈ m ↔ e' ∈ below lt k m ∨ e' = e ∨ e' ∈ rest := by
    rw [congrArg (e' ∈ ·) heq, List.mem_append, List.mem_cons]
  rw [hmodify, List.mem_append, List.mem_cons, hmem']
  constructor
  · rintro (h | h | h)
    · exact .inr ⟨.inl h, hbefore e' h⟩
    · exact .inl h
    · exact .inr ⟨.inr (.inr h), hafter e' h⟩
  · rintro (h | ⟨h | h | h, hnot⟩)
    · exact .inr (.inl h)
    · exact .inl h
    · exact absurd (congrArg Prod.fst h) hnot
    · exact .inr (.inr h)

end Modify

end EgLang.Library.OrderedMap
