import Mathlib.Data.List.TakeWhile
import Mathlib.Order.Basic
import Mathlib.Tactic

/-!
# Entries sorted by a key

A set, a map or a multimap kept as the list of its entries in the order of their keys. Entries of one
key stay in the order in which they were inserted, so a multimap is known by what it holds under each
key, and inserting the entries of a sorted list one after another gives that list back.
-/

namespace EgLang.Library.SortedEntries

set_option autoImplicit false

variable {E K : Type} [LinearOrder K] (key : E → K)

def Sorted (l : List E) : Prop := l.Pairwise fun a b => key a ≤ key b

/-- No two entries have one key. -/
def StrictlySorted (l : List E) : Prop := l.Pairwise fun a b => key a < key b

/-- The entries from the first one on that does not come before the key. -/
def lowerBound (k : K) (l : List E) : List E := l.dropWhile fun a => key a < k

/-- The entries from the first one on that comes after the key. -/
def upperBound (k : K) (l : List E) : List E := l.dropWhile fun a => key a ≤ k

/-- The entries from the lower bound of a key to its upper bound. -/
def equalRange (k : K) (l : List E) : List E := (lowerBound key k l).takeWhile fun a => key a ≤ k

def find (k : K) (l : List E) : Option E := (equalRange key k l).head?

/-- Insertion in a multimap, after the entries of the same key. -/
def insertLast (l : List E) (e : E) : List E :=
  (l.takeWhile fun a => key a ≤ key e) ++ e :: upperBound key (key e) l

/-- Insertion in a map, where an entry of the same key stays. -/
def insertNew (l : List E) (e : E) : List E :=
  if (find key (key e) l).isSome then l else insertLast key l e

/-- What is held under a key. -/
def under (k : K) (l : List E) : List E := l.filter fun a => key a = k

variable {key} {l l' : List E} {e : E} {k : K}

@[simp] theorem under_nil : under key k [] = [] := rfl

@[simp] theorem under_append : under key k (l ++ l') = under key k l ++ under key k l' :=
  List.filter_append ..

theorem under_cons :
    under key k (e :: l) = if key e = k then e :: under key k l else under key k l := by
  simp only [under, List.filter_cons, decide_eq_true_eq]

theorem mem_under : e ∈ under key k l ↔ e ∈ l ∧ key e = k := by
  rw [under, List.mem_filter, decide_eq_true_eq]

theorem under_eq_nil (h : ∀ a ∈ l, key a ≠ k) : under key k l = [] :=
  List.filter_eq_nil_iff.mpr fun a ha => by simpa using h a ha

theorem under_eq_self (h : ∀ a ∈ l, key a = k) : under key k l = l :=
  List.filter_eq_self.mpr fun a ha => by simpa using h a ha

theorem StrictlySorted.sorted (h : StrictlySorted key l) : Sorted key l :=
  List.Pairwise.imp (fun hlt => hlt.le) h

/-! ## Bounds -/

theorem takeWhile_append_upperBound :
    (l.takeWhile fun a => key a ≤ k) ++ upperBound key k l = l :=
  List.takeWhile_append_dropWhile

theorem le_of_mem_takeWhile (h : e ∈ l.takeWhile fun a => key a ≤ k) : key e ≤ k := by
  simpa using List.mem_takeWhile_imp h

theorem mem_of_mem_upperBound (h : e ∈ upperBound key k l) : e ∈ l :=
  (List.dropWhile_sublist _).subset h

/-- In a sorted list all entries from the upper bound on come after the key. -/
theorem Sorted.lt_of_mem_upperBound (hl : Sorted key l) (h : e ∈ upperBound key k l) : k < key e := by
  induction l with
  | nil => cases h
  | cons a l ih =>
    have hcons := List.pairwise_cons.mp hl
    by_cases ha : key a ≤ k
    · rw [upperBound, List.dropWhile_cons_of_pos (by simpa using ha)] at h
      exact ih hcons.2 h
    · rw [upperBound, List.dropWhile_cons_of_neg (by simpa using ha)] at h
      have hlt : k < key a := not_le.mp ha
      cases List.mem_cons.mp h with
      | inl heq =>
        rw [heq]
        exact hlt
      | inr hmem => exact hlt.trans_le (hcons.1 e hmem)

/-- The range of a key is what the list holds under it. -/
theorem Sorted.equalRange_eq (hl : Sorted key l) : equalRange key k l = under key k l := by
  induction l with
  | nil => rfl
  | cons a l ih =>
    have hcons := List.pairwise_cons.mp hl
    by_cases ha : key a < k
    · rw [equalRange, lowerBound, List.dropWhile_cons_of_pos (by simpa using ha), under_cons,
        if_neg ha.ne]
      exact ih hcons.2
    · rw [equalRange, lowerBound, List.dropWhile_cons_of_neg (by simpa using ha)]
      have hhead : ∀ b ∈ a :: l, k ≤ key b := by
        intro b hb
        cases List.mem_cons.mp hb with
        | inl heq =>
          rw [heq]
          exact not_lt.mp ha
        | inr hmem => exact (not_lt.mp ha).trans (hcons.1 b hmem)
      have hsplit := @takeWhile_append_upperBound E K _ key (a :: l) k
      have hbelow : under key k ((a :: l).takeWhile fun b => key b ≤ k) =
          (a :: l).takeWhile fun b => key b ≤ k := by
        refine under_eq_self fun b hb => ?_
        have hmem : b ∈ a :: l := (List.takeWhile_sublist _).subset hb
        exact le_antisymm (le_of_mem_takeWhile hb) (hhead b hmem)
      have habove : under key k (upperBound key k (a :: l)) = [] :=
        under_eq_nil fun b hb => (hl.lt_of_mem_upperBound hb).ne'
      calc (a :: l).takeWhile (fun b => key b ≤ k)
          = under key k ((a :: l).takeWhile (fun b => key b ≤ k) ++ upperBound key k (a :: l)) := by
            rw [under_append, hbelow, habove, List.append_nil]
        _ = under key k (a :: l) := by rw [hsplit]

theorem Sorted.find_eq (hl : Sorted key l) : find key k l = (under key k l).head? := by
  rw [find, hl.equalRange_eq]

/-! ## Insertion -/

theorem mem_insertLast {a : E} : a ∈ insertLast key l e ↔ a = e ∨ a ∈ l := by
  have hsplit := @takeWhile_append_upperBound E K _ key l (key e)
  constructor
  · intro h
    rw [insertLast, List.mem_append, List.mem_cons] at h
    rw [← hsplit, List.mem_append]
    tauto
  · intro h
    rw [← hsplit, List.mem_append] at h
    rw [insertLast, List.mem_append, List.mem_cons]
    tauto

theorem Sorted.insertLast (hl : Sorted key l) : Sorted key (insertLast key l e) := by
  refine List.pairwise_append.mpr ⟨hl.sublist (List.takeWhile_sublist _), ?_, ?_⟩
  · refine List.pairwise_cons.mpr ⟨fun a ha => (hl.lt_of_mem_upperBound ha).le, ?_⟩
    exact hl.sublist (List.dropWhile_sublist _)
  · intro a ha b hb
    have hle : key a ≤ key e := le_of_mem_takeWhile ha
    cases List.mem_cons.mp hb with
    | inl heq =>
      rw [heq]
      exact hle
    | inr hmem => exact hle.trans (hl.lt_of_mem_upperBound hmem).le

/-- An inserted entry is the last one under its key; what is under other keys stays. -/
theorem Sorted.under_insertLast (hl : Sorted key l) :
    under key k (SortedEntries.insertLast key l e) = under key k l ++ under key k [e] := by
  have hsplit := @takeWhile_append_upperBound E K _ key l (key e)
  by_cases hk : key e = k
  · have habove : under key k (upperBound key (key e) l) = [] := by
      refine under_eq_nil fun a ha => ?_
      rw [← hk]
      exact (hl.lt_of_mem_upperBound ha).ne'
    conv_rhs => rw [← hsplit]
    rw [SortedEntries.insertLast, under_append, under_cons, if_pos hk, under_append, habove,
      under_cons, if_pos hk, under_nil, List.append_nil]
  · conv_rhs => rw [← hsplit]
    rw [SortedEntries.insertLast, under_append, under_cons, if_neg hk, under_append, under_cons,
      if_neg hk, under_nil, List.append_nil]

/-- An entry that comes before none of a list is put at its end. -/
theorem insertLast_of_forall_le (h : ∀ a ∈ l, key a ≤ key e) : insertLast key l e = l ++ [e] := by
  have hall : ∀ a ∈ l, decide (key a ≤ key e) = true := fun a ha => decide_eq_true (h a ha)
  rw [insertLast, upperBound, List.takeWhile_eq_self_iff.mpr hall, List.dropWhile_eq_nil_iff.mpr hall]

theorem Sorted.foldl_insertLast (hl : Sorted key l) (es : List E) :
    Sorted key (es.foldl (SortedEntries.insertLast key) l) ∧
      under key k (es.foldl (SortedEntries.insertLast key) l) = under key k l ++ under key k es := by
  induction es generalizing l with
  | nil => exact ⟨hl, (List.append_nil _).symm⟩
  | cons e es ih =>
    obtain ⟨hsorted, hunder⟩ := ih (@Sorted.insertLast _ _ _ _ _ e hl)
    refine ⟨hsorted, ?_⟩
    rw [List.foldl_cons, hunder, hl.under_insertLast, List.append_assoc, ← under_append,
      List.singleton_append]

/-- **Reinsertion.** The entries of a sorted list, inserted one after another, are that list. -/
theorem foldl_insertLast_of_sorted (h : Sorted key (l ++ l')) :
    l'.foldl (insertLast key) l = l ++ l' := by
  induction l' generalizing l with
  | nil => exact (List.append_nil l).symm
  | cons e l' ih =>
    have hle : ∀ a ∈ l, key a ≤ key e := fun a ha =>
      (List.pairwise_append.mp h).2.2 a ha e List.mem_cons_self
    rw [List.foldl_cons, insertLast_of_forall_le hle, ih (by simpa using h)]
    simp

/-! ## Maps -/

theorem StrictlySorted.insertNew (hl : StrictlySorted key l) :
    StrictlySorted key (insertNew key l e) := by
  unfold SortedEntries.insertNew
  split
  · exact hl
  · next hnone =>
    have hempty : under key (key e) l = [] := by
      rw [hl.sorted.find_eq] at hnone
      simpa using hnone
    have hne : ∀ a ∈ l, key a ≠ key e := by
      intro a ha heq
      have hmem : a ∈ under key (key e) l := mem_under.mpr ⟨ha, heq⟩
      rw [hempty] at hmem
      cases hmem
    refine List.pairwise_append.mpr ⟨List.Pairwise.sublist (List.takeWhile_sublist _) hl, ?_, ?_⟩
    · refine List.pairwise_cons.mpr ⟨fun a ha => hl.sorted.lt_of_mem_upperBound ha, ?_⟩
      exact List.Pairwise.sublist (List.dropWhile_sublist _) hl
    · intro a ha b hb
      have hmem : a ∈ l := (List.takeWhile_sublist _).subset ha
      have hlt : key a < key e := lt_of_le_of_ne (le_of_mem_takeWhile ha) (hne a hmem)
      cases List.mem_cons.mp hb with
      | inl heq =>
        rw [heq]
        exact hlt
      | inr hmem' => exact hlt.trans (hl.sorted.lt_of_mem_upperBound hmem')

/-- A map keeps the first entry of a key. -/
theorem StrictlySorted.find_insertNew (hl : StrictlySorted key l) :
    find key k (SortedEntries.insertNew key l e) =
      (find key k l).or (if key e = k then some e else none) := by
  have hnew := (@StrictlySorted.insertNew _ _ _ _ _ e hl).sorted
  unfold SortedEntries.insertNew at hnew ⊢
  split
  · next hsome =>
    by_cases hk : key e = k
    · obtain ⟨a, ha⟩ := Option.isSome_iff_exists.mp hsome
      rw [← hk, ha]
      rfl
    · rw [if_neg hk, Option.or_none]
  · next hnone =>
    rw [if_neg hnone] at hnew
    rw [hnew.find_eq, hl.sorted.find_eq, hl.sorted.under_insertLast, List.head?_append, under_cons,
      under_nil]
    split <;> rfl

theorem StrictlySorted.foldl_insertNew (hl : StrictlySorted key l) (es : List E) :
    StrictlySorted key (es.foldl (SortedEntries.insertNew key) l) ∧
      find key k (es.foldl (SortedEntries.insertNew key) l) =
        (find key k l).or (es.find? fun a => key a = k) := by
  induction es generalizing l with
  | nil => exact ⟨hl, (Option.or_none).symm⟩
  | cons e es ih =>
    obtain ⟨hsorted, hfind⟩ := ih (@StrictlySorted.insertNew _ _ _ _ _ e hl)
    refine ⟨hsorted, ?_⟩
    rw [List.foldl_cons, hfind, hl.find_insertNew, Option.or_assoc, List.find?_cons]
    by_cases hk : key e = k
    · simp [hk]
    · simp [hk]

/-- The entries of a strictly sorted list, inserted one after another, are that list. -/
theorem foldl_insertNew_of_strictlySorted (h : StrictlySorted key (l ++ l')) :
    l'.foldl (insertNew key) l = l ++ l' := by
  induction l' generalizing l with
  | nil => exact (List.append_nil l).symm
  | cons e l' ih =>
    have hlt : ∀ a ∈ l, key a < key e := fun a ha =>
      (List.pairwise_append.mp h).2.2 a ha e List.mem_cons_self
    have hl : StrictlySorted key l := (List.pairwise_append.mp h).1
    have hnone : ¬ (find key (key e) l).isSome := by
      rw [hl.sorted.find_eq, under_eq_nil fun a ha => (hlt a ha).ne]
      exact Bool.false_ne_true
    have hinsert : insertNew key l e = l ++ [e] := by
      rw [insertNew, if_neg hnone, insertLast_of_forall_le fun a ha => (hlt a ha).le]
    rw [List.foldl_cons, hinsert, ih (by simpa using h)]
    simp

/-! ## Members -/

theorem mem_of_mem_insertNew {a : E} (h : a ∈ insertNew key l e) : a = e ∨ a ∈ l := by
  unfold insertNew at h
  split at h
  · exact Or.inr h
  · exact mem_insertLast.mp h

theorem mem_of_mem_foldl {f : List E → E → List E} (hf : ∀ l e a, a ∈ f l e → a = e ∨ a ∈ l)
    {es : List E} {a : E} (h : a ∈ es.foldl f l) : a ∈ l ∨ a ∈ es := by
  induction es generalizing l with
  | nil => exact Or.inl h
  | cons e es ih =>
    cases ih h with
    | inl hstep =>
      cases hf l e a hstep with
      | inl heq =>
        rw [heq]
        exact Or.inr List.mem_cons_self
      | inr hmem => exact Or.inl hmem
    | inr hmem => exact Or.inr (List.mem_cons_of_mem e hmem)

theorem mem_of_mem_foldl_insertLast {es : List E} {a : E}
    (h : a ∈ es.foldl (insertLast key) []) : a ∈ es :=
  (mem_of_mem_foldl (fun _ _ _ hmem => mem_insertLast.mp hmem) h).resolve_left List.not_mem_nil

theorem mem_of_mem_foldl_insertNew {es : List E} {a : E}
    (h : a ∈ es.foldl (insertNew key) []) : a ∈ es :=
  (mem_of_mem_foldl (fun _ _ _ hmem => mem_of_mem_insertNew hmem) h).resolve_left List.not_mem_nil

end EgLang.Library.SortedEntries
