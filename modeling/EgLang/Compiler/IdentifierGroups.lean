import EgLang.Compiler.InvocationCache
import EgLang.Library.SortedEntries
import Mathlib.Data.String.Basic

/-!
# The identifiers of an interface tree

`Identifiers::populate` sorts the contexts and dimensions by identifier and goes through them identifier
by identifier. The first element of an identifier stands for all of its elements, in three maps: from the
identifier to it, from it to the elements, and from the elements back to it. The last two compare
elements by their identifiers, so every element of an identifier finds what is filed under the first.
-/

namespace EgLang.Compiler

open EgLang.Library EgLang.Library.SortedEntries

set_option autoImplicit false

/-- `Identifiers`. -/
structure Identifiers (ι : Type) where
  m_identifierMap : List (String × ι)
  m_identifierGroups : List (ι × ι)
  m_identifierGroupsBack : List (ι × ι)

namespace Identifiers
variable {ι : Type} (O : Objects ι)

/-- The key by which `CompareIdentifiers` orders the entries of the two maps of elements. -/
def compareIdentifiers (p : ι × ι) : String := O.getIdentifier p.1

/-! ## Population -/

/-- `forwardDeclMap`. -/
def forwardDeclMap : List (String × ι) :=
  (O.identified.map fun pElement => (O.getIdentifier pElement, pElement)).foldl (insertLast Prod.fst) []

/-- `elements`: the set of the elements of an identifier, in the order of `CompareID`. -/
def elements (group : List (String × ι)) : List ι :=
  (group.map Prod.snd).foldl (insertNew O.getIndex) []

/-- The three insertions for an element. -/
def addElement (pFirst : ι) (identifiers : Identifiers ι) (pElement : ι) : Identifiers ι where
  m_identifierMap :=
    insertNew Prod.fst identifiers.m_identifierMap (O.getIdentifier pFirst, pFirst)
  m_identifierGroups :=
    insertLast (compareIdentifiers O) identifiers.m_identifierGroups (pFirst, pElement)
  m_identifierGroupsBack :=
    insertNew (compareIdentifiers O) identifiers.m_identifierGroupsBack (pElement, pFirst)

/-- The loop of `populate` from an entry of `forwardDeclMap` on. The entries up to `iUpper` are those of
the same identifier, and the first of them is `pFirst`. -/
def populateFrom : List (String × ι) → Identifiers ι → Identifiers ι
  | [], identifiers => identifiers
  | i :: rest, identifiers =>
    populateFrom (upperBound Prod.fst i.1 rest)
      ((elements O (i :: rest.takeWhile fun j => j.1 ≤ i.1)).foldl (addElement O i.2) identifiers)
termination_by l => l.length
decreasing_by exact Nat.lt_succ_of_le (List.length_dropWhile_le _ rest)

/-- `Identifiers::populate`. -/
def populate : Identifiers ι := populateFrom O (forwardDeclMap O) ⟨[], [], []⟩

/-! ## Queries -/

variable (identifiers : Identifiers ι)

/-- `Identifiers::isElement`. -/
def isElement (strIdentifier : String) : Option ι :=
  (find Prod.fst strIdentifier identifiers.m_identifierMap).map Prod.snd

/-- `Identifiers::getGroup`. -/
def getGroup (pElement : ι) : List ι :=
  (equalRange (compareIdentifiers O) (O.getIdentifier pElement) identifiers.m_identifierGroups).map
    Prod.snd

/-- `Identifiers::getGroupBack`. -/
def getGroupBack (pElement : ι) : List ι :=
  match find (compareIdentifiers O) (O.getIdentifier pElement) identifiers.m_identifierGroupsBack with
  | some p => identifiers.getGroup O p.2
  | none => []

/-! ## Storing and loading -/

/-- What `Identifiers::store` writes: an element is written as its index in the file. -/
structure Stored where
  identifierMap : List (String × ℕ)
  identifierGroups : List (ℕ × ℕ)
  identifierGroupsBack : List (ℕ × ℕ)

/-- `storeObjectMap`. -/
def storeObjectMap (objects : List (ι × ι)) : List (ℕ × ℕ) :=
  objects.map fun p => (O.getIndex p.1, O.getIndex p.2)

/-- `Identifiers::store`. -/
def store : Stored where
  identifierMap := identifiers.m_identifierMap.map fun i => (i.1, O.getIndex i.2)
  identifierGroups := storeObjectMap O identifiers.m_identifierGroups
  identifierGroupsBack := storeObjectMap O identifiers.m_identifierGroupsBack

/-- The pairs that `loadObjectMap` reads; a reference that is out of bounds or leads to no element
throws. -/
def loadObjectMap (refs : List (ℕ × ℕ)) : Option (List (ι × ι)) :=
  refs.mapM fun p => do
    let pObject1 ← O.element p.1
    let pObject2 ← O.element p.2
    pure (pObject1, pObject2)

def loadIdentifierMap (refs : List (String × ℕ)) : Option (List (String × ι)) :=
  refs.mapM fun p => do
    let pObject ← O.element p.2
    pure (p.1, pObject)

/-- `Identifiers::load`, of an object whose maps are empty. -/
def load (stored : Stored) : Option (Identifiers ι) := do
  let identifierMap ← loadIdentifierMap O stored.identifierMap
  let identifierGroups ← loadObjectMap O stored.identifierGroups
  let identifierGroupsBack ← loadObjectMap O stored.identifierGroupsBack
  pure {
    m_identifierMap := identifierMap.foldl (insertNew Prod.fst) []
    m_identifierGroups := identifierGroups.foldl (insertLast (compareIdentifiers O)) []
    m_identifierGroupsBack := identifierGroupsBack.foldl (insertNew (compareIdentifiers O)) [] }

/-! ## The elements of an identifier -/

variable {O}

theorem identified_sorted : StrictlySorted O.getIndex O.identified := by
  have hobjects : O.objects.reduceOption.Pairwise fun a b => O.getIndex a < O.getIndex b := by
    refine List.pairwise_filterMap.mpr (List.pairwise_iff_getElem.mpr fun i j hi hj hij a ha b hb => ?_)
    have hindexA : O.getIndex a = i := by
      apply O.index_eq
      rw [List.getElem?_eq_getElem hi]
      exact congrArg some ha
    have hindexB : O.getIndex b = j := by
      apply O.index_eq
      rw [List.getElem?_eq_getElem hj]
      exact congrArg some hb
    rw [hindexA, hindexB]
    exact hij
  exact hobjects.sublist List.filter_sublist

theorem named_sorted (name : String) : StrictlySorted O.getIndex (O.named name) :=
  List.Pairwise.sublist List.filter_sublist identified_sorted

/-- The pairs of an element and the first of its identifier, in the order of the loop. -/
def members (O : Objects ι) : List (String × ι) → List (ι × ι)
  | [] => []
  | i :: rest =>
    (elements O (i :: rest.takeWhile fun j => j.1 ≤ i.1)).map (fun pElement => (i.2, pElement)) ++
      members O (upperBound Prod.fst i.1 rest)
termination_by l => l.length
decreasing_by exact Nat.lt_succ_of_le (List.length_dropWhile_le _ rest)

theorem populateFrom_eq (l : List (String × ι)) (identifiers : Identifiers ι) :
    populateFrom O l identifiers =
      (members O l).foldl (fun ids p => addElement O p.1 ids p.2) identifiers := by
  induction l, identifiers using populateFrom.induct O with
  | case1 identifiers => rw [populateFrom, members, List.foldl_nil]
  | case2 i rest identifiers ih => rw [populateFrom, members, List.foldl_append, List.foldl_map, ih]

section Folds
variable (ps : List (ι × ι)) (ids : Identifiers ι)

theorem m_identifierMap_foldl :
    (ps.foldl (fun ids p => addElement O p.1 ids p.2) ids).m_identifierMap =
      (ps.map fun p => (O.getIdentifier p.1, p.1)).foldl (insertNew Prod.fst) ids.m_identifierMap := by
  induction ps generalizing ids with
  | nil => rfl
  | cons p ps ih => exact ih _

theorem m_identifierGroups_foldl :
    (ps.foldl (fun ids p => addElement O p.1 ids p.2) ids).m_identifierGroups =
      ps.foldl (insertLast (compareIdentifiers O)) ids.m_identifierGroups := by
  induction ps generalizing ids with
  | nil => rfl
  | cons p ps ih => exact ih _

theorem m_identifierGroupsBack_foldl :
    (ps.foldl (fun ids p => addElement O p.1 ids p.2) ids).m_identifierGroupsBack =
      (ps.map Prod.swap).foldl (insertNew (compareIdentifiers O)) ids.m_identifierGroupsBack := by
  induction ps generalizing ids with
  | nil => rfl
  | cons p ps ih => exact ih _

end Folds

/-! ## The entries in the order of the loop -/

/-- Entries that are sorted by identifier, those of one identifier by index. -/
structure Entries (O : Objects ι) (l : List (String × ι)) : Prop where
  sorted : Sorted Prod.fst l
  identifier : ∀ i ∈ l, i.1 = O.getIdentifier i.2
  indices : ∀ name, StrictlySorted O.getIndex ((under Prod.fst name l).map Prod.snd)

theorem Entries.sublist {l l' : List (String × ι)} (h : Entries O l) (hl : l'.Sublist l) :
    Entries O l' where
  sorted := h.sorted.sublist hl
  identifier := fun i hi => h.identifier i (hl.subset hi)
  indices := fun name => List.Pairwise.sublist ((hl.filter _).map _) (h.indices name)

section Group
variable {i : String × ι} {rest : List (String × ι)}

/-- The entries up to `iUpper` are those of the identifier. -/
theorem Entries.group_eq (h : Entries O (i :: rest)) :
    (i :: rest.takeWhile fun j => j.1 ≤ i.1) = under Prod.fst i.1 (i :: rest) := by
  rw [← h.sorted.equalRange_eq, equalRange, lowerBound,
    List.dropWhile_cons_of_neg (by simp), List.takeWhile_cons_of_pos (by simp)]

theorem Entries.elements_group (h : Entries O (i :: rest)) :
    elements O (i :: rest.takeWhile fun j => j.1 ≤ i.1) =
      (under Prod.fst i.1 (i :: rest)).map Prod.snd := by
  rw [elements, h.group_eq]
  exact foldl_insertNew_of_strictlySorted (h.indices i.1)

theorem Entries.above (h : Entries O (i :: rest)) : Entries O (upperBound Prod.fst i.1 rest) :=
  h.sublist ((List.dropWhile_sublist _).trans (List.sublist_cons_self i rest))

end Group

/-- Both parts of a pair are elements of one identifier. -/
theorem Entries.of_mem_members {l : List (String × ι)} (h : Entries O l) {p : ι × ι}
    (hp : p ∈ members O l) :
    (O.getIdentifier p.1, p.1) ∈ l ∧ O.getIdentifier p.2 = O.getIdentifier p.1 := by
  induction l using members.induct with
  | case1 => simp [members] at hp
  | case2 i rest ih =>
    rw [members, List.mem_append] at hp
    cases hp with
    | inl hgroup =>
      rw [h.elements_group] at hgroup
      obtain ⟨pElement, helement, rfl⟩ := List.mem_map.mp hgroup
      obtain ⟨j, hj, rfl⟩ := List.mem_map.mp helement
      obtain ⟨hmem, hname⟩ := mem_under.mp hj
      have hi : i.1 = O.getIdentifier i.2 := h.identifier i List.mem_cons_self
      have hj' : j.1 = O.getIdentifier j.2 := h.identifier j hmem
      refine ⟨?_, ?_⟩
      · show (O.getIdentifier i.2, i.2) ∈ i :: rest
        rw [← hi]
        exact List.mem_cons_self
      · show O.getIdentifier j.2 = O.getIdentifier i.2
        rw [← hi, ← hj', hname]
    | inr hrest =>
      obtain ⟨hmem, hid⟩ := ih h.above hrest
      exact ⟨List.mem_cons_of_mem i (mem_of_mem_upperBound hmem), hid⟩

/-- The pairs of an identifier have its first element and each of its elements, in order. -/
theorem Entries.under_members {l : List (String × ι)} (h : Entries O l) (name : String) :
    under (compareIdentifiers O) name (members O l) =
      (under Prod.fst name l).head?.elim [] fun i =>
        (under Prod.fst name l).map fun j => (i.2, j.2) := by
  induction l using members.induct with
  | case1 => simp [members]
  | case2 i rest ih =>
    have hi : i.1 = O.getIdentifier i.2 := h.identifier i List.mem_cons_self
    rw [members, under_append, h.elements_group]
    by_cases hname : i.1 = name
    · have hlast : under (compareIdentifiers O) name (members O (upperBound Prod.fst i.1 rest)) =
          [] := by
        refine under_eq_nil fun p hp => ?_
        obtain ⟨hmem, -⟩ := h.above.of_mem_members hp
        have hsorted : Sorted Prod.fst rest := (List.pairwise_cons.mp h.sorted).2
        have hlt : i.1 < O.getIdentifier p.1 := hsorted.lt_of_mem_upperBound hmem
        rw [← hname]
        exact hlt.ne'
      have hhead : (under Prod.fst name (i :: rest)).head? = some i := by
        rw [under_cons, if_pos hname, List.head?_cons]
      rw [hlast, List.append_nil, hhead, hname]
      rw [under_eq_self]
      · exact List.map_map
      · intro p hp
        obtain ⟨pElement, -, rfl⟩ := List.mem_map.mp hp
        show O.getIdentifier i.2 = name
        rw [← hi, hname]
    · have hgroup : under (compareIdentifiers O) name
          (((under Prod.fst i.1 (i :: rest)).map Prod.snd).map fun pElement => (i.2, pElement)) =
          [] := by
        refine under_eq_nil fun p hp => ?_
        obtain ⟨pElement, -, rfl⟩ := List.mem_map.mp hp
        show O.getIdentifier i.2 ≠ name
        rw [← hi]
        exact hname
      have hunder : under Prod.fst name (i :: rest) =
          under Prod.fst name (upperBound Prod.fst i.1 rest) := by
        conv_lhs => rw [under_cons, if_neg hname,
          ← @takeWhile_append_upperBound _ _ _ Prod.fst rest i.1]
        rw [under_append, under_eq_nil, List.nil_append]
        intro j hj hjname
        have hle : j.1 ≤ i.1 := le_of_mem_takeWhile hj
        have hmem : j ∈ rest := (List.takeWhile_sublist _).subset hj
        have hge : i.1 ≤ j.1 := (List.pairwise_cons.mp h.sorted).1 j hmem
        exact hname ((le_antisymm hge hle).trans hjname)
      rw [hgroup, List.nil_append, ih h.above, hunder]

/-! ## What the maps hold -/

theorem under_forwardDeclMap (name : String) :
    under Prod.fst name (forwardDeclMap O) = (O.named name).map fun pElement => (name, pElement) := by
  have hunder := (@Sorted.foldl_insertLast _ _ _ Prod.fst [] name List.Pairwise.nil
    (O.identified.map fun pElement => (O.getIdentifier pElement, pElement))).2
  rw [forwardDeclMap, hunder, under_nil, List.nil_append, under, List.filter_map, Objects.named]
  refine List.map_congr_left fun e he => ?_
  have hname : O.getIdentifier e = name := of_decide_eq_true (List.mem_filter.mp he).2
  rw [hname]

theorem entries_forwardDeclMap : Entries O (forwardDeclMap O) where
  sorted := (@Sorted.foldl_insertLast _ _ _ Prod.fst [] "" List.Pairwise.nil _).1
  identifier := by
    intro i hi
    have hmem : i ∈ under Prod.fst i.1 (forwardDeclMap O) := mem_under.mpr ⟨hi, rfl⟩
    rw [under_forwardDeclMap] at hmem
    obtain ⟨e, he, heq⟩ := List.mem_map.mp hmem
    rw [← heq]
    exact (Objects.mem_named.mp he).2.symm
  indices := by
    intro name
    have hmap : (under Prod.fst name (forwardDeclMap O)).map Prod.snd = O.named name := by
      rw [under_forwardDeclMap, List.map_map]
      exact List.map_id _
    rw [hmap]
    exact named_sorted name

/-- The pairs of the loop of `populate`. -/
def pairs (O : Objects ι) : List (ι × ι) := members O (forwardDeclMap O)

theorem head?_named (name : String) : (O.named name).head? = O.first name := by
  rw [Objects.named, Objects.first, List.head?_filter]

theorem under_pairs (name : String) :
    under (compareIdentifiers O) name (pairs O) =
      (O.first name).elim [] fun pFirst => (O.named name).map fun pElement => (pFirst, pElement) := by
  rw [pairs, entries_forwardDeclMap.under_members, under_forwardDeclMap, List.head?_map, head?_named]
  cases O.first name with
  | none => rfl
  | some pFirst => exact List.map_map

theorem head?_under_pairs (name : String) :
    (under (compareIdentifiers O) name (pairs O)).head? =
      (O.first name).map fun pFirst => (pFirst, pFirst) := by
  have hhead := @head?_named ι O name
  rw [under_pairs]
  cases hfirst : O.first name with
  | none => rfl
  | some pFirst =>
    rw [hfirst] at hhead
    show ((O.named name).map fun pElement => (pFirst, pElement)).head? = some (pFirst, pFirst)
    rw [List.head?_map, hhead]
    rfl

/-- A pair has the first element of an identifier and an element of it. -/
theorem mem_pairs {p : ι × ι} :
    p ∈ pairs O ↔ O.first (O.getIdentifier p.1) = some p.1 ∧ p.2 ∈ O.named (O.getIdentifier p.1) := by
  have hunder : p ∈ pairs O ↔ p ∈ under (compareIdentifiers O) (O.getIdentifier p.1) (pairs O) := by
    rw [mem_under]
    exact (and_iff_left rfl).symm
  rw [hunder, under_pairs]
  cases O.first (O.getIdentifier p.1) with
  | none => simp
  | some pFirst =>
    simp only [Option.elim_some, List.mem_map, Option.some.injEq]
    constructor
    · intro h
      obtain ⟨e, he, heq⟩ := h
      rw [← heq] at he ⊢
      exact ⟨rfl, he⟩
    · intro h
      exact ⟨p.2, h.2, by rw [h.1]⟩

/-- `populate` inserts the pairs one after another in the three maps. -/
theorem m_identifierMap_populate :
    (populate O).m_identifierMap =
      ((pairs O).map fun p => (O.getIdentifier p.1, p.1)).foldl (insertNew Prod.fst) [] := by
  rw [populate, populateFrom_eq, m_identifierMap_foldl]
  rfl

theorem m_identifierGroups_populate :
    (populate O).m_identifierGroups = (pairs O).foldl (insertLast (compareIdentifiers O)) [] := by
  rw [populate, populateFrom_eq, m_identifierGroups_foldl]
  rfl

theorem m_identifierGroupsBack_populate :
    (populate O).m_identifierGroupsBack =
      ((pairs O).map Prod.swap).foldl (insertNew (compareIdentifiers O)) [] := by
  rw [populate, populateFrom_eq, m_identifierGroupsBack_foldl]
  rfl

/-! ## Answers -/

/-- An identifier leads to its first element. -/
theorem isElement_populate (strIdentifier : String) :
    (populate O).isElement strIdentifier = O.first strIdentifier := by
  have hfind := (@StrictlySorted.foldl_insertNew _ _ _ Prod.fst [] strIdentifier List.Pairwise.nil
    ((pairs O).map fun p => (O.getIdentifier p.1, p.1))).2
  have hhead := @head?_under_pairs ι O strIdentifier
  rw [under, List.head?_filter] at hhead
  rw [isElement, m_identifierMap_populate, hfind, List.find?_map]
  show (Option.map _ ((pairs O).find? fun p => compareIdentifiers O p = strIdentifier)).map Prod.snd = _
  rw [hhead]
  cases O.first strIdentifier with
  | none => rfl
  | some pFirst => rfl

/-- Any element finds all elements of its identifier. -/
theorem getGroup_populate (pElement : ι) :
    (populate O).getGroup O pElement = O.named (O.getIdentifier pElement) := by
  have hfold := @Sorted.foldl_insertLast _ _ _ (compareIdentifiers O) [] (O.getIdentifier pElement)
    List.Pairwise.nil (pairs O)
  rw [getGroup, m_identifierGroups_populate, hfold.1.equalRange_eq, hfold.2, under_nil,
    List.nil_append, under_pairs]
  have hhead := @head?_named ι O (O.getIdentifier pElement)
  cases hfirst : O.first (O.getIdentifier pElement) with
  | none =>
    rw [hfirst] at hhead
    exact (List.head?_eq_none_iff.mp hhead).symm
  | some pFirst =>
    simp only [Option.elim_some, List.map_map]
    exact List.map_id _

theorem getGroupBack_populate (pElement : ι) :
    (populate O).getGroupBack O pElement = O.named (O.getIdentifier pElement) := by
  have hfind := (@StrictlySorted.foldl_insertNew _ _ _ (compareIdentifiers O) []
    (O.getIdentifier pElement) List.Pairwise.nil ((pairs O).map Prod.swap)).2
  unfold getGroupBack
  rw [m_identifierGroupsBack_populate, hfind]
  show (match (((pairs O).map Prod.swap).find? fun a =>
    compareIdentifiers O a = O.getIdentifier pElement) with
    | some p => (populate O).getGroup O p.2
    | none => []) = _
  cases hentry : ((pairs O).map Prod.swap).find? fun a =>
      compareIdentifiers O a = O.getIdentifier pElement with
  | some p =>
    have hid : compareIdentifiers O p = O.getIdentifier pElement :=
      of_decide_eq_true (List.find?_some (p := fun a =>
        decide (compareIdentifiers O a = O.getIdentifier pElement)) hentry)
    obtain ⟨q, hq, rfl⟩ := List.mem_map.mp (List.mem_of_find?_eq_some hentry)
    have hsame : O.getIdentifier q.2 = O.getIdentifier q.1 :=
      (Objects.mem_named.mp (mem_pairs.mp hq).2).2
    show (populate O).getGroup O q.1 = _
    rw [getGroup_populate, ← hsame]
    exact congrArg O.named hid
  | none =>
    refine (List.eq_nil_iff_forall_not_mem.mpr fun e he => ?_).symm
    obtain ⟨hmem, hid⟩ := Objects.mem_named.mp he
    obtain ⟨pFirst, hfirst, -, hfid⟩ := Objects.exists_first hmem
    have hpair : (pFirst, e) ∈ pairs O := by
      refine mem_pairs.mpr ⟨?_, ?_⟩
      · show O.first (O.getIdentifier pFirst) = some pFirst
        rw [hfid, hfirst]
      · show e ∈ O.named (O.getIdentifier pFirst)
        rw [hfid, hid]
        exact he
    have hswap : (e, pFirst) ∈ (pairs O).map Prod.swap := List.mem_map_of_mem hpair
    exact List.find?_eq_none.mp hentry _ hswap (decide_eq_true hid)

/-- The answers are those of the cache's `Objects`. -/
theorem getGroup_eq_objects (pElement : ι) :
    (populate O).getGroup O pElement = O.getGroup pElement ∧
      (populate O).getGroupBack O pElement = O.getGroupBack pElement := by
  rw [getGroup_populate, getGroupBack_populate, Objects.getGroupBack_eq, Objects.getGroup_eq]
  exact ⟨rfl, rfl⟩

/-! ## Loading what was stored -/

/-- Maps as `populate` leaves them. -/
structure WellFormed (O : Objects ι) (identifiers : Identifiers ι) : Prop where
  identifierMap : StrictlySorted Prod.fst identifiers.m_identifierMap
  identifierGroups : Sorted (compareIdentifiers O) identifiers.m_identifierGroups
  identifierGroupsBack : StrictlySorted (compareIdentifiers O) identifiers.m_identifierGroupsBack
  mem_identifierMap : ∀ i ∈ identifiers.m_identifierMap, some i.2 ∈ O.objects
  mem_identifierGroups :
    ∀ p ∈ identifiers.m_identifierGroups, some p.1 ∈ O.objects ∧ some p.2 ∈ O.objects
  mem_identifierGroupsBack :
    ∀ p ∈ identifiers.m_identifierGroupsBack, some p.1 ∈ O.objects ∧ some p.2 ∈ O.objects

theorem mem_objects_of_mem_pairs {p : ι × ι} (hp : p ∈ pairs O) :
    some p.1 ∈ O.objects ∧ some p.2 ∈ O.objects := by
  obtain ⟨hfirst, hnamed⟩ := mem_pairs.mp hp
  have h1 : p.1 ∈ O.identified := List.mem_of_find?_eq_some hfirst
  have h2 : p.2 ∈ O.identified := (Objects.mem_named.mp hnamed).1
  exact ⟨(Objects.mem_identified.mp h1).1, (Objects.mem_identified.mp h2).1⟩

theorem wellFormed_populate : WellFormed O (populate O) where
  identifierMap := by
    rw [m_identifierMap_populate]
    exact (@StrictlySorted.foldl_insertNew _ _ _ _ [] "" List.Pairwise.nil _).1
  identifierGroups := by
    rw [m_identifierGroups_populate]
    exact (@Sorted.foldl_insertLast _ _ _ _ [] "" List.Pairwise.nil _).1
  identifierGroupsBack := by
    rw [m_identifierGroupsBack_populate]
    exact (@StrictlySorted.foldl_insertNew _ _ _ _ [] "" List.Pairwise.nil _).1
  mem_identifierMap := by
    intro i hi
    rw [m_identifierMap_populate] at hi
    obtain ⟨p, hp, rfl⟩ := List.mem_map.mp (mem_of_mem_foldl_insertNew hi)
    exact (mem_objects_of_mem_pairs hp).1
  mem_identifierGroups := by
    intro p hp
    rw [m_identifierGroups_populate] at hp
    exact mem_objects_of_mem_pairs (mem_of_mem_foldl_insertLast hp)
  mem_identifierGroupsBack := by
    intro p hp
    rw [m_identifierGroupsBack_populate] at hp
    obtain ⟨q, hq, rfl⟩ := List.mem_map.mp (mem_of_mem_foldl_insertNew hp)
    exact (mem_objects_of_mem_pairs hq).symm

theorem loadObjectMap_storeObjectMap {objects : List (ι × ι)}
    (h : ∀ p ∈ objects, some p.1 ∈ O.objects ∧ some p.2 ∈ O.objects) :
    loadObjectMap O (storeObjectMap O objects) = some objects := by
  induction objects with
  | nil => rfl
  | cons p objects ih =>
    rw [List.forall_mem_cons] at h
    have hrest : loadObjectMap O (storeObjectMap O objects) = some objects := ih h.2
    unfold loadObjectMap storeObjectMap at hrest ⊢
    rw [List.map_cons, List.mapM_cons, Objects.element_getIndex h.1.1, Objects.element_getIndex h.1.2,
      hrest]
    rfl

theorem loadIdentifierMap_store {identifierMap : List (String × ι)}
    (h : ∀ i ∈ identifierMap, some i.2 ∈ O.objects) :
    loadIdentifierMap O (identifierMap.map fun i => (i.1, O.getIndex i.2)) = some identifierMap := by
  induction identifierMap with
  | nil => rfl
  | cons i identifierMap ih =>
    rw [List.forall_mem_cons] at h
    have hrest := ih h.2
    unfold loadIdentifierMap at hrest ⊢
    rw [List.map_cons, List.mapM_cons, Objects.element_getIndex h.1, hrest]
    rfl

/-- Loading gives back what was stored. -/
theorem load_store {identifiers : Identifiers ι} (h : WellFormed O identifiers) :
    load O (store O identifiers) = some identifiers := by
  unfold load store
  rw [loadIdentifierMap_store h.mem_identifierMap,
    loadObjectMap_storeObjectMap h.mem_identifierGroups,
    loadObjectMap_storeObjectMap h.mem_identifierGroupsBack]
  show some (Identifiers.mk _ _ _) = some identifiers
  rw [foldl_insertNew_of_strictlySorted h.identifierMap,
    foldl_insertLast_of_sorted h.identifierGroups,
    foldl_insertNew_of_strictlySorted h.identifierGroupsBack]
  rfl

/-! ## The partition -/

/-- An element that stands for an identifier: a group is filed under it. -/
def Represents (O : Objects ι) (identifiers : Identifiers ι) (pFirst : ι) (name : String) : Prop :=
  O.getIdentifier pFirst = name ∧ ∃ pElement, (pFirst, pElement) ∈ identifiers.m_identifierGroups

/-- The groups partition the contexts and dimensions by their identifiers, and any element of a group
finds it. -/
structure Partition (O : Objects ι) (identifiers : Identifiers ι) : Prop where
  mem_getGroupBack : ∀ pElement ∈ O.identified, ∀ e,
    e ∈ identifiers.getGroupBack O pElement ↔
      e ∈ O.identified ∧ O.getIdentifier e = O.getIdentifier pElement
  nodup_getGroupBack : ∀ pElement ∈ O.identified, (identifiers.getGroupBack O pElement).Nodup
  getGroup_eq : ∀ pElement ∈ O.identified,
    identifiers.getGroup O pElement = identifiers.getGroupBack O pElement
  existsUnique_represents : ∀ pElement ∈ O.identified,
    ∃! pFirst, Represents O identifiers pFirst (O.getIdentifier pElement)
  isElement_eq_some : ∀ pElement ∈ O.identified, ∀ pFirst,
    identifiers.isElement (O.getIdentifier pElement) = some pFirst ↔
      Represents O identifiers pFirst (O.getIdentifier pElement)
  isElement_eq_none : ∀ name, (∀ e ∈ O.identified, O.getIdentifier e ≠ name) →
    identifiers.isElement name = none

theorem mem_m_identifierGroups {p : ι × ι} : p ∈ (populate O).m_identifierGroups ↔ p ∈ pairs O := by
  have hunder := (@Sorted.foldl_insertLast _ _ _ (compareIdentifiers O) []
    (compareIdentifiers O p) List.Pairwise.nil (pairs O)).2
  rw [← m_identifierGroups_populate, under_nil, List.nil_append] at hunder
  have hmem : p ∈ under (compareIdentifiers O) (compareIdentifiers O p)
      (populate O).m_identifierGroups ↔
      p ∈ under (compareIdentifiers O) (compareIdentifiers O p) (pairs O) := by rw [hunder]
  rw [mem_under, mem_under] at hmem
  simpa using hmem

/-- The first element of an identifier is the one that stands for it. -/
theorem represents_iff {pFirst : ι} {name : String} :
    Represents O (populate O) pFirst name ↔ O.first name = some pFirst := by
  constructor
  · intro h
    obtain ⟨hname, pElement, hmem⟩ := h
    rw [← hname]
    exact (mem_pairs.mp (mem_m_identifierGroups.mp hmem)).1
  · intro hfirst
    have hname : O.getIdentifier pFirst = name :=
      of_decide_eq_true (List.find?_some (p := fun e => decide (O.getIdentifier e = name)) hfirst)
    refine ⟨hname, pFirst, mem_m_identifierGroups.mpr (mem_pairs.mpr ⟨?_, ?_⟩)⟩
    · show O.first (O.getIdentifier pFirst) = some pFirst
      rw [hname, hfirst]
    · exact Objects.mem_named.mpr ⟨List.mem_of_find?_eq_some hfirst, rfl⟩

theorem partition_populate : Partition O (populate O) where
  mem_getGroupBack := by
    intro pElement _ e
    rw [getGroupBack_populate]
    exact Objects.mem_named
  nodup_getGroupBack := by
    intro pElement _
    rw [getGroupBack_populate]
    exact (named_sorted _).imp fun hlt heq => absurd (congrArg O.getIndex heq) hlt.ne
  getGroup_eq := by
    intro pElement _
    obtain ⟨hgroup, hback⟩ := getGroup_eq_objects (O := O) pElement
    rw [hgroup, hback, Objects.getGroupBack_eq]
  existsUnique_represents := by
    intro pElement hmem
    obtain ⟨pFirst, hfirst, -⟩ := Objects.exists_first hmem
    refine ⟨pFirst, represents_iff.mpr hfirst, fun other hother => ?_⟩
    have hsame : some other = some pFirst := (represents_iff.mp hother).symm.trans hfirst
    exact Option.some.inj hsame
  isElement_eq_some := by
    intro pElement _ pFirst
    rw [isElement_populate, represents_iff]
  isElement_eq_none := by
    intro name hunused
    rw [isElement_populate]
    exact List.find?_eq_none.mpr fun e he => by simpa using hunused e he

/-- **Identifier groups.** `populate` partitions the elements by identifier, whatever the tree, and what
is loaded after a store answers alike. -/
theorem partition_load_store (O : Objects ι) :
    Partition O (populate O) ∧
      ∃ loaded, load O (store O (populate O)) = some loaded ∧ Partition O loaded ∧
        (∀ name, loaded.isElement name = (populate O).isElement name) ∧
        (∀ pElement, loaded.getGroup O pElement = (populate O).getGroup O pElement) ∧
        ∀ pElement, loaded.getGroupBack O pElement = (populate O).getGroupBack O pElement :=
  ⟨partition_populate, populate O, load_store wellFormed_populate, partition_populate,
    fun _ => rfl, fun _ => rfl, fun _ => rfl⟩

/-- Only the element that stands for an identifier finds its group. -/
def FoundByRepresentatives (O : Objects ι) (identifiers : Identifiers ι) : Prop :=
  ∀ pElement ∈ O.identified,
    (Represents O identifiers pElement (O.getIdentifier pElement) →
      identifiers.getGroup O pElement = identifiers.getGroupBack O pElement) ∧
    (¬ Represents O identifiers pElement (O.getIdentifier pElement) →
      identifiers.getGroup O pElement = [])

/-- Two dimensions of one identifier. -/
def twins : Objects Bool where
  objects := [some false, some true]
  getType := fun _ => .eAbstractDimension
  getIdentifier := fun _ => "foo"
  getIndex := Bool.toNat
  index_eq := by
    intro i e h
    cases i with
    | zero =>
      cases h
      rfl
    | succ i =>
      cases i with
      | zero =>
        cases h
        rfl
      | succ i => cases h

/-- The second dimension finds the group as well. -/
theorem twins_not_foundByRepresentatives : ¬ FoundByRepresentatives twins (populate twins) := by
  intro h
  have hempty := (h true (by decide)).2 (by rw [represents_iff]; decide)
  rw [getGroup_populate] at hempty
  exact absurd hempty (by decide)

end Identifiers

end EgLang.Compiler
