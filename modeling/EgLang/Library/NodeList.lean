import Mathlib.Data.List.Nodup
import Mathlib.Data.List.Sort
import Mathlib.Order.Defs.LinearOrder
import Mathlib.Tactic

/-! # Linked containers and the iterators into them

A doubly linked list, or a multimap, is the list of its nodes in order. A node has an identity, so
that an iterator is the identity of the node it points to, `none` being the end iterator; an
iterator whose node is no longer there has been erased. A multimap keeps its nodes sorted by key
and puts a new one behind those of the same key.

`walk` is the loop that advances an iterator up to a bound fixed beforehand while its body erases
other nodes of the same container. `walk_eq_sweep` says what it comes to: one pass over the nodes
that were there at the start, leaving out those the body has erased meanwhile, up to the moment the
bound itself is erased.
-/

namespace EgLang.Library
set_option autoImplicit false

/-- A node: its identity, its key, and what it carries. -/
structure Entry (κ α : Type*) where
  node : ℕ
  key : κ
  val : α
deriving DecidableEq, Repr

namespace NodeList

variable {κ α : Type*}

/-! ## Nodes -/

/-- The identities of the nodes, in order. -/
def nodes (l : List (Entry κ α)) : List ℕ := l.map Entry.node

@[simp] theorem nodes_nil : nodes ([] : List (Entry κ α)) = [] := rfl

@[simp] theorem nodes_cons (e : Entry κ α) (l : List (Entry κ α)) :
    nodes (e :: l) = e.node :: nodes l := rfl

@[simp] theorem nodes_append (l m : List (Entry κ α)) : nodes (l ++ m) = nodes l ++ nodes m :=
  List.map_append

theorem mem_nodes {l : List (Entry κ α)} {n : ℕ} : n ∈ nodes l ↔ ∃ e ∈ l, e.node = n :=
  List.mem_map

theorem node_mem_nodes {l : List (Entry κ α)} {e : Entry κ α} (h : e ∈ l) : e.node ∈ nodes l :=
  mem_nodes.mpr ⟨e, h, rfl⟩

theorem nodes_filter_sublist (p : Entry κ α → Bool) (l : List (Entry κ α)) :
    (nodes (l.filter p)).Sublist (nodes l) :=
  List.filter_sublist.map _

theorem eq_of_node_eq {l : List (Entry κ α)} (hl : (nodes l).Nodup) {e f : Entry κ α}
    (he : e ∈ l) (hf : f ∈ l) (h : e.node = f.node) : e = f :=
  List.inj_on_of_nodup_map hl he hf h

theorem node_mem_filter {l : List (Entry κ α)} (hl : (nodes l).Nodup) {p : Entry κ α → Bool}
    {e : Entry κ α} (he : e ∈ l) : e.node ∈ nodes (l.filter p) ↔ p e = true := by
  constructor
  · intro h
    obtain ⟨f, hf, hfe⟩ := mem_nodes.mp h
    obtain ⟨hfl, hpf⟩ := List.mem_filter.mp hf
    rwa [eq_of_node_eq hl he hfl hfe.symm]
  · intro h
    exact node_mem_nodes (List.mem_filter.mpr ⟨he, h⟩)

/-- The node an iterator points to, if it is still there. -/
def deref (l : List (Entry κ α)) (n : ℕ) : Option (Entry κ α) := l.find? (fun e => e.node = n)

theorem deref_eq_some {l : List (Entry κ α)} (hl : (nodes l).Nodup) {n : ℕ} {e : Entry κ α} :
    deref l n = some e ↔ e ∈ l ∧ e.node = n := by
  constructor
  · intro h
    exact ⟨List.mem_of_find?_eq_some h, by simpa using List.find?_some h⟩
  · rintro ⟨he, rfl⟩
    cases hd : deref l e.node with
    | none =>
      have := List.find?_eq_none.mp hd e he
      simp at this
    | some f =>
      have hf : f.node = e.node := by simpa using List.find?_some hd
      rw [eq_of_node_eq hl (List.mem_of_find?_eq_some hd) he hf]

/-- Erasing one node. -/
def erase (l : List (Entry κ α)) (n : ℕ) : List (Entry κ α) := l.filter (fun e => e.node ≠ n)

theorem mem_erase {l : List (Entry κ α)} {n : ℕ} {e : Entry κ α} :
    e ∈ erase l n ↔ e ∈ l ∧ e.node ≠ n := by
  simp [erase]

/-- Where an iterator points after `++`; `none` if its own node has been erased. -/
def next : List (Entry κ α) → ℕ → Option (Option ℕ)
  | [], _ => none
  | e :: l, n => if e.node = n then some (l.head?.map Entry.node) else next l n

theorem next_append {A B : List (Entry κ α)} {e : Entry κ α} (h : e.node ∉ nodes A) :
    next (A ++ e :: B) e.node = some (B.head?.map Entry.node) := by
  induction A with
  | nil => simp [next]
  | cons f A ih =>
    simp only [nodes_cons, List.mem_cons, not_or] at h
    rw [List.cons_append, next, if_neg (fun hf => h.1 hf.symm), ih h.2]

/-- The nodes from the iterator `lo` up to, not including, the iterator `hi` are erased. -/
def eraseRange (lo hi : Option ℕ) : List (Entry κ α) → List (Entry κ α)
  | [] => []
  | e :: l =>
    if some e.node = hi then e :: l
    else if some e.node = lo then l.dropWhile (fun f => some f.node ≠ hi)
    else e :: eraseRange lo hi l

/-- An iterator is usable if it is the end or its node is still there. -/
def Alive (l : List (Entry κ α)) : Option ℕ → Prop
  | none => True
  | some n => n ∈ nodes l

instance (l : List (Entry κ α)) (it : Option ℕ) : Decidable (Alive l it) :=
  match it with
  | none => isTrue trivial
  | some n => inferInstanceAs (Decidable (n ∈ nodes l))

/-- The iterator to the first node. -/
def begin (l : List (Entry κ α)) : Option ℕ := l.head?.map Entry.node

@[simp] theorem begin_nil : begin ([] : List (Entry κ α)) = none := rfl

@[simp] theorem begin_cons (e : Entry κ α) (l : List (Entry κ α)) :
    begin (e :: l) = some e.node := rfl

theorem begin_mem {l : List (Entry κ α)} {n : ℕ} (h : begin l = some n) : n ∈ nodes l := by
  cases l with
  | nil => simp at h
  | cons e l => simp at h; simp [h]

/-! ## Keys -/

section Keys
variable [LinearOrder κ]

/-- The nodes stand in the order of their keys. -/
def Sorted (l : List (Entry κ α)) : Prop := l.Pairwise (fun e f => e.key ≤ f.key)

/-- `multimap::insert`: behind the nodes of the same key. -/
def insert (e : Entry κ α) (l : List (Entry κ α)) : List (Entry κ α) :=
  l.orderedInsert (fun e f => e.key < f.key) e

/-- `multimap::lower_bound`. -/
def lowerBound (l : List (Entry κ α)) (k : κ) : Option ℕ :=
  (l.find? (fun e => ¬ e.key < k)).map Entry.node

/-- `multimap::upper_bound`. -/
def upperBound (l : List (Entry κ α)) (k : κ) : Option ℕ :=
  (l.find? (fun e => k < e.key)).map Entry.node

/-- The nodes of one key, between its two bounds. -/
def range (l : List (Entry κ α)) (k : κ) : List (Entry κ α) := l.filter (fun e => e.key = k)

theorem insert_perm (e : Entry κ α) (l : List (Entry κ α)) : (insert e l).Perm (e :: l) :=
  List.perm_orderedInsert _ e l

@[simp] theorem mem_insert {e f : Entry κ α} {l : List (Entry κ α)} :
    f ∈ insert e l ↔ f = e ∨ f ∈ l := by
  rw [(insert_perm e l).mem_iff, List.mem_cons]

theorem Sorted.insert {e : Entry κ α} {l : List (Entry κ α)} (h : Sorted l) :
    Sorted (insert e l) := by
  induction l with
  | nil => simp [NodeList.insert, Sorted]
  | cons f l ih =>
    obtain ⟨hf, hl⟩ := List.pairwise_cons.mp h
    simp only [NodeList.insert, List.orderedInsert]
    split
    · rename_i hlt
      refine List.pairwise_cons.mpr ⟨fun g hg => ?_, h⟩
      rcases List.mem_cons.mp hg with rfl | hg
      · exact hlt.le
      · exact hlt.le.trans (hf g hg)
    · rename_i hlt
      refine List.pairwise_cons.mpr ⟨fun g hg => ?_, ih hl⟩
      rcases mem_insert.mp hg with rfl | hg
      · exact not_lt.mp hlt
      · exact hf g hg

theorem Sorted.filter {l : List (Entry κ α)} (h : Sorted l) (p : Entry κ α → Bool) :
    Sorted (l.filter p) :=
  List.Pairwise.filter p h

/-- A sorted container splits at the two bounds of a key. -/
theorem Sorted.split {l : List (Entry κ α)} (h : Sorted l) (k : κ) :
    l = l.filter (fun e => e.key < k) ++ (range l k ++ l.filter (fun e => k < e.key)) := by
  induction l with
  | nil => rfl
  | cons e l ih =>
    obtain ⟨he, hl⟩ := List.pairwise_cons.mp h
    rcases lt_trichotomy e.key k with hk | hk | hk
    · have h1 : ¬ e.key = k := hk.ne
      have h2 : ¬ k < e.key := hk.not_gt
      simp only [range, List.filter_cons, hk, h1, h2, decide_true, decide_false, if_true,
        Bool.false_eq_true, if_false, List.cons_append]
      exact congrArg (e :: ·) (ih hl)
    · have h0 : l.filter (fun e => e.key < k) = [] := by
        refine List.filter_eq_nil_iff.mpr fun f hf => ?_
        have := he f hf
        simp only [decide_eq_true_eq, not_lt]
        exact hk ▸ this
      have := ih hl
      rw [h0, List.nil_append] at this
      subst hk
      simp only [range, List.filter_cons, lt_irrefl, decide_false, decide_true, if_true,
        Bool.false_eq_true, if_false, h0, List.nil_append, List.cons_append]
      exact congrArg (e :: ·) this
    · have h0 : l.filter (fun e => e.key < k) = [] := by
        refine List.filter_eq_nil_iff.mpr fun f hf => ?_
        simp only [decide_eq_true_eq, not_lt]
        exact hk.le.trans (he f hf)
      have h1 : range l k = [] := by
        refine List.filter_eq_nil_iff.mpr fun f hf => ?_
        have := hk.trans_le (he f hf)
        simpa using this.ne'
      have := ih hl
      rw [h0, h1, List.nil_append, List.nil_append] at this
      have h2 : ¬ e.key < k := hk.not_gt
      have h3 : ¬ e.key = k := hk.ne'
      simp only [range] at h1
      simp only [range, List.filter_cons, hk, h2, h3, decide_false, decide_true, if_true,
        Bool.false_eq_true, if_false, h0, h1, List.nil_append]
      exact congrArg (e :: ·) this

theorem Sorted.lowerBound_eq {l : List (Entry κ α)} (h : Sorted l) (k : κ) :
    lowerBound l k = begin (range l k ++ l.filter (fun e => k < e.key)) := by
  have h1 : (l.filter (fun e => e.key < k)).find? (fun e => decide (¬ e.key < k)) = none := by
    refine List.find?_eq_none.mpr fun e he => ?_
    simpa using (List.mem_filter.mp he).2
  have h2 : ∀ e ∈ range l k ++ l.filter (fun e => k < e.key), decide (¬ e.key < k) = true := by
    intro e he
    rcases List.mem_append.mp he with he | he
    · have := (List.mem_filter.mp he).2
      simp only [decide_eq_true_eq] at this
      simp [this]
    · have := (List.mem_filter.mp he).2
      simp only [decide_eq_true_eq] at this
      simpa using this.le
  unfold lowerBound
  conv_lhs => rw [h.split k, List.find?_append, h1, Option.none_or]
  generalize range l k ++ l.filter (fun e => k < e.key) = m at h2
  cases m with
  | nil => rfl
  | cons e m =>
    have he := h2 e List.mem_cons_self
    simp only [List.find?_cons, he, Option.map_some, begin_cons]

theorem upperBound_eq (l : List (Entry κ α)) (k : κ) :
    upperBound l k = begin (l.filter (fun e => k < e.key)) := by
  simp [upperBound, begin, List.head?_filter]

end Keys

theorem begin_filter {l : List (Entry κ α)} (hl : (nodes l).Nodup) {p : Entry κ α → Bool}
    (h : Alive (l.filter p) (begin l)) : begin (l.filter p) = begin l := by
  cases l with
  | nil => rfl
  | cons e l =>
    cases hp : p e with
    | true => rw [List.filter_cons_of_pos hp]; rfl
    | false =>
      rw [List.filter_cons_of_neg (by simp [hp])] at h
      have hmem : e.node ∈ nodes l := (nodes_filter_sublist p l).subset h
      exact absurd hmem (List.nodup_cons.mp hl).1

theorem eraseRange_append {A R B : List (Entry κ α)} (h : (nodes (A ++ (R ++ B))).Nodup) :
    eraseRange (begin (R ++ B)) (begin B) (A ++ (R ++ B)) = A ++ B := by
  induction A with
  | nil =>
    cases R with
    | nil =>
      cases B with
      | nil => rfl
      | cons b B => simp [eraseRange]
    | cons e R =>
      have hR : ∀ f ∈ e :: R, some f.node ≠ begin B := by
        intro f hf hb
        have hb' := begin_mem hb.symm
        rw [List.nil_append, nodes_append] at h
        exact (List.nodup_append.mp h).2.2 _ (node_mem_nodes hf) _ hb' rfl
      rw [List.nil_append, List.cons_append, eraseRange, if_neg (hR e List.mem_cons_self),
        begin_cons, if_pos rfl, List.nil_append]
      have hR' : ∀ f ∈ R, decide (some f.node ≠ begin B) = true :=
        fun f hf => by simpa using hR f (List.mem_cons_of_mem _ hf)
      rw [List.dropWhile_append_of_pos hR']
      cases B with
      | nil => rfl
      | cons b B => simp
  | cons a A ih =>
    have ha : a.node ∉ nodes (A ++ (R ++ B)) ∧ (nodes (A ++ (R ++ B))).Nodup :=
      List.nodup_cons.mp h
    have hne : ∀ (M : List (Entry κ α)), (∀ n ∈ nodes M, n ∈ nodes (R ++ B)) →
        some a.node ≠ begin M := by
      intro M hM hb
      refine ha.1 ?_
      rw [nodes_append]
      exact List.mem_append_right _ (hM _ (begin_mem hb.symm))
    rw [List.cons_append, eraseRange,
      if_neg (hne B fun n hn => by rw [nodes_append]; exact List.mem_append_right _ hn),
      if_neg (hne (R ++ B) fun n hn => hn), ih ha.2, List.cons_append]

theorem begin_alive {l : List (Entry κ α)} : Alive l (begin l) := by
  cases l with
  | nil => trivial
  | cons e l => exact List.mem_cons_self

theorem Alive.append_right {l m : List (Entry κ α)} {it : Option ℕ} (h : Alive m it) :
    Alive (l ++ m) it := by
  cases it with
  | none => trivial
  | some n =>
    change n ∈ nodes (l ++ m)
    rw [nodes_append]
    exact List.mem_append_right _ h

/-- Nodes have been erased meanwhile, but neither the upper bound nor the first node of the range:
the lower bound is good, and erasing the range leaves what is left outside of it. -/
theorem eraseRange_filter {A R B : List (Entry κ α)} {p : Entry κ α → Bool}
    (h : (nodes (A ++ (R ++ B))).Nodup) (hB : Alive ((A ++ (R ++ B)).filter p) (begin B))
    (hR : ∀ e, R.head? = some e → p e = true) :
    Alive ((A ++ (R ++ B)).filter p) (begin (R ++ B)) ∧
      eraseRange (begin (R ++ B)) (begin B) ((A ++ (R ++ B)).filter p) =
        A.filter p ++ B.filter p := by
  have hsplit : (A ++ (R ++ B)).filter p = A.filter p ++ (R.filter p ++ B.filter p) := by
    rw [List.filter_append, List.filter_append]
  have hn' : (nodes (A.filter p ++ (R.filter p ++ B.filter p))).Nodup := by
    rw [← hsplit]
    exact h.sublist (nodes_filter_sublist _ _)
  have hbeginB : begin (B.filter p) = begin B := by
    have hnB : (nodes B).Nodup := by
      rw [nodes_append, nodes_append] at h
      exact (List.nodup_append.mp (List.nodup_append.mp h).2.1).2.1
    refine begin_filter hnB ?_
    cases B with
    | nil => trivial
    | cons b B =>
      have hb : b ∈ A ++ (R ++ b :: B) := by simp
      have hpb : p b = true := (node_mem_filter h hb).mp hB
      exact node_mem_nodes (List.mem_filter.mpr ⟨List.mem_cons_self, hpb⟩)
  have hbegin : begin (R.filter p ++ B.filter p) = begin (R ++ B) := by
    cases R with
    | nil => exact hbeginB
    | cons d R =>
      rw [List.filter_cons_of_pos (hR d rfl)]
      rfl
  rw [hsplit, ← hbegin]
  refine ⟨begin_alive.append_right, ?_⟩
  rw [← hbeginB]
  exact eraseRange_append hn'

/-! ## Walking up to a bound -/

section Walk
variable {σ ε : Type*} (view : σ → List (Entry κ α)) (body : σ → Entry κ α → Except ε σ)
variable (erased outOfFuel : ε)

/-- `for (it; it != hi; ++it) body(it)`: comparing with an erased bound, dereferencing an erased
node or the end, and advancing from an erased node all end in `erased`. -/
def walk (hi : Option ℕ) : ℕ → Option ℕ → σ → Except ε σ
  | 0, _, _ => .error outOfFuel
  | fuel + 1, it, s =>
    if Alive (view s) hi then
      if it = hi then .ok s
      else
        match it.bind (deref (view s)) with
        | none => .error erased
        | some e =>
          match body s e with
          | .error f => .error f
          | .ok s' =>
            match next (view s') e.node with
            | none => .error erased
            | some it' => walk hi fuel it' s'
    else .error erased

/-- One pass over the nodes `R`, leaving out those no longer there, as long as the bound is. -/
def sweep (hi : Option ℕ) : List (Entry κ α) → σ → Except ε σ
  | [], s => if Alive (view s) hi then .ok s else .error erased
  | e :: R, s =>
    if Alive (view s) hi then
      if e.node ∈ nodes (view s) then
        match body s e with
        | .error f => .error f
        | .ok s' => sweep hi R s'
      else sweep hi R s
    else .error erased

variable {view body}

/-- From the states of `I`, which it stays in, the body erases nodes of the container, never the one
it is called on. -/
def ErasesOthers (I : σ → Prop) (view : σ → List (Entry κ α))
    (body : σ → Entry κ α → Except ε σ) : Prop :=
  ∀ s e s', I s → e ∈ view s → body s e = .ok s' →
    I s' ∧ ∃ p : Entry κ α → Bool, p e = true ∧ view s' = (view s).filter p

/-- **Walking is one pass** over the nodes that stood between the two bounds. -/
theorem walk_eq_sweep {I : σ → Prop} (hbody : ErasesOthers I view body) (R : List (Entry κ α)) :
    ∀ (A B : List (Entry κ α)) (hi : Option ℕ) (fuel : ℕ) (s : σ), I s → R.length < fuel →
      (nodes (view s)).Nodup → (Alive (view s) hi → hi = begin B) →
      view s = A ++ (R.filter (fun e => e.node ∈ nodes (view s)) ++ B) →
      (∀ e ∈ R, e.node ∈ nodes (view s) → e ∈ view s) →
      walk view body erased outOfFuel hi fuel
          (begin (R.filter (fun e => e.node ∈ nodes (view s)) ++ B)) s =
        sweep view body erased hi R s := by
  induction R with
  | nil =>
    intro A B hi fuel s _ hf hn hhi hv _
    obtain ⟨fuel, rfl⟩ : ∃ k, fuel = k + 1 := ⟨fuel - 1, by simp at hf; omega⟩
    by_cases ha : Alive (view s) hi
    · simp [walk, sweep, ha, ← hhi ha]
    · simp [walk, sweep, ha]
  | cons e R ih =>
    intro A B hi fuel s hI hf hn hhi hv hR
    have hf' : R.length < fuel := by simp at hf; omega
    by_cases hmem : e.node ∈ nodes (view s)
    · have he : e ∈ view s := hR e List.mem_cons_self hmem
      have hfil : (e :: R).filter (fun e => e.node ∈ nodes (view s)) =
          e :: R.filter (fun e => e.node ∈ nodes (view s)) := by
        rw [List.filter_cons_of_pos (by simpa using hmem)]
      rw [hfil] at hv ⊢
      set T := R.filter (fun e => e.node ∈ nodes (view s)) with hT
      obtain ⟨fuel, rfl⟩ : ∃ k, fuel = k + 1 := ⟨fuel - 1, by omega⟩
      by_cases ha : Alive (view s) hi
      swap
      · simp [walk, sweep, ha]
      have hne : some e.node ≠ hi := by
        rw [hhi ha]
        intro hb
        rw [hv, nodes_append, List.cons_append, nodes_cons, nodes_append] at hn
        have h1 := (List.nodup_cons.mp (List.nodup_append.mp hn).2.1).1
        exact h1 (List.mem_append_right _ (begin_mem hb.symm))
      have hd : (begin (e :: T ++ B)).bind (deref (view s)) = some e := by
        simpa using (deref_eq_some hn).mpr ⟨he, rfl⟩
      rw [walk, sweep, if_pos ha, if_pos ha, if_pos hmem, hd,
        if_neg (by simpa using hne)]
      dsimp only
      cases hs : body s e with
      | error f => rfl
      | ok s' =>
        obtain ⟨hI', p, hpe, hv'⟩ := hbody s e s' hI he hs
        have hn' : (nodes (view s')).Nodup := by
          rw [hv']; exact hn.sublist (nodes_filter_sublist p _)
        have hstill : ∀ f ∈ R, (f.node ∈ nodes (view s') ↔ p f = true ∧ f.node ∈ nodes (view s)) :=
          fun f hf => by
            constructor
            · intro h
              have h1 : f.node ∈ nodes (view s) :=
                (nodes_filter_sublist p _).subset (hv' ▸ h)
              rw [hv', node_mem_filter hn (hR f (List.mem_cons_of_mem _ hf) h1)] at h
              exact ⟨h, h1⟩
            · rintro ⟨h, h1⟩
              rwa [hv', node_mem_filter hn (hR f (List.mem_cons_of_mem _ hf) h1)]
        have hT' : R.filter (fun e => e.node ∈ nodes (view s')) = T.filter p := by
          rw [hT, List.filter_filter]
          refine List.filter_congr fun f hf => ?_
          rw [← Bool.decide_coe (p f), ← Bool.decide_and, decide_eq_decide]
          exact hstill f hf
        have hv2 : view s' = (A.filter p ++ [e]) ++ (T.filter p ++ B.filter p) := by
          rw [hv', hv]
          simp [List.filter_append, hpe]
        have hnext : next (view s') e.node = some (begin (T.filter p ++ B.filter p)) := by
          have : e.node ∉ nodes (A.filter p) := fun hA => by
            rw [hv2, List.append_assoc, nodes_append] at hn'
            exact (List.nodup_append.mp hn').2.2 _ hA _ (by simp) rfl
          rw [hv2, List.append_assoc, List.singleton_append]
          exact next_append this
        simp only [hnext]
        rw [← hT'] at hv2 ⊢
        refine ih _ (B.filter p) hi fuel s' hI' (by simp at hf; omega) hn' ?_ hv2 ?_
        · intro ha'
          rw [hhi ha] at ha' ⊢
          refine (begin_filter ?_ ?_).symm
          · rw [hv, nodes_append, nodes_append] at hn
            exact (List.nodup_append.mp (List.nodup_append.mp hn).2.1).2.1
          · cases B with
            | nil => trivial
            | cons b B =>
              have hb : b ∈ view s := by rw [hv]; simp
              have hpb : p b = true := by
                rw [begin_cons, hv'] at ha'
                exact (node_mem_filter hn hb).mp ha'
              exact node_mem_nodes (List.mem_filter.mpr ⟨List.mem_cons_self, hpb⟩)
        · intro f hf h
          have hfR := List.mem_cons_of_mem e hf
          obtain ⟨hpf, h1⟩ := (hstill f hf).mp h
          rw [hv']
          exact List.mem_filter.mpr ⟨hR f hfR h1, hpf⟩
    · by_cases ha : Alive (view s) hi
      · have hfil : (e :: R).filter (fun e => e.node ∈ nodes (view s)) =
            R.filter (fun e => e.node ∈ nodes (view s)) := by
          rw [List.filter_cons_of_neg (by simpa using hmem)]
        rw [hfil] at hv ⊢
        rw [sweep, if_pos ha, if_neg hmem]
        exact ih A B hi fuel s hI hf' hn hhi hv fun f hf => hR f (List.mem_cons_of_mem _ hf)
      · obtain ⟨fuel, rfl⟩ : ∃ k, fuel = k + 1 := ⟨fuel - 1, by omega⟩
        simp [walk, sweep, ha]

/-- The walk between the two bounds of a key is one pass over the nodes of that key. -/
theorem walk_range [LinearOrder κ] {I : σ → Prop} (hbody : ErasesOthers I view body) (k : κ)
    (s : σ) (hI : I s)
    (hs : Sorted (view s)) (hn : (nodes (view s)).Nodup) (fuel : ℕ)
    (hf : (view s).length < fuel) :
    walk view body erased outOfFuel (upperBound (view s) k) fuel (lowerBound (view s) k) s =
      sweep view body erased (upperBound (view s) k) (range (view s) k) s := by
  have hR : ∀ e ∈ range (view s) k, e ∈ view s := fun e he => (List.mem_filter.mp he).1
  have hfil : (range (view s) k).filter (fun e => e.node ∈ nodes (view s)) = range (view s) k :=
    List.filter_eq_self.mpr fun e he => by simpa using node_mem_nodes (hR e he)
  have hlen : (range (view s) k).length < fuel :=
    lt_of_le_of_lt (List.length_filter_le _ _) hf
  have h := walk_eq_sweep erased outOfFuel hbody (range (view s) k)
    ((view s).filter (fun e => e.key < k)) ((view s).filter (fun e => k < e.key))
    (upperBound (view s) k) fuel s hI hlen hn (fun _ => upperBound_eq _ k)
    (by rw [hfil]; exact hs.split k) (fun e he _ => hR e he)
  rw [hfil, ← hs.lowerBound_eq k] at h
  exact h

end Walk

end NodeList
end EgLang.Library
