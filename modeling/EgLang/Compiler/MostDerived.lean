import EgLang.Compiler.Coherence

/-!
# The choice of the most derived type

`getElementVector` collects the concrete elements of a list of interface elements. A concrete action that
is collected for several types keeps the most derived one, which `chooseMostDerived` looks for along the
base contexts of the action. It is asserted that the types differ, and that no two base contexts lead to
them.
-/

namespace EgLang.Compiler

open EgLang.Library Relation

set_option autoImplicit false

/-! ## Elements -/

/-- The assertions of `chooseMostDerived` and `getElementVector`. -/
inductive ElementFault
  /-- `ASSERT( pFirst != pSecond )` -/
  | equalTypes
  /-- `ASSERT( !pResult )` -/
  | severalBases
  /-- `ASSERT( pConcreteAction )` -/
  | noAction
  /-- `ASSERT( i->first )` -/
  | noType
deriving DecidableEq, Repr

/-- Base contexts come before the contexts that derive from them: there is no cycle. -/
structure BaseOrder {ι : Type} (I : Interface ι) where
  rank : ι → ℕ
  rank_base : ∀ {b c : ι}, b ∈ I.getBaseContexts c → rank b < rank c

/-- The context of a concrete action. -/
def ConcreteTree.getContext {ι : Type} (t : ConcreteTree ι) (pConcreteElement : List ℕ) : Option ι :=
  match (t.get? pConcreteElement).map RoseTree.label with
  | some (.action context _) => some context
  | _ => none

/-- The result of a loop over base contexts takes what a base context yields, once. -/
def takeChoice {ι : Type} (pResult : Option ι) : Option ι → Except ElementFault (Option ι)
  | none => .ok pResult
  | some p => if pResult.isSome then .error .severalBases else .ok (some p)

namespace Interface
variable {ι : Type} [DecidableEq ι] (I : Interface ι)

/-- `chooseMostDerived`. -/
def chooseMostDerived (order : BaseOrder I) (pConcreteAction : ι) (pFirst pSecond : Option ι) :
    Except ElementFault (Option ι) :=
  if pFirst = pSecond then .error .equalTypes
  else if some pConcreteAction = pFirst then .ok pFirst
  else if some pConcreteAction = pSecond then .ok pSecond
  else
    (I.getBaseContexts pConcreteAction).attach.foldlM (fun pResult pBase => do
      let p ← chooseMostDerived order pBase.1 pFirst pSecond
      takeChoice pResult p) none
termination_by order.rank pConcreteAction
decreasing_by exact order.rank_base pBase.2

/-- `dynamic_cast< const interface::Context* >`. -/
def asContext (pElement : ι) : Option ι := if (I.getType pElement).isContext then some pElement else none

variable (order : BaseOrder I) (t : ConcreteTree ι)

/-- The type that is kept of a concrete element that has occurred before. -/
def keepMostDerived (pConcreteElement : List ℕ) (first pInterfaceElement : ι) :
    Except ElementFault ι :=
  match t.getContext pConcreteElement with
  | none => .error .noAction
  | some context => do
    let p ← I.chooseMostDerived order context (I.asContext first) (I.asContext pInterfaceElement)
    match p with
    | none => .error .noType
    | some p => .ok p

/-- One instance of an interface element is entered, unless it is there already. -/
def enterInstance (pInterfaceElement : ι) (result : List (ι × List ℕ)) (pConcreteElement : List ℕ) :
    Except ElementFault (List (ι × List ℕ)) :=
  if result.any fun i => i.2 = pConcreteElement then
    result.mapM fun i =>
      if i.2 = pConcreteElement then
        (I.keepMostDerived order t pConcreteElement i.1 pInterfaceElement).map fun p => (p, i.2)
      else .ok i
  else .ok (result ++ [(pInterfaceElement, pConcreteElement)])

/-- `InvocationSolution::getElementVector`. -/
def getElementVector (interfaceElements : List ι) (bIncludeInherited : Bool) :
    Except ElementFault (List (ι × List ℕ)) :=
  interfaceElements.foldlM (fun result pInterfaceElement =>
    (I.getInstances t pInterfaceElement bIncludeInherited).foldlM
      (I.enterInstance order t pInterfaceElement) result) []

end Interface

/-! ## Loops that take one choice -/

section Choices
variable {ι β : Type} {f : β → Except ElementFault (Option ι)} {l : List β}

/-- The loop of `chooseMostDerived`. -/
def takeChoices (f : β → Except ElementFault (Option ι)) (l : List β) (init : Option ι) :
    Except ElementFault (Option ι) :=
  l.foldlM (fun pResult b => do
    let p ← f b
    takeChoice pResult p) init

theorem takeChoices_cons {b : β} {init r : Option ι} :
    takeChoices f (b :: l) init = .ok r ↔
      ∃ p next, f b = .ok p ∧ takeChoice init p = .ok next ∧ takeChoices f l next = .ok r := by
  rw [takeChoices, List.foldlM_cons, except_bind_ok]
  constructor
  · intro h
    obtain ⟨next, hnext, hrest⟩ := h
    obtain ⟨p, hp, htake⟩ := except_bind_ok.mp hnext
    exact ⟨p, next, hp, htake, hrest⟩
  · intro h
    obtain ⟨p, next, hp, htake, hrest⟩ := h
    exact ⟨next, except_bind_ok.mpr ⟨p, hp, htake⟩, hrest⟩

theorem takeChoice_eq_ok {init p next : Option ι} :
    takeChoice init p = .ok next ↔ (p = none ∧ next = init) ∨ (init = none ∧ p.isSome ∧ next = p) := by
  cases p with
  | none => simp [takeChoice, eq_comm]
  | some p =>
    cases init with
    | none => simp [takeChoice, eq_comm]
    | some q => simp [takeChoice]

theorem takeChoices_of_none (h : ∀ b ∈ l, f b = .ok none) (init : Option ι) :
    takeChoices f l init = .ok init := by
  induction l with
  | nil => rfl
  | cons b l ih =>
    rw [List.forall_mem_cons] at h
    exact takeChoices_cons.mpr ⟨none, init, h.1, rfl, ih h.2⟩

/-- Just one element of a list yields a choice. -/
theorem takeChoices_of_one (hnodup : l.Nodup) {b : β} (hb : b ∈ l) {p : ι} (hp : f b = .ok (some p))
    (hother : ∀ b' ∈ l, b' ≠ b → f b' = .ok none) : takeChoices f l none = .ok (some p) := by
  induction l with
  | nil => cases hb
  | cons a l ih =>
    rw [List.nodup_cons] at hnodup
    rw [List.forall_mem_cons] at hother
    by_cases hab : a = b
    · have hrest : ∀ b' ∈ l, f b' = .ok none := fun b' hb' =>
        hother.2 b' hb' fun heq => hnodup.1 (by rw [hab, ← heq]; exact hb')
      rw [← hab] at hp
      exact takeChoices_cons.mpr ⟨some p, some p, hp, rfl, takeChoices_of_none hrest (some p)⟩
    · have hmem : b ∈ l := (List.mem_cons.mp hb).resolve_left fun heq => hab heq.symm
      exact takeChoices_cons.mpr ⟨none, none, hother.1 hab, rfl, ih hnodup.2 hmem hother.2⟩

theorem isSome_of_takeChoices {init r : Option ι} (h : takeChoices f l init = .ok r) :
    (∀ b ∈ l, ∃ o, f b = .ok o) ∧
      (r.isSome ↔ init.isSome ∨ ∃ b ∈ l, ∃ p, f b = .ok (some p)) ∧
      (init.isSome → ∀ b ∈ l, f b = .ok none) := by
  induction l generalizing init with
  | nil =>
    obtain rfl : init = r := Except.ok.inj h
    simp
  | cons b l ih =>
    obtain ⟨p, next, hp, htake, hrest⟩ := takeChoices_cons.mp h
    obtain ⟨hall, hsome, hnone⟩ := ih hrest
    cases takeChoice_eq_ok.mp htake with
    | inl hkeep =>
      obtain ⟨rfl, rfl⟩ := hkeep
      refine ⟨List.forall_mem_cons.mpr ⟨⟨none, hp⟩, hall⟩, ?_, ?_⟩
      · rw [hsome]
        simp [hp]
      · intro hinit
        exact List.forall_mem_cons.mpr ⟨hp, hnone hinit⟩
    | inr hnew =>
      obtain ⟨rfl, hisSome, rfl⟩ := hnew
      obtain ⟨q, rfl⟩ := Option.isSome_iff_exists.mp hisSome
      refine ⟨List.forall_mem_cons.mpr ⟨⟨some q, hp⟩, hall⟩, ?_, ?_⟩
      · rw [hsome]
        simp [hp]
      · intro hinit
        cases hinit

/-- No two elements of a list yield a choice. -/
theorem eq_of_takeChoices {init r : Option ι} (h : takeChoices f l init = .ok r) {a b : β}
    (ha : a ∈ l) (hb : b ∈ l) {p q : ι} (hp : f a = .ok (some p)) (hq : f b = .ok (some q)) :
    a = b := by
  induction l generalizing init with
  | nil => cases ha
  | cons c l ih =>
    obtain ⟨o, next, ho, htake, hrest⟩ := takeChoices_cons.mp h
    obtain ⟨-, -, hnone⟩ := isSome_of_takeChoices hrest
    have hfirst : ∀ {d e : β} {x y : ι}, d = c → e ∈ l → f d = .ok (some x) →
        f e = .ok (some y) → False := by
      intro d e x y hd he hx hy
      rw [hd, ho] at hx
      rw [Except.ok.inj hx] at htake
      have hnext : next.isSome := by
        cases takeChoice_eq_ok.mp htake with
        | inl hkeep => cases hkeep.1
        | inr hnew =>
          rw [hnew.2.2]
          rfl
      rw [hnone hnext e he] at hy
      cases hy
    cases List.mem_cons.mp ha with
    | inl hac =>
      cases List.mem_cons.mp hb with
      | inl hbc => exact hac.trans hbc.symm
      | inr hbl => exact (hfirst hac hbl hp hq).elim
    | inr hal =>
      cases List.mem_cons.mp hb with
      | inl hbc => exact (hfirst hbc hal hq hp).elim
      | inr hbl => exact ih hrest hal hbl

end Choices

/-! ## The choice along the bases -/

section Choice
variable {ι : Type} [DecidableEq ι] {I : Interface ι} {order : BaseOrder I} {s t c : ι}

theorem chooseMostDerived_eq (hst : s ≠ t) :
    I.chooseMostDerived order c (some s) (some t) =
      if c = s then .ok (some s)
      else if c = t then .ok (some t)
      else takeChoices (fun pBase => I.chooseMostDerived order pBase (some s) (some t))
        (I.getBaseContexts c) none := by
  rw [Interface.chooseMostDerived, if_neg (fun h => hst (Option.some.inj h))]
  simp only [Option.some.injEq]
  have hloop : (I.getBaseContexts c).attach.foldlM (fun pResult pBase => do
      let p ← I.chooseMostDerived order pBase.1 (some s) (some t)
      takeChoice pResult p) none =
      takeChoices (fun pBase => I.chooseMostDerived order pBase (some s) (some t))
        (I.getBaseContexts c) none := by
    rw [takeChoices]
    conv_rhs => rw [← List.attach_map_subtype_val (I.getBaseContexts c), List.foldlM_map]
  rw [hloop]

/-- The order of the two types does not matter. -/
theorem chooseMostDerived_comm (hst : s ≠ t) :
    I.chooseMostDerived order c (some s) (some t) = I.chooseMostDerived order c (some t) (some s) := by
  induction hn : order.rank c using Nat.strong_induction_on generalizing c with
  | _ n ih =>
    rw [chooseMostDerived_eq hst, chooseMostDerived_eq hst.symm]
    by_cases hs : c = s
    · rw [if_pos hs, if_neg (fun h => hst (hs.symm.trans h)), if_pos hs]
    · rw [if_neg hs, if_neg hs]
      have hloop : ∀ (l : List ι), (∀ b ∈ l, b ∈ I.getBaseContexts c) → ∀ init,
          takeChoices (fun b => I.chooseMostDerived order b (some s) (some t)) l init =
            takeChoices (fun b => I.chooseMostDerived order b (some t) (some s)) l init := by
        intro l hl
        induction l with
        | nil => exact fun init => rfl
        | cons b l ihl =>
          intro init
          rw [List.forall_mem_cons] at hl
          have hb : I.chooseMostDerived order b (some s) (some t) =
              I.chooseMostDerived order b (some t) (some s) := by
            refine ih (order.rank b) ?_ rfl
            rw [← hn]
            exact order.rank_base hl.1
          rw [takeChoices, takeChoices, List.foldlM_cons, List.foldlM_cons, hb]
          exact congrArg _ (funext fun next => ihl hl.2 next)
      rw [hloop _ fun b hb => hb]

section Tree
variable {u : RoseTree ι}

omit [DecidableEq ι] in
/-- The tree of a base context is a child. -/
theorem exists_child {c : ι} {ts : List (RoseTree ι)}
    (hu : Unfolds I.getBaseContexts (.node c ts)) {b : ι} (hb : b ∈ I.getBaseContexts c) :
    ∃ v ∈ ts, v.label = b ∧ Unfolds I.getBaseContexts v := by
  rw [unfolds_node] at hu
  rw [← hu.1] at hb
  obtain ⟨v, hv, hlabel⟩ := List.mem_map.mp hb
  exact ⟨v, hv, hlabel, hu.2 v hv⟩

omit [DecidableEq ι] in
theorem label_mem_bases {c : ι} {ts : List (RoseTree ι)}
    (hu : Unfolds I.getBaseContexts (.node c ts)) {v : RoseTree ι} (hv : v ∈ ts) :
    v.label ∈ I.getBaseContexts c ∧ Unfolds I.getBaseContexts v := by
  rw [unfolds_node] at hu
  refine ⟨?_, hu.2 v hv⟩
  rw [← hu.1]
  exact List.mem_map_of_mem hv

/-- Where neither type is inherited there is no choice. -/
theorem choose_none (hst : s ≠ t) (hu : Unfolds I.getBaseContexts u) (hs : s ∉ u.labels)
    (ht : t ∉ u.labels) : I.chooseMostDerived order u.label (some s) (some t) = .ok none := by
  induction u using RoseTree.tree_induction with
  | step c ts ih =>
    rw [RoseTree.mem_labels_node, not_or] at hs ht
    rw [RoseTree.label_node, chooseMostDerived_eq hst, if_neg (Ne.symm hs.1), if_neg (Ne.symm ht.1)]
    refine takeChoices_of_none (fun b hb => ?_) none
    obtain ⟨v, hv, rfl, hvu⟩ := exists_child hu hb
    exact ih v hv hvu (fun h => hs.2 ⟨v, hv, h⟩) fun h => ht.2 ⟨v, hv, h⟩

/-- A choice that does not fail is made where one of the types is inherited. -/
theorem isSome_of_choose (hst : s ≠ t) (hu : Unfolds I.getBaseContexts u) {r : Option ι}
    (h : I.chooseMostDerived order u.label (some s) (some t) = .ok r) :
    r.isSome ↔ s ∈ u.labels ∨ t ∈ u.labels := by
  induction u using RoseTree.tree_induction generalizing r with
  | step c ts ih =>
    rw [RoseTree.label_node, chooseMostDerived_eq hst] at h
    rw [RoseTree.mem_labels_node, RoseTree.mem_labels_node]
    by_cases hs : c = s
    · rw [if_pos hs] at h
      rw [← Except.ok.inj h]
      simp [hs]
    · rw [if_neg hs] at h
      by_cases ht : c = t
      · rw [if_pos ht] at h
        rw [← Except.ok.inj h]
        simp [ht]
      · rw [if_neg ht] at h
        obtain ⟨hall, hsome, -⟩ := isSome_of_takeChoices h
        rw [hsome]
        constructor
        · intro h
          cases h with
          | inl hnone => cases hnone
          | inr hbase =>
            obtain ⟨b, hb, p, hp⟩ := hbase
            obtain ⟨v, hv, rfl, hvu⟩ := exists_child hu hb
            cases (ih v hv hvu hp).mp rfl with
            | inl hmem => exact Or.inl (Or.inr ⟨v, hv, hmem⟩)
            | inr hmem => exact Or.inr (Or.inr ⟨v, hv, hmem⟩)
        · intro h
          have hchild : ∃ v ∈ ts, s ∈ v.labels ∨ t ∈ v.labels := by
            cases h with
            | inl h =>
              obtain ⟨v, hv, hmem⟩ := h.resolve_left (Ne.symm hs)
              exact ⟨v, hv, Or.inl hmem⟩
            | inr h =>
              obtain ⟨v, hv, hmem⟩ := h.resolve_left (Ne.symm ht)
              exact ⟨v, hv, Or.inr hmem⟩
          obtain ⟨v, hv, hmem⟩ := hchild
          obtain ⟨hb, hvu⟩ := label_mem_bases hu hv
          obtain ⟨o, ho⟩ := hall v.label hb
          obtain ⟨p, rfl⟩ := Option.isSome_iff_exists.mp ((ih v hv hvu ho).mpr hmem)
          exact Or.inr ⟨v.label, hb, p, ho⟩

/-- A choice between two inherited types does not fail just because one derives from the other. -/
theorem derives_of_choose (hst : s ≠ t) (hu : Unfolds I.getBaseContexts u) {r : Option ι}
    (h : I.chooseMostDerived order u.label (some s) (some t) = .ok r) (hs : s ∈ u.labels)
    (ht : t ∈ u.labels) :
    ReflTransGen (fun c b => b ∈ I.getBaseContexts c) s t ∨
      ReflTransGen (fun c b => b ∈ I.getBaseContexts c) t s := by
  induction u using RoseTree.tree_induction generalizing r with
  | step c ts ih =>
    rw [RoseTree.label_node, chooseMostDerived_eq hst] at h
    by_cases hcs : c = s
    · have hreach := hu.mem_labels.mp ht
      rw [RoseTree.label_node, hcs] at hreach
      exact Or.inl hreach
    · by_cases hct : c = t
      · have hreach := hu.mem_labels.mp hs
        rw [RoseTree.label_node, hct] at hreach
        exact Or.inr hreach
      · rw [if_neg hcs, if_neg hct] at h
        obtain ⟨v, hv, hsv⟩ := (RoseTree.mem_labels_node.mp hs).resolve_left (Ne.symm hcs)
        obtain ⟨w, hw, htw⟩ := (RoseTree.mem_labels_node.mp ht).resolve_left (Ne.symm hct)
        obtain ⟨hvb, hvu⟩ := label_mem_bases hu hv
        obtain ⟨hwb, hwu⟩ := label_mem_bases hu hw
        obtain ⟨hall, -, -⟩ := isSome_of_takeChoices h
        obtain ⟨o, ho⟩ := hall v.label hvb
        obtain ⟨o', ho'⟩ := hall w.label hwb
        obtain ⟨p, rfl⟩ := Option.isSome_iff_exists.mp ((isSome_of_choose hst hvu ho).mpr (Or.inl hsv))
        obtain ⟨q, rfl⟩ := Option.isSome_iff_exists.mp ((isSome_of_choose hst hwu ho').mpr (Or.inr htw))
        have heq : v.label = w.label := eq_of_takeChoices h hvb hwb ho ho'
        rw [← hvu.unique hwu heq] at htw
        exact ih v hv hvu ho hsv htw

/-- A label that a tree has once below its root lies in one child. -/
theorem count_child {c x : ι} {ts : List (RoseTree ι)} (hcount : (RoseTree.node c ts).labels.count x = 1)
    (hc : c ≠ x) {v : RoseTree ι} (hv : v ∈ ts) (hx : x ∈ v.labels) :
    v.labels.count x = 1 ∧ ∀ w ∈ ts, w ≠ v → x ∉ w.labels := by
  obtain ⟨before, behind, rfl⟩ := List.append_of_mem hv
  have hpos : 0 < v.labels.count x := List.count_pos_iff.mpr hx
  rw [RoseTree.labels_node, List.count_cons_of_ne hc] at hcount
  simp only [List.map_append, List.map_cons, List.flatten_append, List.flatten_cons,
    List.count_append] at hcount
  refine ⟨by omega, fun w hw hne hmem => ?_⟩
  have hside : w ∈ before ∨ w ∈ behind := by
    rw [List.mem_append, List.mem_cons] at hw
    tauto
  have hflat : ∀ l : List (RoseTree ι), w ∈ l → 0 < (l.map RoseTree.labels).flatten.count x := by
    intro l hl
    exact List.count_pos_iff.mpr (List.mem_flatten.mpr ⟨w.labels, List.mem_map_of_mem hl, hmem⟩)
  cases hside with
  | inl hl =>
    have := hflat before hl
    omega
  | inr hl =>
    have := hflat behind hl
    omega

/-- Of two types that are inherited along one way each, the deriving one is chosen. -/
theorem choose_deriving (hst : s ≠ t) (hu : Unfolds I.getBaseContexts u)
    (hs : u.labels.count s = 1) (ht : u.labels.count t = 1)
    (hderives : ReflTransGen (fun c b => b ∈ I.getBaseContexts c) s t) :
    I.chooseMostDerived order u.label (some s) (some t) = .ok (some s) := by
  induction u using RoseTree.tree_induction with
  | step c ts ih =>
    rw [RoseTree.label_node, chooseMostDerived_eq hst]
    by_cases hcs : c = s
    · rw [if_pos hcs]
    · have hsmem : s ∈ (RoseTree.node c ts).labels := List.count_pos_iff.mp (by omega)
      obtain ⟨v, hv, hsv⟩ := (RoseTree.mem_labels_node.mp hsmem).resolve_left (Ne.symm hcs)
      obtain ⟨hvb, hvu⟩ := label_mem_bases hu hv
      have htv : t ∈ v.labels := by
        have hreach := hvu.mem_labels.mp hsv
        exact hvu.mem_labels.mpr (hreach.trans hderives)
      have hct : c ≠ t := by
        intro heq
        rw [heq, RoseTree.labels_node, List.count_cons_self] at ht
        have hpos : 0 < (ts.map RoseTree.labels).flatten.count t :=
          List.count_pos_iff.mpr (List.mem_flatten.mpr ⟨v.labels, List.mem_map_of_mem hv, htv⟩)
        omega
      rw [if_neg hcs, if_neg hct]
      obtain ⟨hsv', hsother⟩ := count_child hs hcs hv hsv
      obtain ⟨htv', htother⟩ := count_child ht hct hv htv
      refine takeChoices_of_one (I.bases_nodup c) hvb (ih v hv hvu hsv' htv') ?_
      intro b hb hne
      obtain ⟨w, hw, rfl, hwu⟩ := exists_child hu hb
      have hwv : w ≠ v := fun heq => hne (congrArg RoseTree.label heq)
      exact choose_none hst hwu (hsother w hw hwv) (htother w hw hwv)

end Tree

end Choice

/-! ## One concrete element -/

section Settle
variable {ι : Type} [DecidableEq ι] (I : Interface ι) (order : BaseOrder I) (t : ConcreteTree ι)

/-- The type that is kept of a concrete element, if it has been collected. -/
def typeOf {ι : Type} (result : List (ι × List ℕ)) (k : List ℕ) : Option ι :=
  (result.find? fun i => i.2 = k).map Prod.fst

/-- What entering an instance does to the type that is kept of it. -/
def settle (k : List ℕ) (kept : Option ι) (e : ι) : Except ElementFault (Option ι) :=
  match kept with
  | none => .ok (some e)
  | some first => (I.keepMostDerived order t k first e).map some

/-- The types that a concrete element is collected for, in the order of the loops: each one as often as
it has the concrete element for an instance. -/
def arrivals (elements : List ι) (bIncludeInherited : Bool) (k : List ℕ) : List ι :=
  elements.flatMap fun e => List.replicate ((I.getInstances t e bIncludeInherited).count k) e

variable {I order t} {result result' : List (ι × List ℕ)} {e : ι} {k k' : List ℕ}

omit [DecidableEq ι] in
/-- A collected pair has the type that is kept of its element. -/
theorem mem_iff_typeOf (hnodup : (result.map Prod.snd).Nodup) : (e, k) ∈ result ↔ typeOf result k = some e := by
  constructor
  · intro hmem
    have hsome : (result.find? fun i => i.2 = k).isSome :=
      List.find?_isSome.mpr ⟨(e, k), hmem, decide_eq_true rfl⟩
    obtain ⟨i, hi⟩ := Option.isSome_iff_exists.mp hsome
    have hik : i.2 = k := by simpa using List.find?_some hi
    have heq : i = (e, k) :=
      List.inj_on_of_nodup_map hnodup (List.mem_of_find?_eq_some hi) hmem hik
    rw [typeOf, hi, heq]
    rfl
  · intro h
    obtain ⟨i, hi, heq⟩ := Option.map_eq_some_iff.mp h
    have hik : i.2 = k := by simpa using List.find?_some hi
    rw [← heq, ← hik]
    exact List.mem_of_find?_eq_some hi

omit [DecidableEq ι] in
theorem mem_snd_iff : k ∈ result.map Prod.snd ↔ (typeOf result k).isSome := by
  rw [typeOf, Option.isSome_map, List.find?_isSome]
  simp

omit [DecidableEq ι] in
theorem typeOf_append {l : List (ι × List ℕ)} :
    typeOf (result ++ l) k = (typeOf result k).or (typeOf l k) := by
  rw [typeOf, List.find?_append, typeOf, typeOf]
  cases result.find? fun i => i.2 = k with
  | none => rfl
  | some i => rfl

omit [DecidableEq ι] in
theorem typeOf_cons {i : ι × List ℕ} :
    typeOf (i :: result) k = if i.2 = k then some i.1 else typeOf result k := by
  rw [typeOf, List.find?_cons]
  by_cases h : i.2 = k
  · simp [h]
  · simp [h, typeOf]

/-- Entering an instance settles its type and leaves the other ones. -/
theorem enterInstance_spec (hnodup : (result.map Prod.snd).Nodup) :
    (∀ result', I.enterInstance order t e result k = .ok result' →
      (result'.map Prod.snd).Nodup ∧ settle I order t k (typeOf result k) e = .ok (typeOf result' k) ∧
        ∀ k', k' ≠ k → typeOf result' k' = typeOf result k') ∧
    (∀ o, settle I order t k (typeOf result k) e = .ok o →
      ∃ result', I.enterInstance order t e result k = .ok result') := by
  by_cases hmem : k ∈ result.map Prod.snd
  · -- the element is there: its type is chosen anew
    obtain ⟨first, hfirst⟩ := Option.isSome_iff_exists.mp (mem_snd_iff.mp hmem)
    obtain ⟨before, behind, rfl⟩ := List.append_of_mem ((mem_iff_typeOf hnodup).mpr hfirst)
    have hany : ((before ++ (first, k) :: behind).any fun i => i.2 = k) = true := by simp
    have hkeep : ∀ l : List (ι × List ℕ), (∀ i ∈ l, i.2 ≠ k) →
        l.mapM (fun i => if i.2 = k then
          (I.keepMostDerived order t k i.1 e).map fun p => (p, i.2) else .ok i) = .ok l := by
      intro l hl
      induction l with
      | nil => rfl
      | cons i l ih =>
        rw [List.forall_mem_cons] at hl
        rw [List.mapM_cons, if_neg hl.1, ih hl.2]
        rfl
    rw [List.map_append, List.map_cons, List.nodup_append, List.nodup_cons] at hnodup
    have hbefore : ∀ i ∈ before, i.2 ≠ k := fun i hi =>
      hnodup.2.2 i.2 (List.mem_map_of_mem hi) k List.mem_cons_self
    have hbehind : ∀ i ∈ behind, i.2 ≠ k := by
      intro i hi heq
      have hk : i.2 ∈ behind.map Prod.snd := List.mem_map_of_mem hi
      rw [heq] at hk
      exact hnodup.2.1.1 hk
    have henter : I.enterInstance order t e (before ++ (first, k) :: behind) k =
        (I.keepMostDerived order t k first e).map fun p => before ++ (p, k) :: behind := by
      rw [Interface.enterInstance, if_pos hany, List.mapM_append, hkeep before hbefore,
        List.mapM_cons, if_pos rfl, hkeep behind hbehind]
      cases I.keepMostDerived order t k first e with
      | error fault => rfl
      | ok p => rfl
    rw [henter, hfirst, settle]
    have htype : ∀ (p : ι) (k' : List ℕ), typeOf (before ++ (p, k) :: behind) k' =
        if k = k' then (typeOf before k').or (some p)
        else (typeOf before k').or (typeOf behind k') := by
      intro p k'
      rw [typeOf_append, typeOf_cons]
      split <;> rfl
    have hnone : typeOf before k = none := by
      rw [← Option.not_isSome_iff_eq_none, ← mem_snd_iff]
      intro hk
      obtain ⟨i, hi, heq⟩ := List.mem_map.mp hk
      exact hbefore i hi heq
    cases I.keepMostDerived order t k first e with
    | error fault =>
      constructor
      · intro result' h
        cases h
      · intro o h
        cases h
    | ok p =>
      refine ⟨fun result' h => ?_, fun _ _ => ⟨_, rfl⟩⟩
      obtain rfl := Except.ok.inj h
      refine ⟨?_, ?_, fun k' hk' => ?_⟩
      · rw [List.map_append, List.map_cons, List.nodup_append, List.nodup_cons]
        exact hnodup
      · rw [htype, if_pos rfl, hnone]
        rfl
      · rw [htype, htype, if_neg (Ne.symm hk'), if_neg (Ne.symm hk')]
  · -- the element is new
    have hnone : typeOf result k = none := by
      rw [← Option.not_isSome_iff_eq_none, ← mem_snd_iff]
      exact hmem
    have hany : (result.any fun i => i.2 = k) = false := by
      rw [List.any_eq_false]
      intro i hi heq
      exact hmem (by rw [← of_decide_eq_true heq]; exact List.mem_map_of_mem hi)
    have henter : I.enterInstance order t e result k = .ok (result ++ [(e, k)]) := by
      rw [Interface.enterInstance, if_neg (by rw [hany]; exact Bool.false_ne_true)]
    rw [henter, hnone, settle]
    refine ⟨fun result' h => ?_, fun _ _ => ⟨_, rfl⟩⟩
    obtain rfl := Except.ok.inj h
    refine ⟨?_, ?_, fun k' hk' => ?_⟩
    · rw [List.map_append]
      exact List.nodup_append_comm.mp (List.nodup_cons.mpr ⟨hmem, hnodup⟩)
    · rw [typeOf_append, hnone, typeOf_cons, if_pos rfl]
      rfl
    · rw [typeOf_append, typeOf_cons, if_neg (Ne.symm hk')]
      cases typeOf result k' with
      | none => rfl
      | some _ => rfl

/-- The instances that are entered one after another, with the elements they are entered for. -/
def entered (I : Interface ι) (t : ConcreteTree ι) (elements : List ι) (bIncludeInherited : Bool) :
    List (ι × List ℕ) :=
  elements.flatMap fun e => (I.getInstances t e bIncludeInherited).map fun k => (e, k)

theorem getElementVector_eq (elements : List ι) (b : Bool) :
    I.getElementVector order t elements b =
      (entered I t elements b).foldlM (fun result i => I.enterInstance order t i.1 result i.2) [] := by
  have hloop : ∀ (elements : List ι) (result : List (ι × List ℕ)),
      elements.foldlM (fun result e =>
        (I.getInstances t e b).foldlM (I.enterInstance order t e) result) result =
      (entered I t elements b).foldlM (fun result i => I.enterInstance order t i.1 result i.2)
        result := by
    intro elements
    induction elements with
    | nil => exact fun result => rfl
    | cons e elements ih =>
      intro result
      rw [entered, List.flatMap_cons, List.foldlM_append, List.foldlM_cons, List.foldlM_map]
      exact congrArg _ (funext fun next => ih next)
  exact hloop elements []

theorem arrivals_eq (elements : List ι) (b : Bool) :
    ((entered I t elements b).filter fun i => i.2 = k).map Prod.fst = arrivals I t elements b k := by
  induction elements with
  | nil => rfl
  | cons e elements ih =>
    have hhead : ∀ ks : List (List ℕ), ((ks.map fun k => (e, k)).filter fun i => i.2 = k).map Prod.fst =
        List.replicate (ks.count k) e := by
      intro ks
      induction ks with
      | nil => rfl
      | cons k' ks ihk =>
        rw [List.map_cons, List.filter_cons, List.count_cons]
        by_cases hk : k' = k
        · simp [hk, ihk, List.replicate_succ]
        · simp [hk, ihk]
    rw [entered, arrivals, List.flatMap_cons, List.flatMap_cons, List.filter_append, List.map_append,
      hhead]
    exact congrArg _ ih

/-- Entering instances settles the type of every element by itself. -/
theorem entered_spec (is : List (ι × List ℕ)) (hnodup : (result.map Prod.snd).Nodup) :
    (∀ result', is.foldlM (fun result i => I.enterInstance order t i.1 result i.2) result = .ok result' →
      (result'.map Prod.snd).Nodup ∧ ∀ k, ((is.filter fun i => i.2 = k).map Prod.fst).foldlM
        (settle I order t k) (typeOf result k) = .ok (typeOf result' k)) ∧
    ((∀ k, ∃ o, ((is.filter fun i => i.2 = k).map Prod.fst).foldlM
        (settle I order t k) (typeOf result k) = .ok o) →
      ∃ result', is.foldlM (fun result i => I.enterInstance order t i.1 result i.2) result =
        .ok result') := by
  induction is generalizing result with
  | nil =>
    refine ⟨fun result' h => ?_, fun _ => ⟨result, rfl⟩⟩
    obtain rfl := Except.ok.inj h
    exact ⟨hnodup, fun k => rfl⟩
  | cons i is ih =>
    obtain ⟨hok, hsettle⟩ := @enterInstance_spec ι _ I order t result i.1 i.2 hnodup
    have hfilter : ∀ k kept, (((i :: is).filter fun i => i.2 = k).map Prod.fst).foldlM
        (settle I order t k) kept =
        if i.2 = k then settle I order t k kept i.1 >>= fun next =>
          ((is.filter fun i => i.2 = k).map Prod.fst).foldlM (settle I order t k) next
        else ((is.filter fun i => i.2 = k).map Prod.fst).foldlM (settle I order t k) kept := by
      intro k kept
      by_cases hk : i.2 = k
      · rw [List.filter_cons_of_pos (by simpa using hk), List.map_cons, List.foldlM_cons, if_pos hk]
      · rw [List.filter_cons_of_neg (by simpa using hk), if_neg hk]
    constructor
    · intro result' h
      rw [List.foldlM_cons, except_bind_ok] at h
      obtain ⟨next, hnext, hrest⟩ := h
      obtain ⟨hnext', hsettled, hother⟩ := hok next hnext
      obtain ⟨hresult', hall⟩ := (ih hnext').1 result' hrest
      refine ⟨hresult', fun k => ?_⟩
      rw [hfilter]
      by_cases hk : i.2 = k
      · rw [if_pos hk, ← hk, hsettled]
        exact hall i.2
      · rw [if_neg hk, ← hother k (Ne.symm hk)]
        exact hall k
    · intro h
      obtain ⟨o, ho⟩ := h i.2
      rw [hfilter, if_pos rfl, except_bind_ok] at ho
      obtain ⟨kept, hkept, hrest⟩ := ho
      obtain ⟨next, hnext⟩ := hsettle kept hkept
      obtain ⟨hnext', hsettled, hother⟩ := hok next hnext
      have hall : ∀ k, ∃ o, ((is.filter fun i => i.2 = k).map Prod.fst).foldlM
          (settle I order t k) (typeOf next k) = .ok o := by
        intro k
        by_cases hk : i.2 = k
        · rw [hsettled] at hkept
          rw [← hk, Except.ok.inj hkept]
          exact ⟨o, hrest⟩
        · rw [hother k (Ne.symm hk)]
          have hk' := h k
          rw [hfilter, if_neg hk] at hk'
          exact hk'
      obtain ⟨result', hresult'⟩ := (ih hnext').2 hall
      refine ⟨result', ?_⟩
      rw [List.foldlM_cons, hnext]
      exact hresult'

end Settle

/-! ## Instances -/

/-- The contexts of the inheritance tree of a concrete element. -/
def contextsAt {ι : Type} (s : ConcreteTree ι) : List ι :=
  match s.label with
  | .action _ inheritance => (inheritance.map InheritanceNode.context).labels
  | .dimension _ => []

section Instances
variable {ι : Type} {t : ConcreteTree ι} {k : List ℕ} {s : ConcreteTree ι}

theorem inheritanceMap_eq :
    t.inheritanceMap = t.located.flatMap fun e => (contextsAt e.2).map fun c => (c, e.1) := by
  rw [ConcreteTree.inheritanceMap, ConcreteTree.inheritanceNodes, List.map_flatMap]
  refine List.flatMap_congr fun e _ => ?_
  unfold contextsAt
  cases e.2.label with
  | dimension d => rfl
  | action c inheritance =>
    simp only [List.map_map]
    rw [← RoseTree.map_label_ways (inheritance.map InheritanceNode.context) [], List.map_map]
    rfl

theorem getContext_eq (hs : (k, s) ∈ t.located) {c : ι} {inheritance : RoseTree (InheritanceNode ι)}
    (hlabel : s.label = .action c inheritance) : t.getContext k = some c := by
  rw [ConcreteTree.getContext, RoseTree.mem_located_iff.mp hs, Option.map_some, hlabel]

variable [DecidableEq ι] {I : Interface ι} {e : ι} {b : Bool}

/-- An element has a place for an instance as often as the place has it. -/
theorem count_flatMap_located (f : ConcreteTree ι → List ι) (hs : (k, s) ∈ t.located) :
    (((t.located.flatMap fun p => (f p.2).map fun c => (c, p.1)).filter
      fun p => p.1 = e).map Prod.snd).count k = (f s).count e := by
  obtain ⟨before, behind, hsplit⟩ := List.append_of_mem hs
  have hnodup := t.nodup_located
  rw [hsplit, List.map_append, List.map_cons, List.nodup_append, List.nodup_cons] at hnodup
  have hother : ∀ l : List (List ℕ × ConcreteTree ι), (∀ p ∈ l, p.1 ≠ k) →
      (((l.flatMap fun p => (f p.2).map fun c => (c, p.1)).filter
        fun p => p.1 = e).map Prod.snd).count k = 0 := by
    intro l hl
    refine List.count_eq_zero.mpr fun hk => ?_
    obtain ⟨p, hp, rfl⟩ := List.mem_map.mp hk
    obtain ⟨q, hq, hmem⟩ := List.mem_flatMap.mp (List.mem_filter.mp hp).1
    obtain ⟨c, -, rfl⟩ := List.mem_map.mp hmem
    exact hl q hq rfl
  have hself : ∀ l : List ι, (((l.map fun c => (c, k)).filter fun p => p.1 = e).map Prod.snd).count k =
      l.count e := by
    intro l
    induction l with
    | nil => rfl
    | cons c l ih =>
      rw [List.map_cons, List.filter_cons, List.count_cons]
      by_cases hc : c = e
      · simp [hc, ih]
      · simp [hc, ih]
  have hbefore : ∀ p ∈ before, p.1 ≠ k := fun p hp =>
    hnodup.2.2 p.1 (List.mem_map_of_mem hp) k List.mem_cons_self
  have hbehind : ∀ p ∈ behind, p.1 ≠ k := by
    intro p hp heq
    have hk : p.1 ∈ behind.map Prod.fst := List.mem_map_of_mem hp
    rw [heq] at hk
    exact hnodup.2.1.1 hk
  rw [hsplit, List.flatMap_append, List.flatMap_cons, List.filter_append, List.filter_append,
    List.map_append, List.map_append, List.count_append, List.count_append, hself,
    hother before hbefore, hother behind hbehind, Nat.zero_add, Nat.add_zero]

theorem count_getInstances (hs : (k, s) ∈ t.located) :
    (I.getInstances t e b).count k =
      if b && (I.getType e).isContext then (contextsAt s).count e else [s.label.element].count e := by
  rw [Interface.getInstances]
  by_cases h : (b && (I.getType e).isContext) = true
  · rw [if_pos h, if_pos h, inheritanceMap_eq]
    exact count_flatMap_located contextsAt hs
  · rw [if_neg h, if_neg h]
    have hmap : t.instanceMap = t.located.flatMap fun p => [p.2.label.element].map fun c => (c, p.1) := by
      rw [ConcreteTree.instanceMap, List.map_eq_flatMap]
      rfl
    rw [hmap]
    exact count_flatMap_located (fun s => [s.label.element]) hs

theorem exists_located (h : k ∈ I.getInstances t e b) : ∃ s, (k, s) ∈ t.located := by
  rw [Interface.getInstances] at h
  split at h
  · obtain ⟨p, hp, rfl⟩ := List.mem_map.mp h
    rw [inheritanceMap_eq] at hp
    obtain ⟨q, hq, hmem⟩ := List.mem_flatMap.mp (List.mem_filter.mp hp).1
    obtain ⟨c, -, rfl⟩ := List.mem_map.mp hmem
    exact ⟨q.2, hq⟩
  · obtain ⟨p, hp, rfl⟩ := List.mem_map.mp h
    obtain ⟨q, hq, rfl⟩ := List.mem_map.mp (List.mem_filter.mp hp).1
    exact ⟨q.2, hq⟩

/-! ## Built trees -/

/-- The actions of a tree are made from contexts. -/
theorem isContext_of_constructInstance {objects cs cs' : List ι} {fuel : ℕ} {c : ι}
    (hc : (I.getType c).isContext = true) (h : I.constructInstance objects fuel cs c = .ok (cs', t))
    (hs : s ∈ t.subtrees) (hkind : s.label.kind = .action) :
    (I.getType s.label.element).isContext = true := by
  induction fuel generalizing cs cs' c t with
  | zero => cases h
  | succ fuel ih =>
    obtain ⟨_, st, _, ts, -, -, hts, rfl⟩ := Interface.constructInstance_succ h
    cases RoseTree.mem_subtrees_node.mp hs with
    | inl heq =>
      rw [heq]
      exact hc
    | inr hchild =>
      obtain ⟨v, hv, hs⟩ := hchild
      obtain ⟨e, -, cs₁, cs₂, he⟩ := exists_round hts hv
      rw [Interface.constructChild] at he
      split at he
      · next hcontext => exact ih hcontext he hs
      · obtain ⟨-, rfl⟩ := Prod.mk.inj (Except.ok.inj he)
        cases RoseTree.mem_subtrees_node.mp hs with
        | inl heq =>
          rw [heq] at hkind
          cases hkind
        | inr hmem =>
          obtain ⟨_, hmem, -⟩ := hmem
          cases hmem

/-- A built tree, from a context. -/
structure Built (I : Interface ι) (t : ConcreteTree ι) : Prop where
  built : ∃ root fuel, (I.getType root).isContext = true ∧ I.instanceAnalysis root fuel = .ok t

/-- What an action of a built tree is: its context, with the tree of the contexts it inherits. -/
theorem Built.action (h : Built I t) (hs : (k, s) ∈ t.located) {c : ι}
    {inheritance : RoseTree (InheritanceNode ι)} (hlabel : s.label = .action c inheritance) :
    (I.getType c).isContext = true ∧ Unfolds I.inherited (inheritance.map InheritanceNode.context) ∧
      (inheritance.map InheritanceNode.context).label = c := by
  obtain ⟨root, fuel, hroot, ht⟩ := h.built
  refine ⟨?_, unfolds_of_located ht hs hlabel⟩
  rw [Interface.instanceAnalysis, except_bind_ok] at ht
  obtain ⟨instances, hinstances, hrest⟩ := ht
  split at hrest
  · obtain rfl : instances.2 = t := Except.ok.inj hrest
    have hkind : s.label.kind = .action := by
      rw [hlabel]
      rfl
    have hcontext := isContext_of_constructInstance hroot hinstances
      (RoseTree.mem_subtrees_of_located hs) hkind
    rw [hlabel] at hcontext
    exact hcontext
  · cases hrest

omit [DecidableEq ι] in
/-- Below a context that is no link, the inheritance tree unfolds the base contexts. -/
theorem unfolds_bases {u : RoseTree ι} (hu : Unfolds I.inherited u)
    (hlink : (I.getType u.label).isLink = false) : Unfolds I.getBaseContexts u := by
  induction u using RoseTree.tree_induction with
  | step c ts ih =>
    rw [unfolds_node] at hu
    have hbases : I.inherited c = I.getBaseContexts c := by
      rw [RoseTree.label_node] at hlink
      rw [Interface.inherited, hlink, Bool.false_or]
      split
      · next hfunction => rw [I.function_bases hfunction]
      · rfl
    rw [unfolds_node, ← hbases]
    refine ⟨hu.1, fun v hv => ih v hv (hu.2 v hv) ?_⟩
    have hmem : v.label ∈ I.getBaseContexts c := by
      rw [← hbases, ← hu.1]
      exact List.mem_map_of_mem hv
    exact I.base_not_link hmem

/-- **Two types of one element.** A concrete element that two elements have for an instance is an action,
and the two are contexts of its inheritance tree, which unfolds the base contexts. -/
theorem Built.two_types (h : Built I t) {e e' : ι} (hne : e ≠ e') (he : k ∈ I.getInstances t e b)
    (he' : k ∈ I.getInstances t e' b) :
    ∃ u, t.getContext k = some u.label ∧ Unfolds I.getBaseContexts u ∧
      (I.getType e).isContext = true ∧ (I.getType e').isContext = true ∧
      (I.getInstances t e b).count k = u.labels.count e ∧
      (I.getInstances t e' b).count k = u.labels.count e' := by
  obtain ⟨s, hs⟩ := exists_located he
  have hcount : 0 < (I.getInstances t e b).count k := List.count_pos_iff.mpr he
  have hcount' : 0 < (I.getInstances t e' b).count k := List.count_pos_iff.mpr he'
  rw [count_getInstances hs] at hcount hcount'
  cases hlabel : s.label with
  | dimension d =>
    exfalso
    have heq : ∀ x, 0 < (if b && (I.getType x).isContext then (contextsAt s).count x
        else [s.label.element].count x) → x = d := by
      intro x hx
      split at hx
      · rw [contextsAt, hlabel] at hx
        exact absurd hx (Nat.lt_irrefl 0)
      · rw [hlabel] at hx
        have hmem := List.count_pos_iff.mp hx
        exact List.mem_singleton.mp hmem
    exact hne ((heq e hcount).trans (heq e' hcount').symm)
  | action c inheritance =>
    obtain ⟨hcontext, hunfolds, hroot⟩ := h.action hs hlabel
    have hcontexts : contextsAt s = (inheritance.map InheritanceNode.context).labels := by
      rw [contextsAt, hlabel]
    -- an element whose instances are looked up by element is the context itself
    have hself : ∀ x, (b && (I.getType x).isContext) = false →
        0 < (if b && (I.getType x).isContext then (contextsAt s).count x
          else [s.label.element].count x) → b = false ∧ x = c := by
      intro x hx hpos
      rw [hx, if_neg Bool.false_ne_true, hlabel] at hpos
      have heq : x = c := List.mem_singleton.mp (List.count_pos_iff.mp hpos)
      rw [heq, hcontext, Bool.and_true] at hx
      exact ⟨hx, heq⟩
    have hb : b = true := by
      by_contra hb
      have hfalse : b = false := by simpa using hb
      have h1 := (hself e (by rw [hfalse]; rfl) hcount).2
      have h2 := (hself e' (by rw [hfalse]; rfl) hcount').2
      exact hne (h1.trans h2.symm)
    have htype : ∀ x, 0 < (if b && (I.getType x).isContext then (contextsAt s).count x
        else [s.label.element].count x) → (I.getType x).isContext = true := by
      intro x hx
      by_contra hnot
      have hfalse : (b && (I.getType x).isContext) = false := by
        rw [Bool.and_eq_false_iff]
        exact Or.inr (by simpa using hnot)
      have := (hself x hfalse hx).1
      rw [hb] at this
      cases this
    have hcounts : ∀ x, (I.getType x).isContext = true →
        (I.getInstances t x b).count k = (inheritance.map InheritanceNode.context).labels.count x := by
      intro x hx
      rw [count_getInstances hs, hb, hx, hcontexts]
      rfl
    have hctx := htype e hcount
    have hctx' := htype e' hcount'
    refine ⟨inheritance.map InheritanceNode.context, ?_, ?_, hctx, hctx', hcounts e hctx,
      hcounts e' hctx'⟩
    · rw [hroot]
      exact getContext_eq hs hlabel
    · refine unfolds_bases hunfolds ?_
      rw [hroot]
      by_contra hlink
      have hlink' : (I.getType c).isLink = true := by simpa using hlink
      have hc : c ∈ (inheritance.map InheritanceNode.context).labels := by
        have hmem := RoseTree.label_mem_labels (inheritance.map InheritanceNode.context)
        rw [hroot] at hmem
        exact hmem
      have hleaf := eq_node_of_link hunfolds hc hlink'
      have hall : ∀ x, k ∈ I.getInstances t x b → (I.getType x).isContext = true → x = c := by
        intro x hx hxc
        have hmem := List.count_pos_iff.mpr hx
        rw [hcounts x hxc, hleaf, RoseTree.labels_node] at hmem
        simpa using List.count_pos_iff.mp hmem
      exact hne ((hall e he hctx).trans (hall e' he' hctx').symm)

end Instances

/-! ## Unambiguous lists -/

section Results
variable {ι : Type} [DecidableEq ι] (I : Interface ι) (order : BaseOrder I) (t : ConcreteTree ι)

/-- A context is another one or derives from it. -/
def Interface.Derives : ι → ι → Prop := ReflTransGen fun c b => b ∈ I.getBaseContexts c

/-- Two different types, of which one derives from the other. -/
def Interface.Ordered (s s' : ι) : Prop := s ≠ s' ∧ (I.Derives s s' ∨ I.Derives s' s)

/-- No concrete element is an instance of the elements of a list in two ways, for an element that is
listed twice or that is inherited along two ways; and of two elements that have it for an instance one
derives from the other. -/
def Unambiguous (elements : List ι) (bIncludeInherited : Bool) : Prop :=
  ∀ k, (arrivals I t elements bIncludeInherited k).Pairwise I.Ordered

/-- Whatever the order of a list, no assertion fires, and the pairs are the same: every concrete element
that instantiates a listed element is in one of them, with a listed element from which no other one that
it instantiates derives. -/
def ChoosesMostDerived (elements : List ι) (bIncludeInherited : Bool) : Prop :=
  ∃ pairs : ι → List ℕ → Prop,
    (∀ k, (∃ e, pairs e k) ↔ ∃ e ∈ elements, k ∈ I.getInstances t e bIncludeInherited) ∧
    (∀ e k, pairs e k → e ∈ elements ∧ k ∈ I.getInstances t e bIncludeInherited ∧
      ∀ e' ∈ elements, k ∈ I.getInstances t e' bIncludeInherited → e' ≠ e → ¬ I.Derives e' e) ∧
    ∀ elements', elements'.Perm elements → ∃ result,
      I.getElementVector order t elements' bIncludeInherited = .ok result ∧
        (result.map Prod.snd).Nodup ∧ ∀ e k, (e, k) ∈ result ↔ pairs e k

variable {I order t} {elements : List ι} {b : Bool} {k : List ℕ} {e e' : ι}

omit [DecidableEq ι] in
theorem Interface.Ordered.symm (h : I.Ordered e e') : I.Ordered e' e := ⟨h.1.symm, h.2.symm⟩

/-- No context derives from one that derives from it. -/
theorem BaseOrder.antisymm (order : BaseOrder I) (h : I.Derives e e') (h' : I.Derives e' e) : e = e' := by
  have hle : ∀ {c b : ι}, I.Derives c b → c = b ∨ order.rank b < order.rank c := by
    intro c b hderives
    induction hderives with
    | refl => exact Or.inl rfl
    | tail _ hlast ih =>
      have hlt := order.rank_base hlast
      cases ih with
      | inl heq =>
        rw [heq]
        exact Or.inr hlt
      | inr hlt' => exact Or.inr (hlt.trans hlt')
  cases hle h with
  | inl heq => exact heq
  | inr hlt =>
    cases hle h' with
    | inl heq => exact heq.symm
    | inr hlt' => omega

theorem mem_arrivals : e ∈ arrivals I t elements b k ↔ e ∈ elements ∧ k ∈ I.getInstances t e b := by
  rw [arrivals, List.mem_flatMap]
  constructor
  · intro h
    obtain ⟨e', he', hmem⟩ := h
    obtain ⟨hne, rfl⟩ := List.mem_replicate.mp hmem
    exact ⟨he', List.count_pos_iff.mp (Nat.pos_of_ne_zero hne)⟩
  · intro h
    exact ⟨e, h.1, List.mem_replicate.mpr ⟨(List.count_pos_iff.mpr h.2).ne', rfl⟩⟩

theorem Unambiguous.perm {elements' : List ι} (h : Unambiguous I t elements b)
    (hperm : elements'.Perm elements) : Unambiguous I t elements' b := by
  intro k
  have harrivals : (arrivals I t elements' b k).Perm (arrivals I t elements b k) :=
    hperm.flatMap_right _
  exact (harrivals.pairwise_iff fun h => h.symm).mpr (h k)

/-- An element of an unambiguous list has a concrete element for an instance at most once. -/
theorem Unambiguous.count_eq_one (h : Unambiguous I t elements b) (he : e ∈ elements)
    (hk : k ∈ I.getInstances t e b) : (I.getInstances t e b).count k = 1 := by
  have hpos : 0 < (I.getInstances t e b).count k := List.count_pos_iff.mpr hk
  have hpair := (List.pairwise_flatMap.mp (h k)).1 e he
  cases List.pairwise_replicate.mp hpair with
  | inl hle => omega
  | inr hself => exact absurd rfl hself.1

/-- Of two types of a concrete element the deriving one is kept. -/
theorem Built.keep_deriving (hbuilt : Built I t) (h : Unambiguous I t elements b) (he : e ∈ elements)
    (hk : k ∈ I.getInstances t e b) (he' : e' ∈ elements) (hk' : k ∈ I.getInstances t e' b)
    (hne : e ≠ e') (hderives : I.Derives e e') :
    I.keepMostDerived order t k e e' = .ok e ∧ I.keepMostDerived order t k e' e = .ok e := by
  obtain ⟨u, hcontext, hu, hec, hec', hcount, hcount'⟩ := hbuilt.two_types hne hk hk'
  rw [h.count_eq_one he hk] at hcount
  rw [h.count_eq_one he' hk'] at hcount'
  have hchoice : I.chooseMostDerived order u.label (some e) (some e') = .ok (some e) :=
    choose_deriving hne hu hcount.symm hcount'.symm hderives
  have hasContext : I.asContext e = some e := if_pos hec
  have hasContext' : I.asContext e' = some e' := if_pos hec'
  constructor
  · simp only [Interface.keepMostDerived, hcontext, hasContext, hasContext', hchoice]
    rfl
  · rw [chooseMostDerived_comm hne] at hchoice
    simp only [Interface.keepMostDerived, hcontext, hasContext, hasContext', hchoice]
    rfl

/-- What is kept of two types are different types, one of which derives from the other. -/
theorem Built.ordered_of_keep (hbuilt : Built I t) (hk : k ∈ I.getInstances t e b)
    (hk' : k ∈ I.getInstances t e' b) {p : ι} (h : I.keepMostDerived order t k e e' = .ok p) :
    I.Ordered e e' := by
  unfold Interface.keepMostDerived at h
  cases hcontext : t.getContext k with
  | none =>
    rw [hcontext] at h
    cases h
  | some c =>
    simp only [hcontext] at h
    obtain ⟨r, hchoice, -⟩ := except_bind_ok.mp h
    have hne : e ≠ e' := by
      intro heq
      rw [heq, Interface.chooseMostDerived, if_pos rfl] at hchoice
      cases hchoice
    refine ⟨hne, ?_⟩
    obtain ⟨u, hu, hunfolds, hec, hec', hcount, hcount'⟩ := hbuilt.two_types hne hk hk'
    rw [hcontext] at hu
    have hasContext : I.asContext e = some e := if_pos hec
    have hasContext' : I.asContext e' = some e' := if_pos hec'
    rw [hasContext, hasContext', Option.some.inj hu] at hchoice
    have hmem : e ∈ u.labels := by
      rw [← List.count_pos_iff, ← hcount]
      exact List.count_pos_iff.mpr hk
    have hmem' : e' ∈ u.labels := by
      rw [← List.count_pos_iff, ← hcount']
      exact List.count_pos_iff.mpr hk'
    exact derives_of_choose hne hunfolds hchoice hmem hmem'

/-- The types of an unambiguous list settle on the one that derives from all of them. -/
theorem settle_chain (l : List ι) : ∀ first : ι,
    (∀ s ∈ first :: l, ∀ s' ∈ first :: l, s ≠ s' → I.Derives s s' →
      I.keepMostDerived order t k s s' = .ok s ∧ I.keepMostDerived order t k s' s = .ok s) →
    (first :: l).Pairwise I.Ordered →
    ∃ m ∈ first :: l, l.foldlM (settle I order t k) (some first) = .ok (some m) ∧
      ∀ s ∈ first :: l, I.Derives m s := by
  induction l with
  | nil =>
    intro first _ _
    refine ⟨first, List.mem_cons_self, rfl, fun s hs => ?_⟩
    rw [List.mem_singleton.mp hs]
    exact ReflTransGen.refl
  | cons e l ih =>
    intro first hkeep hpair
    have hordered : I.Ordered first e := (List.pairwise_cons.mp hpair).1 e List.mem_cons_self
    have hfirst : first ∈ first :: e :: l := List.mem_cons_self
    have he : e ∈ first :: e :: l := List.mem_cons_of_mem first List.mem_cons_self
    cases hordered.2 with
    | inl hderives =>
      have hsub : (first :: l).Sublist (first :: e :: l) := (List.sublist_cons_self e l).cons_cons first
      obtain ⟨m, hm, hfold, htop⟩ := ih first
        (fun s hs s' hs' => hkeep s (hsub.subset hs) s' (hsub.subset hs')) (hpair.sublist hsub)
      refine ⟨m, hsub.subset hm, ?_, ?_⟩
      · rw [List.foldlM_cons, settle, (hkeep first hfirst e he hordered.1 hderives).1]
        exact hfold
      · intro s hs
        rw [List.mem_cons, List.mem_cons] at hs
        obtain rfl | rfl | hs := hs
        · exact htop s List.mem_cons_self
        · exact (htop first List.mem_cons_self).trans hderives
        · exact htop s (List.mem_cons_of_mem first hs)
    | inr hderives =>
      have hsub : (e :: l).Sublist (first :: e :: l) := List.sublist_cons_self first (e :: l)
      obtain ⟨m, hm, hfold, htop⟩ := ih e
        (fun s hs s' hs' => hkeep s (hsub.subset hs) s' (hsub.subset hs')) (hpair.sublist hsub)
      refine ⟨m, hsub.subset hm, ?_, ?_⟩
      · rw [List.foldlM_cons, settle, (hkeep e he first hfirst hordered.1.symm hderives).2]
        exact hfold
      · intro s hs
        cases List.mem_cons.mp hs with
        | inl heq =>
          rw [heq]
          exact (htop e List.mem_cons_self).trans hderives
        | inr hs => exact htop s hs

/-- The pair of a concrete element: a listed type that derives from all listed ones. -/
def Top (I : Interface ι) (t : ConcreteTree ι) (elements : List ι) (b : Bool) (e : ι) (k : List ℕ) : Prop :=
  e ∈ arrivals I t elements b k ∧ ∀ s ∈ arrivals I t elements b k, I.Derives e s

/-- What is collected of an unambiguous list. -/
theorem Unambiguous.settles (hbuilt : Built I t) (h : Unambiguous I t elements b) (k : List ℕ) :
    ∃ o, (arrivals I t elements b k).foldlM (settle I order t k) none = .ok o ∧
      (∀ e, o = some e ↔ Top I t elements b e k) ∧
      (o = none → arrivals I t elements b k = []) := by
  cases harrivals : arrivals I t elements b k with
  | nil =>
    refine ⟨none, rfl, fun e => ?_, fun _ => rfl⟩
    simp [Top, harrivals]
  | cons first l =>
    have hpair := h k
    rw [harrivals] at hpair
    have hkeep : ∀ s ∈ first :: l, ∀ s' ∈ first :: l, s ≠ s' → I.Derives s s' →
        I.keepMostDerived order t k s s' = .ok s ∧ I.keepMostDerived order t k s' s = .ok s := by
      intro s hs s' hs' hne hderives
      rw [← harrivals, mem_arrivals] at hs hs'
      exact hbuilt.keep_deriving h hs.1 hs.2 hs'.1 hs'.2 hne hderives
    obtain ⟨m, hm, hfold, htop⟩ := settle_chain l first hkeep hpair
    refine ⟨some m, hfold, fun e => ?_, fun hnone => by cases hnone⟩
    rw [Top, harrivals, Option.some.injEq]
    constructor
    · intro heq
      rw [← heq]
      exact ⟨hm, htop⟩
    · intro hetop
      exact order.antisymm (htop e hetop.1) (hetop.2 m hm)

theorem top_perm {elements' : List ι} (hperm : elements'.Perm elements) :
    Top I t elements' b e k ↔ Top I t elements b e k := by
  have harrivals : (arrivals I t elements' b k).Perm (arrivals I t elements b k) :=
    hperm.flatMap_right _
  rw [Top, Top, harrivals.mem_iff]
  simp only [harrivals.mem_iff]

/-- An unambiguous list is collected, whatever its order. -/
theorem Unambiguous.choosesMostDerived (hbuilt : Built I t) (h : Unambiguous I t elements b) :
    ChoosesMostDerived I order t elements b := by
  refine ⟨Top I t elements b, ?_, ?_, ?_⟩
  · intro k
    constructor
    · intro htop
      obtain ⟨e, hmem, -⟩ := htop
      exact ⟨e, mem_arrivals.mp hmem⟩
    · intro hlisted
      obtain ⟨e, he⟩ := hlisted
      obtain ⟨o, -, ho, hnone⟩ := @Unambiguous.settles ι _ I order t elements b hbuilt h k
      cases ho' : o with
      | some m => exact ⟨m, (ho m).mp ho'⟩
      | none =>
        have hmem := mem_arrivals.mpr he
        rw [hnone ho'] at hmem
        cases hmem
  · intro e k htop
    obtain ⟨he, hk⟩ := mem_arrivals.mp htop.1
    refine ⟨he, hk, fun e' he' hk' hne hderives => hne ?_⟩
    exact order.antisymm hderives (htop.2 e' (mem_arrivals.mpr ⟨he', hk'⟩))
  · intro elements' hperm
    have h' := h.perm hperm
    have hsettles : ∀ k, ∃ o, (((entered I t elements' b).filter fun i => i.2 = k).map Prod.fst).foldlM
        (settle I order t k) (typeOf [] k) = .ok o := by
      intro k
      rw [arrivals_eq]
      obtain ⟨o, hfold, -, -⟩ := @Unambiguous.settles ι _ I order t elements' b hbuilt h' k
      exact ⟨o, hfold⟩
    have hspec := @entered_spec ι _ I order t [] (entered I t elements' b) List.nodup_nil
    obtain ⟨result, hresult⟩ := hspec.2 hsettles
    obtain ⟨hnodup, hall⟩ := hspec.1 result hresult
    refine ⟨result, ?_, hnodup, fun e k => ?_⟩
    · rw [getElementVector_eq]
      exact hresult
    · obtain ⟨o, hfold, ho, -⟩ := @Unambiguous.settles ι _ I order t elements' b hbuilt h' k
      have hk := hall k
      rw [arrivals_eq] at hk
      have hsame : (Except.ok o : Except ElementFault (Option ι)) = .ok (typeOf result k) :=
        hfold.symm.trans hk
      rw [mem_iff_typeOf hnodup, ← Except.ok.inj hsame, ho, top_perm hperm]

/-- A list that starts with two types of a concrete element is collected just where the two are
ordered. -/
theorem ordered_of_run (hbuilt : Built I t) {first second : ι} {rest : List ι}
    (harrivals : arrivals I t elements b k = first :: second :: rest)
    {result : List (ι × List ℕ)} (h : I.getElementVector order t elements b = .ok result) :
    I.Ordered first second := by
  rw [getElementVector_eq] at h
  have hspec := @entered_spec ι _ I order t [] (entered I t elements b) List.nodup_nil
  have hk := (hspec.1 result h).2 k
  rw [arrivals_eq, harrivals, List.foldlM_cons, except_bind_ok] at hk
  obtain ⟨kept, hkept, hrest⟩ := hk
  obtain rfl : some first = kept := Except.ok.inj hkept
  rw [List.foldlM_cons, except_bind_ok] at hrest
  obtain ⟨next, hnext, -⟩ := hrest
  have hmem : first ∈ arrivals I t elements b k := by
    rw [harrivals]
    exact List.mem_cons_self
  have hmem' : second ∈ arrivals I t elements b k := by
    rw [harrivals]
    exact List.mem_cons_of_mem first List.mem_cons_self
  rw [settle] at hnext
  cases hkeep : I.keepMostDerived order t k first second with
  | error fault =>
    rw [hkeep] at hnext
    cases hnext
  | ok p => exact hbuilt.ordered_of_keep (mem_arrivals.mp hmem).2 (mem_arrivals.mp hmem').2 hkeep

/-- **The most derived type.** A list is collected as it should be, whatever its order, just if it is
unambiguous. -/
theorem choosesMostDerived_iff (hbuilt : Built I t) :
    ChoosesMostDerived I order t elements b ↔ Unambiguous I t elements b := by
  refine ⟨fun h k => ?_, Unambiguous.choosesMostDerived hbuilt⟩
  obtain ⟨pairs, -, -, hall⟩ := h
  have htwice : ∀ e ∈ elements, (I.getInstances t e b).count k ≤ 1 := by
    intro e he
    by_contra hcount
    obtain ⟨rest, hperm⟩ := (List.singleton_sublist.mpr he).exists_perm_append
    obtain ⟨result, hresult, -⟩ := hall _ hperm.symm
    obtain ⟨n, hn⟩ : ∃ n, (I.getInstances t e b).count k = n + 2 :=
      ⟨(I.getInstances t e b).count k - 2, by omega⟩
    have harrivals : arrivals I t ([e] ++ rest) b k =
        e :: e :: (List.replicate n e ++ arrivals I t rest b k) := by
      rw [arrivals, List.singleton_append, List.flatMap_cons, hn]
      rfl
    exact (ordered_of_run hbuilt harrivals hresult).1 rfl
  refine List.pairwise_flatMap.mpr ⟨fun e he => List.pairwise_replicate.mpr (Or.inl (htwice e he)), ?_⟩
  refine List.pairwise_iff_forall_sublist.mpr fun {e e'} hsub x hx x' hx' => ?_
  obtain ⟨hne, rfl⟩ := List.mem_replicate.mp hx
  obtain ⟨hne', rfl⟩ := List.mem_replicate.mp hx'
  have hmem : x ∈ elements := hsub.subset List.mem_cons_self
  have hmem' : x' ∈ elements := hsub.subset (List.mem_cons_of_mem x List.mem_cons_self)
  have hone : (I.getInstances t x b).count k = 1 := by
    have := htwice x hmem
    omega
  have hone' : (I.getInstances t x' b).count k = 1 := by
    have := htwice x' hmem'
    omega
  obtain ⟨rest, hperm⟩ := hsub.exists_perm_append
  obtain ⟨result, hresult, -⟩ := hall _ hperm.symm
  have harrivals : arrivals I t ([x, x'] ++ rest) b k = x :: x' :: arrivals I t rest b k := by
    rw [arrivals, List.cons_append, List.singleton_append, List.flatMap_cons, List.flatMap_cons, hone,
      hone']
    rfl
  exact ordered_of_run hbuilt harrivals hresult

end Results

/-! ## An action with two bases -/

/-- `action B; action C; action A : B, C;`. -/
def twoBases : Interface ℕ :=
  .ofDeclarations
    [⟨.eAbstractRoot .eInterfaceRoot, "", none, []⟩, ⟨.eAbstractRoot .eFileRoot, "root", some 0, []⟩,
      ⟨.eAbstractAction, "B", some 1, []⟩, ⟨.eAbstractAction, "C", some 1, []⟩,
      ⟨.eAbstractAction, "A", some 1, [2, 3]⟩] (by decide)

def twoBasesOrder : BaseOrder twoBases where
  rank c := if c = 4 then 1 else 0
  rank_base {b c} hb := by
    by_cases hc : c < 5
    · revert hb
      interval_cases c <;> revert b <;> decide
    · have hnone : twoBases.getBaseContexts c = [] := Declaration.basesAt_of_le (not_lt.mp hc)
      rw [hnone] at hb
      cases hb

theorem twoBases_built : ∃ t, Built twoBases t ∧
    (twoBases.getElementVector twoBasesOrder t [2, 3] true).isOk = false := by
  have hrun : ((twoBases.instanceAnalysis 0 5).toOption.map fun t =>
      (twoBases.getElementVector twoBasesOrder t [2, 3] true).isOk) = some false := by decide +kernel
  cases ht : twoBases.instanceAnalysis 0 5 with
  | error e =>
    rw [ht] at hrun
    cases hrun
  | ok t =>
    rw [ht] at hrun
    exact ⟨t, ⟨0, 5, rfl, ht⟩, Option.some.inj hrun⟩

/-- Both bases of `A` lead to a listed type: it is asserted that there is one at most. -/
theorem twoBases_not_choosesMostDerived :
    ∃ t, Built twoBases t ∧ ¬ ChoosesMostDerived twoBases twoBasesOrder t [2, 3] true := by
  obtain ⟨t, hbuilt, hfails⟩ := twoBases_built
  refine ⟨t, hbuilt, fun h => ?_⟩
  obtain ⟨pairs, -, -, hall⟩ := h
  obtain ⟨result, hresult, -⟩ := hall [2, 3] (List.Perm.refl _)
  rw [hresult] at hfails
  cases hfails

/-- An action of its own kind only: the list of the one type is collected. -/
theorem twoBases_choosesMostDerived_iff :
    ∃ t, Built twoBases t ∧
      (ChoosesMostDerived twoBases twoBasesOrder t [4] true ↔ Unambiguous twoBases t [4] true) := by
  obtain ⟨t, hbuilt, -⟩ := twoBases_built
  exact ⟨t, hbuilt, choosesMostDerived_iff hbuilt⟩

end EgLang.Compiler
