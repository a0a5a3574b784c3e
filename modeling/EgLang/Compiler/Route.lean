import EgLang.Common
import EgLang.Compiler.EliminationMeaning
import Mathlib.Algebra.Order.BigOperators.Group.List
import Mathlib.Algebra.Order.Group.Multiset

/-!
# The ways through a tree

Trees in which every instruction goes on from the variable of the one before, the runs of such a tree,
which may take any alternative of an elimination group, and what elimination does to both.
-/

namespace EgLang.Compiler

set_option autoImplicit false

variable {ε ι : Type}

/-- The variables that an instruction makes. -/
def Head.binds : Head ε ι → Multiset ℕ
  | .parentDerivation _ pTo => {pTo.address}
  | .childDerivation _ pTo => {pTo.address}
  | .dimensionReferenceRead _ pReference _ => {pReference.address}
  | .monoReference _ pInstance => {pInstance.address}
  | .polyCase _ pTo => {pTo.address}
  | _ => 0

/-- Nothing that makes variables looks at the children of the instruction. -/
def Head.isClosed : Head ε ι → Bool
  | .failure => true
  | .enumeration .. => true
  | _ => false

namespace Instruction

mutual

/-- The variables that the instructions of a tree make, as far as they are ever looked at. -/
def bound : Instruction ε ι → Multiset ℕ
  | .node head children => head.binds + if head.isClosed then 0 else boundAll children

def boundAll : List (Instruction ε ι) → Multiset ℕ
  | [] => 0
  | c :: cs => bound c + boundAll cs

end

@[simp] theorem bound_node (head : Head ε ι) (children : List (Instruction ε ι)) :
    bound (.node head children) = head.binds + if head.isClosed then 0 else boundAll children := by
  rw [bound]

@[simp] theorem boundAll_nil : boundAll ([] : List (Instruction ε ι)) = 0 := rfl

@[simp] theorem boundAll_cons (c : Instruction ε ι) (cs : List (Instruction ε ι)) :
    boundAll (c :: cs) = bound c + boundAll cs := rfl

theorem boundAll_eq (cs : List (Instruction ε ι)) : boundAll cs = (cs.map bound).sum := by
  induction cs with
  | nil => rfl
  | cons c cs ih => rw [boundAll_cons, ih, List.map_cons, List.sum_cons]

end Instruction

open Instruction

/-! ## Routes -/

/-- Where a way through a tree has come to: before the root, or at a variable. -/
inductive Place (ε : Type)
  | start
  | inst (v : InstanceVariable ε)
  | ref (r : ReferenceVariable ε)

/-- Every way through a tree goes from variable to variable, by instructions that meet a condition; if
`strict`, no alternative of a group is a failure. -/
inductive Route (ok : Head ε ι → Prop) (strict : Prop) : Place ε → Instruction ε ι → Prop
  | root {r : ReferenceVariable ε} {t : Instruction ε ι} (hok : ok (.root r))
      (ht : Route ok strict (.ref r) t) : Route ok strict .start (.node (.root r) [t])
  | parentDerivation {v w : InstanceVariable ε} {t : Instruction ε ι}
      (hok : ok (.parentDerivation v w)) (ht : Route ok strict (.inst w) t) :
      Route ok strict (.inst v) (.node (.parentDerivation v w) [t])
  | childDerivation {v w : InstanceVariable ε} {t : Instruction ε ι}
      (hok : ok (.childDerivation v w)) (ht : Route ok strict (.inst w) t) :
      Route ok strict (.inst v) (.node (.childDerivation v w) [t])
  | read {v : InstanceVariable ε} {r : ReferenceVariable ε} {d : ε} {t : Instruction ε ι}
      (hok : ok (.dimensionReferenceRead v r d)) (ht : Route ok strict (.ref r) t) :
      Route ok strict (.inst v) (.node (.dimensionReferenceRead v r d) [t])
  | monoReference {w : InstanceVariable ε} {r : ReferenceVariable ε} {t : Instruction ε ι}
      (hok : ok (.monoReference r w)) (ht : Route ok strict (.inst w) t) :
      Route ok strict (.ref r) (.node (.monoReference r w) [t])
  | polyReference {r : ReferenceVariable ε} {cases : List (InstanceVariable ε × Instruction ε ι)}
      (hok : ok (.polyReference r)) (htypes : cases.map (fun c => c.1.concreteType) = r.types)
      (hcases : ∀ c ∈ cases, ok (.polyCase r c.1))
      (ht : ∀ c ∈ cases, Route ok strict (.inst c.1) c.2) :
      Route ok strict (.ref r)
        (.node (.polyReference r) (cases.map fun c => .node (.polyCase r c.1) [c.2]))
  | elimination {v : InstanceVariable ε} {alternatives : List (Instruction ε ι)}
      (hok : ok .elimination) (hstrict : strict → ∀ a ∈ alternatives, a.head ≠ .failure)
      (ht : ∀ a ∈ alternatives, Route ok strict (.inst v) a) :
      Route ok strict (.inst v) (.node .elimination alternatives)
  | failure {v : InstanceVariable ε} {children : List (Instruction ε ι)} (hok : ok .failure) :
      Route ok strict (.inst v) (.node .failure children)
  | operation {v : InstanceVariable ε} {op : Operation ε ι} (hv : op.pInstance = v)
      (hok : ok (.operation op)) : Route ok strict (.inst v) (.node (.operation op) [])

/-- A condition, on what elimination leaves of a tree. -/
def Cleaned (ok : Head ε ι → Prop) (strict : Prop) (head : Head ε ι) : Prop :=
  ok head ∧ head ≠ .elimination ∧ (strict → head ≠ .failure)

/-- All instructions of a route without failures meet its condition. -/
theorem Route.every {ok P : Head ε ι → Prop} {strict : Prop} {p : Place ε} {t : Instruction ε ι}
    (h : Route ok strict p t) (hP : ∀ head, ok head → P head) (hfailure : ¬ ok .failure) :
    t.Every P := by
  induction h with
  | root hok _ ih => exact .node (hP _ hok) (List.forall_mem_singleton.mpr ih)
  | parentDerivation hok _ ih => exact .node (hP _ hok) (List.forall_mem_singleton.mpr ih)
  | childDerivation hok _ ih => exact .node (hP _ hok) (List.forall_mem_singleton.mpr ih)
  | read hok _ ih => exact .node (hP _ hok) (List.forall_mem_singleton.mpr ih)
  | monoReference hok _ ih => exact .node (hP _ hok) (List.forall_mem_singleton.mpr ih)
  | polyReference hok _ hcases _ ih =>
    refine .node (hP _ hok) fun u hu => ?_
    obtain ⟨c, hc, rfl⟩ := List.mem_map.mp hu
    exact .node (hP _ (hcases c hc)) (List.forall_mem_singleton.mpr (ih c hc))
  | elimination hok _ _ ih => exact .node (hP _ hok) ih
  | failure hok => exact absurd hok hfailure
  | operation _ hok => exact .node (hP _ hok) (by simp)

/-! ## Runs -/

/-- What a run reads of the program: the instances that a type has in its parent, the indices of types,
and the references that dimensions hold. -/
structure Reading (ε : Type) where
  size : ε → ℕ
  index : ε → ℤ
  content : ε → Reference → Reference

/-- With the value of the variable before it, a tree comes to an operation on an instance. -/
inductive Run (reading : Reading ε) : Instruction ε ι → Reference → Operation ε ι → Reference → Prop
  | root {r : ReferenceVariable ε} {t : Instruction ε ι} {x y : Reference} {op : Operation ε ι}
      (h : Run reading t x op y) : Run reading (.node (.root r) [t]) x op y
  | parentDerivation {v w : InstanceVariable ε} {t : Instruction ε ι} {x y : Reference}
      {op : Operation ε ι} (h : Run reading t ⟨x.inst / reading.size v.concreteType,
        reading.index w.concreteType, x.timestamp⟩ op y) :
      Run reading (.node (.parentDerivation v w) [t]) x op y
  | childDerivation {v w : InstanceVariable ε} {t : Instruction ε ι} {x y : Reference}
      {op : Operation ε ι}
      (h : Run reading t ⟨x.inst, reading.index w.concreteType, x.timestamp⟩ op y) :
      Run reading (.node (.childDerivation v w) [t]) x op y
  | read {v : InstanceVariable ε} {r : ReferenceVariable ε} {d : ε} {t : Instruction ε ι}
      {x y : Reference} {op : Operation ε ι} (h : Run reading t (reading.content d x) op y) :
      Run reading (.node (.dimensionReferenceRead v r d) [t]) x op y
  | monoReference {w : InstanceVariable ε} {r : ReferenceVariable ε} {t : Instruction ε ι}
      {x y : Reference} {op : Operation ε ι} (htype : reading.index w.concreteType = x.type)
      (h : Run reading t x op y) : Run reading (.node (.monoReference r w) [t]) x op y
  | polyReference {w : InstanceVariable ε} {r : ReferenceVariable ε} {t : Instruction ε ι}
      {children : List (Instruction ε ι)} {x y : Reference} {op : Operation ε ι}
      (hcase : .node (.polyCase r w) [t] ∈ children) (htype : reading.index w.concreteType = x.type)
      (h : Run reading t x op y) : Run reading (.node (.polyReference r) children) x op y
  | alternative {alternatives : List (Instruction ε ι)} {a : Instruction ε ι} {x y : Reference}
      {op : Operation ε ι} (ha : a ∈ alternatives) (h : Run reading a x op y) :
      Run reading (.node .elimination alternatives) x op y
  | operation {op : Operation ε ι} {x : Reference} : Run reading (.node (.operation op) []) x op x

/-! ## Elimination -/

section Elimination
variable {ok : Head ε ι → Prop} {strict : Prop} {rejects : Operation ε ι → Bool}
variable {p : Place ε} {t : Instruction ε ι}

/-- What elimination keeps of a tree. -/
structure Kept (ok : Head ε ι → Prop) (strict : Prop) (p : Place ε)
    (t : Instruction ε ι) (r : Elimination × Instruction ε ι) : Prop where
  route : Route ok strict p r.2
  runs : ∀ {reading : Reading ε} {x y : Reference} {op : Operation ε ι},
    Run reading r.2 x op y → Run reading t x op y
  bound : r.2.bound ≤ t.bound
  clean : r.1 = .eSuccess → (strict → r.2.head ≠ .failure) →
    Route (Cleaned ok strict) strict p r.2

/-- The child of an instruction has been eliminated. -/
def ChildKept (ok : Head ε ι → Prop) (strict : Prop) (rejects : Operation ε ι → Bool)
    (p : Place ε) (t : Instruction ε ι) : Prop :=
  ∀ {size : ℕ} {e : Elimination} {r : Elimination × List (Instruction ε ι)},
    eliminateChildren rejects size e [t] = .ok r →
      ∃ r', r = (e.merge r'.1, [r'.2]) ∧ Kept ok strict p t r' ∧
        (r'.1 = .eSuccess → strict → r'.2.head ≠ .failure)

theorem eliminateWith_single {head : Head ε ι} {r : Elimination × Instruction ε ι}
    (hop : rejected rejects head = false) (h : eliminateWith rejects (.node head [t]) = .ok r)
    (ht : ChildKept ok strict rejects p t) :
    ∃ r', r = (r'.1, .node head [r'.2]) ∧ Kept ok strict p t r' ∧
      (r'.1 = .eSuccess → strict → r'.2.head ≠ .failure) := by
  rw [eliminateWith, hop, if_neg Bool.false_ne_true] at h
  cases hc : eliminateChildren rejects [t].length .eSuccess [t] with
  | error e =>
    rw [hc] at h
    cases h
  | ok s =>
    rw [hc] at h
    cases h
    obtain ⟨r', rfl, hkept, hhead⟩ := ht hc
    exact ⟨r', by rw [Elimination.success_merge], hkept, hhead⟩

/-- An ordinary child is eliminated, and its outcome merged. -/
theorem eliminateChildren_ordinary {size : ℕ} {e : Elimination} {head : Head ε ι}
    {cs rest : List (Instruction ε ι)} {r : Elimination × List (Instruction ε ι)}
    (hhead : head.transient = false)
    (h : eliminateChildren rejects size e (.node head cs :: rest) = .ok r) :
    ∃ r₁ r₂, eliminateWith rejects (.node head cs) = .ok r₁ ∧
      eliminateChildren rejects size (e.merge r₁.1) rest = .ok r₂ ∧ r = (r₂.1, r₁.2 :: r₂.2) := by
  simp only [Head.transient, Bool.or_eq_false_iff] at hhead
  rw [eliminateChildren] at h
  simp only [hhead, Bool.false_eq_true, if_false] at h
  obtain ⟨r₁, h₁, h⟩ := Library.except_bind_ok.mp h
  obtain ⟨r₂, h₂, h⟩ := Library.except_bind_ok.mp h
  cases h
  exact ⟨r₁, r₂, h₁, h₂, rfl⟩

theorem childKept_ordinary {head : Head ε ι} {cs : List (Instruction ε ι)}
    (hhead : head.transient = false)
    (h : ∀ {r : Elimination × Instruction ε ι}, eliminateWith rejects (.node head cs) = .ok r →
      Kept ok strict p (.node head cs) r ∧ r.2.head = head) :
    ChildKept ok strict rejects p (.node head cs) := by
  intro size e r hr
  obtain ⟨r₁, r₂, h₁, h₂, rfl⟩ := eliminateChildren_ordinary hhead hr
  rw [eliminateChildren] at h₂
  cases h₂
  obtain ⟨hkept, hsame⟩ := h h₁
  refine ⟨r₁, rfl, hkept, fun _ _ hfail => ?_⟩
  rw [hsame] at hfail
  rw [hfail] at hhead
  cases hhead

/-- The alternatives of an elimination group have been eliminated. -/
def AlternativeKept (ok : Head ε ι → Prop) (strict : Prop) (p : Place ε)
    (a : Instruction ε ι) (r : Elimination × Instruction ε ι) : Prop :=
  Kept ok strict p a r ∧ r.2.head = a.head ∧ (strict → a.head ≠ .failure)

theorem eliminateNested_ok {alternatives : List (Instruction ε ι)}
    {rs : List (Elimination × Instruction ε ι)}
    (h : eliminateNested rejects false alternatives = .ok rs) :
    List.Forall₂ (fun a r => a.head ≠ .elimination ∧ eliminateWith rejects a = .ok r)
      alternatives rs := by
  induction alternatives generalizing rs with
  | nil =>
    cases h
    exact .nil
  | cons a as ih =>
    obtain ⟨head, children⟩ := a
    rw [eliminateNested] at h
    simp only [Bool.false_eq_true, if_false, false_and] at h
    split at h
    · cases h
    · rename_i hhead
      obtain ⟨r, hr, h⟩ := Library.except_bind_ok.mp h
      obtain ⟨rs', hrs, h⟩ := Library.except_bind_ok.mp h
      cases h
      refine .cons ⟨fun heq => hhead ?_, hr⟩ (ih hrs)
      rw [head_node] at heq
      rw [heq]
      rfl

theorem exists_of_forall₂ {α β : Type} {R : α → β → Prop} {as : List α} {bs : List β}
    (h : List.Forall₂ R as bs) {b : β} (hb : b ∈ bs) : ∃ a ∈ as, R a b := by
  induction h with
  | nil => exact absurd hb List.not_mem_nil
  | cons hab _ ih =>
    rcases List.mem_cons.mp hb with rfl | hb
    · exact ⟨_, List.mem_cons_self, hab⟩
    · obtain ⟨a, ha, hR⟩ := ih hb
      exact ⟨a, List.mem_cons_of_mem _ ha, hR⟩

theorem mem_withOutcome {o : Elimination} {rs : List (Elimination × Instruction ε ι)}
    {u : Instruction ε ι} : u ∈ withOutcome o rs ↔ (o, u) ∈ rs := by
  simp [withOutcome]

theorem boundAll_append (cs ds : List (Instruction ε ι)) :
    boundAll (cs ++ ds) = boundAll cs + boundAll ds := by
  rw [boundAll_eq, boundAll_eq, boundAll_eq, List.map_append, List.sum_append]

theorem withOutcome_cons (o : Elimination) (r : Elimination × Instruction ε ι)
    (rs : List (Elimination × Instruction ε ι)) :
    withOutcome o (r :: rs) = if r.1 = o then r.2 :: withOutcome o rs else withOutcome o rs := by
  unfold withOutcome
  rw [List.filter_cons]
  by_cases h : r.1 = o <;> simp [h]

/-- What the alternatives with two outcomes bind is bound by all of them. -/
theorem boundAll_withOutcome {alternatives : List (Instruction ε ι)}
    {rs : List (Elimination × Instruction ε ι)}
    (h : List.Forall₂ (AlternativeKept ok strict p) alternatives rs) :
    boundAll (withOutcome .eAmbiguous rs) + boundAll (withOutcome .eSuccess rs) ≤
      boundAll alternatives := by
  induction h with
  | nil => exact le_rfl
  | @cons a r as rs har _ ih =>
    have hle := add_le_add har.1.bound ih
    rw [withOutcome_cons, withOutcome_cons, boundAll_cons]
    refine le_trans ?_ hle
    cases r.1 with
    | eAmbiguous => simp [add_assoc]
    | eSuccess => simp [add_left_comm]
    | eFailure => simp

/-- **An elimination group** is replaced by its only success, or keeps those that may succeed. -/
theorem kept_group {v : InstanceVariable ε} {alternatives : List (Instruction ε ι)}
    {rs : List (Elimination × Instruction ε ι)} (hok : ok .elimination)
    (h : List.Forall₂ (AlternativeKept ok strict (.inst v)) alternatives rs) :
    Kept ok strict (.inst v) (.node .elimination alternatives) (eliminateGroup .eSuccess rs) ∧
      ((eliminateGroup .eSuccess rs).1 = .eSuccess → strict →
        (eliminateGroup .eSuccess rs).2.head ≠ .failure) := by
  have hbound := boundAll_withOutcome h
  have hall : (Instruction.node .elimination alternatives : Instruction ε ι).bound =
      boundAll alternatives := by simp [Head.binds, Head.isClosed]
  have hmem : ∀ {o : Elimination} {u : Instruction ε ι}, u ∈ withOutcome o rs →
      ∃ a ∈ alternatives, AlternativeKept ok strict (.inst v) a (o, u) := fun hu =>
    exists_of_forall₂ h (mem_withOutcome.mp hu)
  unfold eliminateGroup
  dsimp only
  split
  · refine ⟨⟨.elimination hok (fun hs u hu => ?_) fun u hu => ?_, fun {_ _ _ _} hrun => ?_, ?_,
      by simp⟩, by simp⟩
    · rcases List.mem_append.mp hu with hu | hu <;> obtain ⟨a, -, -, hhead, hne⟩ := hmem hu
      · exact hhead ▸ hne hs
      · exact hhead ▸ hne hs
    · rcases List.mem_append.mp hu with hu | hu <;> obtain ⟨a, -, hkept, -⟩ := hmem hu
      · exact hkept.route
      · exact hkept.route
    · cases hrun with
      | alternative hu hrun =>
        rcases List.mem_append.mp hu with hu | hu <;> obtain ⟨a, ha, hkept, -⟩ := hmem hu
        · exact .alternative ha (hkept.runs hrun)
        · exact .alternative ha (hkept.runs hrun)
    · rw [hall]
      simpa [Head.binds, Head.isClosed, boundAll_append] using hbound
  · split
    · refine ⟨⟨.elimination hok (fun _ u hu => absurd hu List.not_mem_nil)
        fun u hu => absurd hu List.not_mem_nil, fun {_ _ _ _} hrun => ?_, ?_,
        fun h => by cases h⟩, by simp⟩
      · cases hrun with
        | alternative hu _ => exact absurd hu List.not_mem_nil
      · exact Multiset.zero_le _
    · rename_i pSuccess rest hsuccess
      obtain ⟨a, ha, hkept, hhead, hne⟩ := hmem (hsuccess ▸ List.mem_cons_self)
      have hfail : strict → pSuccess.head ≠ .failure := fun hs => hhead ▸ hne hs
      refine ⟨⟨hkept.route, fun hrun => .alternative ha (hkept.runs hrun), ?_,
        fun _ _ => hkept.clean rfl hfail⟩, fun _ => hfail⟩
      rw [hall]
      rw [hsuccess, boundAll_cons] at hbound
      exact le_trans (le_trans le_self_add le_add_self) hbound

theorem eliminateGroup_merge (e : Elimination) (rs : List (Elimination × Instruction ε ι)) :
    eliminateGroup e rs =
      (e.merge (eliminateGroup .eSuccess rs).1, (eliminateGroup .eSuccess rs).2) := by
  unfold eliminateGroup
  dsimp only
  split
  · rfl
  · split
    · rfl
    · rfl

theorem childKept_elimination {v : InstanceVariable ε} {alternatives : List (Instruction ε ι)} (hok : ok .elimination)
    (hstrict : strict → ∀ a ∈ alternatives, a.head ≠ .failure)
    (h : ∀ a ∈ alternatives, ∀ {r : Elimination × Instruction ε ι}, a.head ≠ .elimination →
      eliminateWith rejects a = .ok r → Kept ok strict (.inst v) a r ∧ r.2.head = a.head) :
    ChildKept ok strict rejects (.inst v) (.node .elimination alternatives) := by
  intro size e r hr
  rw [eliminateChildren] at hr
  simp only [Head.isElimination, if_true] at hr
  obtain ⟨rs, hrs, hr⟩ := Library.except_bind_ok.mp hr
  obtain ⟨r₂, h₂, hr⟩ := Library.except_bind_ok.mp hr
  rw [eliminateChildren] at h₂
  cases h₂
  cases hr
  have hkept : List.Forall₂ (AlternativeKept ok strict (.inst v)) alternatives rs := by
    have hpair := (List.forall₂_and_left alternatives rs).mpr
      ⟨fun a (ha : a ∈ alternatives) => ha, eliminateNested_ok hrs⟩
    refine hpair.imp fun a r har => ?_
    obtain ⟨ha, hne, hr⟩ := har
    obtain ⟨hk, hhead⟩ := h a ha hne hr
    exact ⟨hk, hhead, fun hs => hstrict hs a ha⟩
  obtain ⟨hgroup, hhead⟩ := kept_group hok hkept
  refine ⟨eliminateGroup .eSuccess rs, ?_, hgroup, hhead⟩
  rw [eliminateGroup_merge e rs]

/-- A case of a polymorphic reference, before and after. -/
def CaseKept (ok : Head ε ι → Prop) (strict : Prop) (outcome : Elimination)
    (c c' : InstanceVariable ε × Instruction ε ι) : Prop :=
  c'.1 = c.1 ∧ ∃ o, Kept ok strict (.inst c.1) c.2 (o, c'.2) ∧
    (outcome = .eSuccess → o = .eSuccess ∧ (strict → c'.2.head ≠ .failure))

theorem eliminateCases {ref : ReferenceVariable ε}
    {cases : List (InstanceVariable ε × Instruction ε ι)} {size : ℕ} {e : Elimination}
    {r : Elimination × List (Instruction ε ι)}
    (ht : ∀ c ∈ cases, ChildKept ok strict rejects (.inst c.1) c.2)
    (h : eliminateChildren rejects size e (cases.map fun c => .node (.polyCase ref c.1) [c.2]) =
      .ok r) :
    ∃ cases', r.2 = (cases'.map fun c => .node (.polyCase ref c.1) [c.2]) ∧
      List.Forall₂ (CaseKept ok strict r.1) cases cases' ∧ (r.1 = .eSuccess → e = .eSuccess) := by
  induction cases generalizing e r with
  | nil =>
    rw [List.map_nil, eliminateChildren] at h
    cases h
    exact ⟨[], rfl, .nil, id⟩
  | cons c cases ih =>
    rw [List.forall_mem_cons] at ht
    rw [List.map_cons] at h
    obtain ⟨r₁, r₂, h₁, h₂, rfl⟩ := eliminateChildren_ordinary rfl h
    obtain ⟨r', rfl, hkept, hhead⟩ := eliminateWith_single rfl h₁ ht.1
    obtain ⟨cases', hcases, hall, hsuccess⟩ := ih ht.2 h₂
    refine ⟨(c.1, r'.2) :: cases', by rw [hcases]; rfl, .cons ⟨rfl, r'.1, hkept, fun hs => ?_⟩ hall,
      fun hs => ?_⟩
    · have ho := (Elimination.merge_eq_success.mp (hsuccess hs)).2
      exact ⟨ho, hhead ho⟩
    · exact (Elimination.merge_eq_success.mp (hsuccess hs)).1

theorem bound_cases {ref : ReferenceVariable ε} {o : Elimination}
    {cases cases' : List (InstanceVariable ε × Instruction ε ι)}
    (h : List.Forall₂ (CaseKept ok strict o) cases cases') :
    boundAll (cases'.map fun c => .node (.polyCase ref c.1) [c.2]) ≤
      boundAll (cases.map fun c => .node (.polyCase ref c.1) [c.2]) := by
  induction h with
  | nil => exact le_rfl
  | @cons c c' cases cases' hc _ ih =>
    obtain ⟨hv, o, hkept, -⟩ := hc
    rw [List.map_cons, List.map_cons, boundAll_cons, boundAll_cons, hv]
    refine add_le_add ?_ ih
    simpa [Head.binds, Head.isClosed] using hkept.bound

theorem types_cases {o : Elimination} {cases cases' : List (InstanceVariable ε × Instruction ε ι)}
    (h : List.Forall₂ (CaseKept ok strict o) cases cases') :
    cases'.map (fun c => c.1.concreteType) = cases.map fun c => c.1.concreteType := by
  induction h with
  | nil => rfl
  | cons hc _ ih => rw [List.map_cons, List.map_cons, ih, hc.1]

/-- An instruction with one child is kept if its child is. -/
theorem kept_single {head : Head ε ι} {q : Place ε} (hhead : head.transient = false)
    (hop : rejected rejects head = false) (hok : ok head)
    (hroute : ∀ {ok' : Head ε ι → Prop} {t' : Instruction ε ι}, ok' head →
      Route ok' strict q t' → Route ok' strict p (.node head [t']))
    (hruns : ∀ {reading : Reading ε} {t' : Instruction ε ι} {x y : Reference}
      {op : Operation ε ι}, (∀ {x : Reference}, Run reading t' x op y → Run reading t x op y) →
        Run reading (.node head [t']) x op y → Run reading (.node head [t]) x op y)
    (hbound : head.isClosed = false) (ht : ChildKept ok strict rejects q t) :
    (∀ {r : Elimination × Instruction ε ι}, (Instruction.node head [t]).head ≠ .elimination →
      eliminateWith rejects (.node head [t]) = .ok r →
        Kept ok strict p (.node head [t]) r ∧ r.2.head = (Instruction.node head [t]).head) ∧
    ChildKept ok strict rejects p (.node head [t]) := by
  have hwith : ∀ {r : Elimination × Instruction ε ι}, eliminateWith rejects (.node head [t]) = .ok r →
      Kept ok strict p (.node head [t]) r ∧ r.2.head = head := fun hr => by
    obtain ⟨r', rfl, hkept, hfail⟩ := eliminateWith_single hop hr ht
    refine ⟨⟨hroute hok hkept.route, hruns hkept.runs, ?_, fun hs _ => ?_⟩, rfl⟩
    · simpa [hbound] using hkept.bound
    · refine hroute ⟨hok, fun heq => ?_, fun _ heq => ?_⟩ (hkept.clean hs (hfail hs))
      · rw [heq] at hhead
        cases hhead
      · rw [heq] at hhead
        cases hhead
  exact ⟨fun _ => hwith, childKept_ordinary hhead hwith⟩

theorem kept_cases {r : ReferenceVariable ε} {cases : List (InstanceVariable ε × Instruction ε ι)}
    (hok : ok (.polyReference r)) (htypes : cases.map (fun c => c.1.concreteType) = r.types)
    (hcases : ∀ c ∈ cases, ok (.polyCase r c.1))
    (ht : ∀ c ∈ cases, ChildKept ok strict rejects (.inst c.1) c.2)
    {s : Elimination × Instruction ε ι} (hs : eliminateWith rejects (.node (.polyReference r)
      (cases.map fun c => .node (.polyCase r c.1) [c.2])) = .ok s) :
    Kept ok strict (.ref r)
      (.node (.polyReference r) (cases.map fun c => .node (.polyCase r c.1) [c.2])) s ∧
        s.2.head = .polyReference r := by
  have hop : rejected rejects (.polyReference r : Head ε ι) = false := rfl
  rw [eliminateWith, hop, if_neg Bool.false_ne_true] at hs
  cases hc : eliminateChildren rejects
      (cases.map fun c => Instruction.node (.polyCase r c.1) [c.2]).length .eSuccess
      (cases.map fun c => .node (.polyCase r c.1) [c.2]) with
  | error e =>
    rw [hc] at hs
    cases hs
  | ok s' =>
    rw [hc] at hs
    cases hs
    obtain ⟨cases', heq, hall, -⟩ := eliminateCases ht hc
    dsimp only
    rw [heq]
    have htypes' : cases'.map (fun c => c.1.concreteType) = r.types := by
      rw [← htypes, types_cases hall]
    refine ⟨⟨.polyReference hok htypes' (fun c' hc' => ?_) fun c' hc' => ?_, fun hrun => ?_, ?_,
      fun hs _ => .polyReference ⟨hok, (by simp), by simp⟩ htypes' (fun c' hc' => ?_) fun c' hc' => ?_⟩,
      rfl⟩
    · obtain ⟨c, hc, hv, -⟩ := exists_of_forall₂ hall hc'
      rw [hv]
      exact hcases c hc
    · obtain ⟨c, hc, hv, o, hkept, -⟩ := exists_of_forall₂ hall hc'
      rw [hv]
      exact hkept.route
    · cases hrun with
      | polyReference hcase htype hrun =>
        obtain ⟨c', hc', heq⟩ := List.mem_map.mp hcase
        cases heq
        obtain ⟨c, hc, hv, o, hkept, -⟩ := exists_of_forall₂ hall hc'
        rw [hv] at htype
        exact .polyReference (List.mem_map_of_mem hc) htype (hkept.runs hrun)
    · simpa [Head.binds, Head.isClosed] using bound_cases hall
    · obtain ⟨c, hc, hv, -⟩ := exists_of_forall₂ hall hc'
      rw [hv]
      exact ⟨hcases c hc, (by simp), by simp⟩
    · obtain ⟨c, hc, hv, o, hkept, hout⟩ := exists_of_forall₂ hall hc'
      rw [hv]
      exact hkept.clean (hout hs).1 (hout hs).2

/-- **Elimination** keeps the routes of a tree, adds no run, and cleans a tree that succeeds. -/
theorem Route.kept (h : Route ok strict p t) :
    (∀ {r : Elimination × Instruction ε ι}, t.head ≠ .elimination →
      eliminateWith rejects t = .ok r → Kept ok strict p t r ∧ r.2.head = t.head) ∧
    ChildKept ok strict rejects p t := by
  induction h with
  | root hok ht ih =>
    refine kept_single rfl rfl hok (fun hok ht => .root hok ht) (fun hruns hrun => ?_) rfl ih.2
    cases hrun with
    | root hrun => exact .root (hruns hrun)
  | parentDerivation hok ht ih =>
    refine kept_single rfl rfl hok (fun hok ht => .parentDerivation hok ht)
      (fun hruns hrun => ?_) rfl ih.2
    cases hrun with
    | parentDerivation hrun => exact .parentDerivation (hruns hrun)
  | childDerivation hok ht ih =>
    refine kept_single rfl rfl hok (fun hok ht => .childDerivation hok ht)
      (fun hruns hrun => ?_) rfl ih.2
    cases hrun with
    | childDerivation hrun => exact .childDerivation (hruns hrun)
  | read hok ht ih =>
    refine kept_single rfl rfl hok (fun hok ht => .read hok ht) (fun hruns hrun => ?_) rfl ih.2
    cases hrun with
    | read hrun => exact .read (hruns hrun)
  | monoReference hok ht ih =>
    refine kept_single rfl rfl hok (fun hok ht => .monoReference hok ht)
      (fun hruns hrun => ?_) rfl ih.2
    cases hrun with
    | monoReference htype hrun => exact .monoReference htype (hruns hrun)
  | @polyReference r cases hok htypes hcases ht ih =>
    have hcase : ∀ c ∈ cases, ChildKept ok strict rejects (.inst c.1) c.2 := fun c hc => (ih c hc).2
    exact ⟨fun _ hs => kept_cases hok htypes hcases hcase hs,
      childKept_ordinary rfl fun hs => kept_cases hok htypes hcases hcase hs⟩
  | @elimination v alternatives hok hstrict ht ih =>
    exact ⟨fun hne => absurd rfl hne,
      childKept_elimination hok hstrict fun a ha _ hne hr => (ih a ha).1 hne hr⟩
  | @failure v children hok =>
    refine ⟨fun {r} _ hr => ?_, fun {size e r} hr => ?_⟩
    · -- as an alternative it is tried like an ordinary instruction, and stays what it is
      have hop : rejected rejects (.failure : Head ε ι) = false := rfl
      rw [eliminateWith, hop, if_neg Bool.false_ne_true] at hr
      cases hc : eliminateChildren rejects children.length .eSuccess children with
      | error e =>
        rw [hc] at hr
        cases hr
      | ok s =>
        rw [hc] at hr
        cases hr
        refine ⟨⟨.failure hok, (fun hrun => by cases hrun), le_rfl, fun _ hne => ?_⟩, rfl⟩
        exact .failure ⟨hok, (by simp), fun hs => hne hs⟩
    · rw [eliminateChildren] at hr
      simp only [Head.isElimination, Head.isFailure, Bool.false_eq_true, if_false, if_true] at hr
      obtain ⟨r₂, h₂, hr⟩ := Library.except_bind_ok.mp hr
      rw [eliminateChildren] at h₂
      cases h₂
      cases hr
      exact ⟨(.eFailure, .node .failure children), rfl,
        ⟨.failure hok, fun hrun => hrun, le_rfl, by simp⟩, by simp⟩
  | @operation v op hv hok =>
    have hwith : ∀ {r : Elimination × Instruction ε ι},
        eliminateWith rejects (.node (.operation op) []) = .ok r →
          Kept ok strict (.inst v) (.node (.operation op) []) r ∧ r.2.head = .operation op :=
      fun hr => by
      have hroute : Route ok strict (.inst v) (.node (.operation op) []) := .operation hv hok
      rw [eliminateWith] at hr
      split at hr
      · cases hr
        exact ⟨⟨hroute, fun hrun => hrun, le_rfl, by simp⟩, rfl⟩
      · rw [eliminateChildren] at hr
        cases hr
        exact ⟨⟨hroute, fun hrun => hrun, le_rfl, fun _ _ => .operation hv ⟨hok, (by simp), by simp⟩⟩, rfl⟩
    exact ⟨fun _ => hwith, childKept_ordinary rfl hwith⟩

end Elimination
end EgLang.Compiler
