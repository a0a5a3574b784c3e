import Mathlib.Data.List.Forall2
import Mathlib.Logic.Relation

/-! # Runs of a deterministic machine driven by an environment

A machine is a function `step : σ → ι → Except ε σ`: in a state it is handed one input and either
moves on or stops with an error. A *run* is a chain of successful steps; every step of it may be
asked to satisfy a condition on the state before, the input and the state after. Everything is
phrased through Mathlib's reflexive transitive closure.
-/

namespace EgLang.Library
set_option autoImplicit false

section StepSystem
variable {σ ι ε : Type*} (step : σ → ι → Except ε σ)

/-- One successful step of which `Q` holds. -/
def StepRel (Q : σ → ι → σ → Prop) (s t : σ) : Prop := ∃ i, Q s i t ∧ step s i = .ok t

/-- A run from `s` to `t`, every step of which satisfies `Q`. -/
abbrev Steps (Q : σ → ι → σ → Prop) : σ → σ → Prop := Relation.ReflTransGen (StepRel step Q)

/-- `t` is reached from `s` by steps whose state and input meet `guard`. -/
abbrev Reaches (guard : σ → ι → Prop) : σ → σ → Prop := Steps step (fun s i _ => guard s i)

variable {step}

theorem Steps.snoc {Q : σ → ι → σ → Prop} {s t u : σ} {i : ι} (hr : Steps step Q s t)
    (hQ : Q t i u) (h : step t i = .ok u) : Steps step Q s u :=
  Relation.ReflTransGen.tail hr ⟨i, hQ, h⟩

theorem Steps.mono {Q R : σ → ι → σ → Prop} {s t : σ} (hQR : ∀ s i t, Q s i t → R s i t)
    (h : Steps step Q s t) : Steps step R s t :=
  Relation.ReflTransGen.mono (fun _ _ ⟨i, hQ, hs⟩ => ⟨i, hQR _ _ _ hQ, hs⟩) _ _ h

/-- **Invariant rule.** What holds at the start and is kept by every step holds at the end. -/
theorem Steps.invariant {Q : σ → ι → σ → Prop} {s t : σ} (I : σ → Prop) (h : Steps step Q s t)
    (h0 : I s) (hstep : ∀ s i t, I s → Q s i t → step s i = .ok t → I t) : I t := by
  induction h with
  | refl => exact h0
  | tail _ hlast ih =>
    obtain ⟨i, hQ, hs⟩ := hlast
    exact hstep _ i _ ih hQ hs

/-- Two invariants, the second of which needs the first. -/
theorem Steps.invariant_with {Q : σ → ι → σ → Prop} {s t : σ} (J I : σ → Prop)
    (h : Steps step Q s t) (hJ : ∀ u, Steps step Q s u → J u) (h0 : I s)
    (hstep : ∀ s i t, J s → I s → Q s i t → step s i = .ok t → I t) : I t := by
  induction h with
  | refl => exact h0
  | tail hr hlast ih =>
    obtain ⟨i, hQ, hs⟩ := hlast
    exact hstep _ i _ (hJ _ hr) ih hQ hs

/-- A step that was taken. -/
structure Taken (σ ι : Type*) where
  before : σ
  input : ι
  after : σ

/-- A run, with its steps in order. -/
inductive LoggedRun (step : σ → ι → Except ε σ) (guard : σ → ι → Prop) (s : σ) : List (Taken σ ι) → σ → Prop
  | start : LoggedRun step guard s [] s
  | next {log t i u} (hr : LoggedRun step guard s log t) (hguard : guard t i) (hs : step t i = .ok u) :
      LoggedRun step guard s (log ++ [⟨t, i, u⟩]) u

theorem LoggedRun.reaches {guard : σ → ι → Prop} {s t : σ} {log : List (Taken σ ι)}
    (h : LoggedRun step guard s log t) : Reaches step guard s t := by
  induction h with
  | start => exact .refl
  | next _ hguard hs ih => exact ih.tail ⟨_, hguard, hs⟩

theorem exists_loggedRun {guard : σ → ι → Prop} {s t : σ} (h : Reaches step guard s t) :
    ∃ log, LoggedRun step guard s log t := by
  induction h with
  | refl => exact ⟨[], .start⟩
  | tail _ hlast ih =>
    obtain ⟨log, hr⟩ := ih
    obtain ⟨i, hguard, hs⟩ := hlast
    exact ⟨_, hr.next hguard hs⟩

end StepSystem

/-! ## Runs that can be evaluated -/

section CheckedRun
variable {σ ι ε : Type*} (step : σ → ι → Except ε σ) (guard : σ → ι → Prop)
variable [∀ s i, Decidable (guard s i)]

/-- Feeds a list of inputs to the machine, as long as they meet the guard. -/
def checkedRun : List ι → σ → Option σ
  | [], s => some s
  | i :: is, s =>
    if guard s i then
      match step s i with
      | .ok t => checkedRun is t
      | .error _ => none
    else none

variable {step guard}

theorem reaches_of_checkedRun {is : List ι} {s t : σ} (h : checkedRun step guard is s = some t) :
    Reaches step guard s t := by
  induction is generalizing s with
  | nil =>
    cases h
    exact .refl
  | cons i is ih =>
    rw [checkedRun] at h
    split at h
    · rename_i hg
      split at h
      · rename_i u hu
        exact .head ⟨i, hg, hu⟩ (ih h)
      · cases h
    · cases h

variable (step guard)

/-- A state reached by a run that has been evaluated. -/
theorem exists_reaches (is : List ι) (s : σ) (P : σ → Prop) [DecidablePred P]
    (h : (checkedRun step guard is s).any (fun t => decide (P t)) = true) :
    ∃ t, Reaches step guard s t ∧ P t := by
  obtain ⟨t, ht, hP⟩ := (Option.any_eq_true _ _).mp h
  exact ⟨t, reaches_of_checkedRun ht, of_decide_eq_true hP⟩

/-- A step and a run after it that have been evaluated. -/
theorem exists_step_reaches (i : ι) (is : List ι) (s : σ) (P : σ → Prop) [DecidablePred P]
    (h : ((step s i).toOption.bind (checkedRun step guard is)).any (fun u => decide (P u)) =
      true) : ∃ t u, step s i = .ok t ∧ Reaches step guard t u ∧ P u := by
  obtain ⟨u, hu, hP⟩ := (Option.any_eq_true _ _).mp h
  obtain ⟨t, ht, hu⟩ := Option.bind_eq_some_iff.mp hu
  refine ⟨t, u, ?_, reaches_of_checkedRun hu, of_decide_eq_true hP⟩
  cases hs : step s i with
  | ok t' =>
    rw [hs] at ht
    exact congrArg Except.ok (Option.some.inj ht)
  | error e =>
    rw [hs] at ht
    cases ht

end CheckedRun

/-! ## Sequencing of fallible computations -/

section Except
variable {ε : Type*} {α β : Type}

theorem except_bind_ok {x : Except ε α} {f : α → Except ε β} {b : β} :
    (x >>= f) = .ok b ↔ ∃ a, x = .ok a ∧ f a = .ok b := by
  cases x <;> simp [bind, Except.bind]

theorem except_bind_error {x : Except ε α} {f : α → Except ε β} {e : ε} :
    (x >>= f) = .error e ↔ x = .error e ∨ ∃ a, x = .ok a ∧ f a = .error e := by
  cases x <;> simp [bind, Except.bind]

theorem except_pure_error {a : α} {e : ε} : (pure a : Except ε α) = .error e ↔ False :=
  iff_of_false (fun h => by cases h) id

theorem toOption_eq_some {x : Except ε α} {a : α} : x.toOption = some a ↔ x = .ok a := by
  cases x <;> simp [Except.toOption]

theorem exists_ok {x : Except ε α} {P : α → Prop} [DecidablePred P]
    (h : x.toOption.any (fun a => decide (P a)) = true) : ∃ a, x = .ok a ∧ P a := by
  cases x with
  | ok a => exact ⟨a, rfl, of_decide_eq_true h⟩
  | error e => cases h

/-- A loop relates its first state to its last as its rounds do. -/
theorem foldlM_rel {R : α → α → Prop} (hrefl : ∀ a, R a a)
    (htrans : ∀ {a b c}, R a b → R b c → R a c) {f : α → β → Except ε α} {xs : List β}
    (hf : ∀ x ∈ xs, ∀ {a b}, f a x = .ok b → R a b) {a b : α} (h : xs.foldlM f a = .ok b) :
    R a b := by
  induction xs generalizing a with
  | nil =>
    cases h
    exact hrefl _
  | cons x xs ih =>
    rw [List.foldlM_cons, except_bind_ok] at h
    obtain ⟨c, hc, h⟩ := h
    exact htrans (hf x List.mem_cons_self hc) (ih (fun y hy => hf y (List.mem_cons_of_mem x hy)) h)

/-- What each round of a loop establishes, and later rounds keep, holds at the end. -/
theorem foldlM_post {I : α → Prop} {R : α → α → Prop} {Q : β → α → Prop} (hrefl : ∀ a, R a a)
    (htrans : ∀ {a b c}, R a b → R b c → R a c) (hQ : ∀ {x a b}, R a b → Q x a → Q x b)
    {f : α → β → Except ε α} {xs : List β}
    (hf : ∀ x ∈ xs, ∀ {a b}, I a → f a x = .ok b → I b ∧ R a b ∧ Q x b) {a b : α} (ha : I a)
    (h : xs.foldlM f a = .ok b) : I b ∧ R a b ∧ ∀ x ∈ xs, Q x b := by
  induction xs generalizing a with
  | nil =>
    cases h
    exact ⟨ha, hrefl _, fun x hx => absurd hx List.not_mem_nil⟩
  | cons x xs ih =>
    rw [List.foldlM_cons, except_bind_ok] at h
    obtain ⟨c, hc, h⟩ := h
    obtain ⟨hIc, hRc, hQc⟩ := hf x List.mem_cons_self ha hc
    obtain ⟨hIb, hRb, hQb⟩ := ih (fun y hy => hf y (List.mem_cons_of_mem x hy)) hIc h
    refine ⟨hIb, htrans hRc hRb, fun y hy => ?_⟩
    rcases List.mem_cons.mp hy with rfl | hy
    · exact hQ hRb hQc
    · exact hQb y hy

/-- A loop none of whose rounds fails. -/
theorem mapM_ok {f : α → Except ε β} {g : α → β} {xs : List α} (h : ∀ x ∈ xs, f x = .ok (g x)) :
    xs.mapM f = .ok (xs.map g) := by
  induction xs with
  | nil => rfl
  | cons x xs ih =>
    rw [List.forall_mem_cons] at h
    rw [List.mapM_cons, h.1, ih h.2]
    rfl

theorem mapM_congr {f g : α → Except ε β} {xs : List α} (h : ∀ x ∈ xs, f x = g x) :
    xs.mapM f = xs.mapM g := by
  induction xs with
  | nil => rfl
  | cons x xs ih =>
    rw [List.forall_mem_cons] at h
    rw [List.mapM_cons, List.mapM_cons, h.1, ih h.2]

theorem mapM_eq_ok {f : α → Except ε β} {xs : List α} {ys : List β} :
    xs.mapM f = .ok ys ↔ List.Forall₂ (fun x y => f x = .ok y) xs ys := by
  induction xs generalizing ys with
  | nil =>
    rw [List.mapM_nil, List.forall₂_nil_left_iff]
    exact ⟨fun h => (Except.ok.inj h).symm, fun h => congrArg _ h.symm⟩
  | cons x xs ih =>
    rw [List.mapM_cons, except_bind_ok, List.forall₂_cons_left_iff]
    simp only [except_bind_ok, ih]
    refine exists_congr fun y => ⟨?_, ?_⟩
    · rintro ⟨hy, zs, hzs, h⟩
      exact ⟨zs, hy, hzs, (Except.ok.inj h).symm⟩
    · rintro ⟨zs, hy, hzs, rfl⟩
      exact ⟨hy, zs, hzs, rfl⟩

/-- What a loop keeps of each element. -/
theorem map_of_mapM {γ : Type*} {f : α → Except ε β} {g : α → γ} {h : β → γ} {xs : List α}
    {ys : List β} (hf : ∀ {x y}, f x = .ok y → h y = g x) (hok : xs.mapM f = .ok ys) :
    ys.map h = xs.map g := by
  rw [mapM_eq_ok] at hok
  induction hok with
  | nil => rfl
  | cons hy _ ih => rw [List.map_cons, List.map_cons, ih, hf hy]

theorem exists_of_mem_mapM {f : α → Except ε β} {xs : List α} {ys : List β} {y : β}
    (h : xs.mapM f = .ok ys) (hy : y ∈ ys) : ∃ x ∈ xs, f x = .ok y := by
  rw [mapM_eq_ok] at h
  obtain ⟨i, hi, rfl⟩ := List.getElem_of_mem hy
  exact ⟨_, List.getElem_mem _, List.Forall₂.get h (h.length_eq ▸ hi) hi⟩

theorem exists_mem_of_mapM {f : α → Except ε β} {xs : List α} {ys : List β} {x : α}
    (h : xs.mapM f = .ok ys) (hx : x ∈ xs) : ∃ y ∈ ys, f x = .ok y := by
  rw [mapM_eq_ok] at h
  obtain ⟨i, hi, rfl⟩ := List.getElem_of_mem hx
  have hi' : i < ys.length := h.length_eq ▸ hi
  exact ⟨ys[i], List.getElem_mem hi', List.Forall₂.get h hi hi'⟩

theorem exists_mapM {f : α → Except ε β} {xs : List α} (h : ∀ x ∈ xs, ∃ y, f x = .ok y) :
    ∃ ys, xs.mapM f = .ok ys := by
  induction xs with
  | nil => exact ⟨[], rfl⟩
  | cons x xs ih =>
    rw [List.forall_mem_cons] at h
    obtain ⟨y, hy⟩ := h.1
    obtain ⟨ys, hys⟩ := ih h.2
    exact ⟨y :: ys, by rw [List.mapM_cons, hy, hys]; rfl⟩

/-- A loop whose rounds fail with one error only. -/
theorem mapM_ok_or {e : ε} {f : α → Except ε β} {xs : List α}
    (h : ∀ x ∈ xs, (∃ y, f x = .ok y) ∨ f x = .error e) :
    (∃ ys, xs.mapM f = .ok ys) ∨ xs.mapM f = .error e := by
  induction xs with
  | nil => exact .inl ⟨[], rfl⟩
  | cons x xs ih =>
    rw [List.forall_mem_cons] at h
    rw [List.mapM_cons]
    rcases h.1 with ⟨y, hy⟩ | herr
    · rw [hy]
      rcases ih h.2 with ⟨ys, hys⟩ | herr
      · exact .inl ⟨y :: ys, by rw [hys]; rfl⟩
      · exact .inr (by rw [herr]; rfl)
    · exact .inr (by rw [herr]; rfl)

/-- A loop that hands a state on and collects what its rounds yield. -/
def threadM {σ : Type} (f : σ → α → Except ε (σ × β)) : List α → σ → Except ε (σ × List β)
  | [], s => .ok (s, [])
  | x :: xs, s => do
    let r ← f s x
    let rs ← threadM f xs r.1
    return (rs.1, r.2 :: rs.2)

section Thread
variable {σ : Type} {f : σ → α → Except ε (σ × β)} {xs xs' : List α} {x : α} {s t u : σ}
  {ys ys' : List β}

theorem threadM_nil : threadM f [] s = .ok (t, ys) ↔ s = t ∧ ys = [] := by
  rw [threadM, Except.ok.injEq, Prod.mk.injEq]
  exact and_congr_right' eq_comm

theorem threadM_cons :
    threadM f (x :: xs) s = .ok (u, ys) ↔
      ∃ t y ys', f s x = .ok (t, y) ∧ threadM f xs t = .ok (u, ys') ∧ ys = y :: ys' := by
  rw [threadM]
  simp only [except_bind_ok, Prod.exists]
  refine exists_congr fun t => exists_congr fun y => ⟨?_, ?_⟩
  · rintro ⟨hf, v, zs, hxs, h⟩
    obtain ⟨rfl, rfl⟩ := Prod.mk.inj (Except.ok.inj h)
    exact ⟨zs, hf, hxs, rfl⟩
  · rintro ⟨zs, hf, hxs, rfl⟩
    exact ⟨hf, u, zs, hxs, rfl⟩

theorem threadM_append (h : threadM f xs s = .ok (t, ys)) (h' : threadM f xs' t = .ok (u, ys')) :
    threadM f (xs ++ xs') s = .ok (u, ys ++ ys') := by
  induction xs generalizing s ys with
  | nil =>
    obtain ⟨rfl, rfl⟩ := threadM_nil.mp h
    exact h'
  | cons x xs ih =>
    obtain ⟨v, y, zs, hf, hxs, rfl⟩ := threadM_cons.mp h
    exact threadM_cons.mpr ⟨v, y, zs ++ ys', hf, ih hxs, rfl⟩

/-- What holds of the rounds done is kept by every round, and what a round establishes of its element
and its result is kept by later rounds. -/
theorem threadM_rule {I : List α → σ → Prop} {R : σ → σ → Prop} {Q : α → β → σ → Prop}
    (hrefl : ∀ s, R s s) (htrans : ∀ {s t u}, R s t → R t u → R s u)
    (hQ : ∀ {x y s t}, R s t → Q x y s → Q x y t)
    (hf : ∀ {done x s t y}, x ∈ xs → I done s → f s x = .ok (t, y) →
      I (done ++ [x]) t ∧ R s t ∧ Q x y t)
    {done : List α} (hs : I done s) (h : threadM f xs s = .ok (t, ys)) :
    I (done ++ xs) t ∧ R s t ∧ List.Forall₂ (fun x y => Q x y t) xs ys := by
  induction xs generalizing done s ys with
  | nil =>
    obtain ⟨rfl, rfl⟩ := threadM_nil.mp h
    exact ⟨by rwa [List.append_nil], hrefl s, .nil⟩
  | cons x xs ih =>
    obtain ⟨u, y, zs, hfx, hxs, rfl⟩ := threadM_cons.mp h
    obtain ⟨hu, hsu, hy⟩ := hf List.mem_cons_self hs hfx
    obtain ⟨ht, hut, hzs⟩ := ih (fun hx => hf (List.mem_cons_of_mem _ hx)) hu hxs
    rw [List.append_assoc] at ht
    exact ⟨ht, htrans hsu hut, .cons (hQ hut hy) hzs⟩

/-- Every result is that of a round. -/
theorem threadM_rounds (h : threadM f xs s = .ok (t, ys)) :
    List.Forall₂ (fun x y => ∃ s t, f s x = .ok (t, y)) xs ys := by
  induction xs generalizing s ys with
  | nil =>
    obtain ⟨-, rfl⟩ := threadM_nil.mp h
    exact .nil
  | cons x xs ih =>
    obtain ⟨u, y, zs, hf, hxs, rfl⟩ := threadM_cons.mp h
    exact .cons ⟨s, u, hf⟩ (ih hxs)

theorem threadM_error {e : ε} (h : threadM f xs s = .error e) : ∃ x ∈ xs, ∃ s, f s x = .error e := by
  induction xs generalizing s with
  | nil => cases h
  | cons x xs ih =>
    rw [threadM, except_bind_error] at h
    rcases h with h | ⟨r, -, h⟩
    · exact ⟨x, List.mem_cons_self, s, h⟩
    · rcases except_bind_error.mp h with h | ⟨_, -, h⟩
      · obtain ⟨y, hy, hf⟩ := ih h
        exact ⟨y, List.mem_cons_of_mem x hy, hf⟩
      · cases h

theorem exists_round (h : threadM f xs s = .ok (t, ys)) {y : β} (hy : y ∈ ys) :
    ∃ x ∈ xs, ∃ s t, f s x = .ok (t, y) := by
  have hrounds := threadM_rounds h
  obtain ⟨i, hi, rfl⟩ := List.getElem_of_mem hy
  exact ⟨_, List.getElem_mem _, List.Forall₂.get hrounds (hrounds.length_eq ▸ hi) hi⟩

theorem exists_round_of_mem (h : threadM f xs s = .ok (t, ys)) (hx : x ∈ xs) :
    ∃ s t y, f s x = .ok (t, y) := by
  have hrounds := threadM_rounds h
  obtain ⟨i, hi, rfl⟩ := List.getElem_of_mem hx
  obtain ⟨s, t, hf⟩ := List.Forall₂.get hrounds hi (hrounds.length_eq ▸ hi)
  exact ⟨s, t, _, hf⟩

end Thread

/-- The error a computation ends in. -/
def failure : Except ε α → Option ε
  | .ok _ => none
  | .error e => some e

theorem failure_eq_some {x : Except ε α} {e : ε} : failure x = some e ↔ x = .error e := by
  cases x <;> simp [failure]

end Except

end EgLang.Library
