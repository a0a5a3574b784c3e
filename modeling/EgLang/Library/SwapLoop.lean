import Mathlib.Data.Nat.Notation
import Mathlib.Logic.Function.Basic
import EgLang.Library.StepSystem

/-!
# Loops around a compare-and-swap

A cell that any number of writers change, each by a loop: read the cell, work out what to put there,
and swap it in if the cell still holds what was read. A swap may fail for no reason, and a value that is
read may be any the cell has held. What the loops that have ended have done to the cell is what they
would have done one after another, each at once.
-/

namespace EgLang.Library

set_option autoImplicit false

/-- The cell, the values it has held (the present one first), the writers in their loops, each with its
argument and the value it has last read, and the arguments and results of the loops that have ended, in
the order of their swaps. -/
structure SwapCell (α ι β : Type) where
  cell : α
  held : List α
  loops : ℕ → Option (ι × α)
  completed : List (ι × β)

inductive SwapInput (α ι : Type)
  /-- A writer enters its loop and loads the cell. -/
  | load (writer : ℕ) (argument : ι) (seen : α)
  /-- A writer attempts its swap; if that fails it has loaded the cell again. -/
  | exchange (writer : ℕ) (spurious : Bool) (seen : α)

namespace SwapCell
variable {α ι β ε : Type}

/-- A cell that nothing has happened to. -/
def new (a : α) : SwapCell α ι β := ⟨a, [a], fun _ => none, []⟩

/-- One step of one writer, where `update` is the body of the loop: the value to put in the cell and
what the writer returns. A writer whose body throws leaves its loop. -/
def step [DecidableEq α] (update : ι → α → Except ε (α × β)) (s : SwapCell α ι β) :
    SwapInput α ι → Except ε (SwapCell α ι β)
  | .load w argument seen =>
    .ok { s with loops := Function.update s.loops w (some (argument, seen)) }
  | .exchange w spurious seen =>
    match s.loops w with
    | none => .ok s
    | some (argument, expected) =>
      match update argument expected with
      | .error _ => .ok { s with loops := Function.update s.loops w none }
      | .ok (desired, result) =>
        if s.cell = expected ∧ spurious = false then
          .ok { cell := desired
                held := desired :: s.held
                loops := Function.update s.loops w none
                completed := s.completed ++ [(argument, result)] }
        else .ok { s with loops := Function.update s.loops w (some (argument, seen)) }

/-- What is read is a value the cell has held. -/
def Reads (s : SwapCell α ι β) : SwapInput α ι → Prop
  | .load _ _ seen | .exchange _ _ seen => seen ∈ s.held

/-- The arguments with which the loops are entered. -/
def Enters (P : ι → Prop) : SwapInput α ι → Prop
  | .load _ argument _ => P argument
  | .exchange _ _ _ => True

/-! ## What one step does -/

variable [DecidableEq α] {update : ι → α → Except ε (α × β)} {s t : SwapCell α ι β}

/-- A step leaves the cell alone, and no loop gets an argument or a value other than those of the
input; or it puts in the cell what the body makes of the value there. -/
theorem step_cases {i : SwapInput α ι} (h : s.step update i = .ok t) :
    (t.cell = s.cell ∧ t.held = s.held ∧ t.completed = s.completed) ∨
      ∃ w argument desired result, (s.loops w = some (argument, s.cell)) ∧
        update argument s.cell = .ok (desired, result) ∧ t.cell = desired ∧
          t.held = desired :: s.held ∧ t.completed = s.completed ++ [(argument, result)] := by
  cases i with
  | load w argument seen =>
    cases h
    exact .inl ⟨rfl, rfl, rfl⟩
  | exchange w spurious seen =>
    unfold step at h
    dsimp only at h
    split at h
    · cases h
      exact .inl ⟨rfl, rfl, rfl⟩
    · rename_i argument expected hloop
      split at h
      · cases h
        exact .inl ⟨rfl, rfl, rfl⟩
      · rename_i desired result hupdate
        split at h
        · rename_i hcell
          cases h
          obtain ⟨rfl, -⟩ := hcell
          exact .inr ⟨w, argument, desired, result, hloop, hupdate, rfl, rfl, rfl⟩
        · cases h
          exact .inl ⟨rfl, rfl, rfl⟩

/-- A loop has the argument it was entered with. -/
theorem step_loops {P : ι → Prop} {i : SwapInput α ι} (h : s.step update i = .ok t)
    (hi : Enters P i) (hs : ∀ w c, s.loops w = some c → P c.1) :
    ∀ w c, t.loops w = some c → P c.1 := by
  have hset : ∀ (w : ℕ) (o : Option (ι × α)), (∀ c, o = some c → P c.1) →
      ∀ v c, Function.update s.loops w o v = some c → P c.1 := by
    intro w o ho v c hc
    by_cases hv : v = w
    · subst hv
      rw [Function.update_self] at hc
      exact ho c hc
    · rw [Function.update_of_ne hv] at hc
      exact hs v c hc
  cases i with
  | load w argument seen =>
    cases h
    refine hset w _ fun c hc => ?_
    cases hc
    exact hi
  | exchange w spurious seen =>
    unfold step at h
    dsimp only at h
    split at h
    · cases h
      exact hs
    · rename_i argument expected hloop
      have hargument : P argument := hs w _ hloop
      split at h
      · cases h
        exact hset w none fun c hc => by cases hc
      · split at h
        · cases h
          exact hset w none fun c hc => by cases hc
        · cases h
          refine hset w _ fun c hc => ?_
          cases hc
          exact hargument

/-! ## Runs -/

variable (update) in
/-- Updates made one after another, each at once. -/
inductive Sequence : α → List (ι × β) → α → Prop
  | nil (a : α) : Sequence a [] a
  | snoc {a b c : α} {l : List (ι × β)} {argument : ι} {result : β} (h : Sequence a l b)
      (hupdate : update argument b = .ok (c, result)) : Sequence a (l ++ [(argument, result)]) c

variable {P : ι → Prop}

/-- The loops that have ended and those still running have arguments they were entered with. -/
theorem arguments_of_reaches {a : α} {guard : SwapCell α ι β → SwapInput α ι → Prop}
    (hguard : ∀ s i, guard s i → Enters P i) (h : Reaches (step update) guard (new a) s) :
    (∀ w c, s.loops w = some c → P c.1) ∧ ∀ c ∈ s.completed, P c.1 := by
  refine Steps.invariant (fun s => (∀ w c, s.loops w = some c → P c.1) ∧ ∀ c ∈ s.completed, P c.1) h
    ⟨fun w c hc => (by cases hc), fun c hc => (by cases hc)⟩ fun s i t hs hi hst => ?_
  refine ⟨step_loops hst (hguard s i hi) hs.1, ?_⟩
  rcases step_cases hst with ⟨-, -, hcompleted⟩ | ⟨w, argument, _, result, hloop, -, -, -, hcompleted⟩
  · rw [hcompleted]
    exact hs.2
  · intro c hc
    rw [hcompleted, List.mem_append, List.mem_singleton] at hc
    rcases hc with hc | rfl
    · exact hs.2 c hc
    · exact hs.1 w _ hloop

/-- **Main result.** The loops that have ended have done what they would have done one after another. -/
theorem sequence_of_reaches {a : α} {guard : SwapCell α ι β → SwapInput α ι → Prop}
    (h : Reaches (step update) guard (new a) s) : Sequence update a s.completed s.cell := by
  refine Steps.invariant (fun s => Sequence update a s.completed s.cell) h (.nil a)
    fun s i t hs _ hst => ?_
  rcases step_cases hst with ⟨hcell, -, hcompleted⟩ | ⟨_, _, _, _, -, hupdate, hcell, -, hcompleted⟩
  · rw [hcell, hcompleted]
    exact hs
  · rw [hcell, hcompleted]
    exact hs.snoc hupdate

/-- What the body of the loop preserves of the cell is preserved by runs. -/
theorem rel_of_reaches {R : α → α → Prop} (hrefl : ∀ a, R a a)
    (htrans : ∀ {a b c}, R a b → R b c → R a c) {a : α}
    {guard : SwapCell α ι β → SwapInput α ι → Prop} (hguard : ∀ s i, guard s i → Enters P i)
    (hupdate : ∀ {argument a b result}, P argument → update argument a = .ok (b, result) → R a b)
    (hs : Reaches (step update) guard (new a) s) (hst : Reaches (step update) guard s t) :
    R s.cell t.cell := by
  refine Steps.invariant_with (fun u => Reaches (step update) guard (new a) u) (fun u => R s.cell u.cell)
    hst (fun u hu => hs.trans hu) (hrefl _) fun u i v hu hR _ huv => ?_
  rcases step_cases huv with ⟨hcell, -, -⟩ | ⟨w, argument, _, _, hloop, hup, hcell, -, -⟩
  · rw [hcell]
    exact hR
  · rw [hcell]
    exact htrans hR (hupdate ((arguments_of_reaches hguard hu).1 w _ hloop) hup)

end SwapCell

end EgLang.Library
