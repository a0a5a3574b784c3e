import Mathlib.Tactic.Common

/-!
# Computations with a fuel

A loop that need not end is run with a fuel and stops with a fault of its own when the fuel is
used up. Two such computations are compared: the first one *lags* behind the second if it does the
same or is out of fuel. A measure of the state bounds the fuel that a computation needs.
-/

namespace EgLang.Library
set_option autoImplicit false

section Fuel
variable {σ ε α β : Type}

/-- Results up to a fault: the first one is the second, which is none of the faults in `S`, or it is
the fault `e`; in that case the second one is the fault in `S`, if there is one. -/
def Behind (e : ε) (S : Option ε) (r r' : Except ε α) : Prop :=
  (r = r' ∧ ∀ e' ∈ S, r' ≠ .error e') ∨ (r = .error e ∧ ∀ e' ∈ S, r' = .error e')

/-- `m` lags behind `m'` from every state. -/
def Lags (e : ε) (S : Option ε) (m m' : StateT σ (Except ε) α) : Prop :=
  ∀ s, Behind e S (m s) (m' s)

variable {e : ε} {S : Option ε}

theorem Lags.bind {m m' : StateT σ (Except ε) α} {f f' : α → StateT σ (Except ε) β}
    (hm : Lags e S m m') (hf : ∀ a, Lags e S (f a) (f' a)) : Lags e S (m >>= f) (m' >>= f') := by
  intro s
  change Behind e S (m s >>= fun p => f p.1 p.2) (m' s >>= fun p => f' p.1 p.2)
  rcases hm s with ⟨heq, hne⟩ | ⟨herr, hS⟩
  · rw [heq]
    cases hr : m' s with
    | error e1 =>
      refine .inl ⟨rfl, fun e' he' h => hne e' he' ?_⟩
      have h1 : (Except.error e1 : Except ε (β × σ)) = .error e' := h
      rw [hr, Except.error.inj h1]
    | ok p => exact hf p.1 p.2
  · rw [herr]
    refine .inr ⟨rfl, fun e' he' => ?_⟩
    rw [hS e' he']
    rfl

/-- A computation lags behind itself if it has none of the faults in `S`. -/
theorem Lags.refl {m : StateT σ (Except ε) α} (h : ∀ s, ∀ e' ∈ S, m s ≠ .error e') :
    Lags e S m m :=
  fun s => .inl ⟨rfl, h s⟩

/-! ## Bounded results -/

variable (size : σ → ℕ) (F : ε → Prop)

/-- The result leaves a state of size at most `k`, or it is one of the faults `F`. -/
def Bounded (k : ℕ) : Except ε (α × σ) → Prop
  | .ok (_, s) => size s ≤ k
  | .error e => F e

variable {size F}

theorem Bounded.mono {k k' : ℕ} {G : ε → Prop} {r : Except ε (α × σ)} (h : Bounded size F k r)
    (hk : k ≤ k') (hG : ∀ e, F e → G e) : Bounded size G k' r := by
  cases r with
  | error e => exact hG e h
  | ok p => exact Nat.le_trans (show size p.2 ≤ k from h) hk

theorem Bounded.bind {k k' : ℕ} {m : StateT σ (Except ε) α} {f : α → StateT σ (Except ε) β} {s : σ}
    (hm : Bounded size F k (m s)) (hf : ∀ a s', size s' ≤ k → Bounded size F k' (f a s')) :
    Bounded size F k' ((m >>= f) s) := by
  change Bounded size F k' (m s >>= fun p => f p.1 p.2)
  cases hr : m s with
  | error e =>
    rw [hr] at hm
    exact hm
  | ok p =>
    rw [hr] at hm
    exact hf p.1 p.2 hm

theorem Bounded.ne_error {k : ℕ} {r : Except ε (α × σ)} (h : Bounded size F k r) {e : ε}
    (he : ¬ F e) : r ≠ .error e := by
  intro hr
  rw [hr] at h
  exact he h

end Fuel

end EgLang.Library
