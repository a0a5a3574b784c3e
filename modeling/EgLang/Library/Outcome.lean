import Mathlib.Tactic.Common

/-!
# Outcomes of computations that may fail

A computation either yields a value, of which something is promised, or it stops with a fault, which
is one of those that are allowed. Sequences and loops meet what their parts meet.
-/

namespace EgLang.Library
set_option autoImplicit false

section Outcome
variable {ε α β : Type} {Q : ε → Prop}

/-- The value is as promised, or the fault is allowed. -/
def Meets (Q : ε → Prop) (P : α → Prop) : Except ε α → Prop
  | .ok a => P a
  | .error e => Q e

@[simp] theorem meets_ok {P : α → Prop} {a : α} : Meets Q P (.ok a) ↔ P a := Iff.rfl

@[simp] theorem meets_error {P : α → Prop} {e : ε} : Meets Q P (.error e : Except ε α) ↔ Q e := Iff.rfl

theorem Meets.imp {P R : α → Prop} {m : Except ε α} (h : Meets Q P m) (hPR : ∀ a, P a → R a) :
    Meets Q R m := by
  cases m with
  | error e => exact h
  | ok a => exact hPR a h

theorem Meets.imp_fault {R : ε → Prop} {P : α → Prop} {m : Except ε α} (h : Meets Q P m)
    (hQR : ∀ e, Q e → R e) : Meets R P m := by
  cases m with
  | error e => exact hQR e h
  | ok a => exact h

theorem Meets.bind {P : α → Prop} {R : β → Prop} {m : Except ε α} {f : α → Except ε β}
    (hm : Meets Q P m) (hf : ∀ a, P a → Meets Q R (f a)) : Meets Q R (m >>= f) := by
  cases m with
  | error e => exact hm
  | ok a => exact hf a hm

/-- **Loop rule.** -/
theorem Meets.foldlM {I : α → Prop} {f : α → β → Except ε α} {xs : List β} {a : α} (ha : I a)
    (hf : ∀ x ∈ xs, ∀ a, I a → Meets Q I (f a x)) : Meets Q I (xs.foldlM f a) := by
  induction xs generalizing a with
  | nil => exact ha
  | cons x xs ih =>
    rw [List.foldlM_cons]
    refine Meets.bind (hf x List.mem_cons_self a ha) fun b hb => ?_
    exact ih hb fun y hy => hf y (List.mem_cons_of_mem x hy)

theorem Meets.of_ok {P : α → Prop} {m : Except ε α} {a : α} (h : Meets Q P m) (hm : m = .ok a) :
    P a := by
  subst hm
  exact h

theorem Meets.of_error {P : α → Prop} {m : Except ε α} {e : ε} (h : Meets Q P m)
    (hm : m = .error e) : Q e := by
  subst hm
  exact h

/-- A computation that has no fault yields a value. -/
theorem Meets.exists_ok {P : α → Prop} {m : Except ε α} (h : Meets Q P m) (hQ : ∀ e, ¬ Q e) :
    ∃ a, m = .ok a ∧ P a := by
  cases m with
  | error e => exact absurd h (hQ e)
  | ok a => exact ⟨a, rfl, h⟩

end Outcome
end EgLang.Library
