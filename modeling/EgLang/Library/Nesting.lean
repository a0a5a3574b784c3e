import Mathlib.Data.List.Basic

/-!
# Nested brackets

Words with brackets of several kinds: a scan keeps the brackets that are open, and a word is balanced
where nothing is left open and every bracket is closed by one of its kind.
-/

namespace EgLang.Library

set_option autoImplicit false

/-- The letters that open and that close a bracket of some kind. -/
structure Brackets (α β : Type) where
  opens : α → Option β
  closes : α → Option β

namespace Brackets
variable {α β : Type} [DecidableEq β] (b : Brackets α β)

/-- One letter, with the brackets that are open: `none` where it closes what is not open. -/
def step (a : α) (stack : List β) : Option (List β) :=
  match b.opens a, b.closes a, stack with
  | some kind, _, stack => some (kind :: stack)
  | none, none, stack => some stack
  | none, some kind, top :: stack => if kind = top then some stack else none
  | none, some _, [] => none

/-- The brackets that are open after a word. -/
def scan : List α → List β → Option (List β)
  | [], stack => some stack
  | a :: l, stack => (b.step a stack).bind (scan l)

/-- Every bracket of a word is closed, by one of its kind. -/
def Balanced (l : List α) : Prop := b.scan l [] = some []

instance (l : List α) : Decidable (b.Balanced l) :=
  inferInstanceAs (Decidable (b.scan l [] = some []))

variable {b}

@[simp] theorem scan_nil (stack : List β) : b.scan [] stack = some stack := rfl

@[simp] theorem scan_cons (a : α) (l : List α) (stack : List β) :
    b.scan (a :: l) stack = (b.step a stack).bind (b.scan l) := rfl

theorem scan_append (l l' : List α) (stack : List β) :
    b.scan (l ++ l') stack = (b.scan l stack).bind (b.scan l') := by
  induction l generalizing stack with
  | nil => rfl
  | cons a l ih =>
    rw [List.cons_append, scan_cons, scan_cons]
    cases b.step a stack with
    | none => rfl
    | some stack' => exact ih stack'

/-- What lies under the open brackets of a letter stays there. -/
theorem step_under {a : α} {stack stack' : List β} (h : b.step a stack = some stack')
    (under : List β) : b.step a (stack ++ under) = some (stack' ++ under) := by
  unfold step at h ⊢
  cases hopens : b.opens a with
  | some kind =>
    rw [hopens] at h
    rw [← Option.some.inj h]
    rfl
  | none =>
    cases hcloses : b.closes a with
    | none =>
      rw [hopens, hcloses] at h
      rw [← Option.some.inj h]
    | some kind =>
      rw [hopens, hcloses] at h
      cases stack with
      | nil => cases h
      | cons top stack =>
        dsimp only [List.cons_append] at h ⊢
        split at h
        · rename_i hkind
          rw [if_pos hkind, ← Option.some.inj h]
        · cases h

theorem scan_under {l : List α} {stack stack' : List β} (h : b.scan l stack = some stack')
    (under : List β) : b.scan l (stack ++ under) = some (stack' ++ under) := by
  induction l generalizing stack with
  | nil =>
    rw [scan_nil] at h ⊢
    rw [Option.some.inj h]
  | cons a l ih =>
    rw [scan_cons] at h ⊢
    obtain ⟨middle, hstep, hscan⟩ := Option.bind_eq_some_iff.mp h
    rw [step_under hstep]
    exact ih hscan

/-- A balanced word leaves all open brackets as they are. -/
theorem Balanced.scan {l : List α} (h : b.Balanced l) (stack : List β) :
    b.scan l stack = some stack := by
  have hunder := scan_under h stack
  rwa [List.nil_append] at hunder

@[simp] theorem balanced_nil : b.Balanced [] := rfl

theorem Balanced.append {l l' : List α} (h : b.Balanced l) (h' : b.Balanced l') :
    b.Balanced (l ++ l') := by
  rw [Balanced, scan_append, h, Option.bind_some, h']

/-- Letters that are no brackets are balanced. -/
theorem balanced_of_plain {l : List α} (h : ∀ a ∈ l, b.opens a = none ∧ b.closes a = none) :
    b.Balanced l := by
  induction l with
  | nil => rfl
  | cons a l ih =>
    rw [List.forall_mem_cons] at h
    have hstep : b.step a [] = some [] := by
      unfold step
      rw [h.1.1, h.1.2]
    rw [Balanced, scan_cons, hstep]
    exact ih h.2

/-- Words that are balanced are so together. -/
theorem balanced_flatMap {γ : Type} {f : γ → List α} {xs : List γ} (h : ∀ x ∈ xs, b.Balanced (f x)) :
    b.Balanced (xs.flatMap f) := by
  induction xs with
  | nil => rfl
  | cons x xs ih =>
    rw [List.forall_mem_cons] at h
    exact h.1.append (ih h.2)

/-- The open brackets of a kind: a letter that opens adds one, one that closes takes one away. -/
theorem count_step {a : α} {stack stack' : List β} (h : b.step a stack = some stack') (kind : β) :
    stack.count kind + (if b.opens a = some kind then 1 else 0) =
      stack'.count kind + (if b.opens a = none ∧ b.closes a = some kind then 1 else 0) := by
  unfold step at h
  cases hopens : b.opens a with
  | some kind' =>
    rw [hopens] at h
    rw [← Option.some.inj h]
    simp [List.count_cons]
  | none =>
    cases hcloses : b.closes a with
    | none =>
      rw [hopens, hcloses] at h
      simp [Option.some.inj h]
    | some kind' =>
      rw [hopens, hcloses] at h
      cases stack with
      | nil => cases h
      | cons top stack =>
        dsimp only at h
        split at h
        · rename_i hkind
          rw [← Option.some.inj h, hkind]
          simp [List.count_cons]
        · cases h

end Brackets
end EgLang.Library
