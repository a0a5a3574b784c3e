import Mathlib.Tactic

/-!
# Cursors

A cursor is advanced until it is at its end, and dereferenced before every advance. Advancing looks at
items, which are logged; advancing or dereferencing a cursor that points nowhere fails.
-/

namespace EgLang.Library

set_option autoImplicit false

structure Cursor (I R T : Type) where
  atEnd : I → Bool
  deref : I → Option R
  next : I → Option (I × List T)

namespace Cursor
variable {I R T : Type} (C : Cursor I R T)

/-- The loop over a cursor, for at most `n` looks at it: what was dereferenced and what was looked
at. -/
def loop : ℕ → I → Option (List R × List T)
  | 0, _ => none
  | n + 1, i =>
    if C.atEnd i then some ([], [])
    else
      match C.deref i, C.next i with
      | some r, some (i', ts) =>
        match loop n i' with
        | some (rs, ts') => some (r :: rs, ts ++ ts')
        | none => none
      | _, _ => none

/-- The loop ends after it has dereferenced `rs` and looked at `ts`. -/
inductive Visits : I → List R → List T → Prop
  | done {i : I} (hend : C.atEnd i = true) : Visits i [] []
  | step {i i' : I} {r : R} {rs : List R} {ts ts' : List T} (hnot : C.atEnd i = false)
      (hderef : C.deref i = some r) (hnext : C.next i = some (i', ts)) (hrest : Visits i' rs ts') :
      Visits i (r :: rs) (ts ++ ts')

variable {C} {i : I} {rs : List R} {ts : List T}

theorem Visits.exists_loop (h : Visits C i rs ts) : ∃ n, C.loop n i = some (rs, ts) := by
  induction h with
  | done hend => exact ⟨1, by rw [loop, if_pos hend]⟩
  | step hnot hderef hnext hrest ih =>
    obtain ⟨n, hn⟩ := ih
    refine ⟨n + 1, ?_⟩
    rw [loop, if_neg (by simp [hnot]), hderef, hnext]
    simp only [hn]

end Cursor

end EgLang.Library
