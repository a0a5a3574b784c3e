import Mathlib.Order.Defs.LinearOrder
import Mathlib.Tactic

/-! # References

A reference names one incarnation of an instance of an action: the instance, its concrete type and
the time stamp of its last start. Time stamp `0` is invalid: all references that carry it are null
and compare equal, whatever their other fields, while the order tells them apart.
-/

namespace EgLang
set_option autoImplicit false

def INVALID_TIMESTAMP : ℕ := 0

/-- `eg::reference`. -/
structure Reference where
  inst : ℕ
  type : ℤ
  timestamp : ℕ
deriving DecidableEq, Repr

namespace Reference

/-- The default constructed reference. -/
def null : Reference := ⟨0, 0, INVALID_TIMESTAMP⟩

instance : Inhabited Reference := ⟨null⟩

/-- `operator==`. -/
def equal (a b : Reference) : Bool :=
  (a.timestamp == INVALID_TIMESTAMP && b.timestamp == INVALID_TIMESTAMP) ||
    (a.inst == b.inst && a.type == b.type && a.timestamp == b.timestamp)

/-- `operator<`. -/
def less (a b : Reference) : Bool :=
  if a.inst ≠ b.inst then a.inst < b.inst
  else if a.type ≠ b.type then a.type < b.type
  else if a.timestamp ≠ b.timestamp then a.timestamp < b.timestamp
  else false

theorem equal_iff (a b : Reference) :
    a.equal b = true ↔ (a.timestamp = 0 ∧ b.timestamp = 0) ∨ a = b := by
  cases a
  cases b
  simp [equal, INVALID_TIMESTAMP, and_assoc]

@[simp] theorem equal_self (a : Reference) : a.equal a = true := by simp [equal_iff]

theorem equal_comm (a b : Reference) : a.equal b = b.equal a := by
  rw [Bool.eq_iff_iff, equal_iff, equal_iff, and_comm, eq_comm (a := a)]

theorem equal_trans {a b c : Reference} (h1 : a.equal b = true) (h2 : b.equal c = true) :
    a.equal c = true := by
  rw [equal_iff] at *
  rcases h1 with ⟨ha, hb⟩ | rfl
  · rcases h2 with ⟨_, hc⟩ | rfl
    · exact .inl ⟨ha, hc⟩
    · exact .inl ⟨ha, hb⟩
  · exact h2

theorem less_iff (a b : Reference) :
    a.less b = true ↔ a.inst < b.inst ∨ (a.inst = b.inst ∧ (a.type < b.type ∨
      (a.type = b.type ∧ a.timestamp < b.timestamp))) := by
  simp only [less]
  split_ifs with h1 h2 h3 <;> simp <;> omega

/-- `operator<` is a total order whose equality is that of all three fields. -/
instance : LinearOrder Reference where
  le a b := b.less a = false
  lt a b := a.less b = true
  le_refl a := by simp [less]
  le_trans a b c := by
    simp only [← Bool.not_eq_true, less_iff]
    omega
  lt_iff_le_not_ge a b := by
    simp only [← Bool.not_eq_true, less_iff]
    omega
  le_antisymm a b h1 h2 := by
    cases a
    cases b
    simp only [← Bool.not_eq_true, less_iff] at h1 h2
    simp only [mk.injEq]
    omega
  le_total a b := by
    simp only [← Bool.not_eq_true, less_iff]
    omega
  toDecidableLE a b := inferInstanceAs (Decidable (b.less a = false))
  toDecidableLT a b := inferInstanceAs (Decidable (a.less b = true))
  toDecidableEq := inferInstance

end Reference
end EgLang
