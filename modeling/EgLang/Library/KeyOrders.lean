import Mathlib.Order.Defs.LinearOrder
import Mathlib.Order.Basic
import Mathlib.Data.Set.Basic
import Mathlib.Data.List.TakeWhile
import Mathlib.Tactic

/-!
# Orders on keys with optional parts

Keys are compared part by part. A part that both keys have, and in which they differ, decides; a part
that one of them lacks is passed over and the next one is asked. The relation is asymmetric, and it is
a strict order that tells all keys of a set apart unless two keys agree on every part both have, or
two keys that a part decides are put the other way round by way of a third key without that part.
-/

namespace EgLang.Library

set_option autoImplicit false

section Relations
variable {K : Type} (lt : K → K → Prop) (S : Set K)

/-- Neither of the two comes first. -/
def Incomparable (a b : K) : Prop :=
  ¬ lt a b ∧ ¬ lt b a

/-- A strict weak order on the elements of a set. -/
structure StrictWeakOn : Prop where
  irrefl : ∀ a ∈ S, ¬ lt a a
  trans : ∀ a ∈ S, ∀ b ∈ S, ∀ c ∈ S, lt a b → lt b c → lt a c
  incomp_trans : ∀ a ∈ S, ∀ b ∈ S, ∀ c ∈ S,
    Incomparable lt a b → Incomparable lt b c → Incomparable lt a c

def TellsApart : Prop :=
  ∀ a ∈ S, ∀ b ∈ S, (Incomparable lt a b ↔ a = b)

/-- Three elements that go round in a circle. -/
def Circular (a b c : K) : Prop :=
  lt a b ∧ lt b c ∧ lt c a

def NoCircle : Prop :=
  ∀ a ∈ S, ∀ b ∈ S, ∀ c ∈ S, ¬ Circular lt a b c

variable {lt S}

theorem StrictWeakOn.noCircle (h : StrictWeakOn lt S) : NoCircle lt S := by
  intro a ha b hb c hc hcircle
  have hac : lt a c := h.trans a ha b hb c hc hcircle.1 hcircle.2.1
  exact h.irrefl a ha (h.trans a ha c hc a ha hac hcircle.2.2)

/-- An asymmetric relation that tells the elements of a set apart orders them unless three of them
go round in a circle. -/
theorem strictWeakOn_iff_noCircle (hasymm : ∀ a b, lt a b → ¬ lt b a) (happart : TellsApart lt S) :
    StrictWeakOn lt S ↔ NoCircle lt S := by
  refine ⟨StrictWeakOn.noCircle, fun hcircle => ⟨?_, ?_, ?_⟩⟩
  · intro a _ h
    exact hasymm a a h h
  · intro a ha b hb c hc hab hbc
    by_contra hac
    by_cases hca : lt c a
    · exact hcircle a ha b hb c hc ⟨hab, hbc, hca⟩
    · have heq : a = c := (happart a ha c hc).mp ⟨hac, hca⟩
      subst heq
      exact hasymm a b hab hbc
  · intro a ha b hb c hc hab hbc
    rw [happart a ha c hc]
    exact ((happart a ha b hb).mp hab).trans ((happart b hb c hc).mp hbc)

end Relations

/-! ## Optional parts -/

section Parts
variable {α : Type} {x y z : Option α}

/-- Both are there, and they differ. -/
def Apart (x y : Option α) : Prop :=
  ∃ a b, x = some a ∧ y = some b ∧ a ≠ b

@[simp] theorem apart_some_iff (a b : α) : Apart (some a) (some b) ↔ a ≠ b := by
  simp [Apart]

@[simp] theorem not_apart_none_left : ¬ Apart none y := by
  simp [Apart]

@[simp] theorem not_apart_none_right : ¬ Apart x none := by
  simp [Apart]

theorem apart_comm : Apart x y ↔ Apart y x := by
  cases x <;> cases y <;> simp [ne_comm]

instance Apart.decidable [DecidableEq α] : ∀ x y : Option α, Decidable (Apart x y)
  | none, _ => isFalse not_apart_none_left
  | some _, none => isFalse not_apart_none_right
  | some a, some b => decidable_of_iff (a ≠ b) (apart_some_iff a b).symm

variable [LinearOrder α]

/-- Both are there, and the first is the smaller one. -/
def Ahead (x y : Option α) : Prop :=
  ∃ a b, x = some a ∧ y = some b ∧ a < b

@[simp] theorem ahead_some_iff (a b : α) : Ahead (some a) (some b) ↔ a < b := by
  simp [Ahead]

@[simp] theorem not_ahead_none_left : ¬ Ahead none y := by
  simp [Ahead]

@[simp] theorem not_ahead_none_right : ¬ Ahead x none := by
  simp [Ahead]

instance Ahead.decidable : ∀ x y : Option α, Decidable (Ahead x y)
  | none, _ => isFalse not_ahead_none_left
  | some _, none => isFalse not_ahead_none_right
  | some a, some b => decidable_of_iff (a < b) (ahead_some_iff a b).symm

theorem apart_iff_ahead : Apart x y ↔ Ahead x y ∨ Ahead y x := by
  cases x <;> cases y <;> simp

theorem Ahead.apart (h : Ahead x y) : Apart x y :=
  apart_iff_ahead.mpr (.inl h)

theorem Ahead.asymm (h : Ahead x y) : ¬ Ahead y x := by
  obtain ⟨a, b, rfl, rfl, hab⟩ := h
  simpa using hab.le

/-- Where two parts are in order, a third one that neither is apart from is missing. -/
theorem Ahead.eq_none (h : Ahead x y) (hy : ¬ Apart y z) (hx : ¬ Apart z x) : z = none := by
  obtain ⟨a, b, rfl, rfl, hab⟩ := h
  cases z with
  | none => rfl
  | some c =>
    simp only [apart_some_iff, ne_eq, not_not] at hx hy
    exact absurd (hy.trans hx) hab.ne'

/-- Two comparisons in a row leave the third open only one way. -/
theorem Ahead.not_turn (hxy : Ahead x y) (hyz : Ahead y z) : Ahead x z := by
  obtain ⟨a, b, rfl, rfl, hab⟩ := hxy
  obtain ⟨b', c, hb, rfl, hbc⟩ := hyz
  obtain rfl : b = b' := by simpa using hb
  simpa using hab.trans hbc

end Parts

/-! ## Comparing by one part, then by the rest -/

section NotApart
variable {K α : Type} {part : K → Option α} {a b c : K}

/-- The part does not tell any two of the three apart. -/
def NotApart (part : K → Option α) (a b c : K) : Prop :=
  ¬ Apart (part a) (part b) ∧ ¬ Apart (part b) (part c) ∧ ¬ Apart (part c) (part a)

theorem NotApart.turn (h : NotApart part a b c) : NotApart part b c a :=
  ⟨h.2.1, h.2.2, h.1⟩

end NotApart

section ByPart
variable {K α : Type} [LinearOrder α] (part : K → Option α) (rest : K → K → Prop)

def byPart (a b : K) : Prop :=
  Ahead (part a) (part b) ∨ ¬ Apart (part a) (part b) ∧ rest a b

/-- The part puts `a` before `b`, the rest puts `b` before `a` by way of a key without the part. -/
def Twisted (a b k : K) : Prop :=
  Ahead (part a) (part b) ∧ part k = none ∧ rest b k ∧ rest k a

variable {part rest} {a b c : K}

theorem byPart_of_some {x y : α} (ha : part a = some x) (hb : part b = some y) :
    byPart part rest a b ↔ if x ≠ y then x < y else rest a b := by
  rw [byPart, ha, hb, ahead_some_iff, apart_some_iff]
  by_cases hxy : x = y
  · simp [hxy]
  · simp [hxy]

theorem byPart_of_none_left (ha : part a = none) : byPart part rest a b ↔ rest a b := by
  simp [byPart, ha]

theorem byPart_of_none_right (hb : part b = none) : byPart part rest a b ↔ rest a b := by
  simp [byPart, hb]

theorem byPart_asymm (hrest : ∀ a b, rest a b → ¬ rest b a) (h : byPart part rest a b) :
    ¬ byPart part rest b a := by
  rintro (hba | ⟨hnot, hba⟩)
  · rcases h with hab | ⟨hnot, -⟩
    · exact hab.asymm hba
    · exact hnot (apart_comm.mp hba.apart)
  · rcases h with hab | ⟨-, hab⟩
    · exact hnot (apart_comm.mp hab.apart)
    · exact hrest a b hab hba

/-- Two keys are left incomparable when the part does not tell them apart, nor does the rest. -/
theorem incomparable_byPart_iff :
    Incomparable (byPart part rest) a b ↔ ¬ Apart (part a) (part b) ∧ Incomparable rest a b := by
  have hcomm : Apart (part b) (part a) ↔ Apart (part a) (part b) := apart_comm
  have hapart : Apart (part a) (part b) ↔ _ := apart_iff_ahead
  simp only [Incomparable, byPart, hcomm]
  tauto

/-- Where the part decides `a` before `b`, a circle closes through a key without the part. -/
theorem twisted_of_circular (hab : Ahead (part a) (part b)) (hbc : byPart part rest b c)
    (hca : byPart part rest c a) : Twisted part rest a b c := by
  have hbc' : ¬ Apart (part b) (part c) ∧ rest b c := by
    refine hbc.resolve_left fun hbc => ?_
    have hac := hab.not_turn hbc
    rcases hca with hca | ⟨hnot, -⟩
    · exact hac.asymm hca
    · exact hnot (apart_comm.mp hac.apart)
  have hca' : ¬ Apart (part c) (part a) ∧ rest c a := by
    refine hca.resolve_left fun hca => ?_
    have hcb := hca.not_turn hab
    exact hbc'.1 (apart_comm.mp hcb.apart)
  exact ⟨hab, hab.eq_none hbc'.1 hca'.1, hbc'.2, hca'.2⟩

theorem Twisted.circular (h : Twisted part rest a b c) : Circular (byPart part rest) a b c := by
  obtain ⟨hab, hnone, hbc, hca⟩ := h
  refine ⟨.inl hab, .inr ⟨?_, hbc⟩, .inr ⟨?_, hca⟩⟩
  · rw [hnone]
    exact not_apart_none_right
  · rw [hnone]
    exact not_apart_none_left

theorem Circular.turn {lt : K → K → Prop} (h : Circular lt a b c) : Circular lt b c a :=
  ⟨h.2.1, h.2.2, h.1⟩

/-- A circle of a comparison is a twist of its part, or a circle of the rest among keys the part does
not tell apart. -/
theorem circular_byPart_iff : Circular (byPart part rest) a b c ↔
    (Twisted part rest a b c ∨ Twisted part rest b c a ∨ Twisted part rest c a b) ∨
      NotApart part a b c ∧ Circular rest a b c := by
  constructor
  · intro h
    obtain ⟨hab, hbc, hca⟩ := h
    rcases hab with hab | hab
    · exact .inl (.inl (twisted_of_circular hab hbc hca))
    rcases hbc with hbc | hbc
    · exact .inl (.inr (.inl (twisted_of_circular hbc hca (.inr hab))))
    rcases hca with hca | hca
    · exact .inl (.inr (.inr (twisted_of_circular hca (.inr hab) (.inr hbc))))
    · exact .inr ⟨⟨hab.1, hbc.1, hca.1⟩, hab.2, hbc.2, hca.2⟩
  · rintro ((h | h | h) | ⟨hpart, hrest⟩)
    · exact h.circular
    · exact h.circular.turn.turn
    · exact h.circular.turn
    · exact ⟨.inr ⟨hpart.1, hrest.1⟩, .inr ⟨hpart.2.1, hrest.2.1⟩, .inr ⟨hpart.2.2, hrest.2.2⟩⟩

end ByPart

end EgLang.Library
