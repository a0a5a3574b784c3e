import EgLang.Library.KeyOrders

/-!
# Keys of hashed and of ordered maps

A hashed map finds a key by an equality and a hash, an ordered map by an order. The two agree on the keys of a
set if the equality is what the order does not tell apart and the hash respects it. Where the order tells all
keys apart, that leaves equality itself.
-/

namespace EgLang.Library

set_option autoImplicit false

variable {K H : Type} (eqv lt : K → K → Prop) (hash : K → H) (S : Set K)

/-- An equivalence on the elements of a set. -/
structure EquivalenceOn : Prop where
  refl : ∀ a ∈ S, eqv a a
  symm : ∀ a ∈ S, ∀ b ∈ S, eqv a b → eqv b a
  trans : ∀ a ∈ S, ∀ b ∈ S, ∀ c ∈ S, eqv a b → eqv b c → eqv a c

/-- An equality, an order and a hash that say the same of the keys of a set. -/
structure CoherentOn : Prop where
  equivalence : EquivalenceOn eqv S
  order : StrictWeakOn lt S
  agree : ∀ a ∈ S, ∀ b ∈ S, (eqv a b ↔ Incomparable lt a b)
  hashes : ∀ a ∈ S, ∀ b ∈ S, eqv a b → hash a = hash b

variable {eqv lt hash S}

/-- What a hashed map takes for one key is what an ordered map takes for one key. -/
theorem CoherentOn.same_iff (h : CoherentOn eqv lt hash S) {a b : K} (ha : a ∈ S) (hb : b ∈ S) :
    hash a = hash b ∧ eqv a b ↔ Incomparable lt a b := by
  rw [← h.agree a ha b hb]
  exact ⟨fun hsame => hsame.2, fun heqv => ⟨h.hashes a ha b hb heqv, heqv⟩⟩

/-- With an order that tells the keys apart, an equality is coherent if it is equality on them. -/
theorem coherentOn_iff_of_tellsApart (heqv : EquivalenceOn eqv S) (horder : StrictWeakOn lt S)
    (happart : TellsApart lt S) : CoherentOn eqv lt hash S ↔ ∀ a ∈ S, ∀ b ∈ S, eqv a b → a = b := by
  constructor
  · intro h a ha b hb hab
    exact (happart a ha b hb).mp ((h.agree a ha b hb).mp hab)
  · intro h
    refine ⟨heqv, horder, fun a ha b hb => ?_, fun a ha b hb hab => congrArg hash (h a ha b hb hab)⟩
    rw [happart a ha b hb]
    refine ⟨h a ha b hb, fun hab => ?_⟩
    subst hab
    exact heqv.refl a ha

/-- A linear order tells all keys apart. -/
theorem tellsApart_of_linearOrder {L : Type} [LinearOrder L] (T : Set L) :
    TellsApart (fun a b : L => a < b) T := by
  intro a _ b _
  constructor
  · intro h
    exact le_antisymm (not_lt.mp h.2) (not_lt.mp h.1)
  · intro h
    subst h
    exact ⟨lt_irrefl a, lt_irrefl a⟩

theorem strictWeakOn_of_linearOrder {L : Type} [LinearOrder L] (T : Set L) :
    StrictWeakOn (fun a b : L => a < b) T where
  irrefl a _ := lt_irrefl a
  trans a _ b _ c _ hab hbc := lt_trans hab hbc
  incomp_trans a ha b hb c hc hab hbc := by
    have happart := tellsApart_of_linearOrder T
    rw [happart a ha b hb] at hab
    rw [happart b hb c hc] at hbc
    rw [happart a ha c hc]
    exact hab.trans hbc

end EgLang.Library
