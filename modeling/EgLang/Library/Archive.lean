import Mathlib.Control.Monad.Writer
import Mathlib.Data.List.Basic
import Mathlib.Order.Basic

/-!
# Archives

Programs that write values to an archive, one behind the other, and programs that read them back.
Writer and reader keep a state each; a world says which of these states belong together, and worlds
grow as more is written and read.
-/

namespace EgLang.Library

set_option autoImplicit false

/-- Programs that write values, with a state of their own. -/
abbrev Storing (τ σ ε : Type) := StateT σ (WriterT (List τ) (Except ε))

/-- Programs that read the values of an archive, with a state of their own. -/
abbrev Loading (τ ρ ε : Type) := StateT (List τ × ρ) (Except ε)

variable {τ σ ρ ε ω α β : Type}

/-! ## Writers -/

namespace Storing

def write (v : τ) : Storing τ σ ε Unit := fun s => WriterT.mk (.ok (((), s), [v]))

def fail (e : ε) : Storing τ σ ε α := fun _ => WriterT.mk (.error e)

def storeEach (store : α → Storing τ σ ε Unit) : List α → Storing τ σ ε Unit
  | [] => pure ()
  | a :: as => do
    store a
    storeEach store as

/-- From the state `s` the program ends in `s'` and has written `vs`. -/
def Ends (store : Storing τ σ ε α) (s : σ) (vs : List τ) (a : α) (s' : σ) : Prop :=
  (store s).run = .ok ((a, s'), vs)

theorem ends_bind {x : Storing τ σ ε α} {f : α → Storing τ σ ε β} {s s' : σ} {vs : List τ} {b : β} :
    Ends (x >>= f) s vs b s' ↔
      ∃ a s₁ vs₁ vs₂, Ends x s vs₁ a s₁ ∧ Ends (f a) s₁ vs₂ b s' ∧ vs = vs₁ ++ vs₂ := by
  change ((x s).run >>= fun y => (fun z => (z.1, y.2 ++ z.2)) <$> (f y.1.1 y.1.2).run) = _ ↔ _
  unfold Ends
  constructor
  · intro h
    cases hx : (x s).run with
    | error e =>
      rw [hx] at h
      cases h
    | ok y =>
      rw [hx] at h
      obtain ⟨⟨a, s₁⟩, vs₁⟩ := y
      change (fun z => (z.1, vs₁ ++ z.2)) <$> (f a s₁).run = _ at h
      cases hf : (f a s₁).run with
      | error e =>
        rw [hf] at h
        cases h
      | ok z =>
        rw [hf] at h
        obtain ⟨hz, rfl⟩ := Prod.mk.inj (Except.ok.inj h)
        exact ⟨a, s₁, vs₁, z.2, rfl, by rw [hf, ← hz], rfl⟩
  · rintro ⟨a, s₁, vs₁, vs₂, hx, hf, rfl⟩
    rw [hx]
    change (fun z => (z.1, vs₁ ++ z.2)) <$> (f a s₁).run = _
    rw [hf]
    rfl

theorem ends_pure {a b : α} {s s' : σ} {vs : List τ} :
    Ends (pure a : Storing τ σ ε α) s vs b s' ↔ a = b ∧ s = s' ∧ vs = [] := by
  change (Except.ok ((a, s), []) : Except ε _) = .ok _ ↔ _
  simp only [Except.ok.injEq, Prod.mk.injEq, and_assoc, eq_comm]

theorem ends_write {v : τ} {s s' : σ} {vs : List τ} :
    Ends (write v : Storing τ σ ε Unit) s vs () s' ↔ vs = [v] ∧ s = s' := by
  change (Except.ok (((), s), [v]) : Except ε _) = .ok _ ↔ _
  simp only [Except.ok.injEq, Prod.mk.injEq, true_and, eq_comm, and_comm]

theorem not_ends_fail {e : ε} {a : α} {s s' : σ} {vs : List τ} :
    ¬ Ends (fail e : Storing τ σ ε α) s vs a s' := nofun

theorem ends_write_bind {v : τ} {store : Storing τ σ ε Unit} {s s' : σ} {vs : List τ} :
    Ends (write v >>= fun _ => store) s vs () s' ↔ ∃ vs', vs = v :: vs' ∧ Ends store s vs' () s' := by
  rw [ends_bind]
  constructor
  · rintro ⟨⟨⟩, s₁, vs₁, vs₂, hfst, hsnd, rfl⟩
    obtain ⟨rfl, rfl⟩ := ends_write.mp hfst
    exact ⟨vs₂, rfl, hsnd⟩
  · rintro ⟨vs', rfl, h⟩
    exact ⟨(), s, [v], vs', ends_write.mpr ⟨rfl, rfl⟩, h, rfl⟩

theorem ends_get_bind {f : σ → Storing τ σ ε β} {s s' : σ} {vs : List τ} {b : β} :
    Ends (get >>= f) s vs b s' ↔ Ends (f s) s vs b s' := by
  rw [ends_bind]
  constructor
  · rintro ⟨s₀, s₁, vs₁, vs₂, hfst, hsnd, rfl⟩
    cases hfst
    exact hsnd
  · exact fun h => ⟨s, s, [], vs, rfl, h, rfl⟩

theorem ends_set_bind {s₁ s s' : σ} {store : Storing τ σ ε Unit} {vs : List τ} :
    Ends (set s₁ >>= fun _ => store) s vs () s' ↔ Ends store s₁ vs () s' := by
  rw [ends_bind]
  constructor
  · rintro ⟨u, s₂, vs₁, vs₂, hfst, hsnd, rfl⟩
    cases hfst
    exact hsnd
  · exact fun h => ⟨⟨⟩, s₁, [], vs, rfl, h, rfl⟩

/-! ### Programs that do not fail -/

/-- Where the invariant holds, the program ends and keeps it. -/
def Keeps (I : σ → Prop) (store : Storing τ σ ε Unit) : Prop :=
  ∀ s, I s → ∃ vs s', Ends store s vs () s' ∧ I s'

variable {I : σ → Prop}

theorem Keeps.pure : Keeps I (pure () : Storing τ σ ε Unit) :=
  fun s hs => ⟨[], s, ends_pure.mpr ⟨rfl, rfl, rfl⟩, hs⟩

theorem Keeps.write (v : τ) : Keeps I (write v : Storing τ σ ε Unit) :=
  fun s hs => ⟨[v], s, ends_write.mpr ⟨rfl, rfl⟩, hs⟩

theorem Keeps.bind {store₁ store₂ : Storing τ σ ε Unit} (h₁ : Keeps I store₁) (h₂ : Keeps I store₂) :
    Keeps I (store₁ >>= fun _ => store₂) := by
  intro s hs
  obtain ⟨vs₁, s₁, hend₁, hs₁⟩ := h₁ s hs
  obtain ⟨vs₂, s₂, hend₂, hs₂⟩ := h₂ s₁ hs₁
  exact ⟨_, s₂, ends_bind.mpr ⟨(), s₁, vs₁, vs₂, hend₁, hend₂, rfl⟩, hs₂⟩

theorem Keeps.storeEach {store : α → Storing τ σ ε Unit} {as : List α}
    (h : ∀ a ∈ as, Keeps I (store a)) : Keeps I (storeEach store as) := by
  induction as with
  | nil => exact Keeps.pure
  | cons a as ih =>
    rw [List.forall_mem_cons] at h
    exact h.1.bind (ih h.2)

end Storing

/-! ## Readers -/

namespace Loading

/-- The next value, as `get` takes it. -/
def read (fault : ε) (take : τ → Option α) : Loading τ ρ ε α
  | ([], _) => .error fault
  | (v :: vs, s) =>
    match take v with
    | some a => .ok (a, vs, s)
    | none => .error fault

def fail (e : ε) : Loading τ ρ ε α := fun _ => .error e

def loadMany (load : Loading τ ρ ε α) : ℕ → Loading τ ρ ε (List α)
  | 0 => pure []
  | n + 1 => do
    let a ← load
    let as ← loadMany load n
    return a :: as

theorem bind_of_ok {x : Loading τ ρ ε α} {f : α → Loading τ ρ ε β} {p q : List τ × ρ} {a : α}
    (h : x p = .ok (a, q)) : (x >>= f) p = f a q := by
  change (x p >>= fun y => f y.1 y.2) = _
  rw [h]
  rfl

theorem read_of_take {fault : ε} {take : τ → Option α} {v : τ} {a : α} (htake : take v = some a)
    (vs : List τ) (s : ρ) : read fault take (v :: vs, s) = .ok (a, vs, s) := by
  simp only [read, htake]

end Loading

/-! ## Reading back -/

section ReadsBack
open Storing Loading

variable [Preorder ω] (agrees : ω → σ → ρ → Prop)

/-- In states that belong together, what `store` writes, if it is at most `bound` values, is read by
`load`, however the archive goes on; the value that is read is as `V` says. -/
def ReadsBack (bound : ℕ) (w : ω) (store : Storing τ σ ε Unit) (load : Loading τ ρ ε α)
    (V : ω → α → Prop) : Prop :=
  ∀ ⦃vs : List τ⦄ ⦃s s' : σ⦄ ⦃r : ρ⦄, agrees w s r → store.Ends s vs () s' → vs.length ≤ bound →
    ∃ w' a r', w ≤ w' ∧ agrees w' s' r' ∧ V w' a ∧ ∀ rest, load (vs ++ rest, r) = .ok (a, rest, r')

variable {agrees} {bound : ℕ} {w : ω} {V : ω → α → Prop} {V' : ω → β → Prop}

theorem ReadsBack.pure {a : α} (hV : V w a) :
    ReadsBack agrees bound w (pure () : Storing τ σ ε Unit) (pure a) V := by
  intro vs s s' r hag h _
  obtain ⟨-, rfl, rfl⟩ := ends_pure.mp h
  exact ⟨w, a, r, le_rfl, hag, hV, fun _ => rfl⟩

theorem ReadsBack.fail {e : ε} {load : Loading τ ρ ε α} :
    ReadsBack agrees bound w (fail e : Storing τ σ ε Unit) load V :=
  fun _ _ _ _ _ h _ => absurd h not_ends_fail

theorem ReadsBack.write {v : τ} {fault : ε} {take : τ → Option α} {a : α} (htake : take v = some a)
    (hV : V w a) : ReadsBack agrees bound w (write v : Storing τ σ ε Unit) (read fault take) V := by
  intro vs s s' r hag h _
  obtain ⟨rfl, rfl⟩ := ends_write.mp h
  exact ⟨w, a, r, le_rfl, hag, hV, fun rest => read_of_take htake rest r⟩

theorem ReadsBack.imp {V' : ω → α → Prop} {store : Storing τ σ ε Unit} {load : Loading τ ρ ε α}
    (h : ReadsBack agrees bound w store load V) (hV : ∀ w' a, V w' a → V' w' a) :
    ReadsBack agrees bound w store load V' := by
  intro vs s s' r hag hend hlen
  obtain ⟨w', a, r', hle, hag', ha, hrun⟩ := h hag hend hlen
  exact ⟨w', a, r', hle, hag', hV w' a ha, hrun⟩

theorem ReadsBack.bind {store₁ store₂ : Storing τ σ ε Unit} {load₁ : Loading τ ρ ε α}
    {load₂ : α → Loading τ ρ ε β} (h₁ : ReadsBack agrees bound w store₁ load₁ V)
    (h₂ : ∀ a w', w ≤ w' → V w' a → ReadsBack agrees bound w' store₂ (load₂ a) V') :
    ReadsBack agrees bound w (store₁ >>= fun _ => store₂) (load₁ >>= load₂) V' := by
  intro vs s s' r hag h hlen
  obtain ⟨⟨⟩, s₁, vs₁, vs₂, hfst, hsnd, rfl⟩ := ends_bind.mp h
  rw [List.length_append] at hlen
  obtain ⟨w₁, a, r₁, hle₁, hag₁, hV₁, hrun₁⟩ := h₁ hag hfst (by omega)
  obtain ⟨w₂, b, r₂, hle₂, hag₂, hV₂, hrun₂⟩ := h₂ a w₁ hle₁ hV₁ hag₁ hsnd (by omega)
  refine ⟨w₂, b, r₂, hle₁.trans hle₂, hag₂, hV₂, fun rest => ?_⟩
  rw [List.append_assoc, bind_of_ok (hrun₁ _), hrun₂]

/-- The reader goes on after the last value. -/
theorem ReadsBack.last {store : Storing τ σ ε Unit} {load₁ : Loading τ ρ ε α}
    {load₂ : α → Loading τ ρ ε β} (h₁ : ReadsBack agrees bound w store load₁ V)
    (h₂ : ∀ a w', w ≤ w' → V w' a →
      ReadsBack agrees bound w' (Pure.pure () : Storing τ σ ε Unit) (load₂ a) V') :
    ReadsBack agrees bound w store (load₁ >>= load₂) V' := by
  intro vs s s' r hag hend hlen
  refine h₁.bind h₂ hag (ends_bind.mpr ⟨(), s', vs, [], hend, ?_, (List.append_nil vs).symm⟩) hlen
  exact ends_pure.mpr ⟨rfl, rfl, rfl⟩

/-- A loop of one program, read back by a loop of the other. -/
theorem ReadsBack.many {γ : Type} {store : γ → Storing τ σ ε Unit} {load : Loading τ ρ ε α}
    {R : ω → γ → α → Prop} (hmono : ∀ {w w' c a}, w ≤ w' → R w c a → R w' c a) {cs : List γ}
    (h : ∀ c ∈ cs, ∀ w, ReadsBack agrees bound w (store c) load fun w' a => R w' c a) (w : ω) :
    ReadsBack agrees bound w (storeEach store cs) (loadMany load cs.length)
      fun w' as => List.Forall₂ (R w') cs as := by
  induction cs generalizing w with
  | nil => exact .pure .nil
  | cons c cs ih =>
    rw [List.forall_mem_cons] at h
    refine (h.1 w).bind fun a w₁ _ ha => (ih h.2 w₁).last fun as w₂ hle₂ has => ?_
    exact .pure (.cons (hmono hle₂ ha) has)

end ReadsBack
end EgLang.Library
