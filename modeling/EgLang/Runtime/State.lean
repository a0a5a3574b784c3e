import EgLang.Runtime.Allocators
import EgLang.Runtime.Program

/-! # The data of a running program

The generated dimensions of every instance of every concrete action, with the base dimensions of the
links, the clock and the references the scheduler has in `m_actions`.
-/

namespace EgLang.Runtime
set_option autoImplicit false

inductive ActionState
  | stopped | running | paused
deriving DecidableEq, Repr

/-! ## Data members -/

section DataMember
variable {K : Type} [DecidableEq K] {β : K → Type}

/-- Writing the data member of one instance. -/
def write (f : ∀ k, ℕ → β k) (k : K) (i : ℕ) (v : β k) : ∀ k, ℕ → β k :=
  Function.update f k (Function.update (f k) i v)

@[simp] theorem write_self (f : ∀ k, ℕ → β k) (k : K) (i : ℕ) (v : β k) :
    write f k i v k i = v := by
  simp [write]

theorem write_of_ne (f : ∀ k, ℕ → β k) (k : K) (i : ℕ) (v : β k) {k' : K} {i' : ℕ}
    (h : ¬ (k' = k ∧ i' = i)) : write f k i v k' i' = f k' i' := by
  unfold write
  by_cases hk : k' = k
  · subst hk
    rw [Function.update_self, Function.update_of_ne fun hi => h ⟨rfl, hi⟩]
  · rw [Function.update_of_ne hk]

theorem write_apply {α : Type} (f : K → ℕ → α) (k : K) (i : ℕ) (v : α) (k' : K) (i' : ℕ) :
    write (β := fun _ => α) f k i v k' i' = if k' = k ∧ i' = i then v else f k' i' := by
  by_cases h : k' = k ∧ i' = i
  · obtain ⟨rfl, rfl⟩ := h
    simp
  · rw [write_of_ne f k i v h, if_neg h]

end DataMember

/-! ## The state -/

/-- The instance values of a program; `back` is the link reference dimension of a group in one of
its targets, and `alloc` the allocator of an action in an instance of its parent. -/
structure State (p : Program) where
  clock : ℕ
  state : p.Action → ℕ → ActionState
  stopCycle : p.Action → ℕ → ℕ
  reference : p.Action → ℕ → Reference
  alloc : ∀ a : p.Action, ℕ → RangeAllocator (p.localDomainSize a)
  base : p.Action → ℕ → Reference
  back : p.GroupId × p.Action → ℕ → Reference
  linkRefCount : p.Action → ℕ → ℕ
  registered : Finset Reference

/-- What can end a run. -/
inductive Fault
  /-- a data member is accessed beyond its last instance -/
  | outOfBounds
  | outOfFuel
  /-- the operation is not one the program has -/
  | disabled
deriving DecidableEq, Repr

namespace State
variable {p : Program}

/-- The initial values of the generated dimensions. -/
def initial (p : Program) : State p where
  clock := 1
  state := fun _ _ => .stopped
  stopCycle := fun _ _ => 0
  reference := fun a i => ⟨i, p.index a, 1⟩
  alloc := fun a _ => .initial (p.localDomainSize a)
  base := fun _ _ => .null
  back := fun _ _ => .null
  linkRefCount := fun _ _ => 0
  registered := ∅

/-! ## Writes -/

def setState (a : p.Action) (gid : ℕ) (v : ActionState) (s : State p) : State p :=
  { s with state := write s.state a gid v }

/-- A reference is taken out of `m_actions`. -/
def unregister (ref : Reference) (s : State p) : State p :=
  { s with registered := s.registered.erase ref }

def register (ref : Reference) (s : State p) : State p :=
  { s with registered := insert ref s.registered }

def setBase (l : p.Action) (gid : ℕ) (v : Reference) (s : State p) : State p :=
  { s with base := write s.base l gid v }

def setBack (g : p.GroupId) (t : p.Action) (gid : ℕ) (v : Reference) (s : State p) : State p :=
  { s with back := write s.back (g, t) gid v }

/-- `linkRefCount = linkRefCount + delta` in the arithmetic of an instance. -/
def addLinkRefCount (o : p.Action) (gid delta : ℕ) (s : State p) : Except Fault (State p) :=
  if gid < p.getTotalDomainSize o then
    let count := (s.linkRefCount o gid + delta) % 2 ^ 32
    .ok { s with linkRefCount := write s.linkRefCount o gid count }
  else .error .outOfBounds

def incLinkRefCount (o : p.Action) (gid : ℕ) (s : State p) : Except Fault (State p) :=
  s.addLinkRefCount o gid 1

def decLinkRefCount (o : p.Action) (gid : ℕ) (s : State p) : Except Fault (State p) :=
  s.addLinkRefCount o gid (2 ^ 32 - 1)

/-- The free of a range allocator in a stopper. -/
def freeInstance (a : p.Action) (gid : ℕ) (s : State p) : State p :=
  let parentIndex := gid / p.localDomainSize a
  let freeIndex := gid - parentIndex * p.localDomainSize a
  { s with alloc := write s.alloc a parentIndex ((s.alloc a parentIndex).free freeIndex) }

/-- The beginning of a stopper, up to the first call of another function. -/
def release (a : p.Action) (gid : ℕ) (s : State p) : State p :=
  let s := if p.isMainExecutable a then s else s.unregister (s.reference a gid)
  let s := if p.allocator a = .range then s.freeInstance a gid else s
  { s.setState a gid .stopped with stopCycle := write s.stopCycle a gid s.clock }

end State
end EgLang.Runtime
