import EgLang.Library.Archive
import EgLang.Library.SortedEntries
import EgLang.Library.StepSystem

/-!
# Codecs

A codec writes a value to an archive and reads it back; what it reads can depend on a world, which
grows. Codecs are composed to codecs of pairs, of lists and of containers that keep their elements in
the order of a key. A record is archived member by member.
-/

namespace EgLang.Library

set_option autoImplicit false

/-- The archived values are read as `a`, however the archive goes on. -/
def Reads {τ ρ ε α : Type} (load : Loading τ ρ ε α) (s : ρ) (vs : List τ) (a : α) : Prop :=
  ∀ rest, load (vs ++ rest, s) = .ok (a, rest, s)

namespace Reads
variable {τ ρ ε α β : Type} {s : ρ} {vs : List τ} {a : α}

theorem pure (a : α) : Reads (Pure.pure a : Loading τ ρ ε α) s [] a := fun _ => rfl

theorem read {fault : ε} {take : τ → Option α} {v : τ} (h : take v = some a) :
    Reads (Loading.read fault take : Loading τ ρ ε α) s [v] a :=
  fun rest => Loading.read_of_take h rest s

theorem bind {load : Loading τ ρ ε α} {next : α → Loading τ ρ ε β} {vs' : List τ} {b : β}
    (h : Reads load s vs a) (hnext : Reads (next a) s vs' b) :
    Reads (load >>= next) s (vs ++ vs') b := by
  intro rest
  rw [List.append_assoc, Loading.bind_of_ok (h _), hnext]

/-- A reader that goes on without reading. -/
theorem last {load : Loading τ ρ ε α} {next : α → Loading τ ρ ε β} {b : β}
    (h : Reads load s vs a) (hnext : Reads (next a) s [] b) : Reads (load >>= next) s vs b := by
  have hbind := h.bind hnext
  rwa [List.append_nil] at hbind

/-- A reader that first does something else. -/
theorem after {load : Loading τ ρ ε α} {next : α → Loading τ ρ ε β} {b : β}
    (h : Reads load s [] a) (hnext : Reads (next a) s vs b) : Reads (load >>= next) s vs b :=
  h.bind hnext

/-- Values that are read one after another. -/
theorem loadMany {load : Loading τ ρ ε α} {store : β → List τ} {value : β → α} {bs : List β}
    (h : ∀ b ∈ bs, Reads load s (store b) (value b)) :
    Reads (Loading.loadMany load bs.length) s (bs.flatMap store) (bs.map value) := by
  induction bs with
  | nil => exact Reads.pure _
  | cons b bs ih =>
    rw [List.forall_mem_cons] at h
    exact h.1.bind ((ih h.2).last (Reads.pure _))

end Reads

/-! ## Codecs -/

/-- A writer and a reader of a type, and the values of the type that are read as they were written. -/
structure Codec (τ ω ε : Type) [LE ω] (α : Type) where
  store : α → List τ
  load : ω → Loading τ Unit ε α
  Valid : ω → α → Prop
  valid_mono : ∀ {w w' : ω} {a : α}, w ≤ w' → Valid w a → Valid w' a
  reads : ∀ {w : ω} {a : α}, Valid w a → Reads (load w) () (store a) a

namespace Codec
variable {τ ω ε α β E : Type} [LE ω]

/-- One archived value. -/
def value (fault : ε) (toValue : α → τ) (take : τ → Option α) (h : ∀ a, take (toValue a) = some a) :
    Codec τ ω ε α where
  store a := [toValue a]
  load _ := Loading.read fault take
  Valid _ _ := True
  valid_mono _ := id
  reads _ := Reads.read (h _)

/-- A value, then another. -/
def pair (first : Codec τ ω ε α) (second : Codec τ ω ε β) : Codec τ ω ε (α × β) where
  store p := first.store p.1 ++ second.store p.2
  load w := do
    let a ← first.load w
    let b ← second.load w
    return (a, b)
  Valid w p := first.Valid w p.1 ∧ second.Valid w p.2
  valid_mono hle h := ⟨first.valid_mono hle h.1, second.valid_mono hle h.2⟩
  reads h := (first.reads h.1).bind ((second.reads h.2).last (Reads.pure _))

/-- A value that need not be there: a flag, and the value after it. -/
def optional (flag : Codec τ ω ε Bool) (present : Codec τ ω ε α) : Codec τ ω ε (Option α) where
  store
    | some a => flag.store true ++ present.store a
    | none => flag.store false
  load w := do
    let isThere ← flag.load w
    if isThere then
      let a ← present.load w
      return some a
    else return none
  Valid w p := flag.Valid w p.isSome ∧ ∀ a ∈ p, present.Valid w a
  valid_mono hle h := ⟨flag.valid_mono hle h.1, fun a ha => present.valid_mono hle (h.2 a ha)⟩
  reads {w p} h := by
    cases p with
    | none => exact (flag.reads h.1).last (Reads.pure _)
    | some a => exact (flag.reads h.1).bind ((present.reads (h.2 a rfl)).last (Reads.pure _))

/-! ### Containers -/

section Containers
variable (size : Codec τ ω ε ℕ) (element : Codec τ ω ε E)

/-- What does not read. -/
def lift (x : Except ε α) : Loading τ Unit ε α := fun p => x.map fun a => (a, p)

/-- Elements are read and put into a container one after another. -/
def loadInto (load : Loading τ Unit ε E) (put : List E → E → Except ε (List E)) :
    ℕ → List E → Loading τ Unit ε (List E)
  | 0, l => pure l
  | n + 1, l => do
    let e ← load
    let l' ← lift (put l e)
    loadInto load put n l'

variable {size element} in
theorem reads_loadInto {w : ω} {put : List E → E → Except ε (List E)} {es l l' : List E}
    (hes : ∀ e ∈ es, element.Valid w e) (hput : es.foldlM put l = .ok l') :
    Reads (loadInto (element.load w) put es.length l) () (es.flatMap element.store) l' := by
  induction es generalizing l with
  | nil =>
    cases hput
    exact Reads.pure _
  | cons e es ih =>
    rw [List.forall_mem_cons] at hes
    rw [List.foldlM_cons] at hput
    cases he : put l e with
    | error fault =>
      rw [he] at hput
      cases hput
    | ok l₁ =>
      rw [he] at hput
      refine (element.reads hes.1).bind (Reads.after (a := l₁) (fun rest => ?_) (ih hes.2 hput))
      rw [he]
      rfl

/-- An element at the end. -/
def pushBack (l : List E) (e : E) : Except ε (List E) := .ok (l ++ [e])

theorem foldlM_pushBack (es l : List E) :
    es.foldlM pushBack l = (.ok (l ++ es) : Except ε (List E)) := by
  induction es generalizing l with
  | nil =>
    rw [List.append_nil]
    rfl
  | cons e es ih =>
    rw [List.foldlM_cons]
    change es.foldlM pushBack (l ++ [e]) = _
    rw [ih, List.append_assoc, List.singleton_append]

/-- A size, and as many elements in the order in which they are. -/
def vector : Codec τ ω ε (List E) where
  store es := size.store es.length ++ es.flatMap element.store
  load w := do
    let n ← size.load w
    loadInto (element.load w) pushBack n []
  Valid w es := size.Valid w es.length ∧ ∀ e ∈ es, element.Valid w e
  valid_mono hle h := ⟨size.valid_mono hle h.1, fun e he => element.valid_mono hle (h.2 e he)⟩
  reads h := (size.reads h.1).bind (reads_loadInto h.2 (foldlM_pushBack _ []))

/-! ### Containers in the order of a key -/

section Keys
variable {K : Type} [LinearOrder K]

/-- An element is put where its key belongs, which is compared with the keys that are there. Where
keys are unique, an element whose key is there is dropped. -/
def putInOrder (unique : Bool) (keyOf : E → Except ε K) (l : List E) (e : E) : Except ε (List E) :=
  if l = [] then .ok [e]
  else do
    let keys ← l.mapM keyOf
    let key ← keyOf e
    let entries := keys.zip l
    return (if unique then SortedEntries.insertNew Prod.fst entries (key, e)
      else SortedEntries.insertLast Prod.fst entries (key, e)).map Prod.snd

/-- The elements are in the order of their keys. -/
def InOrder (unique : Bool) (keyOf : E → Except ε K) (es : List E) : Prop :=
  ∃ key : E → K, (∀ e ∈ es, keyOf e = .ok (key e)) ∧
    if unique then SortedEntries.StrictlySorted key es else SortedEntries.Sorted key es

variable {unique : Bool} {keyOf : E → Except ε K} {key : E → K} {l es : List E} {e : E}

/-- An element whose key comes after all others is put at the end. -/
theorem putInOrder_eq (hkeys : ∀ a ∈ l ++ [e], keyOf a = .ok (key a))
    (hle : ∀ a ∈ l, key a ≤ key e)
    (hlt : unique = true → SortedEntries.StrictlySorted key (l ++ [e])) :
    putInOrder unique keyOf l e = .ok (l ++ [e]) := by
  unfold putInOrder
  split
  · next hnil => rw [hnil, List.nil_append]
  · have hmapM : l.mapM keyOf = .ok (l.map key) :=
      mapM_eq_ok.mpr (List.forall₂_map_right_iff.mpr (List.forall₂_same.mpr fun a ha =>
        hkeys a (List.mem_append_left _ ha)))
    rw [hmapM, hkeys e (List.mem_append_right _ (List.mem_singleton_self e))]
    have hentries : (l.map key).zip l = l.map fun a => (key a, a) := by
      simpa using List.zip_map' (f := key) (g := id) (l := l)
    have hend : (if unique then SortedEntries.insertNew Prod.fst (l.map fun a => (key a, a)) (key e, e)
        else SortedEntries.insertLast Prod.fst (l.map fun a => (key a, a)) (key e, e)) =
          (l ++ [e]).map fun a => (key a, a) := by
      split
      · next hunique =>
        have hsorted : SortedEntries.StrictlySorted Prod.fst
            ((l.map fun a => (key a, a)) ++ [(key e, e)]) := by
          simpa [SortedEntries.StrictlySorted, List.pairwise_append, List.pairwise_map]
            using hlt hunique
        rw [List.map_append]
        exact SortedEntries.foldl_insertNew_of_strictlySorted hsorted
      · rw [SortedEntries.insertLast_of_forall_le (by simpa using hle), List.map_append]
        rfl
    change Except.ok (List.map Prod.snd (if unique then _ else _)) = _
    rw [hentries, hend, List.map_map]
    simp [Function.comp_def]

/-- Elements that are in order are put where they were. -/
theorem foldlM_putInOrder (h : InOrder unique keyOf (l ++ es)) :
    es.foldlM (putInOrder unique keyOf) l = .ok (l ++ es) := by
  obtain ⟨key, hkeys, hsorted⟩ := h
  induction es generalizing l with
  | nil =>
    rw [List.append_nil]
    rfl
  | cons e es ih =>
    have happend : l ++ e :: es = (l ++ [e]) ++ es := by rw [List.append_assoc, List.singleton_append]
    rw [happend] at hkeys hsorted ⊢
    have hle : SortedEntries.Sorted key ((l ++ [e]) ++ es) := by
      split at hsorted
      · exact SortedEntries.StrictlySorted.sorted hsorted
      · exact hsorted
    have hput : putInOrder unique keyOf l e = .ok (l ++ [e]) := by
      refine putInOrder_eq (fun a ha => hkeys a (List.mem_append_left _ ha)) ?_ ?_
      · have hpairwise := (List.pairwise_append.mp hle).1
        exact fun a ha => (List.pairwise_append.mp hpairwise).2.2 a ha e (List.mem_singleton_self e)
      · intro hunique
        rw [if_pos hunique] at hsorted
        exact (List.pairwise_append.mp hsorted).1
    rw [List.foldlM_cons, hput]
    exact ih hkeys hsorted

/-- A size, and as many elements in the order of their keys. -/
def inOrder (unique : Bool) (keyOf : ω → E → Except ε K)
    (keyOf_mono : ∀ {w w' : ω} {e : E} {k : K}, w ≤ w' → keyOf w e = .ok k → keyOf w' e = .ok k) :
    Codec τ ω ε (List E) where
  store es := size.store es.length ++ es.flatMap element.store
  load w := do
    let n ← size.load w
    loadInto (element.load w) (putInOrder unique (keyOf w)) n []
  Valid w es := size.Valid w es.length ∧ (∀ e ∈ es, element.Valid w e) ∧ InOrder unique (keyOf w) es
  valid_mono hle h := ⟨size.valid_mono hle h.1, fun e he => element.valid_mono hle (h.2.1 e he),
    h.2.2.imp fun _ hkey => ⟨fun e he => keyOf_mono hle (hkey.1 e he), hkey.2⟩⟩
  reads h := (size.reads h.1).bind (reads_loadInto h.2.1 (foldlM_putInOrder (l := []) h.2.2))

end Keys
end Containers
end Codec

/-! ## Records -/

/-- A part of a record: a member, or all that the record has from another one. -/
structure Part (C B : Type) where
  get : C → B
  set : C → B → C
  get_set : ∀ c b, get (set c b) = b
  set_set : ∀ c b b', set (set c b) b' = set c b'
  set_get : ∀ c, set c (get c) = c

/-- A part that is read and written as it is, so that the laws hold by computation. -/
def Part.of {C B : Type} (get : C → B) (set : C → B → C)
    (get_set : ∀ c b, get (set c b) = b := by exact fun _ _ => rfl)
    (set_set : ∀ c b b', set (set c b) b' = set c b' := by exact fun _ _ _ => rfl)
    (set_get : ∀ c, set c (get c) = c := by exact fun _ => rfl) : Part C B :=
  ⟨get, set, get_set, set_set, set_get⟩

section Records
variable (τ ω ε : Type) [LE ω]

/-- A member of a record, and how it is archived. -/
structure Field (C : Type) where
  {α : Type}
  codec : Codec τ ω ε α
  part : Part C α

/-- What a record does when it is loaded: it loads a member, or checks what it has loaded. -/
inductive LoadStep (C : Type)
  | field (f : Field τ ω ε C)
  | check (holds : ω → C → Bool) (mono : ∀ w w' c, w ≤ w' → holds w c = true → holds w' c = true)
    (fault : ε)

end Records

section Records
variable {τ ω ε : Type} [LE ω] {B C : Type}

namespace Part
variable (p : Part C B)

/-- A member of the part. -/
def field (f : Field τ ω ε B) : Field τ ω ε C where
  codec := f.codec
  part := {
    get := fun c => f.part.get (p.get c)
    set := fun c a => p.set c (f.part.set (p.get c) a)
    get_set := fun c a => by rw [p.get_set, f.part.get_set]
    set_set := fun c a a' => by rw [p.get_set, p.set_set, f.part.set_set]
    set_get := fun c => by rw [f.part.set_get, p.set_get] }

/-- The members of the part. -/
def store (fields : List (Field τ ω ε B)) : List (Field τ ω ε C) := fields.map p.field

def step : LoadStep τ ω ε B → LoadStep τ ω ε C
  | .field f => .field (p.field f)
  | .check holds mono fault =>
    .check (fun w c => holds w (p.get c)) (fun w w' c => mono w w' (p.get c)) fault

/-- How the part is loaded. -/
def load (steps : List (LoadStep τ ω ε B)) : List (LoadStep τ ω ε C) := steps.map p.step

end Part

def Field.store (f : Field τ ω ε C) (c : C) : List τ := f.codec.store (f.part.get c)

namespace LoadStep

def field? : LoadStep τ ω ε C → Option (Field τ ω ε C)
  | field f => some f
  | check .. => none

def load (w : ω) : LoadStep τ ω ε C → C → Loading τ Unit ε C
  | field f, c => do
    let a ← f.codec.load w
    return f.part.set c a
  | check holds _ fault, c => if holds w c then pure c else Loading.fail fault

/-- The record after the step, if what is loaded are the members of `c`. -/
def rebuild (c : C) : LoadStep τ ω ε C → C → C
  | field f, d => f.part.set d (f.part.get c)
  | check .., d => d

/-- The step takes the member of `c`, and the check holds. -/
def Valid (w : ω) (c : C) : LoadStep τ ω ε C → C → Prop
  | field f, _ => f.codec.Valid w (f.part.get c)
  | check holds _ _, d => holds w d = true

end LoadStep

namespace Record
open LoadStep

def store (fields : List (Field τ ω ε C)) (c : C) : List τ := fields.flatMap fun f => f.store c

def load (w : ω) (steps : List (LoadStep τ ω ε C)) (d : C) : Loading τ Unit ε C :=
  steps.foldlM (fun d step => step.load w d) d

def rebuild (steps : List (LoadStep τ ω ε C)) (c d : C) : C :=
  steps.foldl (fun d step => step.rebuild c d) d

theorem rebuild_append (steps steps' : List (LoadStep τ ω ε C)) (c d : C) :
    rebuild (steps ++ steps') c d = rebuild steps' c (rebuild steps c d) :=
  List.foldl_append ..

@[simp] theorem rebuild_nil (c d : C) : rebuild ([] : List (LoadStep τ ω ε C)) c d = d := rfl

@[simp] theorem rebuild_cons_field (f : Field τ ω ε C) (steps : List (LoadStep τ ω ε C)) (c d : C) :
    rebuild (.field f :: steps) c d = rebuild steps c (f.part.set d (f.part.get c)) := rfl

/-- Loading a part leaves the rest of the record as it is. -/
theorem rebuild_part (p : Part C B) (steps : List (LoadStep τ ω ε B)) (c d : C) :
    rebuild (p.load steps) c d = p.set d (rebuild steps (p.get c) (p.get d)) := by
  induction steps generalizing d with
  | nil => exact (p.set_get d).symm
  | cons step steps ih =>
    change rebuild (p.load steps) c ((p.step step).rebuild c d) = _
    rw [ih]
    cases step with
    | field f =>
      change p.set (p.set d _) (rebuild steps (p.get c) (p.get (p.set d _))) = _
      rw [p.get_set, p.set_set]
      rfl
    | check holds mono fault => rfl

/-- Every member is valid, and every check holds when it is made. -/
def Valid (w : ω) (c : C) : List (LoadStep τ ω ε C) → C → Prop
  | [], _ => True
  | step :: steps, d => step.Valid w c d ∧ Valid w c steps (step.rebuild c d)

theorem Valid.mono {w w' : ω} (hle : w ≤ w') {c d : C} {steps : List (LoadStep τ ω ε C)}
    (h : Valid w c steps d) : Valid w' c steps d := by
  induction steps generalizing d with
  | nil => exact trivial
  | cons step steps ih =>
    refine ⟨?_, ih h.2⟩
    cases step with
    | field f => exact f.codec.valid_mono hle h.1
    | check holds mono fault => exact mono _ _ _ hle h.1

/-- What the members have been written as is read as these members. -/
theorem reads {w : ω} {c d : C} {steps : List (LoadStep τ ω ε C)} (h : Valid w c steps d) :
    Reads (load w steps d) () (store (steps.filterMap LoadStep.field?) c) (rebuild steps c d) := by
  induction steps generalizing d with
  | nil => exact Reads.pure d
  | cons step steps ih =>
    cases step with
    | field f =>
      have hmember : Reads ((LoadStep.field f).load w d) () (f.store c)
          (f.part.set d (f.part.get c)) :=
        (f.codec.reads h.1).last (Reads.pure _)
      exact hmember.bind (ih h.2)
    | check holds mono fault =>
      let step : LoadStep τ ω ε C := .check holds mono fault
      have hcheck : step.load w d = pure d := if_pos h.1
      have hreads : Reads (step.load w d) () [] d := by
        rw [hcheck]
        exact Reads.pure d
      exact hreads.after (ih h.2)

end Record

/-- A record that is a member itself. -/
def Codec.members (create : C) (fields : List (Field τ ω ε C))
    (complete : ∀ c, Record.rebuild (fields.map LoadStep.field) c create = c) : Codec τ ω ε C where
  store c := Record.store fields c
  load w := Record.load w (fields.map LoadStep.field) create
  Valid w c := Record.Valid w c (fields.map LoadStep.field) create
  valid_mono hle h := Record.Valid.mono hle h
  reads {w c} h := by
    have hfields : (fields.map LoadStep.field).filterMap LoadStep.field? = fields := by
      rw [List.filterMap_map]
      exact List.filterMap_some
    have hreads := Record.reads h
    rwa [complete, hfields] at hreads

/-! ## Classes -/

/-- How the objects of a class are archived. What is read need not be equal to what was written: it is
as `Same` says. -/
structure ArchivedClass (τ ω ε : Type) [LE ω] (C : Type) where
  create : C
  store : C → Except ε (List τ)
  load : ω → C → Loading τ Unit ε C
  Valid : ω → C → Prop
  Same : C → C → Prop
  valid_mono : ∀ {w w' : ω} {c : C}, w ≤ w' → Valid w c → Valid w' c
  reads : ∀ {w : ω} {c : C}, Valid w c → ∃ vs, store c = .ok vs ∧ ∀ {w' : ω}, w ≤ w' →
    ∀ rest, ∃ c', load w' create (vs ++ rest, ()) = .ok (c', rest, ()) ∧ Same c c'

/-- A class that is archived member by member: the members are loaded in the order in which they are
stored, and they are all that there is to an object. -/
def ArchivedClass.ofMembers (create : C) (store : List (Field τ ω ε C))
    (load : List (LoadStep τ ω ε C)) (inStep : store = load.filterMap LoadStep.field?)
    (complete : ∀ c, Record.rebuild load c create = c) : ArchivedClass τ ω ε C where
  create := create
  store c := .ok (Record.store store c)
  load w c := Record.load w load c
  Valid w c := Record.Valid w c load create
  Same := Eq
  valid_mono hle h := Record.Valid.mono hle h
  reads {w c} h := by
    refine ⟨_, rfl, fun hle rest => ⟨c, ?_, rfl⟩⟩
    have hreads := Record.reads (h.mono hle) rest
    rwa [complete, ← inStep] at hreads

end Records
end EgLang.Library
