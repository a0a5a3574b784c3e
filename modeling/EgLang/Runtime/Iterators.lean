import EgLang.Common
import EgLang.Library.Cursor
import EgLang.Runtime.State

/-!
# Generated iterators

The iterators of `iterators.hpp` over the instances of an action, and the begin and end iterators that
the code of an enumeration makes of its ranges. An iterator starts one instance before its range, is
incremented once, and from then on stands on an instance of its range or on the sentinel behind it.
-/

namespace EgLang.Runtime

open EgLang.Library

set_option autoImplicit false

/-- `eg::TypeID` and `eg::Instance`. -/
structure ActionInstance where
  type : ℤ
  inst : UInt32
deriving DecidableEq, Repr

/-- What the iterators ask of the data of a program; the state is `none` for `TOTAL_ACTION_STATES`. -/
structure ActionData where
  getState : ActionInstance → Option ActionState
  getStopCycle : ActionInstance → UInt32
  cycle : ℤ → UInt32
  getTimestamp : ActionInstance → UInt32

/-- `isActionActive`. -/
def ActionData.isActionActive (data : ActionData) (a : ActionInstance) : Bool :=
  match data.getState a with
  | some .running => true
  | some .paused => true
  | some .stopped => data.getStopCycle a = data.cycle a.type
  | none => false

/-! ## Iterators of one range -/

/-- `__eg_ReferenceRawIterator` and `__eg_ReferenceIterator`. -/
structure ReferenceIterator where
  inst : UInt32
  sentinal : UInt32
  type : ℤ
deriving DecidableEq, Repr

/-- `RangeOperation::eRaw` and `RangeOperation::eRange`. -/
inductive IteratorKind
  | raw
  | active
deriving DecidableEq, Repr

/-- What `__eg_MultiIterator` uses of the iterators it is made of: the increment, with the instances that
are tested for it, whether the instance is the sentinel, `operator==` and `operator*`. -/
structure IteratorType (I R T : Type) where
  increment : I → I × List T
  exhausted : I → Bool
  equal : I → I → Bool
  deref : I → R

/-- The loop `for( ; i != iEnd; ++i ) *i`. -/
def IteratorType.cursor {I R T : Type} (iteratorType : IteratorType I R T) (iEnd : I) :
    Cursor I R T where
  atEnd i := iteratorType.equal i iEnd
  deref i := some (iteratorType.deref i)
  next i := some (iteratorType.increment i)

namespace ReferenceIterator

theorem distance_lt {inst sentinal : UInt32} (h : inst ≠ sentinal) :
    (sentinal - (inst + 1)).toNat < (sentinal - inst).toNat := by
  have hne : inst.toNat ≠ sentinal.toNat := fun heq => h (UInt32.toNat_inj.mp heq)
  have hinst : inst.toNat < 4294967296 := inst.toNat_lt
  have hsentinal : sentinal.toNat < 4294967296 := sentinal.toNat_lt
  simp only [UInt32.toNat_sub, UInt32.toNat_add, UInt32.reduceToNat, Nat.reducePow]
  omega

/-- The loop of `__eg_ReferenceIterator::operator++`, with the instances that it tests. -/
def advance (isActive : UInt32 → Bool) (inst sentinal : UInt32) : UInt32 × List UInt32 :=
  if inst + 1 = sentinal then (inst + 1, [])
  else if isActive (inst + 1) then (inst + 1, [inst + 1])
  else
    let r := advance isActive (inst + 1) sentinal
    (r.1, (inst + 1) :: r.2)
termination_by (sentinal - (inst + 1)).toNat
decreasing_by exact distance_lt ‹_›

variable (data : ActionData)

/-- `operator++`, with the instances that are tested. -/
def increment (kind : IteratorKind) (i : ReferenceIterator) :
    ReferenceIterator × List ActionInstance :=
  match kind with
  | .raw => (⟨i.inst + 1, i.sentinal, i.type⟩, [])
  | .active =>
    let r := advance (fun inst => data.isActionActive ⟨i.type, inst⟩) i.inst i.sentinal
    (⟨r.1, i.sentinal, i.type⟩, r.2.map fun inst => ⟨i.type, inst⟩)

/-- `operator==`. -/
def equal (i rhs : ReferenceIterator) : Bool := i.inst = rhs.inst ∧ i.type = rhs.type

/-- The reference to an instance. -/
def reference (a : ActionInstance) : Reference :=
  ⟨a.inst.toNat, a.type, (data.getTimestamp a).toNat⟩

def iteratorType (kind : IteratorKind) : IteratorType ReferenceIterator Reference ActionInstance where
  increment := increment data kind
  exhausted i := i.inst = i.sentinal
  equal := equal
  deref i := reference data ⟨i.type, i.inst⟩

end ReferenceIterator

/-! ## Iterators of several ranges -/

/-- `__eg_MultiIterator`; `SIZE` is the length of the array. -/
structure MultiIterator (I : Type) where
  iterators : List I
  szIndex : ℕ
deriving DecidableEq, Repr

namespace MultiIterator
variable {I R T : Type} (iteratorType : IteratorType I R T)

/-- The loops that pass over the iterators whose instance is the sentinel. -/
def skip (iterators : List I) (szIndex : ℕ) : ℕ :=
  if h : szIndex < iterators.length then
    if iteratorType.exhausted iterators[szIndex] then skip iterators (szIndex + 1) else szIndex
  else szIndex
termination_by iterators.length - szIndex

/-- The constructor. -/
def construct (iters : List I) : MultiIterator I := ⟨iters, skip iteratorType iters 0⟩

/-- `operator++`; an index that is out of bounds is undefined behaviour. -/
def increment (m : MultiIterator I) : Option (MultiIterator I × List T) :=
  match m.iterators[m.szIndex]? with
  | none => none
  | some i =>
    let r := if iteratorType.exhausted i then (i, []) else iteratorType.increment i
    let iterators := m.iterators.set m.szIndex r.1
    if iteratorType.exhausted r.1 then some (⟨iterators, skip iteratorType iterators m.szIndex⟩, r.2)
    else some (⟨iterators, m.szIndex⟩, r.2)

/-- `operator==`. -/
def equal (m rhs : MultiIterator I) : Bool :=
  m.szIndex == rhs.szIndex &&
    (decide (m.szIndex ≥ m.iterators.length) ||
      match m.iterators[m.szIndex]?, rhs.iterators[m.szIndex]? with
      | some i, some i' => iteratorType.equal i i'
      | _, _ => false)

/-- The loop `for( ; m != mEnd; ++m ) *m`. -/
def cursor (mEnd : MultiIterator I) : Cursor (MultiIterator I) R T where
  atEnd m := equal iteratorType m mEnd
  deref m := m.iterators[m.szIndex]?.map iteratorType.deref
  next := increment iteratorType

end MultiIterator

/-! ## Generated begin and end -/

/-- A subrange of an enumeration. -/
structure Subrange where
  type : ℤ
  iBegin : UInt32
  iEnd : UInt32
deriving DecidableEq, Repr

section Generated
variable (data : ActionData) (kind : IteratorKind)

namespace Subrange
variable (r : Subrange)

/-- The iterator in front of the range. -/
def before : ReferenceIterator := ⟨r.iBegin - 1, r.iEnd, r.type⟩

/-- The begin: the iterator in front of the range, incremented once. -/
def begin : ReferenceIterator × List ActionInstance := ReferenceIterator.increment data kind r.before

/-- The iterator behind the range. -/
def behind : ReferenceIterator := ⟨r.iEnd, r.iEnd, r.type⟩

end Subrange

/-- `IterType( 0, 0, 0 )`. -/
def paddingIterator : ReferenceIterator := ⟨0, 0, 0⟩

variable (ranges : List Subrange) (iMaxRanges : ℕ)

/-- `iterators_begin`; the iterators of the operations are incremented, the padding is not. -/
def iterators_begin : List ReferenceIterator :=
  (ranges.map fun r => (r.begin data kind).1) ++
    List.replicate (iMaxRanges - ranges.length) paddingIterator

/-- `iterators_end`. -/
def iterators_end : List ReferenceIterator :=
  ranges.map Subrange.behind ++ List.replicate (iMaxRanges - ranges.length) paddingIterator

/-- The begin of several ranges. -/
def multiBegin : MultiIterator ReferenceIterator :=
  MultiIterator.construct (ReferenceIterator.iteratorType data kind) (iterators_begin data kind ranges iMaxRanges)

/-- The end of several ranges. -/
def multiEnd : MultiIterator ReferenceIterator :=
  MultiIterator.construct (ReferenceIterator.iteratorType data kind) (iterators_end ranges iMaxRanges)

end Generated

/-! ## The instances of a range -/

/-- The instances from one to another, in order. -/
def instances (iBegin iEnd : UInt32) : List UInt32 :=
  (List.range' iBegin.toNat (iEnd.toNat - iBegin.toNat)).map UInt32.ofNat

theorem toNat_add_one {a b : UInt32} (h : a.toNat < b.toNat) : (a + 1).toNat = a.toNat + 1 := by
  have hb : b.toNat < 4294967296 := b.toNat_lt
  simp only [UInt32.toNat_add, UInt32.reduceToNat, Nat.reducePow]
  omega

theorem instances_of_le {a b : UInt32} (h : b.toNat ≤ a.toNat) : instances a b = [] := by
  rw [instances, Nat.sub_eq_zero_of_le h]
  rfl

theorem instances_of_lt {a b : UInt32} (h : a.toNat < b.toNat) :
    instances a b = a :: instances (a + 1) b := by
  have hsucc : b.toNat - a.toNat = (b.toNat - (a.toNat + 1)) + 1 := by omega
  rw [instances, instances, hsucc, List.range'_succ, toNat_add_one h, List.map_cons, UInt32.ofNat_toNat]

theorem mem_instances {a b i : UInt32} : i ∈ instances a b ↔ a ≤ i ∧ i < b := by
  rw [UInt32.le_iff_toNat_le, UInt32.lt_iff_toNat_lt, instances, List.mem_map]
  constructor
  · intro h
    obtain ⟨n, hn, rfl⟩ := h
    rw [List.mem_range'_1] at hn
    have hb : b.toNat < 4294967296 := b.toNat_lt
    rw [UInt32.toNat_ofNat_of_lt' (by show n < 4294967296; omega)]
    omega
  · intro h
    refine ⟨i.toNat, List.mem_range'_1.mpr (by omega), UInt32.ofNat_toNat⟩

theorem instances_sorted (a b : UInt32) : (instances a b).Pairwise (· < ·) := by
  have hb : b.toNat < 4294967296 := b.toNat_lt
  refine List.pairwise_map.mpr (List.Pairwise.imp_of_mem ?_ List.pairwise_lt_range')
  intro i j hi hj hlt
  rw [List.mem_range'_1] at hi hj
  rw [UInt32.lt_iff_toNat_lt, UInt32.toNat_ofNat_of_lt' (by show i < 4294967296; omega),
    UInt32.toNat_ofNat_of_lt' (by show j < 4294967296; omega)]
  exact hlt

section Traversal
variable (data : ActionData) (kind : IteratorKind)

/-- The references to the instances that an iterator visits: all of them, or the active ones. -/
def visited (type : ℤ) (l : List UInt32) : List Reference :=
  (l.filter fun inst => kind = .raw ∨ data.isActionActive ⟨type, inst⟩ = true).map fun inst =>
    ReferenceIterator.reference data ⟨type, inst⟩

/-- The instances that an iterator tests. -/
def tested (type : ℤ) (l : List UInt32) : List ActionInstance :=
  if kind = .raw then [] else l.map fun inst => ⟨type, inst⟩

variable {data kind}

/-- A cursor that advances the iterators of a range, up to their sentinel. -/
structure Sweeps (data : ActionData) (kind : IteratorKind) (type : ℤ) (sentinal : UInt32)
    (C : Cursor ReferenceIterator Reference ActionInstance) : Prop where
  atEnd : ∀ inst, C.atEnd ⟨inst, sentinal, type⟩ = decide (inst = sentinal)
  deref : ∀ inst, C.deref ⟨inst, sentinal, type⟩ =
    some (ReferenceIterator.reference data ⟨type, inst⟩)
  next : ∀ inst, C.next ⟨inst, sentinal, type⟩ =
    some (ReferenceIterator.increment data kind ⟨inst, sentinal, type⟩)

/-- **One range.** An iterator that is incremented in front of a range visits the range up to the
sentinel; what is tested by the increment and by the loop are the instances of the range. -/
theorem Sweeps.visits {type : ℤ} {sentinal : UInt32}
    {C : Cursor ReferenceIterator Reference ActionInstance} (hC : Sweeps data kind type sentinal C)
    (inst : UInt32) (hle : (inst + 1).toNat ≤ sentinal.toNat) :
    ∃ later,
      C.Visits (ReferenceIterator.increment data kind ⟨inst, sentinal, type⟩).1
        (visited data kind type (instances (inst + 1) sentinal)) later ∧
      (ReferenceIterator.increment data kind ⟨inst, sentinal, type⟩).2 ++ later =
        tested kind type (instances (inst + 1) sentinal) := by
  induction hd : sentinal.toNat - (inst + 1).toNat generalizing inst with
  | zero =>
    have heq : inst + 1 = sentinal := UInt32.toNat_inj.mp (by omega)
    have hnil : instances (inst + 1) sentinal = [] := instances_of_le (by omega)
    have hincrement : ReferenceIterator.increment data kind ⟨inst, sentinal, type⟩ =
        (⟨sentinal, sentinal, type⟩, []) := by
      cases kind with
      | raw => simp only [ReferenceIterator.increment, heq]
      | active =>
        rw [ReferenceIterator.increment, ReferenceIterator.advance, if_pos heq, heq]
        rfl
    rw [hincrement, hnil]
    refine ⟨[], Cursor.Visits.done ?_, ?_⟩
    · rw [hC.atEnd]
      exact decide_eq_true rfl
    · unfold tested
      split <;> rfl
  | succ n ih =>
    have hlt : (inst + 1).toNat < sentinal.toNat := by omega
    have hne : inst + 1 ≠ sentinal := fun heq => hlt.ne (congrArg UInt32.toNat heq)
    have hsucc : (inst + 1 + 1).toNat = (inst + 1).toNat + 1 := toNat_add_one hlt
    obtain ⟨later, hvisits, htests⟩ := ih (inst + 1) (by omega) (by omega)
    rw [instances_of_lt hlt]
    have hnot : C.atEnd ⟨inst + 1, sentinal, type⟩ = false := by
      rw [hC.atEnd]
      exact decide_eq_false hne
    cases kind with
    | raw =>
      exact ⟨_, Cursor.Visits.step hnot (hC.deref _) (hC.next _) hvisits, htests⟩
    | active =>
      have htested : tested .active type ((inst + 1) :: instances (inst + 1 + 1) sentinal) =
          ⟨type, inst + 1⟩ :: tested .active type (instances (inst + 1 + 1) sentinal) := rfl
      by_cases hactive : data.isActionActive ⟨type, inst + 1⟩ = true
      · have hincrement : ReferenceIterator.increment data .active ⟨inst, sentinal, type⟩ =
            (⟨inst + 1, sentinal, type⟩, [⟨type, inst + 1⟩]) := by
          rw [ReferenceIterator.increment, ReferenceIterator.advance, if_neg hne, if_pos hactive]
          rfl
        have hvisited : visited data .active type ((inst + 1) :: instances (inst + 1 + 1) sentinal) =
            ReferenceIterator.reference data ⟨type, inst + 1⟩ ::
              visited data .active type (instances (inst + 1 + 1) sentinal) := by
          simp [visited, hactive]
        rw [hincrement, hvisited]
        refine ⟨_, Cursor.Visits.step hnot (hC.deref _) (hC.next _) hvisits, ?_⟩
        rw [htested, ← htests]
        rfl
      · have hincrement : ReferenceIterator.increment data .active ⟨inst, sentinal, type⟩ =
            ((ReferenceIterator.increment data .active ⟨inst + 1, sentinal, type⟩).1,
              ⟨type, inst + 1⟩ ::
                (ReferenceIterator.increment data .active ⟨inst + 1, sentinal, type⟩).2) := by
          rw [ReferenceIterator.increment, ReferenceIterator.advance, if_neg hne, if_neg hactive]
          rfl
        have hvisited : visited data .active type ((inst + 1) :: instances (inst + 1 + 1) sentinal) =
            visited data .active type (instances (inst + 1 + 1) sentinal) := by
          simp [visited, hactive]
        rw [hincrement, hvisited]
        refine ⟨later, hvisits, ?_⟩
        rw [htested, ← htests]
        rfl

end Traversal

/-! ## Several ranges -/

namespace MultiIterator
variable {I R T : Type} {iteratorType : IteratorType I R T}

theorem skip_of_exhausted {iterators : List I} {szIndex : ℕ} {i : I}
    (hi : iterators[szIndex]? = some i) (h : iteratorType.exhausted i = true) :
    skip iteratorType iterators szIndex = skip iteratorType iterators (szIndex + 1) := by
  obtain ⟨hlt, rfl⟩ := List.getElem?_eq_some_iff.mp hi
  rw [skip, dif_pos hlt, if_pos h]

theorem skip_of_not_exhausted {iterators : List I} {szIndex : ℕ} {i : I}
    (hi : iterators[szIndex]? = some i) (h : iteratorType.exhausted i = false) :
    skip iteratorType iterators szIndex = szIndex := by
  obtain ⟨hlt, rfl⟩ := List.getElem?_eq_some_iff.mp hi
  rw [skip, dif_pos hlt, if_neg (by simp [h])]

theorem skip_of_le {iterators : List I} {szIndex : ℕ} (h : iterators.length ≤ szIndex) :
    skip iteratorType iterators szIndex = szIndex := by
  rw [skip, dif_neg (by omega)]

/-- The index after an increment: iterators that are exhausted are passed over. -/
theorem increment_eq {iterators : List I} {szIndex : ℕ} {i : I} (hi : iterators[szIndex]? = some i)
    (h : iteratorType.exhausted i = false) :
    increment iteratorType ⟨iterators, szIndex⟩ =
      some (⟨iterators.set szIndex (iteratorType.increment i).1,
          skip iteratorType (iterators.set szIndex (iteratorType.increment i).1) szIndex⟩,
        (iteratorType.increment i).2) := by
  have hlt : szIndex < iterators.length := (List.getElem?_eq_some_iff.mp hi).1
  rw [increment, hi]
  simp only [h, Bool.false_eq_true, if_false]
  cases hnext : iteratorType.exhausted (iteratorType.increment i).1 with
  | true => rfl
  | false =>
    rw [skip_of_not_exhausted (List.getElem?_set_self hlt) hnext]
    rfl

/-- The cursor of an iterator up to its own sentinel. -/
def own (iteratorType : IteratorType I R T) : Cursor I R T where
  atEnd := iteratorType.exhausted
  deref i := some (iteratorType.deref i)
  next i := some (iteratorType.increment i)

theorem atEnd_cursor {mEnd : MultiIterator I} {iterators : List I}
    (hend : mEnd.szIndex = iterators.length) (szIndex : ℕ) :
    (cursor iteratorType mEnd).atEnd ⟨iterators, szIndex⟩ = decide (szIndex = iterators.length) := by
  show equal iteratorType ⟨iterators, szIndex⟩ mEnd = _
  by_cases h : szIndex = iterators.length
  · simp [equal, hend, h]
  · simp [equal, hend, h]

/-- The iterator at the index is visited up to its sentinel, and then the iterators behind it. -/
theorem visits_current {mEnd : MultiIterator I} {szIndex : ℕ} {R' : List R} {T' : List T} {i : I}
    {rs : List R} {ts : List T} (hvisits : (own iteratorType).Visits i rs ts) :
    ∀ iterators : List I, iterators[szIndex]? = some i → mEnd.szIndex = iterators.length →
      (∀ iterators' : List I, iterators'.length = iterators.length →
        iterators'.drop (szIndex + 1) = iterators.drop (szIndex + 1) →
        (cursor iteratorType mEnd).Visits ⟨iterators', skip iteratorType iterators' (szIndex + 1)⟩ R' T') →
      (cursor iteratorType mEnd).Visits ⟨iterators, skip iteratorType iterators szIndex⟩
        (rs ++ R') (ts ++ T') := by
  induction hvisits with
  | done hend =>
    intro iterators hi _ hrest
    rw [skip_of_exhausted hi hend]
    exact hrest iterators rfl rfl
  | @step i i' r rs ts ts' hnot hderef hnext hvisits ih =>
    intro iterators hi hend hrest
    have hlt : szIndex < iterators.length := (List.getElem?_eq_some_iff.mp hi).1
    have hincrement : iteratorType.increment i = (i', ts) := Option.some.inj hnext
    have hmulti := @increment_eq I R T iteratorType _ _ _ hi hnot
    rw [hincrement] at hmulti
    rw [skip_of_not_exhausted hi hnot, List.cons_append, List.append_assoc]
    refine Cursor.Visits.step ?_ ?_ hmulti ?_
    · rw [atEnd_cursor hend szIndex]
      exact decide_eq_false hlt.ne
    · show iterators[szIndex]?.map iteratorType.deref = some r
      rw [hi]
      exact hderef
    · refine ih (iterators.set szIndex i') (List.getElem?_set_self hlt) (by simpa using hend) ?_
      intro iterators' hlength hdrop
      refine hrest iterators' (by simpa using hlength) ?_
      rw [hdrop, List.drop_set_of_lt (by omega)]

/-- **Several ranges.** The iterators, with what is visited and tested from each one on, are visited
one after another. -/
theorem visits_all {mEnd : MultiIterator I} (rest : List (I × List R × List T)) :
    ∀ (iterators : List I) (szIndex : ℕ), iterators.drop szIndex = rest.map Prod.fst →
      szIndex ≤ iterators.length → mEnd.szIndex = iterators.length →
      (∀ e ∈ rest, (own iteratorType).Visits e.1 e.2.1 e.2.2) →
      (cursor iteratorType mEnd).Visits ⟨iterators, skip iteratorType iterators szIndex⟩
        (rest.flatMap fun e => e.2.1) (rest.flatMap fun e => e.2.2) := by
  induction rest with
  | nil =>
    intro iterators szIndex hdrop hle hend _
    have hge : iterators.length ≤ szIndex := List.drop_eq_nil_iff.mp hdrop
    rw [skip_of_le hge]
    apply Cursor.Visits.done
    rw [atEnd_cursor hend szIndex]
    exact decide_eq_true (by omega)
  | cons e rest ih =>
    intro iterators szIndex hdrop hle hend hall
    rw [List.forall_mem_cons] at hall
    have hi : iterators[szIndex]? = some e.1 := by
      rw [← List.head?_drop, hdrop]
      rfl
    have hlt : szIndex < iterators.length := (List.getElem?_eq_some_iff.mp hi).1
    have htail : iterators.drop (szIndex + 1) = rest.map Prod.fst := by
      rw [← List.tail_drop, hdrop]
      rfl
    rw [List.flatMap_cons, List.flatMap_cons]
    refine visits_current hall.1 iterators hi hend fun iterators' hlength hdrop' => ?_
    exact ih iterators' (szIndex + 1) (hdrop'.trans htail) (by omega) (by rw [hend, hlength]) hall.2

/-- Iterators that are all exhausted are passed over to the last one. -/
theorem skip_eq_length {iterators : List I} (h : ∀ i ∈ iterators, iteratorType.exhausted i = true)
    {szIndex : ℕ} (hle : szIndex ≤ iterators.length) :
    skip iteratorType iterators szIndex = iterators.length := by
  induction hn : iterators.length - szIndex generalizing szIndex with
  | zero =>
    rw [skip_of_le (by omega)]
    omega
  | succ n ih =>
    have hlt : szIndex < iterators.length := by omega
    rw [skip_of_exhausted (List.getElem?_eq_getElem hlt) (h _ (List.getElem_mem hlt))]
    exact ih hlt (by omega)

end MultiIterator

/-! ## Traversals -/

section Results
variable (data : ActionData) (kind : IteratorKind)

namespace Subrange

/-- The references that are visited in a range. -/
def visited (r : Subrange) : List Reference :=
  Runtime.visited data kind r.type (instances r.iBegin r.iEnd)

/-- The instances of a range that are tested. -/
def tested (r : Subrange) : List ActionInstance :=
  Runtime.tested kind r.type (instances r.iBegin r.iEnd)

/-- What the increment of the begin and the loop test are the instances of the range. -/
theorem visits_begin {r : Subrange} (hr : r.iBegin ≤ r.iEnd)
    {C : Cursor ReferenceIterator Reference ActionInstance} (hC : Sweeps data kind r.type r.iEnd C) :
    ∃ later, C.Visits (r.begin data kind).1 (r.visited data kind) later ∧
      (r.begin data kind).2 ++ later = r.tested kind := by
  have hsucc : r.iBegin - 1 + 1 = r.iBegin := UInt32.sub_add_cancel r.iBegin 1
  have hvisits := hC.visits (r.iBegin - 1) (by rw [hsucc]; exact UInt32.le_iff_toNat_le.mp hr)
  rw [hsucc] at hvisits
  exact hvisits

end Subrange

theorem sweeps_cursor (r : Subrange) :
    Sweeps data kind r.type r.iEnd ((ReferenceIterator.iteratorType data kind).cursor r.behind) where
  atEnd inst := by
    show ReferenceIterator.equal ⟨inst, r.iEnd, r.type⟩ ⟨r.iEnd, r.iEnd, r.type⟩ = _
    simp [ReferenceIterator.equal]
  deref _ := rfl
  next _ := rfl

theorem sweeps_own (r : Subrange) :
    Sweeps data kind r.type r.iEnd (MultiIterator.own (ReferenceIterator.iteratorType data kind)) where
  atEnd _ := rfl
  deref _ := rfl
  next _ := rfl

theorem szIndex_multiEnd (ranges : List Subrange) (iMaxRanges : ℕ) :
    (multiEnd data kind ranges iMaxRanges).szIndex = ranges.length + (iMaxRanges - ranges.length) := by
  have hlength : (iterators_end ranges iMaxRanges).length =
      ranges.length + (iMaxRanges - ranges.length) := by
    simp [iterators_end]
  rw [← hlength]
  refine MultiIterator.skip_eq_length ?_ (Nat.zero_le _)
  intro i hi
  cases List.mem_append.mp hi with
  | inl hmem =>
    obtain ⟨r, -, rfl⟩ := List.mem_map.mp hmem
    show decide (r.iEnd = r.iEnd) = true
    exact decide_eq_true rfl
  | inr hmem =>
    rw [List.eq_of_mem_replicate hmem]
    rfl

/-- From the begin of one range, and from the begin of several ranges with any padding, the loop reaches
the end after finitely many steps. It visits the instances of each range in order, all of them or just
the active ones; the increments of the begins and the loop test the instances of the ranges, each one
once, and no other. -/
structure Traversed (ranges : List Subrange) : Prop where
  one : ∀ r ∈ ranges, ∃ n later,
    ((ReferenceIterator.iteratorType data kind).cursor r.behind).loop n (r.begin data kind).1 =
        some (r.visited data kind, later) ∧
      (r.begin data kind).2 ++ later = r.tested kind
  several : ∀ iMaxRanges, ∃ (n : ℕ) (later : Subrange → List ActionInstance),
    (MultiIterator.cursor (ReferenceIterator.iteratorType data kind)
        (multiEnd data kind ranges iMaxRanges)).loop n (multiBegin data kind ranges iMaxRanges) =
        some (ranges.flatMap (Subrange.visited data kind), ranges.flatMap later) ∧
      ∀ r ∈ ranges, (r.begin data kind).2 ++ later r = r.tested kind
  inside : ∀ r ∈ ranges, ∀ i, i ∈ instances r.iBegin r.iEnd ↔ r.iBegin ≤ i ∧ i < r.iEnd
  inOrder : ∀ r ∈ ranges, (instances r.iBegin r.iEnd).Pairwise (· < ·)

/-- **Generated iterators.** Ranges are traversed whatever the states of the actions, and from any begin
of 32 bits. -/
theorem traversed (ranges : List Subrange) (hranges : ∀ r ∈ ranges, r.iBegin ≤ r.iEnd) :
    Traversed data kind ranges := by
  refine ⟨?_, ?_, fun r _ i => mem_instances, fun r _ => instances_sorted r.iBegin r.iEnd⟩
  · intro r hr
    obtain ⟨later, hvisits, htests⟩ := r.visits_begin data kind (hranges r hr) (sweeps_cursor data kind r)
    obtain ⟨n, hn⟩ := hvisits.exists_loop
    exact ⟨n, later, hn, htests⟩
  · intro iMaxRanges
    have hown : ∀ r : Subrange, ∃ later, r ∈ ranges →
        (MultiIterator.own (ReferenceIterator.iteratorType data kind)).Visits (r.begin data kind).1
            (r.visited data kind) later ∧
          (r.begin data kind).2 ++ later = r.tested kind := by
      intro r
      by_cases hr : r ∈ ranges
      · obtain ⟨later, hlater⟩ := r.visits_begin data kind (hranges r hr) (sweeps_own data kind r)
        exact ⟨later, fun _ => hlater⟩
      · exact ⟨[], fun hmem => absurd hmem hr⟩
    choose later hlater using hown
    have hvisits := @MultiIterator.visits_all _ _ _ (ReferenceIterator.iteratorType data kind)
      (multiEnd data kind ranges iMaxRanges)
      (ranges.map (fun r => ((r.begin data kind).1, r.visited data kind, later r)) ++
        List.replicate (iMaxRanges - ranges.length) (paddingIterator, [], []))
      (iterators_begin data kind ranges iMaxRanges) 0 (by simp [iterators_begin, Function.comp_def])
      (Nat.zero_le _)
      (by rw [szIndex_multiEnd data kind ranges iMaxRanges]; simp [iterators_begin])
      (by
        intro e he
        cases List.mem_append.mp he with
        | inl hmem =>
          obtain ⟨r, hr, rfl⟩ := List.mem_map.mp hmem
          exact (hlater r hr).1
        | inr hmem =>
          rw [List.eq_of_mem_replicate hmem]
          exact Cursor.Visits.done rfl)
    obtain ⟨n, hn⟩ := hvisits.exists_loop
    refine ⟨n, later, ?_, fun r hr => (hlater r hr).2⟩
    rw [multiBegin, MultiIterator.construct, hn]
    simp [List.flatMap_map]

/-- All actions are stopped, and were stopped in an earlier cycle, but for the first instance. -/
def firstRunning : ActionData where
  getState a := if a.inst = 0 then some .running else some .stopped
  getStopCycle _ := 1
  cycle _ := 2
  getTimestamp _ := 1

/-- A range from the first instance on, and an empty one. -/
def twoSubranges : List Subrange := [⟨5, 0, 3⟩, ⟨6, 4, 4⟩]

theorem twoSubranges_traversed : Traversed firstRunning .active twoSubranges :=
  traversed firstRunning .active twoSubranges (by decide)

end Results

end EgLang.Runtime
