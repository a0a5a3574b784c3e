import Mathlib.Data.List.AList
import Mathlib.Data.Fintype.Basic
import EgLang.Common
import EgLang.Library.NodeList
import EgLang.Library.StepSystem

/-! # The data of the basic scheduler

An action the scheduler knows of is a node of `m_actions`. Iterators to these nodes are what the
lists and multimaps hold; such an iterator is a number here, never used twice, and the
`ActiveAction` it leads to is looked up in `actions`. The iterators an action keeps into the lists
and multimaps are node numbers from the same counter.
-/

namespace EgLang.Scheduler
open Library
set_option autoImplicit false

/-- `m_listOne`, `m_listTwo`, `m_listThree` and `m_paused`. -/
inductive ListId
  | one | two | three | paused
deriving DecidableEq, Repr

instance : Fintype ListId := ⟨{.one, .two, .three, .paused}, fun l => by cases l <;> decide⟩

/-- `m_events_by_ref_sleep` and `m_events_by_ref_wait`. -/
inductive MapId
  | sleep | wait
deriving DecidableEq, Repr

instance : Fintype MapId := ⟨{.sleep, .wait}, fun m => by cases m <;> decide⟩

/-- `ReturnReason`: why a coroutine handed back control, with the data of that reason. -/
inductive ReturnReason
  | wait
  | waitAll (events : List Reference)
  | waitAny (events : List Reference)
  | sleep
  | sleepAll (events : List Reference)
  | sleepAny (events : List Reference)
  | timeout (timeout : Option ℤ)
  | terminated
deriving DecidableEq, Repr

inductive CoroutineStatus
  | notStarted | running | suspended | done
deriving DecidableEq, Repr

/-- `ActionCoroutine` with the promise it points to. -/
structure Coroutine where
  status : CoroutineStatus
  reason : ReturnReason
deriving DecidableEq, Repr

namespace Coroutine

def initial : Coroutine := ⟨.notStarted, .terminated⟩

def started (c : Coroutine) : Bool := c.status ≠ .notStarted

def done (c : Coroutine) : Bool := c.status = .notStarted ∨ c.status = .done

end Coroutine

/-- `ActiveAction`: `iterList` holds `iter_one`, `iter_two`, `iter_three` and `iter_pause`, and
`op` says whether the action operator is set. -/
structure ActiveAction where
  ref : Reference
  pStopper : ℕ
  op : Bool
  coroutine : Coroutine
  iterList : ListId → Option ℕ
  iterTimeout : Option ℕ
  iterEventRef : List ℕ
  bWaitAny : Bool
  events : List Reference

/-- The constructor: every iterator is the end of its list. `iter_timeout` is left uninitialised by
the source; it is read only through an entry of `m_timeouts`, whose insertion sets it. -/
def ActiveAction.new (ref : Reference) (pStopper : ℕ) (op : Bool) : ActiveAction where
  ref := ref
  pStopper := pStopper
  op := op
  coroutine := .initial
  iterList := fun _ => none
  iterTimeout := none
  iterEventRef := []
  bWaitAny := true
  events := []

/-- One of the list iterators is set. -/
def ActiveAction.setIterList (action : ActiveAction) (l : ListId) (n : Option ℕ) : ActiveAction :=
  { action with iterList := Function.update action.iterList l n }

section SetIterList
variable (action : ActiveAction) (l : ListId) (n : Option ℕ)

@[simp] theorem ActiveAction.setIterList_ref : (action.setIterList l n).ref = action.ref := rfl

@[simp] theorem ActiveAction.setIterList_iterTimeout :
    (action.setIterList l n).iterTimeout = action.iterTimeout := rfl

@[simp] theorem ActiveAction.setIterList_iterEventRef :
    (action.setIterList l n).iterEventRef = action.iterEventRef := rfl

@[simp] theorem ActiveAction.setIterList_self : (action.setIterList l n).iterList l = n := by
  simp [setIterList]

theorem ActiveAction.setIterList_of_ne {l' : ListId} (h : l' ≠ l) :
    (action.setIterList l n).iterList l' = action.iterList l' := by
  simp [setIterList, h]

end SetIterList

/-! ## The roles of the three lists -/

/-- Which of the lists one, two and three is active (A), waiting (W) and sleeping (S). -/
inductive SleepSwapState
  | A_W_S | A_S_W | W_A_S | W_S_A | S_A_W | S_W_A
deriving DecidableEq, Repr

namespace SleepSwapState

def getActiveIter : SleepSwapState → ListId
  | A_W_S => .one
  | A_S_W => .one
  | W_A_S => .two
  | W_S_A => .three
  | S_A_W => .two
  | S_W_A => .three

def getWaitIter : SleepSwapState → ListId
  | A_W_S => .two
  | A_S_W => .three
  | W_A_S => .one
  | W_S_A => .one
  | S_A_W => .three
  | S_W_A => .two

def getSleepIter : SleepSwapState → ListId
  | A_W_S => .three
  | A_S_W => .two
  | W_A_S => .three
  | W_S_A => .two
  | S_A_W => .one
  | S_W_A => .one

def swapActiveSleep : SleepSwapState → SleepSwapState
  | A_W_S => S_W_A
  | A_S_W => S_A_W
  | W_A_S => W_S_A
  | W_S_A => W_A_S
  | S_A_W => A_S_W
  | S_W_A => A_W_S

def swapActiveWait : SleepSwapState → SleepSwapState
  | A_W_S => W_A_S
  | A_S_W => W_S_A
  | W_A_S => A_W_S
  | W_S_A => A_S_W
  | S_A_W => S_W_A
  | S_W_A => S_A_W

def getActive : SleepSwapState → ListId
  | A_W_S => .one
  | A_S_W => .one
  | W_A_S => .two
  | W_S_A => .three
  | S_A_W => .two
  | S_W_A => .three

def getWaiting : SleepSwapState → ListId
  | A_W_S => .two
  | A_S_W => .three
  | W_A_S => .one
  | W_S_A => .one
  | S_A_W => .three
  | S_W_A => .two

def getSleeping : SleepSwapState → ListId
  | A_W_S => .three
  | A_S_W => .two
  | W_A_S => .three
  | W_S_A => .two
  | S_A_W => .one
  | S_W_A => .one

/-- The iterators rotate with the lists. -/
@[simp] theorem getActiveIter_eq (st : SleepSwapState) : st.getActiveIter = st.getActive := by
  cases st <;> rfl

@[simp] theorem getWaitIter_eq (st : SleepSwapState) : st.getWaitIter = st.getWaiting := by
  cases st <;> rfl

@[simp] theorem getSleepIter_eq (st : SleepSwapState) : st.getSleepIter = st.getSleeping := by
  cases st <;> rfl

@[simp] theorem swapActiveSleep_getActive (st : SleepSwapState) :
    st.swapActiveSleep.getActive = st.getSleeping := by
  cases st <;> rfl

@[simp] theorem swapActiveSleep_getSleeping (st : SleepSwapState) :
    st.swapActiveSleep.getSleeping = st.getActive := by
  cases st <;> rfl

@[simp] theorem swapActiveSleep_getWaiting (st : SleepSwapState) :
    st.swapActiveSleep.getWaiting = st.getWaiting := by
  cases st <;> rfl

@[simp] theorem swapActiveWait_getActive (st : SleepSwapState) :
    st.swapActiveWait.getActive = st.getWaiting := by
  cases st <;> rfl

@[simp] theorem swapActiveWait_getWaiting (st : SleepSwapState) :
    st.swapActiveWait.getWaiting = st.getActive := by
  cases st <;> rfl

@[simp] theorem swapActiveWait_getSleeping (st : SleepSwapState) :
    st.swapActiveWait.getSleeping = st.getSleeping := by
  cases st <;> rfl

theorem getActive_ne_getWaiting (st : SleepSwapState) : st.getActive ≠ st.getWaiting := by
  cases st <;> decide

theorem getActive_ne_getSleeping (st : SleepSwapState) : st.getActive ≠ st.getSleeping := by
  cases st <;> decide

theorem getWaiting_ne_getSleeping (st : SleepSwapState) : st.getWaiting ≠ st.getSleeping := by
  cases st <;> decide

theorem getActive_ne_paused (st : SleepSwapState) : st.getActive ≠ .paused := by
  cases st <;> decide

theorem getWaiting_ne_paused (st : SleepSwapState) : st.getWaiting ≠ .paused := by
  cases st <;> decide

theorem getSleeping_ne_paused (st : SleepSwapState) : st.getSleeping ≠ .paused := by
  cases st <;> decide

/-- Every list but the paused one has one of the three roles. -/
theorem role_cases (st : SleepSwapState) (l : ListId) (h : l ≠ .paused) :
    l = st.getActive ∨ l = st.getWaiting ∨ l = st.getSleeping := by
  cases st <;> cases l <;> simp_all [getActive, getWaiting, getSleeping]

end SleepSwapState

/-! ## The scheduler -/

/-- What can end a run. The last three are no undefined behaviour: two exceptions the source
throws, and an input that cannot arrive in the state it is given to. -/
inductive Fault
  /-- an action that has been deleted is dereferenced -/
  | danglingAction
  /-- an iterator is erased from a container that does not hold its node -/
  | foreignErase
  /-- an erased iterator is compared, dereferenced or advanced -/
  | erasedIterator
  /-- a coroutine that is running is resumed -/
  | resumeRunning
  /-- a coroutine that is running is destroyed -/
  | destroyRunning
  | outOfFuel
  | badFunctionCall
  | badOptionalAccess
  | disabled
deriving DecidableEq, Repr

def Fault.undefined : Fault → Bool
  | danglingAction | foreignErase | erasedIterator | resumeRunning | destroyRunning | outOfFuel => true
  | badFunctionCall | badOptionalAccess | disabled => false

structure BasicScheduler where
  actions : AList (fun _ : ℕ => ActiveAction)
  lists : ListId → List (Entry Unit ℕ)
  timeouts : List (Entry ℤ ℕ)
  events : MapId → List (Entry Reference ℕ)
  currentAction : Option ℕ
  sleepState : SleepSwapState
  /-- the next unused number -/
  next : ℕ

namespace BasicScheduler

/-- `theScheduler` when the program starts. -/
def initial : BasicScheduler where
  actions := ∅
  lists := fun _ => []
  timeouts := []
  events := fun _ => []
  currentAction := none
  sleepState := .A_W_S
  next := 0

def getActive (s : BasicScheduler) : List (Entry Unit ℕ) := s.lists s.sleepState.getActive

def getWaiting (s : BasicScheduler) : List (Entry Unit ℕ) := s.lists s.sleepState.getWaiting

def getSleeping (s : BasicScheduler) : List (Entry Unit ℕ) := s.lists s.sleepState.getSleeping

/-- `iterAction->second`. -/
def deref (s : BasicScheduler) (iterAction : ℕ) : Except Fault ActiveAction :=
  match s.actions.lookup iterAction with
  | some action => .ok action
  | none => .error .danglingAction

/-- Writing through `iterAction->second`. -/
def setAction (s : BasicScheduler) (iterAction : ℕ) (action : ActiveAction) : BasicScheduler :=
  { s with actions := s.actions.insert iterAction action }

/-- The action is in `m_actions`. -/
def Live (s : BasicScheduler) (a : ℕ) : Prop := a ∈ s.actions

theorem deref_eq_ok {s : BasicScheduler} {a : ℕ} {action : ActiveAction} :
    s.deref a = .ok action ↔ s.actions.lookup a = some action := by
  unfold deref
  cases s.actions.lookup a <;> simp

theorem live_iff {s : BasicScheduler} {a : ℕ} :
    s.Live a ↔ ∃ action, s.actions.lookup a = some action := by
  rw [Live, ← AList.lookup_isSome, Option.isSome_iff_exists]

end BasicScheduler
end EgLang.Scheduler
