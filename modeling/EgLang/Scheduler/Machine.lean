import EgLang.Scheduler.Operations

/-! # Runs of the basic scheduler

`cycle` hands control to coroutines and stoppers, and these call the scheduler again. The machine
keeps the calls in progress on a stack of frames. In a state whose top frame belongs to the user
(a coroutine, a stopper, or nothing at all) the next input is any operation of the scheduler, a
yield of the coroutine or the return of the stopper; in a state whose top frame is a `cycle` the
next input is a tick, which carries the reading of the clock and runs the loop up to the next call
it makes.
-/

namespace EgLang.Scheduler
open Library
set_option autoImplicit false

/-- Where a call of `cycle` has got to: its three loops. -/
inductive Phase
  | timeouts | running | ending
deriving DecidableEq, Repr

/-- A call in progress. -/
inductive Frame
  | cycle (phase : Phase)
  /-- a coroutine resumed by the `cycle` below it -/
  | coroutine (iter : ℕ)
  /-- `pStopper( instance )` called by `stop` -/
  | stopper (pAction pStopper inst : ℕ)
  /-- `pStopper( instance )` called by `cycle` for an action that terminated -/
  | terminated (pAction pStopper inst : ℕ)
deriving DecidableEq, Repr

inductive Operation
  | allocated (ref : Reference) (pStopper : ℕ)
  | call (ref : Reference) (pStopper : ℕ) (actionOperator : Bool)
  | signal (ref : Reference)
  | stop (ref : Reference)
  | stopperStopped (ref : Reference)
  | pause (ref : Reference)
  | unpause (ref : Reference)
  | cycle
deriving DecidableEq, Repr

inductive Input
  | operation (op : Operation)
  /-- the running coroutine yields, or returns if `done` -/
  | yield (reason : ReturnReason) (done : Bool)
  /-- the running stopper returns -/
  | ret
  /-- the loop of `cycle` goes on, reading `now` from the clock if it asks for it -/
  | tick (now : ℤ)
deriving DecidableEq, Repr

structure Machine where
  sched : BasicScheduler
  frames : List Frame

namespace Machine
open BasicScheduler

def initial : Machine := ⟨.initial, []⟩

/-- Control is with the user of the scheduler. -/
def userTop : List Frame → Bool
  | .cycle _ :: _ => false
  | _ => true

/-- A call of `stop`, which may leave a stopper running. -/
def stopStep (ref : Reference) (m : Machine) : Except Fault Machine := do
  let (s, stopped) ← m.sched.stop ref
  match stopped with
  | none => return ⟨s, m.frames⟩
  | some (pAction, action) =>
    return ⟨s, .stopper pAction action.pStopper action.ref.inst :: m.frames⟩

/-- `delete pAction`. The destructor of its coroutine destroys it unless it is done, which one that is
running, or waits for a call it has made to return, is not. -/
def deleteAction (pAction : Option ℕ) (m : Machine) : Except Fault Machine :=
  if pAction.any fun a => Frame.coroutine a ∈ m.frames then .error .destroyRunning else .ok m

def operate (m : Machine) : Operation → Except Fault Machine
  | .allocated ref pStopper => .ok ⟨m.sched.allocated ref pStopper, m.frames⟩
  | .call ref pStopper actionOperator => do
    let s ← m.sched.call ref pStopper actionOperator
    return ⟨s, m.frames⟩
  | .signal ref => do
    let s ← m.sched.signal ref
    return ⟨s, m.frames⟩
  | .stop ref => m.stopStep ref
  | .stopperStopped ref => do
    let s ← m.sched.stopperStopped ref
    deleteAction (m.sched.find ref) ⟨s, m.frames⟩
  | .pause ref => do
    let s ← m.sched.pause ref
    return ⟨s, m.frames⟩
  | .unpause ref => do
    let s ← m.sched.unpause ref
    return ⟨s, m.frames⟩
  | .cycle => .ok ⟨m.sched, .cycle .timeouts :: m.frames⟩

/-! ## The loop of `cycle` -/

/-- One round of the timeout loop; when nothing is due, the swap that follows the loop. -/
def timeoutsTick (s : BasicScheduler) (frames : List Frame) (now : ℤ) : Except Fault Machine :=
  match s.timeouts with
  | iterTimeout :: _ =>
    if iterTimeout.key ≤ now then do
      let iter := iterTimeout.val
      let s ← s.timeoutRemove iter
      let s ← s.activeInsert iter
      return ⟨s, .cycle .timeouts :: frames⟩
    else .ok (startRunning s)
  | [] => .ok (startRunning s)
where
  startRunning (s : BasicScheduler) : Machine :=
    if s.getActive = [] ∧ s.getWaiting = [] then
      ⟨{ s with sleepState := s.sleepState.swapActiveSleep }, .cycle .running :: frames⟩
    else ⟨s, .cycle .running :: frames⟩

/-- Resuming the coroutine of the action, made anew if it was not started or is done. -/
def resume (action : ActiveAction) : Except Fault ActiveAction :=
  if action.coroutine.status = .running then .error .resumeRunning
  else if !action.coroutine.started || action.coroutine.done then
    if action.op then .ok { action with coroutine := ⟨.running, .terminated⟩ }
    else .error .badFunctionCall
  else .ok { action with coroutine := ⟨.running, action.coroutine.reason⟩ }

/-- One round of the main loop, up to the coroutine it resumes. -/
def runningTick (s : BasicScheduler) (frames : List Frame) : Except Fault Machine :=
  if s.getActive = [] ∧ s.getWaiting = [] then .ok ⟨s, .cycle .ending :: frames⟩
  else do
    let s := if s.getActive = [] then
      { s with sleepState := s.sleepState.swapActiveWait } else s
    match s.getActive with
    | [] => .error .outOfFuel
    | front :: _ =>
      let iter := front.val
      let s ← s.activeRemove iter
      let action ← s.deref iter
      let action ← resume action
      let s := { s.setAction iter action with currentAction := some iter }
      return ⟨s, .coroutine iter :: .cycle .running :: frames⟩

/-- One round of the loop over the events that never came. -/
def endingTick (s : BasicScheduler) (frames : List Frame) : Except Fault Machine :=
  match s.events .wait with
  | [] => .ok ⟨s, frames⟩
  | i :: _ => do
    let pAction ← s.deref i.val
    stopStep pAction.ref ⟨s, .cycle .ending :: frames⟩

/-- `for( eg::Event ev : reason.events ) event_insert( eventMap, iter, ev );` -/
def insertEvents (eventMap : MapId) (iter : ℕ) :
    List Reference → BasicScheduler → Except Fault BasicScheduler
  | [], s => .ok s
  | ev :: evs, s => do
    let s ← s.eventInsert eventMap iter ev
    insertEvents eventMap iter evs s

/-- Registering for events: `waitAny` is left in `bWaitAny`. -/
def registerEvents (eventMap : MapId) (waitAny : Bool) (iter : ℕ) (events : List Reference)
    (s : BasicScheduler) : Except Fault BasicScheduler := do
  let s ← insertEvents eventMap iter events s
  let action ← s.deref iter
  return s.setAction iter { action with bWaitAny := waitAny }

/-- The switch over the reason of the coroutine that has just been resumed. -/
def dispatch (iter pCurrent : ℕ) (current : ActiveAction) (s : BasicScheduler)
    (frames : List Frame) : Except Fault Machine :=
  let finish (s : BasicScheduler) : Machine := ⟨{ s with currentAction := none }, frames⟩
  match current.coroutine.reason with
  | .wait => return finish (← s.waitInsert iter)
  | .waitAll events => return finish (← registerEvents .wait false iter events s)
  | .waitAny events => return finish (← registerEvents .wait true iter events s)
  | .sleep => return finish (← s.sleepInsert iter)
  | .sleepAll events => return finish (← registerEvents .sleep false iter events s)
  | .sleepAny events => return finish (← registerEvents .sleep true iter events s)
  | .timeout none => .error .badOptionalAccess
  | .timeout (some timeout) => return finish (← s.timeoutInsert iter timeout)
  | .terminated => do
    let s := s.eraseAction iter
    let s ← s.onEvent .wait current.ref
    let s ← s.onEvent .sleep current.ref
    return ⟨s, .terminated pCurrent current.pStopper current.ref.inst :: frames⟩

/-- What the coroutine leaves behind when it yields or returns, if its action still exists. -/
def suspend (iter : ℕ) (reason : ReturnReason) (done : Bool) (s : BasicScheduler) :
    BasicScheduler :=
  match s.actions.lookup iter with
  | none => s
  | some action => s.setAction iter
      { action with coroutine := ⟨if done then .done else .suspended, reason⟩ }

/-- The coroutine hands back control to `cycle`. -/
def yieldStep (iter : ℕ) (reason : ReturnReason) (done : Bool) (s : BasicScheduler)
    (frames : List Frame) : Except Fault Machine :=
  let s := suspend iter reason done s
  match s.currentAction with
  | none => .ok ⟨s, frames⟩
  | some pCurrent => do
    let current ← s.deref pCurrent
    dispatch iter pCurrent current s frames

/-- One step of the machine. -/
def step (m : Machine) : Input → Except Fault Machine
  | .operation op => if userTop m.frames then m.operate op else .error .disabled
  | .yield reason done =>
    match m.frames with
    | .coroutine iter :: frames => yieldStep iter reason done m.sched frames
    | _ => .error .disabled
  | .ret =>
    match m.frames with
    | .stopper pAction _ _ :: frames =>
      deleteAction (some pAction) ⟨m.sched.clearCurrent pAction, frames⟩
    | .terminated _ _ _ :: frames => .ok ⟨{ m.sched with currentAction := none }, frames⟩
    | _ => .error .disabled
  | .tick now =>
    match m.frames with
    | .cycle .timeouts :: frames => timeoutsTick m.sched frames now
    | .cycle .running :: frames => runningTick m.sched frames
    | .cycle .ending :: frames => endingTick m.sched frames
    | _ => .error .disabled

end Machine
end EgLang.Scheduler
