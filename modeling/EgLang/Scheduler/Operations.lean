import EgLang.Scheduler.State

/-! # The operations of the basic scheduler

Each definition follows the member function it is named after. The list helpers of the source
differ in the list and the iterator they work on only, so they share `listInsert` and
`listRemove`; `stop` and `stopperStopped` share `unregister`, and `pause` begins with the same
removals, `withdraw`.
-/

namespace EgLang.Scheduler
open Library
set_option autoImplicit false

namespace BasicScheduler

/-! ## Lists -/

/-- `handle = list.insert( list.end(), iterAction )`. -/
def listInsert (list handle : ListId) (iterAction : ℕ) (s : BasicScheduler) :
    Except Fault BasicScheduler := do
  let action ← s.deref iterAction
  let entry : Entry Unit ℕ := ⟨s.next, (), iterAction⟩
  let s := { s with
    lists := Function.update s.lists list (s.lists list ++ [entry])
    next := s.next + 1 }
  return s.setAction iterAction (action.setIterList handle (some entry.node))

/-- `if( handle != list.end() ) { list.erase( handle ); handle = list.end(); }`. -/
def listRemove (list handle : ListId) (iterAction : ℕ) (s : BasicScheduler) :
    Except Fault BasicScheduler := do
  let action ← s.deref iterAction
  match action.iterList handle with
  | none => return s
  | some n =>
    if n ∈ NodeList.nodes (s.lists list) then
      let s := { s with
        lists := Function.update s.lists list (NodeList.erase (s.lists list) n) }
      return s.setAction iterAction (action.setIterList handle none)
    else .error .foreignErase

def activeInsert (iterAction : ℕ) (s : BasicScheduler) : Except Fault BasicScheduler :=
  s.listInsert s.sleepState.getActive s.sleepState.getActiveIter iterAction

def activeRemove (iterAction : ℕ) (s : BasicScheduler) : Except Fault BasicScheduler :=
  s.listRemove s.sleepState.getActive s.sleepState.getActiveIter iterAction

def waitInsert (iterAction : ℕ) (s : BasicScheduler) : Except Fault BasicScheduler :=
  s.listInsert s.sleepState.getWaiting s.sleepState.getWaitIter iterAction

def waitRemove (iterAction : ℕ) (s : BasicScheduler) : Except Fault BasicScheduler :=
  s.listRemove s.sleepState.getWaiting s.sleepState.getWaitIter iterAction

def sleepInsert (iterAction : ℕ) (s : BasicScheduler) : Except Fault BasicScheduler :=
  s.listInsert s.sleepState.getSleeping s.sleepState.getSleepIter iterAction

def sleepRemove (iterAction : ℕ) (s : BasicScheduler) : Except Fault BasicScheduler :=
  s.listRemove s.sleepState.getSleeping s.sleepState.getSleepIter iterAction

def pauseInsert (iterAction : ℕ) (s : BasicScheduler) : Except Fault BasicScheduler :=
  s.listInsert .paused .paused iterAction

def pauseRemove (iterAction : ℕ) (s : BasicScheduler) : Except Fault BasicScheduler :=
  s.listRemove .paused .paused iterAction

/-! ## Timeouts -/

def timeoutInsert (iterAction : ℕ) (timeout : ℤ) (s : BasicScheduler) :
    Except Fault BasicScheduler := do
  let action ← s.deref iterAction
  let entry : Entry ℤ ℕ := ⟨s.next, timeout, iterAction⟩
  let s := { s with
    timeouts := NodeList.insert entry s.timeouts
    next := s.next + 1 }
  return s.setAction iterAction { action with iterTimeout := some entry.node }

def timeoutRemove (iterAction : ℕ) (s : BasicScheduler) : Except Fault BasicScheduler := do
  let action ← s.deref iterAction
  match action.iterTimeout with
  | none => return s
  | some n =>
    if n ∈ NodeList.nodes s.timeouts then
      let s := { s with timeouts := NodeList.erase s.timeouts n }
      return s.setAction iterAction { action with iterTimeout := none }
    else .error .foreignErase

/-! ## Events -/

def eventInsert (eventMap : MapId) (iterAction : ℕ) (ev : Reference) (s : BasicScheduler) :
    Except Fault BasicScheduler := do
  let action ← s.deref iterAction
  let entry : Entry Reference ℕ := ⟨s.next, ev, iterAction⟩
  let s := { s with
    events := Function.update s.events eventMap (NodeList.insert entry (s.events eventMap))
    next := s.next + 1 }
  return s.setAction iterAction
    { action with iterEventRef := action.iterEventRef ++ [entry.node] }

/-- `eventMap.erase( i )` for every iterator `i` of an array. -/
def eraseEvents (eventMap : MapId) : List ℕ → BasicScheduler → Except Fault BasicScheduler
  | [], s => .ok s
  | i :: is, s =>
    if i ∈ NodeList.nodes (s.events eventMap) then
      eraseEvents eventMap is { s with
        events := Function.update s.events eventMap (NodeList.erase (s.events eventMap) i) }
    else .error .foreignErase

def eventRemove (eventMap : MapId) (iterAction : ℕ) (s : BasicScheduler) :
    Except Fault BasicScheduler := do
  let action ← s.deref iterAction
  let s ← eraseEvents eventMap action.iterEventRef s
  return s.setAction iterAction { action with iterEventRef := [] }

/-- The body of the loop of `on_event`: the inner loop looks for the entry among the iterators of
its action, and does nothing if it is not there. -/
def deliver (eventMap : MapId) (ref : Reference) (s : BasicScheduler)
    (iterEvent : Entry Reference ℕ) : Except Fault BasicScheduler := do
  let action ← s.deref iterEvent.val
  if iterEvent.node ∈ action.iterEventRef then
    let action := { action with
      iterEventRef := action.iterEventRef.erase iterEvent.node
      events := action.events ++ [ref] }
    let s := s.setAction iterEvent.val action
    if action.iterEventRef.isEmpty || action.bWaitAny then
      let s ← s.eventRemove eventMap iterEvent.val
      s.activeInsert iterEvent.val
    else return s
  else return s

def onEvent (eventMap : MapId) (ref : Reference) (s : BasicScheduler) :
    Except Fault BasicScheduler := do
  let iLower := NodeList.lowerBound (s.events eventMap) ref
  let iUpper := NodeList.upperBound (s.events eventMap) ref
  let s ← NodeList.walk (fun s => s.events eventMap) (deliver eventMap ref) .erasedIterator
    .outOfFuel iUpper ((s.events eventMap).length + 1) iLower s
  if NodeList.Alive (s.events eventMap) iLower then
    return { s with
      events := Function.update s.events eventMap
        (NodeList.eraseRange iLower iUpper (s.events eventMap)) }
  else .error .erasedIterator

/-! ## Registered actions -/

/-- `ReferenceHash`, in the 32 bit arithmetic of an instance. -/
def referenceHash (ref : Reference) : ℤ := (ref.inst * 1024 + ref.type) % 2 ^ 32

/-- `m_actions.find( ref )`. -/
def find (s : BasicScheduler) (ref : Reference) : Option ℕ :=
  (s.actions.entries.find? fun entry =>
    referenceHash entry.2.ref = referenceHash ref && entry.2.ref.equal ref).map Sigma.fst

/-- A new node of `m_actions`. -/
def create (action : ActiveAction) (s : BasicScheduler) : BasicScheduler :=
  { s with actions := s.actions.insert s.next action, next := s.next + 1 }

/-- `m_actions.insert`: the iterator to the new node, `none` if the reference is registered. -/
def insertAction (action : ActiveAction) (s : BasicScheduler) : BasicScheduler × Option ℕ :=
  match s.find action.ref with
  | some _ => (s, none)
  | none => (s.create action, some s.next)

def eraseAction (iterAction : ℕ) (s : BasicScheduler) : BasicScheduler :=
  { s with actions := s.actions.erase iterAction }

def allocated (ref : Reference) (pStopper : ℕ) (s : BasicScheduler) : BasicScheduler :=
  (s.insertAction (.new ref pStopper false)).1

def call (ref : Reference) (pStopper : ℕ) (actionOperator : Bool) (s : BasicScheduler) :
    Except Fault BasicScheduler :=
  match s.insertAction (.new ref pStopper actionOperator) with
  | (s, some iterAction) => s.activeInsert iterAction
  | (s, none) => .ok s

def signal (ref : Reference) (s : BasicScheduler) : Except Fault BasicScheduler := do
  let s ← s.onEvent .wait ref
  s.onEvent .sleep ref

/-- The removals that `stop`, `stopperStopped` and `pause` all begin with. -/
def withdraw (iFind : ℕ) (s : BasicScheduler) : Except Fault BasicScheduler := do
  let s ← s.activeRemove iFind
  let s ← s.waitRemove iFind
  let s ← s.sleepRemove iFind
  let s ← s.eventRemove .wait iFind
  s.eventRemove .sleep iFind

/-- What `stop` and `stopperStopped` do to an action they have found, up to its stopper. -/
def unregister (iFind : ℕ) (action : ActiveAction) (s : BasicScheduler) :
    Except Fault BasicScheduler := do
  let s ← s.onEvent .wait action.ref
  let s ← s.onEvent .sleep action.ref
  let s ← s.withdraw iFind
  return s.eraseAction iFind

/-- `if( m_pCurrentAction == pAction ) m_pCurrentAction = nullptr;` -/
def clearCurrent (pAction : ℕ) (s : BasicScheduler) : BasicScheduler :=
  if s.currentAction = some pAction then { s with currentAction := none } else s

def stopperStopped (ref : Reference) (s : BasicScheduler) : Except Fault BasicScheduler :=
  match s.find ref with
  | none => .ok s
  | some iFind => do
    let action ← s.deref iFind
    let s ← s.unregister iFind action
    return s.clearCurrent iFind

/-- `stop` up to the call of the stopper: the action whose stopper is called, if there is one. -/
def stop (ref : Reference) (s : BasicScheduler) :
    Except Fault (BasicScheduler × Option (ℕ × ActiveAction)) :=
  match s.find ref with
  | none => .ok (s, none)
  | some iFind => do
    let action ← s.deref iFind
    let s ← s.unregister iFind action
    return (s, some (iFind, action))

def pause (ref : Reference) (s : BasicScheduler) : Except Fault BasicScheduler :=
  match s.find ref with
  | none => .ok s
  | some iFind => do
    let s ← s.withdraw iFind
    s.pauseInsert iFind

def unpause (ref : Reference) (s : BasicScheduler) : Except Fault BasicScheduler :=
  match s.find ref with
  | none => .ok s
  | some iFind => do
    let s ← s.pauseRemove iFind
    s.activeInsert iFind

end BasicScheduler
end EgLang.Scheduler
