import EgLang.Library.StepSystem
import EgLang.Runtime.State

/-! # The generated functions

The starter, stopper and breaker that are generated for an action, and the generated body of each
operation on instances. A stopper, a breaker and `stop_ref` call each other: the functions below take
the stoppers they call as a parameter, and `stopper` ties the knot.
-/

namespace EgLang.Runtime
open Library
set_option autoImplicit false

namespace State
variable {p : Program}

/-! ## Starters -/

/-- What a starter does once it has an instance. -/
def start (a : p.Action) (gid : ℕ) (s : State p) : State p :=
  let reference : Reference := ⟨(s.reference a gid).inst, p.index a, s.clock⟩
  let s := { s with reference := write s.reference a gid reference }
  let s := s.setState a gid .running
  if p.context a = .link then s.setBase a gid .null else s

/-- The allocation of an index in a starter. -/
def allocateInstance (a : p.Action) (parentId freeIndex : ℕ) (s : State p) : State p :=
  { s with alloc := write s.alloc a parentId ((s.alloc a parentId).allocate freeIndex) }

/-- `starter( parentId )`: the reference to the instance, null if there is none to start. -/
def starter (a : p.Action) (parentId : ℕ) (s : State p) : State p × Reference :=
  match p.allocator a with
  | .nothing => (s, .null)
  | .singleton =>
    if s.state a parentId = .stopped ∧ s.stopCycle a parentId < s.clock then
      let s := s.start a parentId
      (s, s.reference a parentId)
    else (s, .null)
  | .range =>
    if !(s.alloc a parentId).full then
      let freeIndex := (s.alloc a parentId).nextFree
      let newInstance := parentId * p.localDomainSize a + freeIndex
      if s.stopCycle a newInstance < s.clock then
        let s := (s.allocateInstance a parentId freeIndex).start a newInstance
        (s, s.reference a newInstance)
      else (s, .null)
    else (s, .null)

/-- The starter of a main executable. -/
def mainStarter (a : p.Action) (s : State p) : State p × Reference :=
  let reference : Reference := { s.reference a 0 with timestamp := s.clock }
  let s := { s with reference := write s.reference a 0 reference }
  let s := s.setState a 0 .running
  (s, s.reference a 0)

/-! ## Stoppers and breakers -/

section Stopper
variable (stop : p.Action → ℕ → State p → Except Fault (State p))

/-- `Scheduler::stop_ref`: the stopper of an action that is in `m_actions` is called, once it has
been taken out. -/
def stopRef (ref : Reference) (s : State p) : Except Fault (State p) :=
  if ref ∈ s.registered then
    match p.actionOf ref.type with
    | some a => stop a ref.inst (s.unregister ref)
    | none => .ok (s.unregister ref)
  else .ok s

/-- The link lets go of its target; the object of the target is stopped with its last link. -/
def breaker (l : p.Action) (gid : ℕ) (s : State p) : Except Fault (State p) :=
  let currentBase := s.base l gid
  if currentBase.timestamp ≠ INVALID_TIMESTAMP then
    match p.linkGroup l with
    | none => .ok s
    | some g =>
      match p.targetOf g currentBase.type with
      | none => .ok s
      | some t =>
        match p.getObject t with
        | none => .ok s
        | some pObject =>
          let s := s.setBack g t currentBase.inst .null
          if p.isMainExecutable pObject then .ok s
          else do
            let domain := currentBase.inst / p.getObjectDomainFactor pObject
            let s ← s.decLinkRefCount pObject domain
            if s.linkRefCount pObject domain = 0 then
              stop pObject (s.reference pObject domain).inst s
            else return s
  else .ok s

/-- The target lets go of the link of one group, which is stopped. -/
def breakLink (pObject a : p.Action) (gid : ℕ) (s : State p) (g : p.GroupId) :
    Except Fault (State p) :=
  let backRef := s.back (g, a) gid
  if backRef.timestamp ≠ INVALID_TIMESTAMP then
    match p.linkOf g backRef.type with
    | none => .ok s
    | some l => do
      let s ← s.decLinkRefCount pObject (gid / p.getObjectDomainFactor pObject)
      let s := s.setBack g a gid .null
      let s := s.setBase l backRef.inst .null
      stopRef stop backRef s
  else .ok s

/-- The target lets go of all its links. -/
def targetBreaks (a : p.Action) (gid : ℕ) (s : State p) : Except Fault (State p) :=
  match p.getObject a with
  | none => .ok s
  | some pObject => (p.getLinks a).foldlM (breakLink stop pObject a gid) s

/-- `generateStopperLinkBreaks`. -/
def linkBreaks (a : p.Action) (gid : ℕ) (s : State p) : Except Fault (State p) :=
  (if p.context a = .link then breaker stop a gid s else .ok s) >>= targetBreaks stop a gid

/-- `if( state != stopped ) stopper( childIndex )`. -/
def stopInstance (c : p.Action) (s : State p) (childIndex : ℕ) : Except Fault (State p) :=
  if s.state c childIndex ≠ .stopped then stop c childIndex s else .ok s

def stopChild (gid : ℕ) (s : State p) (c : p.Action) : Except Fault (State p) :=
  match p.allocator c with
  | .nothing => .ok s
  | .singleton => stopInstance stop c s gid
  | .range =>
    if !(s.alloc c gid).empty then
      (List.range' (gid * p.localDomainSize c) (p.localDomainSize c)).foldlM (stopInstance stop c) s
    else .ok s

/-- `generateSubTreeStop`. -/
def subTreeStop (a : p.Action) (gid : ℕ) (s : State p) : Except Fault (State p) :=
  (p.children a).foldlM (stopChild stop gid) s

end Stopper

/-- `stopper( gid )`, with a bound on the depth of calls. -/
def stopper : ℕ → p.Action → ℕ → State p → Except Fault (State p)
  | 0, _, _, _ => .error .outOfFuel
  | fuel + 1, a, gid, s =>
    if s.state a gid ≠ .stopped then do
      let s ← linkBreaks (stopper fuel) a gid (s.release a gid)
      subTreeStop (stopper fuel) a gid s
    else .ok s

end State

/-! ## Operations -/

/-- One more than the number of instances: no deeper do stoppers call each other. -/
def Program.fuel (p : Program) : ℕ := ((List.finRange p.numActions).map p.getTotalDomainSize).sum + 1

/-- The instance is one of the action's. -/
def Program.HasInstance (p : Program) (a : p.Action) (gid : ℕ) : Prop :=
  gid < p.getTotalDomainSize a

instance (p : Program) (a : p.Action) (gid : ℕ) : Decidable (p.HasInstance a gid) :=
  inferInstanceAs (Decidable (_ < _))

/-- What happens to the instances of a program: the operations it performs, the calls of stoppers by
the scheduler, and the cycles of the clock. -/
inductive Operation (p : Program)
  | startMain (a : p.Action)
  | call (a : p.Action) (parentId : ℕ)
  /-- `StopOperation`; also an action that terminates, or whose events never come -/
  | stop (a : p.Action) (gid : ℕ)
  | stopper (a : p.Action) (gid : ℕ)
  | pause (a : p.Action) (gid : ℕ)
  | resume (a : p.Action) (gid : ℕ)
  | writeLink (l : p.Action) (gid : ℕ) (value : Reference)
  | next

namespace State
variable {p : Program}

/-- `CallOperation`: the starter, and the scheduler if it has started an instance. -/
def call (a : p.Action) (parentId : ℕ) (s : State p) : State p × Reference :=
  let (s, ref) := s.starter a parentId
  if ref.timestamp ≠ INVALID_TIMESTAMP then (s.register ref, ref) else (s, ref)

def pause (a : p.Action) (gid : ℕ) (s : State p) : State p :=
  if s.state a gid = .running then s.setState a gid .paused else s

def resume (a : p.Action) (gid : ℕ) (s : State p) : State p :=
  if s.state a gid = .paused then s.setState a gid .running else s

section WriteLink
variable (stop : p.Action → ℕ → State p → Except Fault (State p))

/-- The previous link of a target, if there is one, is stopped. -/
def stopPrevious (g : p.GroupId) (backRef : Reference) (s : State p) : Except Fault (State p) :=
  if backRef.timestamp ≠ INVALID_TIMESTAMP ∧ (p.linkOf g backRef.type).isSome then
    stopRef stop backRef s
  else .ok s

/-- The back reference of a target is assigned, and its object counts the link. -/
def setLink (g : p.GroupId) (l : p.Action) (gid : ℕ) (t : p.Action) (inst : ℕ) (s : State p) :
    Except Fault (State p) :=
  let s := s.setBack g t inst (s.reference l gid)
  match p.getObject t with
  | none => .ok s
  | some pObject =>
    if p.isMainExecutable pObject then .ok s
    else s.incLinkRefCount pObject (inst / p.getObjectDomainFactor pObject)

/-- The new base is assigned, and its target is linked. -/
def assignBase (l : p.Action) (gid : ℕ) (value : Reference) (s : State p) :
    Except Fault (State p) :=
  let s := s.setBase l gid value
  match p.linkGroup l with
  | none => .ok s
  | some g =>
    match p.targetOf g value.type with
    | none => .ok s
    | some t =>
      stopPrevious stop g (s.back (g, t) value.inst) s >>= setLink g l gid t value.inst

/-- `WriteLinkOperation`. -/
def writeLink (l : p.Action) (gid : ℕ) (value : Reference) (s : State p) :
    Except Fault (State p) :=
  if (s.base l gid).equal value then .ok s
  else
    (if (s.base l gid).timestamp ≠ INVALID_TIMESTAMP then breaker stop l gid s else .ok s) >>=
      assignBase stop l gid value

end WriteLink

/-- One step of a program. -/
def step (s : State p) : Operation p → Except Fault (State p)
  | .startMain a =>
    if p.isMainExecutable a ∧ p.allocator a ≠ .nothing then
      let (s, ref) := s.mainStarter a
      .ok (s.register ref)
    else .error .disabled
  | .call a parentId =>
    match p.parent a with
    | some pParent =>
      if p.isExecutable a ∧ ¬ p.isMainExecutable a ∧ p.allocator a ≠ .nothing ∧
          p.HasInstance pParent parentId then
        .ok (s.call a parentId).1
      else .error .disabled
    | none => .error .disabled
  | .stop a gid =>
    if p.allocator a ≠ .nothing ∧ p.HasInstance a gid then
      stopRef (stopper p.fuel) (s.reference a gid) s
    else .error .disabled
  | .stopper a gid =>
    if p.allocator a ≠ .nothing ∧ p.HasInstance a gid then stopper p.fuel a gid s
    else .error .disabled
  | .pause a gid =>
    if p.allocator a ≠ .nothing ∧ p.HasInstance a gid then .ok (s.pause a gid)
    else .error .disabled
  | .resume a gid =>
    if p.allocator a ≠ .nothing ∧ p.HasInstance a gid then .ok (s.resume a gid)
    else .error .disabled
  | .writeLink l gid value =>
    if p.context l = .link ∧ p.HasInstance l gid then writeLink (stopper p.fuel) l gid value s
    else .error .disabled
  | .next => .ok { s with clock := (s.clock + 1) % 2 ^ 32 }

end State
end EgLang.Runtime
