import Mathlib.Data.String.Basic
import EgLang.Library.OrderedMap
import EgLang.Library.StepSystem

/-! # The resource manager

A map from paths to resources, with the time stamps of the files they have been loaded from. A thread
of its own looks every half second for a file with another time stamp and loads it again. The thread
and the calls of `set_resource_handler` and `get_resource` exclude each other, but not those who write
the files: between the time stamp that is read and the contents that are loaded a file may change.
-/

namespace EgLang.Resources
open Library
set_option autoImplicit false

abbrev ResourcePath := String

/-- A file as it is at one moment. -/
structure File (γ : Type) where
  timestamp : ℤ
  contents : γ
deriving DecidableEq, Repr

/-- What the functions throw. -/
inductive Exception
  | runtimeError (what : String)
  /-- `last_write_time` of a file that is not there -/
  | filesystemError (path : ResourcePath)
deriving DecidableEq, Repr

/-- `ResourceHandler`: what its `reload` makes of a file. -/
abbrev ResourceHandler (γ ρ : Type) := ResourcePath → Option (File γ) → Except Exception ρ

/-- `TextResourceHandler::reload`. -/
def textResourceHandler : ResourceHandler String String := fun path inputFileStream =>
  match inputFileStream with
  | none => .error (.runtimeError ("Failed to open fileL " ++ path))
  | some file => .ok file.contents

structure ResourceTimeStamp (γ ρ : Type) where
  timestamp : ℤ
  resource : ρ
  handler : ResourceHandler γ ρ

abbrev ResourceMap (γ ρ : Type) := List (ResourcePath × ResourceTimeStamp γ ρ)

/-- Who holds `m_mutex`, and where he has got to. The iterator of the loop is the position of its
entry in the map. -/
inductive Phase (γ ρ : Type)
  | idle
  /-- `thread_function`, at the head of its loop -/
  | looking (i : ℕ)
  /-- `thread_function`, which has assigned a time stamp -/
  | reloading (i : ℕ)
  /-- `set_resource_handler`, which has found no handler for the path -/
  | setting (path : ResourcePath) (handler : ResourceHandler γ ρ)
  /-- `set_resource_handler`, which has read the time stamp -/
  | loading (path : ResourcePath) (handler : ResourceHandler γ ρ) (timestamp : ℤ)

/-- The manager and the files; `raised` is what the last call of `set_resource_handler` has thrown. -/
structure State (γ ρ : Type) where
  files : ResourcePath → Option (File γ)
  resources : ResourceMap γ ρ
  phase : Phase γ ρ
  raised : Option Exception

inductive Input (γ ρ : Type)
  /-- somebody writes a file -/
  | write (path : ResourcePath) (file : File γ)
  /-- somebody removes a file -/
  | remove (path : ResourcePath)
  /-- the thread wakes up and locks the mutex -/
  | poll
  /-- `set_resource_handler` is called and locks the mutex -/
  | set (path : ResourcePath) (handler : ResourceHandler γ ρ)
  /-- the holder of the mutex goes on -/
  | go

inductive Fault
  /-- an exception leaves the thread, which ends the program -/
  | terminated (e : Exception)
  /-- the mutex is held, or nobody holds it -/
  | disabled
deriving DecidableEq, Repr

namespace State
variable {γ ρ : Type}

def initial (files : ResourcePath → Option (File γ)) : State γ ρ := ⟨files, [], .idle, none⟩

def find (path : ResourcePath) (s : State γ ρ) : Option (ResourcePath × ResourceTimeStamp γ ρ) :=
  OrderedMap.find (· < ·) path s.resources

def lastWriteTime (path : ResourcePath) (s : State γ ρ) : Except Exception ℤ :=
  match s.files path with
  | none => .error (.filesystemError path)
  | some file => .ok file.timestamp

/-- `set_resource_handler` up to the look-up. -/
def lookUp (path : ResourcePath) (handler : ResourceHandler γ ρ) (s : State γ ρ) : State γ ρ :=
  match s.find path with
  | some _ =>
    { s with raised := some (.runtimeError ("Resource manager already has handler for: " ++ path)) }
  | none => { s with phase := .setting path handler }

/-- `set_resource_handler` leaves with an exception. -/
def raise (e : Exception) (s : State γ ρ) : State γ ρ := { s with phase := .idle, raised := some e }

/-- The holder of the mutex reads a time stamp, or loads a file. -/
def go (s : State γ ρ) : Except Fault (State γ ρ) :=
  match s.phase with
  | .idle => .error .disabled
  | .looking i =>
    match s.resources[i]? with
    | none => .ok { s with phase := .idle }
    | some (resourcePath, res) =>
      match s.lastWriteTime resourcePath with
      | .error e => .error (.terminated e)
      | .ok resource_timestamp =>
        if res.timestamp ≠ resource_timestamp then
          let res := { res with timestamp := resource_timestamp }
          .ok { s with resources := s.resources.set i (resourcePath, res), phase := .reloading i }
        else .ok { s with phase := .looking (i + 1) }
  | .reloading i =>
    match s.resources[i]? with
    | none => .error .disabled
    | some (resourcePath, res) =>
      match res.handler resourcePath (s.files resourcePath) with
      | .error e => .error (.terminated e)
      | .ok resource =>
        let res := { res with resource := resource }
        .ok { s with resources := s.resources.set i (resourcePath, res), phase := .idle }
  | .setting resourcePath pHandler =>
    match s.lastWriteTime resourcePath with
    | .error e => .ok (s.raise e)
    | .ok resource_timestamp => .ok { s with phase := .loading resourcePath pHandler resource_timestamp }
  | .loading resourcePath pHandler resource_timestamp =>
    match pHandler resourcePath (s.files resourcePath) with
    | .error e => .ok (s.raise e)
    | .ok pResource =>
      let res : ResourceTimeStamp γ ρ := ⟨resource_timestamp, pResource, pHandler⟩
      .ok { s with
        resources := OrderedMap.insert (· < ·) resourcePath res s.resources
        phase := .idle
        raised := none }

def step (s : State γ ρ) : Input γ ρ → Except Fault (State γ ρ)
  | .write path file => .ok { s with files := Function.update s.files path (some file) }
  | .remove path => .ok { s with files := Function.update s.files path none }
  | .poll =>
    match s.phase with
    | .idle => .ok { s with phase := .looking 0 }
    | _ => .error .disabled
  | .set path handler =>
    match s.phase with
    | .idle => .ok (s.lookUp path handler)
    | _ => .error .disabled
  | .go => s.go

end State
end EgLang.Resources
