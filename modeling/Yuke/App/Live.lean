import Yuke.Protocol.Session

/-!
# The task of an open session

The task waits for a wake, and then runs one turn after another while input waits. Each call runs on
its own up to its next wait. The store answers a read before the task that asked runs again, and
other calls run in between.
-/

set_option autoImplicit false

namespace Yuke.App.Live

open Yuke.Protocol

inductive RunEnd where
  /-- The read of the inbox found no input. -/
  | empty
  /-- The observer was told of `error`. -/
  | failed (error : String)
  | closed
  deriving DecidableEq

structure Run where
  accepted : List InputId
  stop : RunEnd
  deriving DecidableEq

inductive TurnEnd where
  | done
  | round
  | noInput
  | store (error : String)
  | stale (error : String)
  | inputHook (error : String)
  deriving DecidableEq

/-- Where the task waits. Each wait inside a run of the turns has the inputs that were accepted when
the run started. -/
inductive Task where
  | waiting
  | asking (accepted : List InputId)
  /-- The store has read the inbox: whether input waits. -/
  | answered (accepted : List InputId) (answer : Except String Bool)
  | locking (accepted : List InputId)
  | recovering (accepted : List InputId)
  /-- A turn runs, and its tools and its prompt are not there yet. -/
  | preparing (accepted : List InputId)
  | turning (accepted : List InputId)
  | ended

inductive Lock where
  | free
  | task
  /-- A change of the settings, or a reload. -/
  | other
  deriving DecidableEq

/-- The session, its inbox in the store, and what the observer was told. `saved` has the inputs whose
accept waits for the store no more and did not run on yet. -/
structure State where
  pending : List InputId
  consumed : List InputId := []
  removed : List InputId := []
  saved : List InputId := []
  accepted : List InputId := []
  wake : Bool := false
  handled : Nat := 0
  runs : List Run := []
  turn : Option Bool := none
  closed : Bool := false
  lock : Lock := .free
  stale : Bool := false
  task : Task := .waiting
  notices : List String := []
  idles : Nat → Option (List InputId) := fun _ => none

namespace State

/-- The end of a run of the turns: it marks what it handled, and the task goes on to its next wait.
After a close with no wake stored the task ends. -/
def endRun (s : State) (accepted : List InputId) (stop : RunEnd) : State :=
  { s with
    handled := accepted.length
    runs := s.runs ++ [⟨accepted, stop⟩]
    task := if s.closed ∧ ¬ s.wake then .ended else .waiting }

/-- A run that tells the observer of `error` and ends. -/
def fail (s : State) (accepted : List InputId) (error : String) : State :=
  { s with notices := s.notices ++ [error] }.endRun accepted (.failed error)

def startTurn (s : State) (accepted : List InputId) : Except String Unit → State
  | .error error => { s with lock := .free }.fail accepted error
  | .ok () =>
    if s.closed then { s with lock := .free }.endRun accepted .closed
    else { s with turn := some false, task := .preparing accepted }

def finishTurn (s : State) (stale : Bool) : State :=
  { s with lock := .free, stale := stale, turn := none }

def afterTurn (s : State) (accepted : List InputId) : TurnEnd → State
  | .done | .round | .noInput => { s with task := .asking accepted }
  | .store error | .stale error | .inputHook error => s.fail accepted error

end State

inductive Event where
  /-- The store saves the input of an `accept`. -/
  | save (id : InputId)
  /-- That `accept` runs on. -/
  | accept (id : InputId)
  | remove (id : InputId)
  | cancel
  /-- A change of the settings or a reload takes the lock, or finds the session busy. -/
  | hold
  | release (stale : Bool)
  /-- A view or a load reads the session. -/
  | view
  /-- The app wakes the task. -/
  | wake
  /-- The close of the session. -/
  | stop
  /-- The task takes the stored wake, and runs. -/
  | run
  /-- The task sees the close, and ends. -/
  | leave
  /-- The store reads the inbox, or fails. -/
  | read (failure : Option String)
  | resume
  /-- The task gets the lock. `model` tells whether the model of the settings can run. -/
  | lock (model : Except String Unit)
  | recover (result : Except String (Except String Unit))
  | prepare (result : Except String Unit)
  /-- A saved commit of the turn consumes `inputs`. -/
  | commit (inputs : List InputId)
  | turnEnd (result : TurnEnd) (stale : Bool)
  | idle (call : Nat)
  /-- The call of `idle` returns. -/
  | idleReturn (call : Nat)

namespace State

/-- The session after `event`, or `none` when the event cannot happen. The store gives each input a
new id. -/
def step (s : State) : Event → Option State
  | .save id =>
    if id ∈ s.pending ∨ id ∈ s.consumed ∨ id ∈ s.removed then none
    else some { s with pending := s.pending ++ [id], saved := s.saved ++ [id] }
  | .accept id =>
    if id ∈ s.saved then
      some { s with saved := s.saved.erase id, accepted := s.accepted ++ [id], wake := true }
    else none
  | .remove id =>
    if id ∈ s.pending then
      some { s with pending := s.pending.erase id, removed := s.removed ++ [id] }
    else some s
  | .cancel => some { s with turn := s.turn.map fun _ => true }
  | .hold => some (if s.lock = .free then { s with lock := .other } else s)
  | .release stale =>
    if s.lock = .other then some { s with lock := .free, stale := stale } else none
  | .view => some s
  | .wake => some { s with wake := true }
  | .stop => some { s with closed := true, turn := s.turn.map fun _ => true }
  | .run =>
    match s.task with
    | .waiting => if s.wake then some { s with wake := false, task := .asking s.accepted } else none
    | _ => none
  | .leave =>
    match s.task with
    | .waiting => if s.closed then some { s with task := .ended } else none
    | _ => none
  | .read failure =>
    match s.task with
    | .asking accepted =>
      some { s with
        task := .answered accepted (match failure with
          | some error => .error error
          | none => .ok !s.pending.isEmpty) }
    | _ => none
  | .resume =>
    match s.task with
    | .answered accepted (.error error) => some (s.fail accepted error)
    | .answered accepted (.ok false) => some (s.endRun accepted .empty)
    | .answered accepted (.ok true) => some { s with task := .locking accepted }
    | _ => none
  | .lock model =>
    match s.task with
    | .locking accepted =>
      if s.lock ≠ .free then none
      else
        let held := { s with lock := .task }
        some (if s.stale then { held with task := .recovering accepted }
          else held.startTurn accepted model)
    | _ => none
  | .recover result =>
    match s.task with
    | .recovering accepted =>
      match result with
      | .error error => some ({ s with lock := .free }.fail accepted error)
      | .ok model => some ({ s with stale := false }.startTurn accepted model)
    | _ => none
  | .prepare result =>
    match s.task with
    | .preparing accepted =>
      match result with
      | .ok () => some { s with task := .turning accepted }
      | .error error => some ((s.finishTurn s.stale).fail accepted error)
    | _ => none
  | .commit inputs =>
    match s.task with
    | .turning _ =>
      if ∀ id ∈ inputs, id ∈ s.pending then
        some { s with
          pending := s.pending.filter (· ∉ inputs), consumed := s.consumed ++ inputs }
      else none
    | _ => none
  | .turnEnd result stale =>
    match s.task with
    | .turning accepted => some ((s.finishTurn stale).afterTurn accepted result)
    | _ => none
  | .idle call =>
    if s.idles call ≠ none then none
    else some { s with idles := Function.update s.idles call (some s.accepted) }
  | .idleReturn call =>
    match s.idles call with
    | some accepted =>
      if s.closed ∨ (accepted.length ≤ s.handled ∧ s.turn = none) then
        some { s with idles := Function.update s.idles call none }
      else none
    | none => none

end State

/-- The session after its open. The inputs of `pending` wait in its inbox already. -/
def start (pending : List InputId) : State := { pending := pending }

end Yuke.App.Live
