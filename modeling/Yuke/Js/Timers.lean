import Yuke.Shared.Steps

/-!
# The timers of a runtime

One loop fires the due timers. A callback and its promise reactions run in the loop, and they set
and clear timers, as other scripts do while the loop waits. The log holds what happened, the newest
entry first.
-/

set_option autoImplicit false

namespace Yuke.Js

inductive Number where
  | nan
  | infinite (negative : Bool)
  | finite (value : ℚ)
  deriving DecidableEq

def LONGEST_DELAY : ℚ := 2147483647

/-- The delay in nanoseconds. `none` is a missing or undefined value. -/
def delayOf : Option Number → Nat
  | some (.finite milliseconds) =>
    if milliseconds ≤ 0 then 0 else ⌊min milliseconds LONGEST_DELAY⌋.toNat * 1000000
  | some .nan | some (.infinite _) | none => 0

/-- The id of a clear. A value that is no timer id clears nothing, and `none` is no number. -/
def idOf : Option Number → Option Nat
  | some (.finite number) =>
    if 1 ≤ number ∧ number.den = 1 ∧ number ≤ 2 ^ 53 then some number.num.toNat else none
  | some .nan | some (.infinite _) | none => none

structure Timer (Callback Value : Type) where
  due : Nat
  callback : Callback
  arguments : List Value
  interval : Option Nat

/-- The timers. `waiting` is the map by id, and `changed` says that a wait for a change has its
wake. -/
structure Timers (Callback Value : Type) where
  lastId : Nat := 0
  waiting : List (Nat × Timer Callback Value) := []
  firing : Option Nat := none
  changed : Bool := false

namespace Timers

variable {Callback Value : Type}

/-- Put the timer `id` into the waiting timers. -/
def insert (s : Timers Callback Value) (id : Nat) (timer : Timer Callback Value) :
    Timers Callback Value :=
  { s with waiting := (id, timer) :: s.waiting.filter fun entry => entry.1 ≠ id }

def remove (s : Timers Callback Value) (id : Nat) : Timers Callback Value :=
  { s with waiting := s.waiting.filter fun entry => entry.1 ≠ id }

def set (s : Timers Callback Value) (now : Nat) (callback : Callback) (delay : Option Number)
    (arguments : List Value) (again : Bool) : Timers Callback Value :=
  let delay := delayOf delay
  let id := s.lastId + 1
  let timer : Timer Callback Value :=
    { due := now + delay
      callback := callback
      arguments := arguments
      interval := if again then some delay else none }
  { { s with lastId := id }.insert id timer with changed := true }

def clearId (s : Timers Callback Value) (id : Nat) : Timers Callback Value :=
  match s.waiting.lookup id with
  | some _ => s.remove id
  | none => if s.firing = some id then { s with firing := none } else s

def notAfter (a b : Nat × Nat) : Bool := a.1 < b.1 || (a.1 = b.1 && a.2 ≤ b.2)

/-- The ids of the timers due at `now`, by due time, then by id. -/
def dueIds (s : Timers Callback Value) (now : Nat) : List Nat :=
  (((s.waiting.filter fun entry => entry.2.due ≤ now).map
    fun entry => (entry.2.due, entry.1)).mergeSort notAfter).map Prod.snd

/-- Take the timer `id` out of the waiting timers to fire it. -/
def start (s : Timers Callback Value) (id : Nat) :
    Option (Timer Callback Value × Timers Callback Value) :=
  match s.waiting.lookup id with
  | none => none
  | some timer => some (timer, { s.remove id with firing := some id })

def finish (s : Timers Callback Value) (now : Nat) (id : Nat) (timer : Timer Callback Value) :
    Timers Callback Value :=
  let firing := s.firing
  let s := { s with firing := none }
  match timer.interval with
  | none => s
  | some interval =>
    if firing = some id then s.insert id { timer with due := now + interval } else s

def nextDue (s : Timers Callback Value) : Option Nat := (s.waiting.map fun entry => entry.2.due).min?

end Timers

inductive Place (Callback Value : Type) where
  /-- The start of the loop. -/
  | look
  /-- No timer waits, and the loop waits for a change. -/
  | idle
  /-- The loop waits for `due` or for a change. -/
  | sleep (due : Nat)
  /-- A round, with the ids that it has left. -/
  | round (ids : List Nat)
  /-- The callback of a timer and its promise reactions run. -/
  | running (id : Nat) (timer : Timer Callback Value) (ids : List Nat)

inductive TimerEntry where
  | set (id due : Nat) (again : Bool)
  | cleared (id : Nat)
  | round (now : Nat)
  | started (id due now : Nat)
  /-- The callback of a timer ended. `again` is the due time of a timer that waits again. -/
  | finished (id : Nat) (again : Option Nat)
  /-- The round has no id left. -/
  | ended
  deriving DecidableEq

structure FireLoop (Callback Value : Type) where
  timers : Timers Callback Value := {}
  place : Place Callback Value := .look
  now : Nat
  log : List TimerEntry := []

inductive TimerEvent (Callback Value : Type) where
  | pass (nanos : Nat)
  | set (callback : Callback) (delay : Option Number) (arguments : List Value) (again : Bool)
  | clear (value : Option Number)
  /-- The loop looks for the next due time. -/
  | look
  /-- A change wakes the loop. -/
  | wake
  /-- The sleep of the loop ends, and a round begins. -/
  | due
  /-- The round goes on with its next id. -/
  | next
  /-- The callback and its promise reactions ended. -/
  | finish

namespace FireLoop

variable {Callback Value : Type}

def scripts (s : FireLoop Callback Value) : Bool :=
  match s.place with
  | .look | .idle | .sleep _ | .running .. => true
  | .round _ => false

def setTimer (s : FireLoop Callback Value) (callback : Callback) (delay : Option Number)
    (arguments : List Value) (again : Bool) : FireLoop Callback Value :=
  let timers := s.timers.set s.now callback delay arguments again
  { s with timers := timers, log := .set timers.lastId (s.now + delayOf delay) again :: s.log }

/-- The loop after a clear of the timer `id`. The clear of an id that no timer has yet does
nothing. -/
def clearTimer (s : FireLoop Callback Value) (id : Nat) : FireLoop Callback Value :=
  { s with
    timers := s.timers.clearId id
    log := if 1 ≤ id ∧ id ≤ s.timers.lastId then .cleared id :: s.log else s.log }

def nextId (s : FireLoop Callback Value) : List Nat → FireLoop Callback Value
  | [] => { s with place := .look, log := .ended :: s.log }
  | id :: ids =>
    match s.timers.start id with
    | none => { s with place := .round ids }
    | some (timer, timers) =>
      { s with
        timers := timers
        place := .running id timer ids
        log := .started id timer.due s.now :: s.log }

def finishTimer (s : FireLoop Callback Value) (id : Nat) (timer : Timer Callback Value)
    (ids : List Nat) : FireLoop Callback Value :=
  let timers := s.timers.finish s.now id timer
  { s with
    timers := timers
    place := .round ids
    log := .finished id ((timers.waiting.lookup id).map Timer.due) :: s.log }

/-- The loop after `event`, or `none` when the event cannot happen. -/
def step (s : FireLoop Callback Value) : TimerEvent Callback Value → Option (FireLoop Callback Value)
  | .pass nanos => some { s with now := s.now + nanos }
  | .set callback delay arguments again =>
    if s.scripts then some (s.setTimer callback delay arguments again) else none
  | .clear value =>
    if s.scripts then
      match idOf value with
      | none => some s
      | some id => some (s.clearTimer id)
    else none
  | .look =>
    match s.place with
    | .look =>
      match s.timers.nextDue with
      | none => some { s with place := .idle }
      | some due => some { s with place := .sleep due }
    | .idle | .sleep _ | .round _ | .running .. => none
  | .wake =>
    match s.place with
    | .idle | .sleep _ =>
      if s.timers.changed then
        some { s with place := .look, timers := { s.timers with changed := false } }
      else none
    | .look | .round _ | .running .. => none
  | .due =>
    match s.place with
    | .sleep due =>
      if due ≤ s.now then
        some { s with place := .round (s.timers.dueIds s.now), log := .round s.now :: s.log }
      else none
    | .look | .idle | .round _ | .running .. => none
  | .next =>
    match s.place with
    | .round ids => some (s.nextId ids)
    | .look | .idle | .sleep _ | .running .. => none
  | .finish =>
    match s.place with
    | .running id timer ids => some (s.finishTimer id timer ids)
    | .look | .idle | .sleep _ | .round _ => none

end FireLoop

end Yuke.Js
