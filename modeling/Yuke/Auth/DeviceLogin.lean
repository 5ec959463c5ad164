import Yuke.Shared.Duration
import Yuke.Shared.Json
import Yuke.Shared.Steps

/-!
# The polls of a device login

The start answer of the provider names an interval. The login polls until an answer ends it, and
before each wait it checks the time since its start.
-/

set_option autoImplicit false

namespace Yuke.Auth

open Yuke.Shared

/-- The number that decimal digits write, when it has 64 bits. -/
def parseU64 (digits : List Nat) : Option UInt64 :=
  if digits = [] ∨ digits.any fun code => code < 0x30 || 0x39 < code then none
  else
    let number := digits.foldl (fun number code => number * 10 + (code - 0x30)) 0
    if number < 2 ^ 64 then some (UInt64.ofNat number) else none

/-- The 64-bit count that `value` holds as a number or as a text. A text can start with a plus. -/
def countOf : Json → Option UInt64
  | .number text => parseU64 (text.map Char.toNat)
  | .string codes =>
    match codes with
    | 0x2b :: digits => parseU64 digits
    | digits => parseU64 digits
  | .null | .bool _ | .array _ | .object _ => none

/-- The whole seconds of `value`, when it holds a positive count. -/
def seconds (value : Json) : Option Duration :=
  (countOf value).bind fun seconds =>
    if 0 < seconds then some (Duration.fromSecs seconds) else none

def DEFAULT_INTERVAL : Duration := Duration.fromSecs 5

def interval (value : Option Json) : Duration := (value.bind seconds).getD DEFAULT_INTERVAL

def LOGIN_LIMIT : Duration := Duration.fromSecs (15 * 60)

def SLOW_DOWN_STEP : Duration := Duration.fromSecs 5

def MIN_INTERVAL : Duration := Duration.fromSecs 1

def MAX_BACKOFF : Duration := Duration.fromSecs 60

/-- What a poll gives. `failed` has the text of an error that is not transient. -/
inductive Polled (Grant : Type) where
  | approved (grant : Grant)
  | pending
  | slowDown
  | transient
  | failed (error : String)

/-- The time since the start of the login. An instant counts its seconds in 64 bits with a sign. -/
structure Elapsed where
  nanos : Nat
  bound : nanos < 2 ^ 63 * nanosPerSecond

def Elapsed.span (elapsed : Elapsed) : Duration where
  nanos := elapsed.nanos
  bound := by
    have hlt := elapsed.bound
    unfold nanosPerSecond at hlt
    unfold durationMax nanosPerSecond
    omega

structure Wait where
  elapsed : Elapsed
  delay : Duration

/-- A poll. The wait before it ended `late` after its delay, and the next check came `took` after
that. -/
structure Poll (Grant : Type) where
  late : Nat
  took : Nat
  answer : Polled Grant

inductive LoginEnd (Grant : Type) where
  | returned (result : Except String Grant)
  | panicked

structure PollLogin (Grant : Type) where
  interval : Duration
  backoff : Duration
  delay : Duration
  elapsed : Elapsed
  waiting : Bool := false
  waits : List Wait := []
  polls : List (Poll Grant) := []
  ended : Option (LoginEnd Grant) := none

inductive PollEvent (Grant : Type) where
  /-- The check of the limit. -/
  | check
  /-- The wait ends, and the poll gives an answer. The next check would come at `now`. -/
  | poll (poll : Poll Grant) (now : Elapsed)

namespace PollLogin

variable {Grant : Type}

/-- The start of the polls, `elapsed` after the start of the login. -/
def start (interval : Duration) (elapsed : Elapsed) : PollLogin Grant :=
  let interval := max interval MIN_INTERVAL
  { interval := interval, backoff := .zero, delay := interval, elapsed := elapsed }

def panic (s : PollLogin Grant) : PollLogin Grant := { s with ended := some .panicked }

def check (s : PollLogin Grant) : PollLogin Grant :=
  match s.elapsed.span.checkedAdd s.delay with
  | none => s.panic
  | some sum =>
    if LOGIN_LIMIT < sum then
      { s with ended := some (.returned (.error "the login expired before its approval")) }
    else { s with waiting := true, waits := s.waits ++ [⟨s.elapsed, s.delay⟩] }

def slowDown (s : PollLogin Grant) : PollLogin Grant :=
  match s.interval.checkedAdd SLOW_DOWN_STEP with
  | none => s.panic
  | some interval => { s with backoff := .zero, interval := interval, delay := interval }

def backOff (s : PollLogin Grant) : PollLogin Grant :=
  match s.backoff.checkedMul 2 with
  | none => s.panic
  | some double =>
    match double.clamp s.interval (max MAX_BACKOFF s.interval) with
    | none => s.panic
    | some backoff => { s with backoff := backoff, delay := backoff }

def answered (s : PollLogin Grant) : Polled Grant → PollLogin Grant
  | .approved grant => { s with ended := some (.returned (.ok grant)) }
  | .pending => { s with backoff := .zero, delay := s.interval }
  | .slowDown => s.slowDown
  | .transient => s.backOff
  | .failed error =>
    { s with ended := some (.returned (.error ("the login did not complete: " ++ error))) }

/-- The loop after `event`, or `none` when the event cannot happen. -/
def step (s : PollLogin Grant) : PollEvent Grant → Option (PollLogin Grant)
  | .check => if s.ended.isNone ∧ s.waiting = false then some s.check else none
  | .poll poll now =>
    if s.ended.isNone ∧ s.waiting = true ∧
        now.nanos = s.elapsed.nanos + s.delay.nanos + poll.late + poll.took then
      some (answered { s with waiting := false, elapsed := now, polls := s.polls ++ [poll] }
        poll.answer)
    else none

end PollLogin

end Yuke.Auth
