import Yuke.Ai.Response
import Yuke.Shared.Duration

/-!
# The retry of a failed attempt

Whether a failed provider attempt may repeat, and the delay before the next one. The decision is
pure.
-/

set_option autoImplicit false

namespace Yuke.Ai

open Yuke.Shared (Duration binary64)

inductive ProviderKind where
  | authFailed
  | permissionDenied
  | rateLimited
  | quotaExhausted
  | rateLimitUnknown
  | serverError
  | badStatus
  | timeout
  | conflict
  | contextOverflow
  | providerFailed
  deriving DecidableEq

inductive Fault where
  | invalidRequest
  | badUrl
  | dnsFailed
  | connectFailed
  | connectTimeout
  | certificateRejected
  | tlsSetupFailed
  | idleTimeout
  | requestTimeout
  | redirectRefused
  | connectionLost
  | malformedResponse
  | answerTooLarge
  deriving DecidableEq

inductive Failure where
  | provider (kind : ProviderKind)
  | transport (fault : Fault)
  | protocol
  | responseTooLarge
  | incompleteStream
  deriving DecidableEq

/-- The facts of one attempt: the response head, the failure bytes, and whether the caller got an
event. -/
structure AttemptInfo where
  retryAfterMs : Option UInt64 := none
  shouldRetry : Option Bool := none
  status : Option Nat := none
  requestId : Option String := none
  errorBody : Option (List UInt8) := none
  outputSeen : Bool := false
  deriving DecidableEq

structure AttemptError where
  cause : Failure
  info : AttemptInfo
  partials : List Partial
  deriving DecidableEq

/-- Whether `cause` may repeat without an `x-should-retry: true`. -/
def repeatable (cause : Failure) (info : AttemptInfo) : Bool :=
  match cause with
  | .provider kind =>
    match kind with
    | .rateLimited | .serverError | .conflict => true
    -- A provider answered, so it holds the request, unless the status says that it did not process it.
    | .timeout => info.status = some 408
    | .rateLimitUnknown => info.retryAfterMs.isSome
    | .authFailed | .permissionDenied | .quotaExhausted | .badStatus | .contextOverflow
    | .providerFailed => false
  | .transport fault =>
    match fault with
    | .idleTimeout | .requestTimeout | .connectFailed | .connectTimeout | .connectionLost
    | .dnsFailed => true
    | .invalidRequest | .redirectRefused | .badUrl | .malformedResponse | .answerTooLarge
    | .tlsSetupFailed | .certificateRejected => false
  | .incompleteStream => true
  | .protocol | .responseTooLarge => false

def u32Max : Nat := 2 ^ 32 - 1

structure Policy where
  maxAttempts : Nat
  base : Duration
  cap : Duration
  retryAfterCap : Duration
  positive : 0 < maxAttempts
  bound : maxAttempts ≤ u32Max

instance : Inhabited Policy where
  default := {
    maxAttempts := 5
    base := .fromMillis 500
    cap := .fromMillis 8000
    retryAfterCap := .fromMillis 120000
    positive := by decide
    bound := by decide }

/-- A draw in `[0, 1)`. -/
abbrev Jitter : Type := { draw : ℚ // 0 ≤ draw ∧ draw < 1 }

/-- The computed delay behind the attempt `number`: 75% to 100% of the capped one. -/
def backoff (policy : Policy) (number : Nat) (jitter : Jitter) : Duration :=
  let shift := min (number - 1) 16
  let capped := min (policy.base.saturatingMul (1 <<< shift)) policy.cap
  capped.saturatingSub (capped.mulBinary64 (binary64 (jitter.val * (1 / 4))))

/-- The delay before the next attempt, or `none` when the request must stop. `number` is the number
of the attempt that failed, from 1. -/
def retryDecide (policy : Policy) (error : AttemptError) (number : Nat) (jitter : Jitter) :
    Option Duration :=
  let info := error.info
  if info.outputSeen then none
  else if error.cause = .provider .contextOverflow then none
  else if info.shouldRetry = some false then none
  else if info.shouldRetry ≠ some true ∧ !repeatable error.cause info then none
  else if policy.maxAttempts ≤ number then none
  else
    let computed := backoff policy number jitter
    match info.retryAfterMs.map Duration.fromMillis with
    | none => some computed
    | some asked =>
      if policy.retryAfterCap < asked then none
      -- A server delay is a floor, so a delay of zero cannot skip the backoff.
      else some (max asked computed)

theorem backoff_le (policy : Policy) (number : Nat) (jitter : Jitter) :
    backoff policy number jitter ≤ policy.cap :=
  (Duration.saturatingSub_le _ _).trans (min_le_right _ _)

structure Permitted (policy : Policy) (error : AttemptError) (number : Nat) (delay : Duration) :
    Prop where
  unseen : error.info.outputSeen = false
  fits : error.cause ≠ .provider .contextOverflow
  unvetoed : error.info.shouldRetry ≠ some false
  below : number < policy.maxAttempts
  asked : ∀ millis, error.info.retryAfterMs = some millis → Duration.fromMillis millis ≤ delay
  capped : delay ≤ max policy.cap policy.retryAfterCap

theorem retryDecide_permitted {policy : Policy} {error : AttemptError} {number : Nat}
    {jitter : Jitter} {delay : Duration}
    (h : retryDecide policy error number jitter = some delay) :
    Permitted policy error number delay := by
  unfold retryDecide at h
  dsimp only at h
  split_ifs at h with hseen hfits hveto hrepeat hbelow
  have hcap : backoff policy number jitter ≤ max policy.cap policy.retryAfterCap :=
    (backoff_le policy number jitter).trans (le_max_left _ _)
  refine ⟨by simpa using hseen, hfits, hveto, by omega, ?_, ?_⟩
  · intro millis hmillis
    rw [hmillis, Option.map_some] at h
    dsimp only at h
    split_ifs at h
    cases h
    exact le_max_left _ _
  · cases hmillis : error.info.retryAfterMs with
    | none =>
      rw [hmillis] at h
      cases h
      exact hcap
    | some millis =>
      rw [hmillis, Option.map_some] at h
      dsimp only at h
      split_ifs at h with hlate
      cases h
      exact max_le ((not_lt.mp hlate).trans (le_max_right _ _)) hcap

end Yuke.Ai
