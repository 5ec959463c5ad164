import Yuke.Ai.Retry
import Yuke.Ai.Value

/-!
# The kind of an error event
-/

set_option autoImplicit false

namespace Yuke.Ai

structure ErrorFields where
  kind : Option String := none
  code : Option String := none
  errorType : Option String := none
  status : Option Int := none
  message : Option String := none
  detailCode : Option String := none

namespace ErrorFields

def of (value : Value) : ErrorFields where
  kind := value.getStr "type"
  code := value.getStr "code"
  errorType := (value.getStr "error_type").or
    ((value.get "metadata").bind fun metadata => metadata.getStr "error_type")
  status := value.getInt "code"
  message := value.getStr "message"
  detailCode := (value.get "details").bind fun details => details.getStr "error_code"

/-- The fields under `response`, or the ones of a flat `error` event. -/
def readAround (root : Value) : Option ErrorFields :=
  match root.get "response" with
  | some response =>
    let fields := ((response.get "error").map of).getD {}
    some { fields with errorType := (response.getStr "error_type").or fields.errorType }
  | none => if root.getStr "type" = some "error" then some (of root) else none

def read (root : Value) : Option ErrorFields :=
  match root.get "error" with
  | some (.string text) => some { message := some text }
  | some (.object members) => some (of (.object members))
  | _ => readAround root

end ErrorFields

def isQuotaCode (code : String) : Bool :=
  code ∈ ["insufficient_quota", "payment_required", "billing_error",
      "enforced_spend_limit_reached", "credit_balance_exhausted",
      "organization_usage_limit_exceeded", "usage_limit_reached", "usage_not_included",
      "subscription_sharing_usage_limit_exceeded", "FreeUsageLimitError", "GoUsageLimitError",
      "CreditsError", "MonthlyLimitError", "UserLimitError"] ||
    "_spend_limit_exceeded".toList.isSuffixOf code.toList

def byName (name : String) : Option ProviderKind :=
  if name = "context_length_exceeded" then some .contextOverflow
  else if name ∈ ["rate_limit_exceeded", "slow_down", "rate_limit_error"] then some .rateLimited
  else if name ∈ ["server_error", "server_is_overloaded", "api_error", "overloaded_error",
      "provider_overloaded", "provider_unavailable", "server"] then some .serverError
  else if name ∈ ["timeout", "timeout_error"] then some .timeout
  else if name ∈ ["conflict", "conflict_error"] then some .conflict
  else if name ∈ ["authentication", "authentication_error"] then some .authFailed
  else if name ∈ ["permission_denied", "permission_error"] then some .permissionDenied
  else none

/-- The kind of a status. A 429 needs a proof before it can repeat. -/
def byStatus (status : Nat) : ProviderKind :=
  if status = 401 then .authFailed
  else if status = 402 then .quotaExhausted
  else if status = 403 then .permissionDenied
  else if status = 408 ∨ status = 504 then .timeout
  else if status = 409 then .conflict
  else if status = 429 then .rateLimitUnknown
  else if 500 ≤ status ∧ status ≤ 599 then .serverError
  else .badStatus

namespace ErrorFields

def names (fields : ErrorFields) : List String :=
  [fields.code, fields.errorType, fields.kind, fields.detailCode].filterMap id

/-- A status that is no `u16`, and one below 400, name no kind. -/
def byCode (fields : ErrorFields) : Option ProviderKind :=
  fields.status.bind fun status =>
    if 400 ≤ status ∧ status < 65536 then
      (some (byStatus status.toNat)).filter fun kind => kind ≠ .badStatus
    else none

def classify (fields : ErrorFields) : Option ProviderKind :=
  if fields.names.any isQuotaCode then some .quotaExhausted
  else
    match fields.names.findSome? byName with
    | some kind => some kind
    | none =>
      if fields.kind = some "invalid_request_error" ∧
          fields.message.any fun message =>
            "prompt is too long".toList.isPrefixOf message.toList then
        some .contextOverflow
      else fields.byCode

end ErrorFields

def eventKind (root : Value) : ProviderKind :=
  ((ErrorFields.read root).bind ErrorFields.classify).getD .providerFailed

end Yuke.Ai
