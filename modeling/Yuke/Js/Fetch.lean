import Mathlib

/-!
# Fetch

`run` sends a request and follows the redirects of the servers. The URL parser is a parameter. The
answers of the servers are a sequence: the one with index `n` is the answer to request `n`.
-/

set_option autoImplicit false

namespace Yuke.Js.Fetch

structure Url where
  href : String
  protocol : String
  origin : String
  deriving DecidableEq

/-- The parser of URLs: `parse location base`, and the text of a URL without its fragment. -/
structure UrlParser where
  parse : String → Option String → Option Url
  withoutFragment : String → String

/-- A name and a value. The names are HTTP tokens, so their lower case is the one of ASCII. -/
abbrev Header := String × String

inductive Redirect where
  | follow
  | error
  | manual
  deriving DecidableEq

/-- What a `Request` holds for a fetch. A body has bytes. -/
structure RequestState where
  method : String
  url : String
  headers : List Header
  redirect : Redirect
  body : Option (List UInt8)
  deriving DecidableEq

structure HttpHead where
  status : ℕ
  statusText : String
  headers : List Header
  deriving DecidableEq

inductive Answer where
  | aborted
  | fails
  | head (head : HttpHead)
  deriving DecidableEq

structure Sent where
  method : String
  url : String
  headers : List Header
  body : List UInt8
  deriving DecidableEq

structure Response where
  url : String
  redirected : Bool
  status : ℕ
  statusText : String
  headers : List Header
  hasBody : Bool
  deriving DecidableEq

inductive FetchError where
  /-- the reason of the signal -/
  | aborted
  /-- the failure of the native -/
  | failure
  /-- the `TypeError` of a URL that does not parse -/
  | invalidUrl
  | network (message code : String)
  deriving DecidableEq

/-- How a fetch ends: with a response to request `answer`, or with an error. -/
inductive Outcome where
  | response (answer : ℕ) (response : Response)
  | error (error : FetchError)
  deriving DecidableEq

structure Fetched where
  sent : List Sent
  closed : List ℕ
  outcome : Outcome
  deriving DecidableEq

def NULL_BODY_STATUSES : List ℕ := [101, 103, 204, 205, 304]

def REDIRECT_STATUSES : List ℕ := [301, 302, 303, 307, 308]

def BODY_HEADERS : List String :=
  ["content-encoding", "content-language", "content-length", "content-location", "content-type"]

def MOST_REDIRECTS : ℕ := 20

def has (headers : List Header) (name : String) : Bool :=
  headers.any fun pair => pair.1.toLower = name

def withoutBodyHeaders (headers : List Header) : List Header :=
  headers.filter fun pair => pair.1.toLower ∉ BODY_HEADERS

def withoutAuthorization (headers : List Header) : List Header :=
  headers.filter fun pair => pair.1.toLower ≠ "authorization"

/-- A 303 changes each method except GET and HEAD, and a 301 or a 302 changes POST. -/
def changesMethod (status : ℕ) (method : String) : Bool :=
  (status = 303 && method ≠ "GET" && method ≠ "HEAD") ||
    ((status = 301 || status = 302) && method = "POST")

/-- The variables of the loop of `run`. -/
structure Hop where
  method : String
  url : String
  headers : List Header
  body : List UInt8
  redirected : Bool
  deriving DecidableEq

namespace Hop

def sent (hop : Hop) : Sent where
  method := hop.method
  url := hop.url
  headers := hop.headers
  body := hop.body

def changed (hop : Hop) (status : ℕ) : Hop :=
  if changesMethod status hop.method then
    { hop with method := "GET", headers := withoutBodyHeaders hop.headers, body := [] }
  else hop

/-- A redirect from the origin of `current` to another one drops the `authorization` header. -/
def moved (hop : Hop) (current next : Url) : Hop where
  method := hop.method
  url := next.href
  headers :=
    if current.origin ≠ next.origin then withoutAuthorization hop.headers else hop.headers
  body := hop.body
  redirected := true

end Hop

def locations (head : HttpHead) : List String :=
  (head.headers.filter fun pair => pair.1 = "location").map Prod.snd

variable (urls : UrlParser) (answers : ℕ → Answer) (redirect : Redirect)

/-- The response of `head`, the answer to request `n`. An answer without a body is closed. -/
def fetchedResponse (head : HttpHead) (hop : Hop) (n : ℕ) : Fetched :=
  let empty : Bool := hop.method = "HEAD" || head.status ∈ NULL_BODY_STATUSES
  { sent := [hop.sent]
    closed := if empty then [n] else []
    outcome := .response n
      { url := urls.withoutFragment hop.url
        redirected := hop.redirected
        status := head.status
        statusText := head.statusText
        headers := head.headers
        hasBody := !empty } }

/-- The end of a fetch that closed answer `n`. -/
def refused (hop : Hop) (n : ℕ) (error : FetchError) : Fetched where
  sent := [hop.sent]
  closed := [n]
  outcome := .error error

/-- What a fetch did that went on after answer `n`. -/
def Fetched.after (rest : Fetched) (hop : Hop) (n : ℕ) : Fetched :=
  { rest with sent := hop.sent :: rest.sent, closed := n :: rest.closed }

/-- The loop of `run` before request `n`, with `left` redirects to follow. -/
def loop (left n : ℕ) (hop : Hop) : Fetched :=
  match answers n with
  | .aborted => { sent := [], closed := [], outcome := .error .aborted }
  | .fails => { sent := [hop.sent], closed := [], outcome := .error .failure }
  | .head head =>
    if head.status ∉ REDIRECT_STATUSES ∨ redirect = .manual then fetchedResponse urls head hop n
    else if redirect = .error then
      refused hop n (.network "the server redirected, and the redirect mode is error" "redirect")
    else
      match locations head with
      | [] => fetchedResponse urls head hop n
      | [location] =>
        match left with
        | 0 =>
          refused hop n (.network
            ("the server redirected more than " ++ toString MOST_REDIRECTS ++ " times") "redirect")
        | left + 1 =>
          match urls.parse location (some hop.url) with
          | none =>
            refused hop n (.network
              ("the redirect location '" ++ location ++ "' is not an http or https URL") "redirect")
          | some next =>
            if next.protocol ≠ "http:" ∧ next.protocol ≠ "https:" then
              refused hop n (.network
                ("the redirect location '" ++ location ++ "' is not an http or https URL")
                "redirect")
            else
              match urls.parse hop.url none with
              | none => refused hop n .invalidUrl
              | some current =>
                (loop left (n + 1) ((hop.changed head.status).moved current next)).after hop n
      | _ => refused hop n (.network "the server sent more than one location" "redirect")

def firstHop (state : RequestState) : Hop where
  method := state.method
  url := state.url
  headers := state.headers ++
    (if has state.headers "accept" then [] else [("accept", "*/*")]) ++
    (if has state.headers "accept-encoding" then [] else [("accept-encoding", "identity")])
  body := state.body.getD []
  redirected := false

def run (state : RequestState) : Fetched :=
  loop urls answers state.redirect MOST_REDIRECTS 0 (firstHop state)

end Yuke.Js.Fetch
