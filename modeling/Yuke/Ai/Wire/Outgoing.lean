import Yuke.Ai.Request

/-!
# The URL and the headers of one request
-/

set_option autoImplicit false

namespace Yuke.Ai

/-- A token character of a field name (RFC 9110). -/
def isTchar (c : Char) : Bool :=
  c ∈ ['!', '#', '$', '%', '&', '\'', '*', '+', '-', '.', '^', '_', Char.ofNat 0x60, '|', '~'] ||
    c.isAlphanum

def validHeaderName (name : String) : Bool := !name.isEmpty && name.toList.all isTchar

def validHeaderValue (value : String) : Bool :=
  value.toList.all fun c => c = '\t' || !(decide (c.toNat < 0x20) || c.toNat = 0x7f)

def transportHeaders : List String :=
  ["accept", "accept-encoding", "connection", "content-length", "content-type", "host", "te",
    "transfer-encoding", "upgrade", "user-agent"]

def eqIgnoreAsciiCase (a b : String) : Bool :=
  a.toList.map Char.toLower = b.toList.map Char.toLower

/-- The name of the first header with invalid field syntax, that the transport writes itself, or that
repeats a name in `written`. -/
def invalidHeader (headers : List Header) (written : List String) : Option String :=
  (headers.find? fun header =>
    !(validHeaderName header.name && validHeaderValue header.value &&
      !(transportHeaders ++ written).any fun owned => eqIgnoreAsciiCase owned header.name)).map
    Header.name

structure HeadText where
  url : String := ""
  headers : List Header := []
  model : String := ""
  baseUrl : String := ""
  deriving DecidableEq

def protocolPath : Protocol → String
  | .anthropicMessages => "/messages"
  | .openaiChat => "/chat/completions"
  | .openaiResponses => "/responses"

def CredentialHeader.secretPrefix : CredentialHeader → String
  | .xApiKey | .apiKey => ""
  | .authorizationBearer => "Bearer "

def Credential.isNone : Credential → Bool
  | .none => true
  | .apiKey _ | .oauth _ => false

def Credential.secret : Credential → String
  | .none => ""
  | .apiKey key => key
  | .oauth grant => grant.accessToken

def Credential.identity : Credential → List Header
  | .none | .apiKey _ => []
  | .oauth grant => grant.headers

/-- The URL, the headers, and the origin of a request to `target` with `credential`. Headers go in
credential, identity, route, and session order. -/
def HeadText.build (target : Target) (credential : Credential) (sessionId : Option String) :
    Except EncodeError HeadText :=
  let route := target.route
  if route.credentialHeader.isNone ≠ credential.isNone then .error .credentialMismatch
  else
    let session : Option (String × String) :=
      route.sessionHeader.name.bind fun name => sessionId.map fun value => (name, value)
    let written := [(route.credentialHeader.map CredentialHeader.name).getD "",
      (session.map Prod.fst).getD ""]
    let repeatsIdentity := (route.headers.find? fun header =>
      credential.identity.any fun own => eqIgnoreAsciiCase own.name header.name).map Header.name
    let secretInvalid : Option String :=
      if validHeaderValue credential.secret then none else some (written.headD "")
    let sessionInvalid : Option String := session.bind fun entry =>
      if validHeaderValue entry.2 then none else some entry.1
    let invalid := (invalidHeader credential.identity written).or <|
      (invalidHeader route.headers written).or <| repeatsIdentity.or <|
        secretInvalid.or sessionInvalid
    match invalid with
    | some name => .error (.invalidHeader name)
    | none =>
      let baseUrl := trimEndSlashes route.baseUrl
      let credentialHeaders : List Header :=
        match route.credentialHeader with
        | some header => [⟨header.name, header.secretPrefix ++ credential.secret⟩]
        | none => []
      let sessionHeaders : List Header :=
        match session with
        | some (name, value) => [⟨name, value⟩]
        | none => []
      .ok {
        url := baseUrl ++ protocolPath target.wire.protocol
        headers := credentialHeaders ++ credential.identity ++ route.headers ++ sessionHeaders
        model := (Origin.of target).model
        baseUrl := (Origin.of target).baseUrl }

def HeadText.origin (head : HeadText) : Origin := ⟨head.model, head.baseUrl⟩

end Yuke.Ai
