import Mathlib

/-!
# What a call says

The target, the request, its blocks and tools, and the wire facts of each protocol. A block owns
its bytes, so a context is a list of blocks.
-/

set_option autoImplicit false

namespace Yuke.Ai

inductive Protocol where
  | anthropicMessages
  | openaiChat
  | openaiResponses
  deriving DecidableEq

/-- The kind of provider state that a reasoning block must return verbatim. -/
inductive ReplayKind where
  | anthropicSignature
  | anthropicRedacted
  | responsesEncrypted
  | openrouterDetails
  deriving DecidableEq

def ReplayKind.protocol : ReplayKind → Protocol
  | .anthropicSignature | .anthropicRedacted => .anthropicMessages
  | .responsesEncrypted => .openaiResponses
  | .openrouterDetails => .openaiChat

structure Origin where
  model : String
  baseUrl : String
  deriving DecidableEq

structure ReasoningReplay where
  origin : Origin
  kind : ReplayKind
  data : String
  deriving DecidableEq

inductive Modality where
  | text
  | image
  | audio
  | video
  | pdf
  | other
  deriving DecidableEq

/-- The digest of the content of a blob, such as its SHA-256. -/
structure Digest where
  bytes : Vector UInt8 32
  deriving DecidableEq

structure Blob where
  digest : Digest
  len : Nat
  deriving DecidableEq

structure Media where
  blob : Blob
  mime : String
  filename : String
  deriving DecidableEq

structure Reasoning where
  text : String
  replay : Option ReasoningReplay
  deriving DecidableEq

def Media.kind (media : Media) : Modality :=
  let mime := media.mime.toList.map Char.toLower
  if "image/".toList.isPrefixOf mime then .image
  else if "audio/".toList.isPrefixOf mime then .audio
  else if "video/".toList.isPrefixOf mime then .video
  else if "text/".toList.isPrefixOf mime then .text
  else if mime = "application/pdf".toList then .pdf
  else .other

structure ToolCall where
  callId : String
  name : String
  arguments : String
  deriving DecidableEq

structure ToolDefinition where
  name : String
  description : String
  inputSchema : String
  deferLoading : Bool
  deriving DecidableEq

structure ToolResult where
  callId : String
  content : String
  isError : Bool
  media : List Media
  loaded : List ToolDefinition
  deriving DecidableEq

namespace ToolResult

def success (callId content : String) : ToolResult where
  callId := callId
  content := content
  isError := false
  media := []
  loaded := []

def error (callId content : String) : ToolResult :=
  { success callId content with isError := true }

def withMedia (result : ToolResult) (media : List Media) : ToolResult :=
  { result with media := media }

def withLoaded (result : ToolResult) (loaded : List ToolDefinition) : ToolResult :=
  { result with loaded := loaded }

@[simp] theorem success_callId (callId content : String) :
    (success callId content).callId = callId := rfl

@[simp] theorem error_callId (callId content : String) :
    (error callId content).callId = callId := rfl

@[simp] theorem withMedia_callId (result : ToolResult) (media : List Media) :
    (result.withMedia media).callId = result.callId := rfl

@[simp] theorem withLoaded_callId (result : ToolResult) (loaded : List ToolDefinition) :
    (result.withLoaded loaded).callId = result.callId := rfl

end ToolResult

inductive Role where
  | user
  | assistant
  deriving DecidableEq

def Role.asStr : Role → String
  | .user => "user"
  | .assistant => "assistant"

inductive Block where
  | userText (text : String)
  | media (media : Media)
  | toolResult (result : ToolResult)
  | assistantText (text : String)
  | reasoning (reasoning : Reasoning)
  | toolCall (call : ToolCall)
  deriving DecidableEq

def Block.role : Block → Role
  | .userText _ | .media _ | .toolResult _ => .user
  | .assistantText _ | .reasoning _ | .toolCall _ => .assistant

def searchToolName : String := "tool_search"

structure OutputSchema where
  name : String
  schema : String
  strict : Bool
  deriving DecidableEq

inductive Effort where
  | minimal
  | low
  | medium
  | high
  | xhigh
  | max
  deriving DecidableEq

def Effort.asStr : Effort → String
  | .minimal => "minimal"
  | .low => "low"
  | .medium => "medium"
  | .high => "high"
  | .xhigh => "xhigh"
  | .max => "max"

inductive ResponsesDialect where
  | standard
  | codex
  deriving DecidableEq

inductive ChatDialect where
  | standard
  | mistral
  deriving DecidableEq

/-- The output-token member that an OpenAI-chat host accepts. -/
inductive MaxTokensField where
  | maxTokens
  | maxCompletionTokens
  deriving DecidableEq

inductive ReasoningReplayMode where
  | none
  | reasoningContent
  | reasoningDetails
  deriving DecidableEq

/-- The reasoning control that an OpenAI-chat host accepts. -/
inductive ThinkingFormat where
  | none
  | openai
  | openrouter
  | deepseek
  | zai
  | qwen
  deriving DecidableEq

inductive ThinkingDisplay where
  | summarized
  | omitted
  deriving DecidableEq

def ThinkingDisplay.asStr : ThinkingDisplay → String
  | .summarized => "summarized"
  | .omitted => "omitted"

inductive Thinking where
  | off
  | adaptive (display : Option ThinkingDisplay)
  | budget (tokens : Nat)
  deriving DecidableEq

structure ReasoningSettings where
  thinking : Option Thinking := none
  effort : Option Effort := none
  deriving DecidableEq

def ReasoningSettings.off (settings : ReasoningSettings) : Bool :=
  settings.thinking = some .off

structure AnthropicWire where
  maxTokens : Nat
  cache : Bool
  deriving DecidableEq

structure ChatWire where
  dialect : ChatDialect := .standard
  thinkingFormat : ThinkingFormat := .none
  reasoningReplay : ReasoningReplayMode := .none
  maxTokensField : MaxTokensField := .maxTokens
  deriving DecidableEq

structure ResponsesWire where
  dialect : ResponsesDialect := .standard
  cache : Bool := false
  deriving DecidableEq

inductive Wire where
  | anthropicMessages (wire : AnthropicWire)
  | openaiChat (wire : ChatWire)
  | openaiResponses (wire : ResponsesWire)
  deriving DecidableEq

def Wire.protocol : Wire → Protocol
  | .anthropicMessages _ => .anthropicMessages
  | .openaiChat _ => .openaiChat
  | .openaiResponses _ => .openaiResponses

structure Header where
  name : String
  value : String
  deriving DecidableEq

inductive CredentialHeader where
  | xApiKey
  | authorizationBearer
  | apiKey
  deriving DecidableEq

def CredentialHeader.name : CredentialHeader → String
  | .xApiKey => "x-api-key"
  | .authorizationBearer => "Authorization"
  | .apiKey => "api-key"

inductive SessionHeader where
  | none
  | sessionId
  | xOpencodeSession
  deriving DecidableEq

def SessionHeader.name : SessionHeader → Option String
  | .none => .none
  | .sessionId => some "session-id"
  | .xOpencodeSession => some "x-opencode-session"

structure Route where
  baseUrl : String
  credentialHeader : Option CredentialHeader := none
  headers : List Header := []
  sessionHeader : SessionHeader := .none
  deriving DecidableEq

structure OAuth where
  accessToken : String
  headers : List Header
  deriving DecidableEq

inductive Credential where
  | none
  | apiKey (key : String)
  | oauth (grant : OAuth)
  deriving DecidableEq

structure Target where
  model : String
  route : Route
  wire : Wire
  toolSearch : Bool
  deriving DecidableEq

def trimEndSlashes (text : String) : String :=
  String.ofList (text.toList.rdropWhile (· == '/'))

def Origin.of (target : Target) : Origin where
  model := target.model
  baseUrl := trimEndSlashes target.route.baseUrl

def Origin.matches (origin : Origin) (target : Target) : Bool :=
  origin = Origin.of target

/-- The state that a request to `target` may carry. An empty encrypted content carries nothing, and
an empty Anthropic signature still replays. -/
def Reasoning.replayTo (reasoning : Reasoning) (target : Target) : Option (ReplayKind × String) :=
  match reasoning.replay with
  | none => none
  | some replay =>
    let empty := replay.kind = .responsesEncrypted ∧ replay.data.isEmpty
    if replay.origin.matches target ∧ replay.kind.protocol = target.wire.protocol ∧ ¬ empty then
      some (replay.kind, replay.data)
    else
      none

/-- A decimal number as a float prints it: a sign, a whole number, and digits after the point. -/
structure Decimal where
  negative : Bool
  whole : Nat
  fraction : List (Fin 10)
  deriving DecidableEq

/-- A floating-point setting, as far as the program reads it: whether it is finite, and the shortest
decimal number that names it. -/
inductive F64 where
  | finite (value : Decimal)
  | infinity (negative : Bool)
  | nan
  deriving DecidableEq

def F64.isFinite : F64 → Bool
  | .finite _ => true
  | .infinity _ | .nan => false

inductive ToolChoice where
  | auto
  | none
  deriving DecidableEq

structure Settings where
  maxOutputTokens : Option Nat := none
  reasoning : ReasoningSettings := {}
  temperature : Option F64 := none
  topP : Option F64 := none
  toolChoice : ToolChoice := .auto
  outputSchema : Option OutputSchema := none
  deriving DecidableEq

abbrev BlobStore := Digest → Except String (Option (List UInt8))

/-- The part of a request that a protocol or a target cannot carry. -/
inductive Unsupported where
  | deferredTool
  | media (modality : Modality)
  | unnamedDocument
  | audioFormat
  deriving DecidableEq

inductive EncodeError where
  | unsupported (reason : Unsupported)
  | unresolvedBlob (digest : Digest)
  | blobRead (digest : Digest) (source : String)
  | credentialMismatch
  | invalidHeader (name : String)
  | invalidSampling
  deriving DecidableEq

/-- The bytes of `blob` from `store`. Bytes of another length fail. -/
def readBlob (store : Option BlobStore) (blob : Blob) : Except EncodeError (List UInt8) :=
  let bytes : Except String (Option (List UInt8)) :=
    match store with
    | some store => store blob.digest
    | none => .ok none
  match bytes with
  | .error source => .error (.blobRead blob.digest source)
  | .ok none => .error (.unresolvedBlob blob.digest)
  | .ok (some bytes) =>
    if bytes.length = blob.len then .ok bytes else .error (.unresolvedBlob blob.digest)

/-- One request. `cached` bounds the blocks that the cache marker can go on. -/
structure Request where
  blocks : List Block
  tools : List ToolDefinition := []
  blobs : Option BlobStore := none
  system : String := ""
  settings : Settings := {}
  sessionId : Option String := none
  cached : Option Nat := none

def Request.cacheableBlocks (request : Request) : List Block :=
  request.blocks.take (request.cached.getD request.blocks.length)

/-- The protocol of `target` writes `block`. It writes a reasoning block only with its state. -/
def writes (target : Target) : Block → Bool
  | .reasoning reasoning => (reasoning.replayTo target).isSome
  | .userText _ | .assistantText _ | .media _ | .toolCall _ | .toolResult _ => true

def defersTools (tools : List ToolDefinition) : Bool := tools.any fun tool => tool.deferLoading

end Yuke.Ai
