import Yuke.Ai.Stream.Anthropic
import Yuke.Ai.Wire.Json

/-!
# The stream of OpenAI Chat Completions

The dialect stops no block before its end mark, so every block is open until then. The entries of
`reasoning_details` merge while they come, and the end mark stores them as one array. The two readers
of `serde_json` are parameters.
-/

set_option autoImplicit false

namespace Yuke.Ai

def Value.optionalStr (value : Value) (key : String) : Except Halt (Option String) :=
  match value.get key with
  | none | some .null => .ok none
  | some (.string text) => .ok (some text)
  | some _ => .error (.error .protocol)

namespace OpenaiChatStream

open Yuke.Ai.Write
open AnthropicStream (malformed required)

inductive DetailKind where
  | text
  | summary
  | encrypted
  deriving DecidableEq

def DetailKind.parse (name : String) : Option DetailKind :=
  if name = "reasoning.text" then some .text
  else if name = "reasoning.summary" then some .summary
  else if name = "reasoning.encrypted" then some .encrypted
  else none

def DetailKind.name : DetailKind → String
  | .text => "reasoning.text"
  | .summary => "reasoning.summary"
  | .encrypted => "reasoning.encrypted"

def DetailKind.field : DetailKind → String
  | .text => "text"
  | .summary => "summary"
  | .encrypted => "data"

structure Detail where
  kind : DetailKind
  /-- the text, the summary or the data, joined across fragments -/
  body : String := ""
  /-- a fragment named the member of the body -/
  hasBody : Bool := false
  signature : Option String := none
  id : Option String := none
  format : Option String := none
  index : Option Int
  deriving DecidableEq

def keepFirst (slot value : Option String) : Option String :=
  match slot with
  | some kept => some kept
  | none => value.filter fun text => text ≠ ""

def kindOf (entry : Value) : Option DetailKind := (entry.getStr "type").bind DetailKind.parse

def Detail.join (detail : Detail) (entry : Value) : Detail :=
  let body := entry.getStr detail.kind.field
  { detail with
    body := detail.body ++ body.getD ""
    hasBody := detail.hasBody || body.isSome
    signature := keepFirst detail.signature (entry.getStr "signature")
    id := keepFirst detail.id (entry.getStr "id")
    format := keepFirst detail.format (entry.getStr "format") }

def Detail.new (kind : DetailKind) (entry : Value) : Detail :=
  Detail.join { kind := kind, index := entry.getInt "index" } entry

/-- The last entry, when a fragment of `kind` joins it. An encrypted entry stays whole. -/
def reused (details : List Detail) (kind : DetailKind) : Option Detail :=
  details.getLast?.filter fun last => last.kind = kind ∧ kind ≠ .encrypted

def onDetail (maxBlocks : Nat) (details : List Detail) (entry : Value) :
    Except Halt (List Detail) :=
  match kindOf entry with
  | none => .ok details
  | some kind =>
    match reused details kind with
    | some last => .ok (details.dropLast ++ [last.join entry])
    | none =>
      if maxBlocks ≤ details.length then .error (.error .tooLarge)
      else .ok (details ++ [.new kind entry])

def writeDetail (detail : Detail) : Write Unit :=
  object do
    fieldStr "type" detail.kind.name
    onlyIf detail.hasBody (fieldStr detail.kind.field detail.body)
    ifSome detail.signature (fieldStr "signature")
    ifSome detail.id (fieldStr "id")
    ifSome detail.format (fieldStr "format")
    ifSome detail.index fun index => member "index" (int index)

def writeDetails (details : List Detail) : Write Unit :=
  array (details.forM writeDetail)

def detailsText (details : List Detail) : String := String.ofList (writeDetails details false).text

structure Function where
  name : Option String
  arguments : Option String
  deriving DecidableEq

structure WireCall where
  index : Int
  id : Option String
  function : Option Function
  deriving DecidableEq

/-- A typed delta. `reasoningDetails` says that the member is there and not null, and `toolCalls` is an array of
at most one call. -/
structure Delta where
  reasoningContent : Option String := none
  reasoningDetails : Bool := false
  content : Option String := none
  refusal : Option String := none
  toolCalls : Option (Option WireCall) := none
  deriving DecidableEq

structure Choice where
  delta : Option Delta
  finishReason : Option String
  deriving DecidableEq

/-- One chunk, read with no tree. `error` and `usage` say that the member is there and not null, and it has at
most one choice. -/
structure Chunk where
  error : Bool := false
  usage : Bool := false
  choice : Option Choice
  deriving DecidableEq

def Chunk.typed (chunk : Chunk) : Bool :=
  !chunk.error && !chunk.usage &&
    match chunk.choice.bind Choice.delta with
    | none => true
    | some delta =>
      !delta.reasoningDetails &&
        match delta.toolCalls.join with
        | none => true
        | some call => call.function.isSome

structure PayloadReader where
  chunk : String → Option Chunk
  parse : String → Option Value

/-! ## The reducer -/

structure Reducer where
  draft : Draft
  /-- the block of each text channel -/
  channels : BlockKind → Option BlockId := fun _ => none
  /-- the block of each tool call index -/
  tools : List (Nat × BlockId) := []
  details : List Detail := []
  /-- the provider sent the member, also as an empty array -/
  detailsSeen : Bool := false

def finishReason (raw : String) : FinishReason :=
  if raw = "stop" then .stop
  else if raw = "length" ∨ raw = "model_length" then .length
  else if raw = "tool_calls" ∨ raw = "function_call" then .toolCalls
  else if raw = "content_filter" then .contentFilter
  else .unknown

def isInterrupted (raw : String) : Bool :=
  raw ∈ ["insufficient_system_resource", "aborted", "error"]

namespace Reducer

def channel (reducer : Reducer) (kind : BlockKind) : Except Halt (BlockId × Reducer) :=
  match reducer.channels kind with
  | some id => .ok (id, reducer)
  | none => do
    let started ← reducer.draft.start kind
    pure (started.1, { reducer with
      draft := started.2
      channels := Function.update reducer.channels kind (some started.1) })

def appendDelta (kind : BlockKind) (reducer : Reducer) (text : String) : Except Halt Reducer :=
  if text = "" then .ok reducer
  else do
    let found ← reducer.channel kind
    let draft ← found.2.draft.delta found.1 text
    pure { found.2 with draft := draft }

def appendSome (kind : BlockKind) (text : Option String) (reducer : Reducer) : Except Halt Reducer :=
  match text with
  | some text => reducer.appendDelta kind text
  | none => .ok reducer

def toolBlock (reducer : Reducer) (index : Nat) : Except Halt (BlockId × Reducer) :=
  match reducer.tools.find? fun tool => tool.1 = index with
  | some (_, id) => .ok (id, reducer)
  | none => do
    let started ← reducer.draft.start .toolCall
    pure (started.1, { reducer with
      draft := started.2
      tools := reducer.tools ++ [(index, started.1)] })

def joinArguments (draft : Draft) (id : BlockId) : Option String → Except Halt Draft
  | some fragment => draft.toolDelta id fragment
  | none => .ok draft

def onToolFragment (reducer : Reducer) (index : Nat) (id name arguments : Option String) :
    Except Halt Reducer := do
  let found ← reducer.toolBlock index
  let named ← found.2.draft.identify found.1 (id.getD "") (name.getD "")
  let draft ← joinArguments named found.1 arguments
  pure { found.2 with draft := draft }

def onToolCall (reducer : Reducer) (call : Value) : Except Halt Reducer := do
  let index ← required (call.getIndex "index")
  match call.get "function" with
  -- An entry with no function carries nothing to add.
  | none => pure reducer
  | some function =>
    if !function.isObject then malformed
    else
      let arguments ← function.optionalStr "arguments"
      let id ← call.optionalStr "id"
      let name ← function.optionalStr "name"
      reducer.onToolFragment index id name arguments

/-- Merge the fragments of one delta. The state can come with no reasoning text, so it opens the
block. -/
def onDetails (reducer : Reducer) (entries : List Value) : Except Halt Reducer := do
  let found ← reducer.channel .reasoning
  let details ← entries.foldlM (onDetail reducer.draft.limits.maxBlocks) found.2.details
  pure { found.2 with details := details, detailsSeen := true }

/-- Do `step` with the items of a member that is an array. -/
def withArray (delta : Value) (key : String) (step : Reducer → List Value → Except Halt Reducer)
    (reducer : Reducer) : Except Halt Reducer :=
  match delta.getArray key with
  | some items => step reducer items
  | none => .ok reducer

def onDelta (reducer : Reducer) (delta : Value) : Except Halt Reducer := do
  let reducer ← reducer.appendSome .reasoning
    ((delta.getStr "reasoning_content").or (delta.getStr "reasoning"))
  let reducer ← reducer.withArray delta "reasoning_details" onDetails
  let reducer ← reducer.appendSome .text (delta.getStr "content")
  let reducer ← reducer.appendSome .refusal (delta.getStr "refusal")
  reducer.withArray delta "tool_calls" fun reducer calls => calls.foldlM onToolCall reducer

def withDelta {α : Type} (delta : Option α) (step : Reducer → α → Except Halt Reducer)
    (reducer : Reducer) : Except Halt Reducer :=
  match delta with
  | some delta => step reducer delta
  | none => .ok reducer

def onFinish (reducer : Reducer) (raw : Option String) : Reducer × Option ProviderKind :=
  match raw with
  | none => (reducer, none)
  | some raw =>
    if isInterrupted raw then (reducer, some .serverError)
    else ({ reducer with draft := reducer.draft.setFinish (finishReason raw) raw }, none)

def onChoice (reducer : Reducer) (choice : Value) : Except Halt (Reducer × Option ProviderKind) := do
  let reducer ← reducer.withDelta (choice.getObject "delta") onDelta
  pure (reducer.onFinish (choice.getStr "finish_reason"))

def onTypedCall (call : Option WireCall) (reducer : Reducer) : Except Halt Reducer :=
  match call with
  | none => .ok reducer
  | some call =>
    match call.function with
    | none => .ok reducer
    | some function =>
      if 0 ≤ call.index then
        reducer.onToolFragment call.index.toNat call.id function.name function.arguments
      else malformed

def onTypedDelta (reducer : Reducer) (delta : Delta) : Except Halt Reducer := do
  let reducer ← reducer.appendSome .reasoning delta.reasoningContent
  let reducer ← reducer.appendSome .text delta.content
  let reducer ← reducer.appendSome .refusal delta.refusal
  reducer.onTypedCall delta.toolCalls.join

/-- Read a chunk that the typed read covers, in the order of `onDelta`. -/
def onChunk (reducer : Reducer) (chunk : Chunk) : Except Halt (Reducer × Option ProviderKind) :=
  match chunk.choice with
  | none => .ok (reducer, none)
  | some choice => do
    let reducer ← reducer.withDelta choice.delta onTypedDelta
    pure (reducer.onFinish choice.finishReason)

def readUsage (reducer : Reducer) (root : Value) : Reducer :=
  match root.getObject "usage" with
  | none => reducer
  | some usage =>
    let total := reducer.draft.usage
    let prompt := usage.getObject "prompt_tokens_details"
    let cacheRead := ((prompt.bind fun details => details.count "cached_tokens").or
      (usage.count "prompt_cache_hit_tokens")).or (usage.count "cached_tokens")
    { reducer with draft := { reducer.draft with usage := {
        input := usage.count "prompt_tokens"
        output := usage.count "completion_tokens"
        cacheRead := cacheRead
        cacheWrite :=
          match prompt with
          | some details => details.count "cache_write_tokens"
          | none => total.cacheWrite
        reasoning :=
          match usage.getObject "completion_tokens_details" with
          | some details => details.count "reasoning_tokens"
          | none => total.reasoning } } }

def storeDetails (reducer : Reducer) : Except Halt Reducer :=
  if !reducer.detailsSeen then .ok reducer
  else do
    let id ← required (reducer.channels .reasoning)
    let block ← reducer.draft.openBlock id
    let bytes := block.bytes ++ detailsText reducer.details
    -- The array returns whole in one message, so it is bounded like one event.
    if reducer.draft.limits.maxEventBytes < bytes.utf8ByteSize then .error (.error .tooLarge)
    else
      pure { reducer with draft :=
        reducer.draft.setBlock id { block with replay := some .openrouterDetails, bytes := bytes } }

def onDone (reducer : Reducer) : Except Halt Reducer := do
  let reducer ← reducer.storeDetails
  let draft ← reducer.draft.closeAndFinish .keep
  pure { reducer with draft := draft }

def firstChoice (root : Value) : Option Value := (root.getArray "choices").bind List.head?

def decodeRoot (reducer : Reducer) (root : Value) : Except Halt (Reducer × Option ProviderKind) :=
  match firstChoice root with
  | none => .ok (reducer.readUsage root, none)
  | some choice => do
    let read ← reducer.onChoice choice
    match read.2 with
    | some kind => pure (read.1, some kind)
    | none => pure (read.1.readUsage root, none)

end Reducer

/-- The chunk of a payload that takes the typed path. A derived read also takes an array by position,
so only an object takes it. -/
def typedChunk (reader : PayloadReader) (data : String) : Option Chunk :=
  if (data.toList.dropWhile Protocol.isWhitespace).head? = some '{' then
    (reader.chunk data).filter Chunk.typed
  else none

def doneMark : String := "[DONE]"

def errorOf (root : Value) : Option ProviderKind :=
  match root.get "error" with
  | none => none
  | some error => if error.isNull then none else some (eventKind root)

def Reducer.decode (reader : PayloadReader) (reducer : Reducer) (data : String) :
    Except Halt (Reducer × Option ProviderKind) :=
  if data = doneMark then do
    return (← reducer.onDone, none)
  else
    match typedChunk reader data with
    | some chunk => reducer.onChunk chunk
    | none => do
      let root ← required (reader.parse data)
      match errorOf root with
      | some kind => pure (reducer, some kind)
      | none => reducer.decodeRoot root

/-- Decode the payloads in order, from a reducer whose events the stream cleared before each one. The
events are the ones that the stream hands out. A provider failure ends the stream. -/
def decodeAll (reader : PayloadReader) : Reducer → List String →
    Except (Halt ⊕ ProviderKind) (Reducer × List Event)
  | reducer, [] => .ok (reducer, [])
  | reducer, data :: payloads =>
    match Reducer.decode reader { reducer with draft := reducer.draft.clearEvents } data with
    | .error halt => .error (.inl halt)
    | .ok (_, some kind) => .error (.inr kind)
    | .ok (reducer, none) =>
      let events := reducer.draft.events.filterMap reducer.draft.event
      (decodeAll reader reducer payloads).map fun rest => (rest.1, events ++ rest.2)

def Reducer.new (origin : Origin) (limits : ResponseLimits) : Reducer where
  draft := { origin := origin, limits := limits }

/-- The payloads are a whole answer: the last one is the end mark, and the stream reads none after it. -/
structure Answered (reader : PayloadReader) (origin : Origin) (limits : ResponseLimits)
    (payloads : List String) (events : List Event) : Prop where
  run : ∃ reducer, decodeAll reader (.new origin limits) (payloads ++ [doneMark]) =
    .ok (reducer, events)
  unended : doneMark ∉ payloads

end OpenaiChatStream

end Yuke.Ai
