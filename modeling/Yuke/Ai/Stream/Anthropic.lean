import Yuke.Ai.Failure
import Yuke.Ai.Stream.Draft
import Yuke.Protocol.Title

/-!
# The stream of Anthropic Messages

The reducer decodes one payload into the events of its draft. The two readers of `serde_json` are
parameters.
-/

set_option autoImplicit false

namespace Yuke.Ai.AnthropicStream

/-- One block delta. A field that is absent or not a string is `none`. -/
structure DeltaView where
  kind : String
  text : Option String
  thinking : Option String
  signature : Option String
  partialJson : Option String
  deriving DecidableEq

structure BlockDelta where
  event : String
  index : Int
  delta : DeltaView
  deriving DecidableEq

structure PayloadReader where
  blockDelta : String → Option BlockDelta
  parse : String → Option Value

structure Reducer where
  draft : Draft
  /-- the neutral block of each provider block index, or `none` for an ignored one -/
  slots : List (Option BlockId) := []
  /-- the largest `input_tokens` so far, which counts no cache token -/
  uncachedInput : Option Nat := none
  deriving DecidableEq

def malformed {α : Type} : Except Halt α := .error (.error .protocol)

def required {α : Type} : Option α → Except Halt α
  | some value => .ok value
  | none => malformed

def u64Max : Nat := 2 ^ 64 - 1

def saturatingAdd (a b : Nat) : Nat := min (a + b) u64Max

def blockKind (blockType : String) : Option BlockKind :=
  if blockType = "text" then some .text
  else if blockType = "thinking" ∨ blockType = "redacted_thinking" then some .reasoning
  else if blockType = "tool_use" then some .toolCall
  else none

def finishReason (raw : String) : FinishReason :=
  if raw = "end_turn" ∨ raw = "stop_sequence" then .stop
  else if raw = "max_tokens" ∨ raw = "model_context_window_exceeded" then .length
  else if raw = "tool_use" then .toolCalls
  else if raw = "refusal" then .refusal
  else if raw = "pause_turn" then .pause
  else .unknown

def deltaView (delta : Value) : Except Halt DeltaView := do
  let kind ← required (delta.getStr "type")
  pure {
    kind := kind
    text := delta.getStr "text"
    thinking := delta.getStr "thinking"
    signature := delta.getStr "signature"
    partialJson := delta.getStr "partial_json" }

namespace Reducer

/-- Keep the larger of each cumulative prompt count. The neutral input adds the cache counts. -/
def foldPromptUsage (reducer : Reducer) (usage : Value) : Reducer :=
  let total := reducer.draft.usage
  let uncached := max reducer.uncachedInput (usage.count "input_tokens")
  let cacheRead := max total.cacheRead (usage.count "cache_read_input_tokens")
  let cacheWrite := max total.cacheWrite (usage.count "cache_creation_input_tokens")
  { reducer with
    uncachedInput := uncached
    draft := { reducer.draft with usage := { total with
      cacheRead := cacheRead
      cacheWrite := cacheWrite
      input := uncached.map fun uncached =>
        saturatingAdd (saturatingAdd uncached (cacheRead.getD 0)) (cacheWrite.getD 0) } } }

def onMessageStart (reducer : Reducer) (root : Value) : Reducer :=
  match (root.getObject "message").bind fun message => message.getObject "usage" with
  | some usage => reducer.foldPromptUsage usage
  | none => reducer

def deltaUnlessEmpty (draft : Draft) (id : BlockId) (text : Option String) : Except Halt Draft :=
  match text with
  | some text => if text = "" then .ok draft else draft.delta id text
  | none => .ok draft

def startContent (draft : Draft) (id : BlockId) (kind : BlockKind) (blockType : String)
    (block : Value) : Except Halt Draft :=
  match kind with
  | .text => deltaUnlessEmpty draft id (block.getStr "text")
  | .reasoning =>
    if blockType = "redacted_thinking" then do
      let draft ← draft.setReplay id .anthropicRedacted
      draft.pushBytes id ((block.getStr "data").getD "")
    else do
      let draft ← draft.setReplay id .anthropicSignature
      let draft ← deltaUnlessEmpty draft id (block.getStr "thinking")
      draft.pushBytes id ((block.getStr "signature").getD "")
  | .toolCall | .refusal => .ok draft

def startBlock (draft : Draft) (kind : BlockKind) (block : Value) :
    Except Halt (BlockId × Draft) :=
  if kind = .toolCall then do
    let callId ← required (block.getStr "id")
    let name ← required (block.getStr "name")
    draft.startTool callId name
  else draft.start kind

def onBlockStart (reducer : Reducer) (root : Value) : Except Halt Reducer := do
  let index ← required (root.getIndex "index")
  -- Block indexes must arrive in dense order.
  if index ≠ reducer.slots.length then malformed
  else if reducer.draft.limits.maxBlocks ≤ reducer.slots.length then .error (.error .tooLarge)
  else
    let block ← required (root.get "content_block")
    let blockType ← required (block.getStr "type")
    match blockKind blockType with
    | none => pure { reducer with slots := reducer.slots ++ [none] }
    | some kind =>
      let started ← startBlock reducer.draft kind block
      let draft ← startContent started.2 started.1 kind blockType block
      pure { reducer with draft := draft, slots := reducer.slots ++ [some started.1] }

def expectedKind (kind : String) : Option BlockKind :=
  if kind = "text_delta" then some .text
  else if kind = "thinking_delta" ∨ kind = "signature_delta" then some .reasoning
  else if kind = "input_json_delta" then some .toolCall
  else none

/-- What a delta of a fitting kind does to the open block `id`. -/
def deltaContent (draft : Draft) (id : BlockId) (delta : DeltaView) : Except Halt Draft :=
  if delta.kind = "text_delta" then do
    draft.delta id (← required delta.text)
  else if delta.kind = "thinking_delta" then do
    draft.delta id (← required delta.thinking)
  else if delta.kind = "signature_delta" then do
    draft.pushBytes id (← required delta.signature)
  else do
    draft.toolDelta id (← required delta.partialJson)

/-- Apply a delta to the open block `id`. A redacted block arrives whole on its start. -/
def applyView (reducer : Reducer) (id : BlockId) (block : DraftBlock) (delta : DeltaView) :
    Except Halt Reducer :=
  match expectedKind delta.kind with
  | none => .ok reducer
  | some expected =>
    if block.kind ≠ expected ∨ block.replay = some .anthropicRedacted then malformed
    else do
      let draft ← deltaContent reducer.draft id delta
      pure { reducer with draft := draft }

/-- Apply one block delta. The block is looked up before the delta is read, so an ignored block takes
no event, even from a malformed delta. -/
def applyDelta (reducer : Reducer) (index : Nat) (delta : Except Halt DeltaView) :
    Except Halt Reducer := do
  match ← required reducer.slots[index]? with
  | none => pure reducer
  | some id =>
    let block ← reducer.draft.openBlock id
    let delta ← delta
    reducer.applyView id block delta

def onBlockDelta (reducer : Reducer) (root : Value) : Except Halt Reducer := do
  let index ← required (root.getIndex "index")
  reducer.applyDelta index ((required (root.get "delta")).bind deltaView)

def onBlockStop (reducer : Reducer) (root : Value) : Except Halt Reducer := do
  let index ← required (root.getIndex "index")
  match ← required reducer.slots[index]? with
  | none => pure reducer
  | some id =>
    let draft ← reducer.draft.stop id
    pure { reducer with draft := draft }

def foldOutputUsage (reducer : Reducer) (usage : Value) : Reducer :=
  let total := reducer.draft.usage
  { reducer with draft := { reducer.draft with usage := { total with
      output := max total.output (usage.count "output_tokens")
      reasoning :=
        match usage.getObject "output_tokens_details" with
        | some details => max total.reasoning (details.count "thinking_tokens")
        | none => total.reasoning } } }

def onMessageDelta (reducer : Reducer) (root : Value) : Reducer :=
  let reducer :=
    match (root.get "delta").bind fun delta => delta.getStr "stop_reason" with
    | some raw => { reducer with draft := reducer.draft.setFinish (finishReason raw) raw }
    | none => reducer
  match root.getObject "usage" with
  | some usage => (reducer.foldOutputUsage usage).foldPromptUsage usage
  | none => reducer

def onMessageStop (reducer : Reducer) : Except Halt Reducer :=
  -- An emitted block closes before the done event.
  if reducer.draft.anyOpen then malformed
  else .ok { reducer with draft := reducer.draft.finish }

def decodeEvent (reducer : Reducer) (root : Value) : Except Halt (Reducer × Option ProviderKind) := do
  let event ← required (root.getStr "type")
  if event = "error" then pure (reducer, some (eventKind root))
  else if event = "message_start" then pure (reducer.onMessageStart root, none)
  else if event = "content_block_start" then return (← reducer.onBlockStart root, none)
  else if event = "content_block_delta" then return (← reducer.onBlockDelta root, none)
  else if event = "content_block_stop" then return (← reducer.onBlockStop root, none)
  else if event = "message_delta" then pure (reducer.onMessageDelta root, none)
  else if event = "message_stop" then return (← reducer.onMessageStop, none)
  -- Unknown event types are no-ops.
  else pure (reducer, none)

end Reducer

/-- The block delta of a payload that the typed read takes. A derived read also takes an array by
position, so only an object takes this path. -/
def typedDelta (reader : PayloadReader) (data : String) : Option BlockDelta :=
  if (data.toList.dropWhile Protocol.isWhitespace).head? = some '{' then
    (reader.blockDelta data).filter fun event => event.event = "content_block_delta"
  else none

def Reducer.decode (reader : PayloadReader) (reducer : Reducer) (data : String) :
    Except Halt (Reducer × Option ProviderKind) :=
  match typedDelta reader data with
  | some event =>
    if 0 ≤ event.index then do
      return (← reducer.applyDelta event.index.toNat (.ok event.delta), none)
    else malformed
  | none => do
    let root ← required (reader.parse data)
    reducer.decodeEvent root

/-- Decode the payloads in order, from a reducer whose events the stream cleared before each one. The
events are the ones that the stream hands out. A provider failure ends the stream. -/
def decodeAll (reader : PayloadReader) : Reducer → List String →
    Except (Halt ⊕ ProviderKind) (Reducer × List Event)
  | reducer, [] => .ok (reducer, [])
  | reducer, data :: payloads =>
    match Reducer.decode reader { reducer with draft := reducer.draft.clearEvents } data with
    | .error halt => .error (.inl halt)
    | .ok (_, some kind) => .error (.inr kind)
    | .ok (reducer, none) =>
      let events := reducer.draft.events.filterMap reducer.draft.event
      (decodeAll reader reducer payloads).map fun rest => (rest.1, events ++ rest.2)

def Reducer.new (origin : Origin) (limits : ResponseLimits) : Reducer where
  draft := { origin := origin, limits := limits }

/-- The payloads are a whole answer: the last one ends the draft, and the stream reads none after it. -/
structure Answered (reader : PayloadReader) (origin : Origin) (limits : ResponseLimits)
    (payloads : List String) (reducer : Reducer) (events : List Event) : Prop where
  run : decodeAll reader (.new origin limits) payloads = .ok (reducer, events)
  ended : reducer.draft.done = true
  open_before : ∀ init last before earlier, payloads = init ++ [last] →
    decodeAll reader (.new origin limits) init = .ok (before, earlier) → before.draft.done = false

end Yuke.Ai.AnthropicStream
