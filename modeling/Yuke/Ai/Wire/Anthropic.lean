import Yuke.Ai.Wire.Json
import Yuke.Shared.Utf8

/-!
# The Anthropic Messages request
-/

set_option autoImplicit false

namespace Yuke.Ai.Anthropic

open Yuke.Ai.Write

def writeMode : Thinking → Write Unit
  | .off => fieldStr "type" "disabled"
  | .adaptive display => do
    fieldStr "type" "adaptive"
    ifSome display fun shown => fieldStr "display" shown.asStr
  | .budget tokens => do
    fieldStr "type" "enabled"
    fieldUint "budget_tokens" tokens

def writeThinking (thinking : Option Thinking) : Write Unit :=
  ifSome thinking fun thinking => do
    member "thinking" <| object do
      writeMode thinking

def writeCacheControl (cache : Bool) : Write Unit :=
  onlyIf cache do
    member "cache_control" <| object do
      fieldStr "type" "ephemeral"

def writeTool (tool : ToolDefinition) : Write Unit :=
  object do
    fieldStr "name" tool.name
    fieldStr "description" tool.description
    onlyIf tool.deferLoading (fieldBool "defer_loading" true)
    fieldRaw "input_schema" tool.inputSchema.toList

def writeOutputConfig (settings : Settings) : Write Unit :=
  onlyIf (settings.reasoning.effort.isSome || settings.outputSchema.isSome) do
    member "output_config" <| object do
      ifSome settings.reasoning.effort fun effort => fieldStr "effort" effort.asStr
      ifSome settings.outputSchema fun output => do
        member "format" <| object do
          fieldStr "type" "json_schema"
          fieldRaw "schema" output.schema.toList

def writeText (text : String) (cache : Bool) : Write Unit :=
  object do
    fieldStr "type" "text"
    fieldStr "text" text
    writeCacheControl cache

def writeSystem (wire : AnthropicWire) (system : String) : Write Unit :=
  onlyIf (!system.isEmpty) do
    member "system" <| array do
      writeText system wire.cache

def writeTools (tools : List ToolDefinition) (choice : ToolChoice) : Write Unit :=
  onlyIf (!tools.isEmpty) do
    member "tools" <| array do
      tools.forM writeTool
    -- This host spells the control as an object, so only a refusal writes the member.
    onlyIf (choice = .none) do
      member "tool_choice" <| object do
        fieldStr "type" "none"

/-- Write the request up to the open `messages` array, which holds no element yet. -/
def writeHead (target : Target) (wire : AnthropicWire) (request : Request) : Write Unit := do
  beginObject
  fieldStr "model" target.model
  fieldUint "max_tokens" (request.settings.maxOutputTokens.getD wire.maxTokens)
  fieldBool "stream" true
  fieldFloatOpt "temperature" request.settings.temperature
  fieldFloatOpt "top_p" request.settings.topP
  writeThinking request.settings.reasoning.thinking
  writeOutputConfig request.settings
  writeSystem wire request.system
  writeTools request.tools request.settings.toolChoice
  key "messages"
  beginArray

/-- An image is an `image` block and every other document is a `document` block. -/
def blockType : Modality → Except EncodeError String
  | .image => .ok "image"
  | .pdf | .text => .ok "document"
  | .audio => .error (.unsupported (.media .audio))
  | .video => .error (.unsupported (.media .video))
  | .other => .error (.unsupported (.media .other))

/-- Plain text rides in a `text` source, which carries the characters rather than base64. -/
def writeSource (media : Media) (data : List UInt8) : Write Unit :=
  if media.kind = .text then do
    fieldStr "type" "text"
    fieldStr "media_type" "text/plain"
    member "data" (string (String.ofList (Shared.fromUtf8Lossy data)))
  else do
    fieldStr "type" "base64"
    fieldStr "media_type" media.mime
    member "data" (base64 none data)

def writeMedia (blobs : Option BlobStore) (media : Media) (cache : Bool) : Write Unit := do
  let blockType ← lift (blockType media.kind)
  object do
    fieldStr "type" blockType
    member "source" do
      let data ← lift (readBlob blobs media.blob)
      object (writeSource media data)
    writeCacheControl cache

def writeReference (tool : ToolDefinition) : Write Unit :=
  object do
    fieldStr "type" "tool_reference"
    fieldStr "tool_name" tool.name

def loadedTools (request : Request) (result : ToolResult) : List ToolDefinition :=
  if defersTools request.tools then result.loaded else []

/-- The API refuses an empty text block, so a result of media or references alone writes no text. -/
def writeContent (request : Request) (result : ToolResult) : Write Unit :=
  if result.media.isEmpty && (loadedTools request result).isEmpty then string result.content
  else
    array do
      onlyIf (!result.content.isEmpty) do
        object do
          fieldStr "type" "text"
          fieldStr "text" result.content
      result.media.forM fun media => writeMedia request.blobs media false
      (loadedTools request result).forM writeReference

def writeToolResult (request : Request) (result : ToolResult) (cache : Bool) : Write Unit :=
  object do
    fieldStr "type" "tool_result"
    fieldStr "tool_use_id" result.callId
    member "content" (writeContent request result)
    fieldBool "is_error" result.isError
    writeCacheControl cache

def writeReasoning (target : Target) (reasoning : Reasoning) : Write Unit :=
  ifSome (reasoning.replayTo target) fun replay =>
    if replay.1 = .anthropicSignature then
      object do
        fieldStr "type" "thinking"
        fieldStr "thinking" reasoning.text
        fieldStr "signature" replay.2
    else
      object do
        fieldStr "type" "redacted_thinking"
        fieldStr "data" replay.2

def writeToolCall (isJson : String → Bool) (call : ToolCall) (cache : Bool) : Write Unit :=
  object do
    fieldStr "type" "tool_use"
    fieldStr "id" call.callId
    fieldStr "name" call.name
    fieldRaw "input" (callArguments isJson call.arguments).toList
    writeCacheControl cache

def writeBlock (isJson : String → Bool) (target : Target) (request : Request) (block : Block)
    (cache : Bool) : Write Unit :=
  match block with
  | .userText text | .assistantText text => writeText text cache
  | .media media => writeMedia request.blobs media cache
  | .reasoning reasoning => writeReasoning target reasoning
  | .toolCall call => writeToolCall isJson call cache
  | .toolResult result => writeToolResult request result cache

/-- Write the message of `run`, which starts at the block `start`. A message of reasoning from another
origin alone has no content that this protocol takes, so it writes nothing. -/
def writeMessage (isJson : String → Bool) (target : Target) (request : Request) (role : Role)
    (run : List Block) (start : Nat) (marker : Option Nat) : Write Unit :=
  onlyIf (run.any (writes target)) do
    object do
      fieldStr "role" role.asStr
      member "content" <| array do
        (run.zipIdx start).forM fun entry =>
          writeBlock isJson target request entry.1 (marker = some entry.2)

/-- Write the message of the run of blocks with one role from `start`, and return the end of the run.
`marker` is the block that carries the cache marker. -/
def writeGroup (isJson : String → Bool) (target : Target) (request : Request) (start : Nat)
    (marker : Option Nat) : Write Nat :=
  match request.blocks[start]? with
  | none => pure start
  | some first => do
    let run := (request.blocks.drop start).takeWhile fun block => block.role = first.role
    writeMessage isJson target request first.role run start marker
    pure (start + run.length)

/-- The last block that can carry the cache marker carries it. A thinking block cannot. -/
def cacheable : Block → Bool
  | .reasoning _ => false
  | .userText _ | .media _ | .toolResult _ | .assistantText _ | .toolCall _ => true

end Yuke.Ai.Anthropic
