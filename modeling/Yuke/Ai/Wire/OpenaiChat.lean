import Yuke.Ai.Wire.Json

/-!
# The OpenAI Chat Completions request
-/

set_option autoImplicit false

namespace Yuke.Ai.OpenaiChat

open Yuke.Ai.Write

/-- Write `"reasoning":{"effort":level}`. -/
def writeEffortObject (level : String) : Write Unit := do
  member "reasoning" <| object do
    fieldStr "effort" level

/-- Write `"thinking":{"type":shape}`, with more members after the shape. -/
def writeSwitch (shape : String) (more : Write Unit) : Write Unit := do
  member "thinking" <| object do
    fieldStr "type" shape
    more

def writeEffort (on : Bool) (level : String) : Write Unit :=
  onlyIf on (fieldStr "reasoning_effort" level)

def writeLevel (format : ThinkingFormat) (on : Bool) (level : String) : Write Unit :=
  let switchShape := if on then "enabled" else "disabled"
  match format with
  | .none => pure ()
  | .openai => fieldStr "reasoning_effort" level
  | .openrouter => writeEffortObject level
  | .deepseek => do
    writeSwitch switchShape (pure ())
    writeEffort on level
  | .zai => do
    writeSwitch switchShape (onlyIf on (fieldBool "clear_thinking" false))
    writeEffort on level
  | .qwen => do
    fieldBool "enable_thinking" on
    writeEffort on level

/-- Write `off` or the effort. -/
def writeReasoning (format : ThinkingFormat) (reasoning : ReasoningSettings) : Write Unit :=
  let on := !reasoning.off
  let level : Option String := if on then reasoning.effort.map Effort.asStr else some "none"
  ifSome level (writeLevel format on)

def writeTool (tool : ToolDefinition) : Write Unit :=
  object do
    fieldStr "type" "function"
    member "function" <| object do
      fieldStr "name" tool.name
      fieldStr "description" tool.description
      fieldRaw "parameters" tool.inputSchema.toList

def writeFormat (output : OutputSchema) : Write Unit := do
  member "response_format" <| object do
    fieldStr "type" "json_schema"
    member "json_schema" <| object do
      fieldStr "name" output.name
      fieldRaw "schema" output.schema.toList
      fieldBool "strict" output.strict

def writeTools (tools : List ToolDefinition) (choice : ToolChoice) : Write Unit :=
  onlyIf (!tools.isEmpty) do
    member "tools" <| array do
      tools.forM writeTool
    onlyIf (choice = .none) (fieldStr "tool_choice" "none")

def writeStreamOptions (dialect : ChatDialect) : Write Unit :=
  onlyIf (dialect = .standard) do
    member "stream_options" <| object do
      fieldBool "include_usage" true

def MaxTokensField.member : MaxTokensField → String
  | .maxTokens => "max_tokens"
  | .maxCompletionTokens => "max_completion_tokens"

def writeSystem (system : String) : Write Unit :=
  object do
    fieldStr "role" "system"
    fieldStr "content" system

/-- Write the request up to the open `messages` array. Return whether it wrote the system message
into it. -/
def writeHead (target : Target) (wire : ChatWire) (request : Request) : Write Bool := do
  beginObject
  fieldStr "model" target.model
  fieldBool "stream" true
  writeStreamOptions wire.dialect
  ifSome request.settings.maxOutputTokens (fieldUint (MaxTokensField.member wire.maxTokensField))
  fieldFloatOpt "temperature" request.settings.temperature
  fieldFloatOpt "top_p" request.settings.topP
  writeReasoning wire.thinkingFormat request.settings.reasoning
  ifSome request.settings.outputSchema writeFormat
  writeTools request.tools request.settings.toolChoice
  key "messages"
  beginArray
  onlyIf (!request.system.isEmpty) (writeSystem request.system)
  pure (!request.system.isEmpty)

/-! ## The messages -/

/-- The audio container that this endpoint accepts, which is only wav and mp3. -/
def audioFormat (mime : String) : Except EncodeError String :=
  if mime = "audio/wav" ∨ mime = "audio/x-wav" then .ok "wav"
  else if mime = "audio/mpeg" ∨ mime = "audio/mp3" then .ok "mp3"
  else .error (.unsupported .audioFormat)

def writeMedia (blobs : Option BlobStore) (media : Media) : Write Unit :=
  match media.kind with
  | .image => do
    let data ← lift (readBlob blobs media.blob)
    object do
      fieldStr "type" "image_url"
      member "image_url" <| object do
        member "url" (base64 (some media.mime) data)
  | .audio => do
    let data ← lift (readBlob blobs media.blob)
    let format ← lift (audioFormat media.mime)
    object do
      fieldStr "type" "input_audio"
      member "input_audio" <| object do
        member "data" (base64 none data)
        fieldStr "format" format
  | .pdf | .text | .other =>
    if media.filename.isEmpty then fail (.unsupported .unnamedDocument)
    else do
      let data ← lift (readBlob blobs media.blob)
      object do
        fieldStr "type" "file"
        member "file" <| object do
          member "file_data" (base64 (some media.mime) data)
          fieldStr "filename" media.filename
  | .video => fail (.unsupported (.media .video))

def writeAttachmentLabel (callId : String) : Write Unit :=
  object do
    fieldStr "type" "text"
    member "text" (stringParts ["Attachment from tool call ", callId, ":"])

def writeToolResult (result : ToolResult) : Write Unit :=
  object do
    fieldStr "role" "tool"
    fieldStr "tool_call_id" result.callId
    member "content" (toolText result.content result.isError)

def writeAttachments (blobs : Option BlobStore) : Block → Write Unit
  | .toolResult result =>
    result.media.forM fun media => do
      writeAttachmentLabel result.callId
      writeMedia blobs media
  | .userText _ | .media _ | .assistantText _ | .reasoning _ | .toolCall _ => pure ()

def writeUserPart (blobs : Option BlobStore) : Block → Write Unit
  | .userText text => do
    object do
      fieldStr "type" "text"
      fieldStr "text" text
  | .media media => writeMedia blobs media
  | .toolResult _ | .assistantText _ | .reasoning _ | .toolCall _ => pure ()

/-- Write one user message. The images of `results` lead it. -/
def writeUserMessage (blobs : Option BlobStore) (results blocks : List Block) : Write Unit :=
  object do
    fieldStr "role" "user"
    member "content" <| array do
      results.forM (writeAttachments blobs)
      blocks.forM (writeUserPart blobs)

def space : List Char := [' ', '\t', '\r', '\n']

def trimSpace (text : List Char) : List Char :=
  (text.dropWhile (· ∈ space)).rdropWhile (· ∈ space)

def arrayItems (array : List Char) : List Char :=
  let trimmed := trimSpace array
  let inner :=
    if trimmed.head? = some '[' && trimmed.tail.getLast? = some ']' then trimmed.tail.dropLast
    else trimmed
  trimSpace inner

def writeDetail (target : Target) : Block → Write Unit
  | .reasoning reasoning =>
    let entries : List Char :=
      match reasoning.replayTo target with
      | some (_, details) => arrayItems details.toList
      | none => []
    onlyIf (!entries.isEmpty) (raw entries)
  | .userText _ | .media _ | .toolResult _ | .assistantText _ | .toolCall _ => pure ()

/-- Write the `reasoning_details` entries of the reasoning blocks, in order, as one array. -/
def writeDetails (target : Target) (blocks : List Block) : Write Unit := do
  member "reasoning_details" <| array do
    blocks.forM (writeDetail target)

def writeCall (isJson : String → Bool) : Block → Write Unit
  | .toolCall call => do
    object do
      fieldStr "id" call.callId
      fieldStr "type" "function"
      member "function" <| object do
        fieldStr "name" call.name
        fieldStr "arguments" (callArguments isJson call.arguments)
  | .userText _ | .media _ | .toolResult _ | .assistantText _ | .reasoning _ => pure ()

def text? : Block → Option String
  | .assistantText text => some text
  | .userText _ | .media _ | .toolResult _ | .reasoning _ | .toolCall _ => none

def reasoningText? : Block → Option String
  | .reasoning reasoning => some reasoning.text
  | .userText _ | .media _ | .toolResult _ | .assistantText _ | .toolCall _ => none

def isToolCall : Block → Bool
  | .toolCall _ => true
  | .userText _ | .media _ | .toolResult _ | .assistantText _ | .reasoning _ => false

def hasDetail (target : Target) : Block → Bool
  | .reasoning reasoning => (reasoning.replayTo target).isSome
  | .userText _ | .media _ | .toolResult _ | .assistantText _ | .toolCall _ => false

def writeReplay (target : Target) (replay : ReasoningReplayMode) (blocks : List Block) :
    Write Unit :=
  match replay with
  | .none => pure ()
  -- Every message carries the member, empty when it has no reasoning.
  | .reasoningContent => do
    member "reasoning_content" (stringParts (blocks.filterMap reasoningText?))
  | .reasoningDetails => onlyIf (blocks.any (hasDetail target)) (writeDetails target blocks)

def writeContent (blocks : List Block) : Write Unit :=
  if (blocks.filterMap text?).isEmpty then null else stringParts (blocks.filterMap text?)

def writeAssistantMessage (isJson : String → Bool) (target : Target) (replay : ReasoningReplayMode)
    (blocks : List Block) : Write Unit :=
  object do
    fieldStr "role" "assistant"
    member "content" (writeContent blocks)
    writeReplay target replay blocks
    onlyIf (blocks.any isToolCall) do
      member "tool_calls" <| array do
        blocks.forM (writeCall isJson)

def isUserPart : Block → Bool
  | .userText _ | .media _ => true
  | .toolResult _ | .assistantText _ | .reasoning _ | .toolCall _ => false

def toolResult? : Block → Option ToolResult
  | .toolResult result => some result
  | .userText _ | .media _ | .assistantText _ | .reasoning _ | .toolCall _ => none

def hasMedia : Block → Bool
  | .toolResult result => !result.media.isEmpty
  | .userText _ | .media _ | .assistantText _ | .reasoning _ | .toolCall _ => false

/-- The blocks from `start` up to the first one that is not of the run. -/
def runFrom (blocks : List Block) (start : Nat) (run : Block → Bool) : List Block :=
  (blocks.drop start).takeWhile run

def writeResults (blobs : Option BlobStore) (results users : List Block) : Write Unit := do
  (results.filterMap toolResult?).forM writeToolResult
  onlyIf (results.any hasMedia) (writeUserMessage blobs results users)

/-- A message needs content or tool calls, so a run of reasoning alone writes none. -/
def writeAnswer (isJson : String → Bool) (target : Target) (replay : ReasoningReplayMode)
    (run : List Block) : Write Unit :=
  onlyIf (run.any fun block => (text? block).isSome || isToolCall block)
    (writeAssistantMessage isJson target replay run)

/-- Write the messages of the group from `start`, and return its end. A group is a user run, an
assistant run, or tool results with the user blocks that take their attachments. -/
def writeGroup (isJson : String → Bool) (target : Target) (wire : ChatWire) (request : Request)
    (start : Nat) : Write Nat :=
  let blocks := request.blocks
  match blocks[start]? with
  | none => pure start
  | some (.toolResult _) => do
    let results := runFrom blocks start fun block => (toolResult? block).isSome
    let users :=
      if results.any hasMedia then runFrom blocks (start + results.length) isUserPart else []
    writeResults request.blobs results users
    pure (start + results.length + users.length)
  | some (.userText _) | some (.media _) => do
    let users := runFrom blocks start isUserPart
    writeUserMessage request.blobs [] users
    pure (start + users.length)
  | some (.assistantText _) | some (.reasoning _) | some (.toolCall _) => do
    let run := runFrom blocks start fun block => block.role = .assistant
    writeAnswer isJson target wire.reasoningReplay run
    pure (start + run.length)

end Yuke.Ai.OpenaiChat
