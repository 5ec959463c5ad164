import Yuke.Ai.Wire.Json

/-!
# The OpenAI Responses request
-/

set_option autoImplicit false

namespace Yuke.Ai.OpenaiResponses

open Yuke.Ai.Write

/-- Write one function tool. A tool that a search loads keeps `defer_loading`. -/
def writeFunctionTool (tool : ToolDefinition) (deferLoading : Bool) : Write Unit :=
  object do
    fieldStr "type" "function"
    fieldStr "name" tool.name
    fieldStr "description" tool.description
    onlyIf deferLoading (fieldBool "defer_loading" true)
    fieldRaw "parameters" tool.inputSchema.toList
    fieldBool "strict" false

def writeTool (native : Bool) (tool : ToolDefinition) : Write Unit :=
  if native && tool.name = searchToolName then
    object do
      fieldStr "type" "tool_search"
      fieldStr "execution" "client"
      fieldStr "description" tool.description
      fieldRaw "parameters" tool.inputSchema.toList
  else writeFunctionTool tool tool.deferLoading

/-- Write the effort. Only `off` and the effort reach the wire. -/
def writeReasoning (reasoning : ReasoningSettings) : Write Unit :=
  if reasoning.off then do
    member "reasoning" <| object do
      fieldStr "effort" "none"
  else
    ifSome reasoning.effort fun effort => do
      member "reasoning" <| object do
        fieldStr "effort" effort.asStr
        fieldStr "summary" "auto"
      member "include" <| array do
        string "reasoning.encrypted_content"

def writeFormat (output : OutputSchema) : Write Unit := do
  member "text" <| object do
    member "format" <| object do
      fieldStr "type" "json_schema"
      fieldStr "name" output.name
      fieldRaw "schema" output.schema.toList
      fieldBool "strict" output.strict

/-- The Codex backend refuses the sampling limits that an API key accepts. -/
def writeLimits (dialect : ResponsesDialect) (settings : Settings) : Write Unit :=
  onlyIf (dialect = .standard) do
    ifSome settings.maxOutputTokens (fieldUint "max_output_tokens")
    fieldFloatOpt "temperature" settings.temperature
    fieldFloatOpt "top_p" settings.topP

def ToolChoice.asStr : ToolChoice → String
  | .auto => "auto"
  | .none => "none"

def writeTools (tools : List ToolDefinition) (choice : ToolChoice) : Write Unit :=
  onlyIf (!tools.isEmpty) do
    member "tools" <| array do
      tools.forM (writeTool (defersTools tools))
    fieldStr "tool_choice" (ToolChoice.asStr choice)

/-- Write the request up to the open `input` array, which holds no element yet. -/
def writeHead (target : Target) (wire : ResponsesWire) (request : Request) : Write Unit := do
  beginObject
  fieldStr "model" target.model
  fieldBool "stream" true
  fieldBool "store" false
  ifSome request.sessionId (fieldStr "prompt_cache_key")
  writeLimits wire.dialect request.settings
  writeReasoning request.settings.reasoning
  ifSome request.settings.outputSchema writeFormat
  onlyIf (!request.system.isEmpty) (fieldStr "instructions" request.system)
  writeTools request.tools request.settings.toolChoice
  key "input"
  beginArray

def writeMedia (blobs : Option BlobStore) (media : Media) : Write Unit :=
  match media.kind with
  | .image => do
    let data ← lift (readBlob blobs media.blob)
    object do
      fieldStr "type" "input_image"
      member "image_url" (base64 (some media.mime) data)
      fieldStr "detail" "auto"
  | .pdf | .text | .other =>
    if media.filename.isEmpty then fail (.unsupported .unnamedDocument)
    else do
      let data ← lift (readBlob blobs media.blob)
      object do
        fieldStr "type" "input_file"
        fieldStr "filename" media.filename
        member "file_data" (base64 (some media.mime) data)
  | .audio => fail (.unsupported (.media .audio))
  | .video => fail (.unsupported (.media .video))

def writeReasoningItem (summary encrypted : String) : Write Unit :=
  object do
    fieldStr "type" "reasoning"
    member "summary" <| array do
      object do
        fieldStr "type" "summary_text"
        fieldStr "text" summary
    fieldStr "encrypted_content" encrypted

/-- Write one part of a message. `marked` is the block with the explicit cache breakpoint. -/
def writePart (blobs : Option BlobStore) (block : Block) (marked : Bool) : Write Unit :=
  match block with
  | .userText text => do
    object do
      fieldStr "type" "input_text"
      fieldStr "text" text
      onlyIf marked do
        member "prompt_cache_breakpoint" <| object do
          fieldStr "mode" "explicit"
  | .assistantText text => do
    object do
      fieldStr "type" "output_text"
      fieldStr "text" text
  | .media media => writeMedia blobs media
  | .toolResult _ | .reasoning _ | .toolCall _ => pure ()

def writeToolCall (isJson : String → Bool) (tools : List ToolDefinition) (call : ToolCall) :
    Write Unit :=
  if call.name = searchToolName && defersTools tools then
    object do
      fieldStr "type" "tool_search_call"
      fieldStr "execution" "client"
      fieldStr "call_id" call.callId
      fieldStr "status" "completed"
      fieldRaw "arguments" (callArguments isJson call.arguments).toList
  else
    object do
      fieldStr "type" "function_call"
      fieldStr "call_id" call.callId
      fieldStr "name" call.name
      fieldStr "arguments" (callArguments isJson call.arguments)

def writeSearchOutput (result : ToolResult) : Write Unit :=
  object do
    fieldStr "type" "tool_search_output"
    fieldStr "execution" "client"
    fieldStr "call_id" result.callId
    fieldStr "status" "completed"
    member "tools" <| array do
      result.loaded.forM fun tool => writeFunctionTool tool true

def writeOutput (blobs : Option BlobStore) (result : ToolResult) : Write Unit :=
  if result.media.isEmpty then toolText result.content result.isError
  else
    array do
      onlyIf (!result.content.isEmpty || result.isError) do
        object do
          fieldStr "type" "input_text"
          member "text" (toolText result.content result.isError)
      result.media.forM (writeMedia blobs)

def writeToolResult (blobs : Option BlobStore) (result : ToolResult) : Write Unit :=
  object do
    fieldStr "type" "function_call_output"
    fieldStr "call_id" result.callId
    member "output" (writeOutput blobs result)

/-- Whether `block` is the call `callId`, and then whether it calls the search tool. -/
def searchOf (callId : String) : Block → Option Bool
  | .toolCall call => if call.callId = callId then some (call.name = searchToolName) else none
  | .userText _ | .media _ | .toolResult _ | .assistantText _ | .reasoning _ => none

def answersSearch (before : List Block) (callId : String) : Bool :=
  (before.reverse.findSome? (searchOf callId)).getD false

def inMessage : Block → Bool
  | .userText _ | .assistantText _ | .media _ => true
  | .toolResult _ | .reasoning _ | .toolCall _ => false

/-- A message holds a run of text and media of one role. A reasoning block that writes nothing leaves
it open. -/
def staysIn (target : Target) (role : Role) (block : Block) : Bool :=
  inMessage block && block.role = role || !writes target block

/-- Write the message of `run`, which starts at the block `start`. -/
def writeMessage (blobs : Option BlobStore) (role : Role) (run : List Block) (start : Nat)
    (marker : Option Nat) : Write Unit :=
  object do
    fieldStr "type" "message"
    fieldStr "role" role.asStr
    member "content" <| array do
      (run.zipIdx start).forM fun entry => writePart blobs entry.1 (marker = some entry.2)

/-- Write the item of a block that is in no message. `before` holds the blocks before it. -/
def writeItem (isJson : String → Bool) (target : Target) (request : Request)
    (before : List Block) : Block → Write Unit
  | .reasoning reasoning =>
    ifSome (reasoning.replayTo target) fun replay => writeReasoningItem reasoning.text replay.2
  | .toolCall call => writeToolCall isJson request.tools call
  | .toolResult result =>
    if answersSearch before result.callId && defersTools request.tools then
      writeSearchOutput result
    else writeToolResult request.blobs result
  | .userText _ | .assistantText _ | .media _ => pure ()

/-- Write the item of the group from `start`, and return its end. One item holds each block, except
that a message holds a run of text and media of one role. -/
def writeGroup (isJson : String → Bool) (target : Target) (request : Request) (start : Nat)
    (marker : Option Nat) : Write Nat :=
  match request.blocks[start]? with
  | none => pure start
  | some first =>
    if inMessage first then do
      let more := (request.blocks.drop (start + 1)).takeWhile (staysIn target first.role)
      writeMessage request.blobs first.role (first :: more) start marker
      pure (start + 1 + more.length)
    else do
      writeItem isJson target request (request.blocks.take start) first
      pure (start + 1)

def cacheable : Block → Bool
  | .userText _ => true
  | .media _ | .toolResult _ | .assistantText _ | .reasoning _ | .toolCall _ => false

end Yuke.Ai.OpenaiResponses
