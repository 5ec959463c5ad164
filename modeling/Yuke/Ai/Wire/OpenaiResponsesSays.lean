import Yuke.Ai.Wire.OpenaiResponses
import Yuke.Ai.Wire.SaysText

/-!
# What a Responses request says
-/

set_option autoImplicit false

namespace Yuke.Ai.OpenaiResponses

open Yuke.Shared
open Yuke.Ai.Write

def functionTool (tool : ToolDefinition) (deferLoading : Bool) : Json :=
  .object ([field "type" (str "function"), field "name" (str tool.name),
    field "description" (str tool.description)] ++
    ((if deferLoading then [field "defer_loading" (.bool true)] else []) ++
      [field "parameters" (rawValue tool.inputSchema), field "strict" (.bool false)]))

def toolValue (native : Bool) (tool : ToolDefinition) : Json :=
  if native && tool.name = searchToolName then
    .object [field "type" (str "tool_search"), field "execution" (str "client"),
      field "description" (str tool.description), field "parameters" (rawValue tool.inputSchema)]
  else functionTool tool tool.deferLoading

def reasoningMembers (reasoning : ReasoningSettings) : JsonMembers :=
  if reasoning.off then [field "reasoning" (.object [field "effort" (str "none")])]
  else
    reasoning.effort.elim [] fun effort =>
      [field "reasoning" (.object
        [field "effort" (str effort.asStr), field "summary" (str "auto")]),
        field "include" (.array [str "reasoning.encrypted_content"])]

def formatMembers (output : OutputSchema) : JsonMembers :=
  [field "text" (.object [field "format" (.object
    [field "type" (str "json_schema"), field "name" (str output.name),
      field "schema" (rawValue output.schema), field "strict" (.bool output.strict)])])]

def limitMembers (dialect : ResponsesDialect) (settings : Settings) : JsonMembers :=
  if dialect = .standard then
    (settings.maxOutputTokens.elim [] fun tokens => [field "max_output_tokens" (natural tokens)]) ++
      (number? "temperature" settings.temperature ++ number? "top_p" settings.topP)
  else []

def toolsMembers (tools : List ToolDefinition) (choice : ToolChoice) : JsonMembers :=
  if !tools.isEmpty then
    [field "tools" (.array (tools.map (toolValue (defersTools tools)))),
      field "tool_choice" (str (ToolChoice.asStr choice))]
  else []

def headMembers (target : Target) (wire : ResponsesWire) (request : Request) : JsonMembers :=
  [field "model" (str target.model), field "stream" (.bool true), field "store" (.bool false)] ++
  (request.sessionId.elim [] fun id => [field "prompt_cache_key" (str id)]) ++
  limitMembers wire.dialect request.settings ++ reasoningMembers request.settings.reasoning ++
  request.settings.outputSchema.elim [] formatMembers ++
  (if !request.system.isEmpty then [field "instructions" (str request.system)] else []) ++
  toolsMembers request.tools request.settings.toolChoice

theorem says_writeFunctionTool {tool : ToolDefinition} (h : (raw? tool.inputSchema).isSome)
    (deferLoading : Bool) :
    SaysValue (writeFunctionTool tool deferLoading) (.ok (functionTool tool deferLoading)) := by
  have hdefer := says_onlyIf deferLoading (says_fieldBool "defer_loading" true)
  exact says_object <| (says_fieldStr "type" "function").and <|
    (says_fieldStr "name" tool.name).and <| (says_fieldStr "description" tool.description).and <|
      hdefer.and <| (says_fieldRaw "parameters" h).and (says_fieldBool "strict" false)

theorem says_writeTool (native : Bool) {tool : ToolDefinition}
    (h : (raw? tool.inputSchema).isSome) :
    SaysValue (writeTool native tool) (.ok (toolValue native tool)) := by
  unfold writeTool toolValue
  split_ifs
  · exact says_object <| (says_fieldStr "type" "tool_search").and <|
      (says_fieldStr "execution" "client").and <|
        (says_fieldStr "description" tool.description).and (says_fieldRaw "parameters" h)
  · exact says_writeFunctionTool h tool.deferLoading

theorem says_writeReasoning (reasoning : ReasoningSettings) :
    SaysMembers (writeReasoning reasoning) (.ok (reasoningMembers reasoning)) := by
  unfold writeReasoning reasoningMembers
  split_ifs
  · exact says_member "reasoning" (says_object (says_fieldStr "effort" "none"))
  · refine says_ifSome reasoning.effort fun effort _ => ?_
    have heffort := says_member "reasoning" <| says_object <|
      (says_fieldStr "effort" effort.asStr).and (says_fieldStr "summary" "auto")
    exact heffort.and (says_member "include" (says_array (says_string "reasoning.encrypted_content")))

theorem says_writeFormat {output : OutputSchema} (h : (raw? output.schema).isSome) :
    SaysMembers (writeFormat output) (.ok (formatMembers output)) := by
  have hformat := says_object <| (says_fieldStr "type" "json_schema").and <|
    (says_fieldStr "name" output.name).and <|
      (says_fieldRaw "schema" h).and (says_fieldBool "strict" output.strict)
  exact says_member "text" (says_object (says_member "format" hformat))

theorem says_writeLimits (dialect : ResponsesDialect) {settings : Settings}
    (htemperature : ∀ float ∈ settings.temperature, float.isFinite = true)
    (htopP : ∀ float ∈ settings.topP, float.isFinite = true) :
    SaysMembers (writeLimits dialect settings) (.ok (limitMembers dialect settings)) := by
  have htokens := says_ifSome settings.maxOutputTokens fun tokens _ =>
    says_fieldUint "max_output_tokens" tokens
  have hlimits := says_onlyIf (decide (dialect = .standard)) <| htokens.and <|
    (says_fieldFloatOpt "temperature" htemperature).and (says_fieldFloatOpt "top_p" htopP)
  unfold limitMembers
  simp only [decide_eq_true_eq] at hlimits
  exact hlimits

theorem says_writeTools {tools : List ToolDefinition}
    (h : ∀ tool ∈ tools, (raw? tool.inputSchema).isSome) (choice : ToolChoice) :
    SaysMembers (writeTools tools choice) (.ok (toolsMembers tools choice)) := by
  have htools := says_array (says_each fun tool htool =>
    says_writeTool (defersTools tools) (h tool htool))
  exact says_onlyIf (!tools.isEmpty)
    ((says_member "tools" htools).and (says_fieldStr "tool_choice" (ToolChoice.asStr choice)))

theorem opens_writeHead (target : Target) (wire : ResponsesWire) {request : Request}
    (hraw : RawJson request)
    (htemperature : ∀ float ∈ request.settings.temperature, float.isFinite = true)
    (htopP : ∀ float ∈ request.settings.topP, float.isFinite = true) :
    OpensObject "input" (headMembers target wire request) [] (writeHead target wire request) () := by
  have hopens := (says_fieldStr "model" target.model).opens <|
    (says_fieldBool "stream" true).opens <| (says_fieldBool "store" false).opens <|
    (says_ifSome request.sessionId fun id _ => says_fieldStr "prompt_cache_key" id).opens <|
    (says_writeLimits wire.dialect htemperature htopP).opens <|
    (says_writeReasoning request.settings.reasoning).opens <|
    (says_ifSome request.settings.outputSchema fun output houtput =>
      says_writeFormat (hraw.output output houtput)).opens <|
    (says_onlyIf (!request.system.isEmpty) (says_fieldStr "instructions" request.system)).opens <|
    (says_writeTools hraw.tools request.settings.toolChoice).opens (opens_array "input")
  refine ⟨_, rfl, ?_⟩
  simp only [headMembers, List.append_assoc]
  simpa using hopens

/-! ## The items -/

def dataUrl (mime : String) (data : List UInt8) : Json :=
  .string (codes (base64Text (some mime) data))

def mediaValue (blobs : Option BlobStore) (media : Media) : Except EncodeError Json :=
  match media.kind with
  | .image => do
    let data ← readBlob blobs media.blob
    pure (.object [field "type" (str "input_image"), field "image_url" (dataUrl media.mime data),
      field "detail" (str "auto")])
  | .pdf | .text | .other =>
    if media.filename.isEmpty then .error (.unsupported .unnamedDocument)
    else do
      let data ← readBlob blobs media.blob
      pure (.object [field "type" (str "input_file"), field "filename" (str media.filename),
        field "file_data" (dataUrl media.mime data)])
  | .audio => .error (.unsupported (.media .audio))
  | .video => .error (.unsupported (.media .video))

def reasoningItem (summary encrypted : String) : Json :=
  .object [field "type" (str "reasoning"),
    field "summary" (.array
      [.object [field "type" (str "summary_text"), field "text" (str summary)]]),
    field "encrypted_content" (str encrypted)]

def partValues (blobs : Option BlobStore) (block : Block) (marked : Bool) :
    Except EncodeError (List Json) :=
  match block with
  | .userText text =>
    .ok [.object ([field "type" (str "input_text"), field "text" (str text)] ++
      if marked then [field "prompt_cache_breakpoint" (.object [field "mode" (str "explicit")])]
      else [])]
  | .assistantText text =>
    .ok [.object [field "type" (str "output_text"), field "text" (str text)]]
  | .media media => (mediaValue blobs media).map fun value => [value]
  | .toolResult _ | .reasoning _ | .toolCall _ => .ok []

def toolCallValue (tools : List ToolDefinition) (call : ToolCall) : Json :=
  if call.name = searchToolName && defersTools tools then
    .object [field "type" (str "tool_search_call"), field "execution" (str "client"),
      field "call_id" (str call.callId), field "status" (str "completed"),
      field "arguments" (arguments call.arguments)]
  else
    .object [field "type" (str "function_call"), field "call_id" (str call.callId),
      field "name" (str call.name), field "arguments" (str (argumentsText call.arguments))]

def searchOutput (result : ToolResult) : Json :=
  .object [field "type" (str "tool_search_output"), field "execution" (str "client"),
    field "call_id" (str result.callId), field "status" (str "completed"),
    field "tools" (.array (result.loaded.map fun tool => functionTool tool true))]

def resultText (result : ToolResult) : Json :=
  strings [if result.isError then "Error: " else "", result.content]

def outputValue (blobs : Option BlobStore) (result : ToolResult) : Except EncodeError Json :=
  if result.media.isEmpty then .ok (resultText result)
  else do
    let media ← result.media.mapM (mediaValue blobs)
    pure (.array ((if !result.content.isEmpty || result.isError then
      [.object [field "type" (str "input_text"), field "text" (resultText result)]] else []) ++ media))

def toolResultValue (blobs : Option BlobStore) (result : ToolResult) : Except EncodeError Json := do
  let output ← outputValue blobs result
  pure (.object [field "type" (str "function_call_output"), field "call_id" (str result.callId),
    field "output" output])

def messageValue (blobs : Option BlobStore) (role : Role) (run : List Block) (start : Nat)
    (marker : Option Nat) : Except EncodeError Json :=
  (gather (run.zipIdx start) fun entry => partValues blobs entry.1 (marker = some entry.2)).map
    fun content => .object [field "type" (str "message"), field "role" (str role.asStr),
      field "content" (.array content)]

/-- The item of a block that is in no message. `before` holds the blocks before it. -/
def itemValues (target : Target) (request : Request) (before : List Block) :
    Block → Except EncodeError (List Json)
  | .reasoning reasoning =>
    .ok ((reasoning.replayTo target).elim [] fun replay => [reasoningItem reasoning.text replay.2])
  | .toolCall call => .ok [toolCallValue request.tools call]
  | .toolResult result =>
    if answersSearch before result.callId && defersTools request.tools then
      .ok [searchOutput result]
    else (toolResultValue request.blobs result).map fun value => [value]
  | .userText _ | .assistantText _ | .media _ => .ok []

/-- The blocks after `start` in the message of `first`. -/
def moreFrom (target : Target) (blocks : List Block) (start : Nat) (first : Block) : List Block :=
  (blocks.drop (start + 1)).takeWhile (staysIn target first.role)

def groupEnd (target : Target) (blocks : List Block) (start : Nat) : Nat :=
  match blocks[start]? with
  | none => start
  | some first =>
    if inMessage first then start + 1 + (moreFrom target blocks start first).length else start + 1

def groupValues (target : Target) (request : Request) (start : Nat) (marker : Option Nat) :
    Except EncodeError (List Json) :=
  match request.blocks[start]? with
  | none => .ok []
  | some first =>
    if inMessage first then
      (messageValue request.blobs first.role (first :: moreFrom target request.blocks start first)
        start marker).map fun value => [value]
    else itemValues target request (request.blocks.take start) first

theorem says_dataUrl (mime : String) (data : List UInt8) :
    SaysValue (base64 (some mime) data) (.ok (dataUrl mime data)) := says_base64 (some mime) data

theorem says_writeMedia (blobs : Option BlobStore) (media : Media) :
    SaysValue (writeMedia blobs media) (mediaValue blobs media) := by
  have hfile : SaysValue (do
      let data ← lift (readBlob blobs media.blob)
      object do
        fieldStr "type" "input_file"
        fieldStr "filename" media.filename
        member "file_data" (base64 (some media.mime) data)) ((readBlob blobs media.blob).bind
          fun data => .ok (.object [field "type" (str "input_file"),
            field "filename" (str media.filename), field "file_data" (dataUrl media.mime data)])) := by
    refine says_liftValue _ fun data => ?_
    exact says_object <| (says_fieldStr "type" "input_file").and <|
      (says_fieldStr "filename" media.filename).and
        (says_member "file_data" (says_dataUrl media.mime data))
  unfold writeMedia mediaValue
  cases media.kind with
  | image =>
    refine says_liftValue (readBlob blobs media.blob) fun data => ?_
    exact says_object <| (says_fieldStr "type" "input_image").and <|
      (says_member "image_url" (says_dataUrl media.mime data)).and (says_fieldStr "detail" "auto")
  | audio => exact says_fail _
  | video => exact says_fail _
  | pdf =>
    dsimp only
    split_ifs
    · exact says_fail _
    · exact hfile
  | text =>
    dsimp only
    split_ifs
    · exact says_fail _
    · exact hfile
  | other =>
    dsimp only
    split_ifs
    · exact says_fail _
    · exact hfile

theorem says_writeReasoningItem (summary encrypted : String) :
    SaysValue (writeReasoningItem summary encrypted) (.ok (reasoningItem summary encrypted)) := by
  have hsummary := says_member "summary" <| says_array <| says_object <|
    (says_fieldStr "type" "summary_text").and (says_fieldStr "text" summary)
  exact says_object <| (says_fieldStr "type" "reasoning").and <|
    hsummary.and (says_fieldStr "encrypted_content" encrypted)

theorem says_writePart (blobs : Option BlobStore) (block : Block) (marked : Bool) :
    SaysValues (writePart blobs block marked) (partValues blobs block marked) := by
  cases block with
  | userText text =>
    have hmarked := says_onlyIf marked (says_member "prompt_cache_breakpoint"
      (says_object (says_fieldStr "mode" "explicit")))
    exact says_object <| (says_fieldStr "type" "input_text").and <|
      (says_fieldStr "text" text).and hmarked
  | assistantText text =>
    exact says_object ((says_fieldStr "type" "output_text").and (says_fieldStr "text" text))
  | media media => exact says_writeMedia blobs media
  | toolResult result => exact says_pure
  | reasoning reasoning => exact says_pure
  | toolCall call => exact says_pure

theorem says_writeSearchOutput {result : ToolResult}
    (h : ∀ tool ∈ result.loaded, (raw? tool.inputSchema).isSome) :
    SaysValue (writeSearchOutput result) (.ok (searchOutput result)) := by
  have htools := says_member "tools" <| says_array <| says_each fun tool htool =>
    says_writeFunctionTool (h tool htool) true
  exact says_object <| (says_fieldStr "type" "tool_search_output").and <|
    (says_fieldStr "execution" "client").and <| (says_fieldStr "call_id" result.callId).and <|
      (says_fieldStr "status" "completed").and htools

theorem says_writeOutput (blobs : Option BlobStore) (result : ToolResult) :
    SaysValue (writeOutput blobs result) (outputValue blobs result) := by
  unfold writeOutput outputValue
  split
  · exact says_toolText result.content result.isError
  · have htext := says_onlyIf (!result.content.isEmpty || result.isError) <| says_object <|
      (says_fieldStr "type" "input_text").and
        (says_member "text" (says_toolText result.content result.isError))
    have hmedia := says_traverse fun media (_ : media ∈ result.media) => says_writeMedia blobs media
    have harray := says_array (Says.then joins_elements htext hmedia)
    generalize result.media.mapM (mediaValue blobs) = media at harray ⊢
    cases media with
    | error error => exact harray
    | ok media => exact harray

theorem says_writeToolResult (blobs : Option BlobStore) (result : ToolResult) :
    SaysValue (writeToolResult blobs result) (toolResultValue blobs result) := by
  have hobject := says_object <| (says_fieldStr "type" "function_call_output").and <|
    (says_fieldStr "call_id" result.callId).and (says_member "output" (says_writeOutput blobs result))
  unfold toolResultValue
  generalize outputValue blobs result = output at hobject ⊢
  cases output with
  | error error => exact hobject
  | ok output => exact hobject

theorem says_writeMessage (blobs : Option BlobStore) (role : Role) (run : List Block) (start : Nat)
    (marker : Option Nat) :
    SaysValue (writeMessage blobs role run start marker)
      (messageValue blobs role run start marker) := by
  have hparts := says_forM joins_elements fun entry (_ : entry ∈ run.zipIdx start) =>
    says_writePart blobs entry.1 (marker = some entry.2)
  have hobject := says_object <| (says_fieldStr "type" "message").and <|
    (says_fieldStr "role" role.asStr).and (says_member "content" (says_array hparts))
  unfold messageValue
  generalize gather (run.zipIdx start) _ = content at hobject ⊢
  cases content with
  | error error => exact hobject
  | ok content => exact hobject

section Items

variable {isJson : String → Bool}
  (hjson : ∀ text, isJson text = true ↔ (Json.parse text.toList).isSome)
include hjson

theorem says_writeToolCall (tools : List ToolDefinition) (call : ToolCall) :
    SaysValue (writeToolCall isJson tools call) (.ok (toolCallValue tools call)) := by
  unfold writeToolCall toolCallValue
  split_ifs
  · exact says_object <| (says_fieldStr "type" "tool_search_call").and <|
      (says_fieldStr "execution" "client").and <| (says_fieldStr "call_id" call.callId).and <|
        (says_fieldStr "status" "completed").and (says_fieldArguments hjson "arguments" call.arguments)
  · rw [callArguments_eq hjson]
    exact says_object <| (says_fieldStr "type" "function_call").and <|
      (says_fieldStr "call_id" call.callId).and <|
        (says_fieldStr "name" call.name).and (says_fieldStr "arguments" _)

theorem says_writeItem (target : Target) {request : Request} (hraw : RawJson request)
    (before : List Block) {block : Block} (hblock : block ∈ request.blocks) :
    SaysValues (writeItem isJson target request before block)
      (itemValues target request before block) := by
  cases block with
  | reasoning reasoning =>
    exact says_ifSome _ fun replay _ => says_writeReasoningItem reasoning.text replay.2
  | toolCall call => exact says_writeToolCall hjson request.tools call
  | toolResult result =>
    unfold writeItem itemValues
    dsimp only
    split_ifs
    · exact says_writeSearchOutput (hraw.loaded result hblock)
    · exact says_writeToolResult request.blobs result
  | userText text => exact says_pure
  | assistantText text => exact says_pure
  | media media => exact says_pure

theorem says_writeGroup (target : Target) {request : Request} (hraw : RawJson request)
    (start : Nat) (marker : Option Nat) :
    SaysGroup (writeGroup isJson target request start marker)
      (groupValues target request start marker) (groupEnd target request.blocks start) := by
  unfold writeGroup groupValues groupEnd
  cases hfirst : request.blocks[start]? with
  | none => exact ⟨pure (), rfl, says_pure⟩
  | some first =>
    dsimp only
    split_ifs
    · exact ⟨_, rfl, says_writeMessage request.blobs first.role _ start marker⟩
    · exact ⟨_, rfl, says_writeItem hjson target hraw _ (List.mem_of_getElem? hfirst)⟩

end Items

theorem lt_groupEnd (target : Target) {blocks : List Block} {start : Nat}
    (h : start < blocks.length) : start < groupEnd target blocks start := by
  unfold groupEnd
  rw [List.getElem?_eq_getElem h]
  dsimp only
  split_ifs
  · omega
  · omega

end Yuke.Ai.OpenaiResponses
