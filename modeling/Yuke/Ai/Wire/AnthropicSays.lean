import Yuke.Ai.Wire.Anthropic
import Yuke.Ai.Wire.SaysText

/-!
# What an Anthropic Messages request says
-/

set_option autoImplicit false

namespace Yuke.Ai.Anthropic

open Yuke.Shared
open Yuke.Ai.Write

def modeMembers : Thinking → JsonMembers
  | .off => [field "type" (str "disabled")]
  | .adaptive display =>
    field "type" (str "adaptive") ::
      display.elim [] fun shown => [field "display" (str shown.asStr)]
  | .budget tokens => [field "type" (str "enabled"), field "budget_tokens" (natural tokens)]

def thinkingMembers (thinking : Option Thinking) : JsonMembers :=
  thinking.elim [] fun thinking => [field "thinking" (.object (modeMembers thinking))]

def cacheControl (cache : Bool) : JsonMembers :=
  if cache then [field "cache_control" (.object [field "type" (str "ephemeral")])] else []

def toolValue (tool : ToolDefinition) : Json :=
  .object ([field "name" (str tool.name), field "description" (str tool.description)] ++
    (if tool.deferLoading then [field "defer_loading" (.bool true)] else []) ++
    [field "input_schema" (rawValue tool.inputSchema)])

def formatMembers (output : OutputSchema) : JsonMembers :=
  [field "format" (.object
    [field "type" (str "json_schema"), field "schema" (rawValue output.schema)])]

def outputConfig (settings : Settings) : JsonMembers :=
  if settings.reasoning.effort.isSome || settings.outputSchema.isSome then
    [field "output_config" (.object
      ((settings.reasoning.effort.elim [] fun effort => [field "effort" (str effort.asStr)]) ++
        settings.outputSchema.elim [] formatMembers))]
  else []

def textValue (text : String) (cache : Bool) : Json :=
  .object ([field "type" (str "text"), field "text" (str text)] ++ cacheControl cache)

def systemMembers (wire : AnthropicWire) (system : String) : JsonMembers :=
  if !system.isEmpty then [field "system" (.array [textValue system wire.cache])] else []

def toolsMembers (tools : List ToolDefinition) (choice : ToolChoice) : JsonMembers :=
  if !tools.isEmpty then
    field "tools" (.array (tools.map toolValue)) ::
      if choice = .none then [field "tool_choice" (.object [field "type" (str "none")])] else []
  else []

def headMembers (target : Target) (wire : AnthropicWire) (request : Request) : JsonMembers :=
  [field "model" (str target.model),
    field "max_tokens" (natural (request.settings.maxOutputTokens.getD wire.maxTokens)),
    field "stream" (.bool true)] ++
  number? "temperature" request.settings.temperature ++ number? "top_p" request.settings.topP ++
  thinkingMembers request.settings.reasoning.thinking ++ outputConfig request.settings ++
  systemMembers wire request.system ++ toolsMembers request.tools request.settings.toolChoice

theorem says_writeMode (thinking : Thinking) :
    SaysMembers (writeMode thinking) (.ok (modeMembers thinking)) := by
  cases thinking with
  | off => exact says_fieldStr "type" "disabled"
  | adaptive display =>
    have hshown := says_ifSome display fun shown _ =>
      says_fieldStr "display" shown.asStr
    exact (says_fieldStr "type" "adaptive").and hshown
  | budget tokens =>
    exact (says_fieldStr "type" "enabled").and (says_fieldUint "budget_tokens" tokens)

theorem says_writeThinking (thinking : Option Thinking) :
    SaysMembers (writeThinking thinking) (.ok (thinkingMembers thinking)) :=
  says_ifSome thinking fun thinking _ => says_member "thinking" (says_object (says_writeMode thinking))

theorem says_writeCacheControl (cache : Bool) :
    SaysMembers (writeCacheControl cache) (.ok (cacheControl cache)) :=
  says_onlyIf cache (says_member "cache_control" (says_object (says_fieldStr "type" "ephemeral")))

theorem says_writeTool {tool : ToolDefinition} (h : (raw? tool.inputSchema).isSome) :
    SaysValue (writeTool tool) (.ok (toolValue tool)) := by
  have hbody := (says_fieldStr "name" tool.name).and <|
    (says_fieldStr "description" tool.description).and <|
      (says_onlyIf tool.deferLoading (says_fieldBool "defer_loading" true)).and <|
        says_fieldRaw "input_schema" h
  exact says_object hbody

theorem says_writeOutputConfig {settings : Settings}
    (h : ∀ output ∈ settings.outputSchema, (raw? output.schema).isSome) :
    SaysMembers (writeOutputConfig settings) (.ok (outputConfig settings)) := by
  have heffort := says_ifSome settings.reasoning.effort fun effort _ =>
    says_fieldStr "effort" effort.asStr
  have hformat : SaysMembers (ifSome settings.outputSchema fun output => do
      member "format" <| object do
        fieldStr "type" "json_schema"
        fieldRaw "schema" output.schema.toList)
      (.ok (settings.outputSchema.elim [] formatMembers)) :=
    says_ifSome _ fun output houtput => says_member "format" (says_object
      ((says_fieldStr "type" "json_schema").and (says_fieldRaw "schema" (h output houtput))))
  exact says_onlyIf _ (says_member "output_config" (says_object (heffort.and hformat)))

theorem says_writeText (text : String) (cache : Bool) :
    SaysValue (writeText text cache) (.ok (textValue text cache)) := by
  have hbody := (says_fieldStr "type" "text").and <|
    (says_fieldStr "text" text).and (says_writeCacheControl cache)
  exact says_object hbody

theorem says_writeSystem (wire : AnthropicWire) (system : String) :
    SaysMembers (writeSystem wire system) (.ok (systemMembers wire system)) :=
  says_onlyIf _ (says_member "system" (says_array (says_writeText system wire.cache)))

theorem says_writeTools {tools : List ToolDefinition}
    (h : ∀ tool ∈ tools, (raw? tool.inputSchema).isSome) (choice : ToolChoice) :
    SaysMembers (writeTools tools choice) (.ok (toolsMembers tools choice)) := by
  have htools := says_array (says_each fun tool htool => says_writeTool (h tool htool))
  have hchoice := says_onlyIf (decide (choice = .none))
    (says_member "tool_choice" (says_object (says_fieldStr "type" "none")))
  have hbody := says_onlyIf (!tools.isEmpty) ((says_member "tools" htools).and hchoice)
  unfold toolsMembers
  simp only [decide_eq_true_eq] at hbody
  exact hbody

theorem opens_writeHead (target : Target) (wire : AnthropicWire) {request : Request}
    (hraw : RawJson request)
    (htemperature : ∀ float ∈ request.settings.temperature, float.isFinite = true)
    (htopP : ∀ float ∈ request.settings.topP, float.isFinite = true) :
    OpensObject "messages" (headMembers target wire request) [] (writeHead target wire request) () := by
  have hopens := (says_fieldStr "model" target.model).opens <|
    (says_fieldUint "max_tokens" (request.settings.maxOutputTokens.getD wire.maxTokens)).opens <|
    (says_fieldBool "stream" true).opens <|
    (says_fieldFloatOpt "temperature" htemperature).opens <|
    (says_fieldFloatOpt "top_p" htopP).opens <|
    (says_writeThinking request.settings.reasoning.thinking).opens <|
    (says_writeOutputConfig hraw.output).opens <|
    (says_writeSystem wire request.system).opens <|
    (says_writeTools hraw.tools request.settings.toolChoice).opens (opens_array "messages")
  refine ⟨_, rfl, ?_⟩
  simp only [headMembers, List.append_assoc]
  simpa using hopens

/-! ## The messages -/

def sourceMembers (media : Media) (data : List UInt8) : JsonMembers :=
  if media.kind = .text then
    [field "type" (str "text"), field "media_type" (str "text/plain"),
      field "data" (str (String.ofList (fromUtf8Lossy data)))]
  else
    [field "type" (str "base64"), field "media_type" (str media.mime),
      field "data" (.string (codes (encodeBase64 data)))]

def mediaValue (blobs : Option BlobStore) (media : Media) (cache : Bool) :
    Except EncodeError Json := do
  let blockType ← blockType media.kind
  let data ← readBlob blobs media.blob
  pure (.object ([field "type" (str blockType), field "source" (.object (sourceMembers media data))] ++
    cacheControl cache))

def referenceValue (tool : ToolDefinition) : Json :=
  .object [field "type" (str "tool_reference"), field "tool_name" (str tool.name)]

def contentValue (request : Request) (result : ToolResult) : Except EncodeError Json :=
  if result.media.isEmpty && (loadedTools request result).isEmpty then .ok (str result.content)
  else do
    let media ← result.media.mapM fun media => mediaValue request.blobs media false
    pure (.array ((if !result.content.isEmpty then
        [.object [field "type" (str "text"), field "text" (str result.content)]] else []) ++
      (media ++ (loadedTools request result).map referenceValue)))

def toolResultValue (request : Request) (result : ToolResult) (cache : Bool) :
    Except EncodeError Json := do
  let content ← contentValue request result
  pure (.object ([field "type" (str "tool_result"), field "tool_use_id" (str result.callId),
    field "content" content, field "is_error" (.bool result.isError)] ++ cacheControl cache))

def replayValue (reasoning : Reasoning) (replay : ReplayKind × String) : Json :=
  if replay.1 = .anthropicSignature then
    .object [field "type" (str "thinking"), field "thinking" (str reasoning.text),
      field "signature" (str replay.2)]
  else .object [field "type" (str "redacted_thinking"), field "data" (str replay.2)]

def toolCallValue (call : ToolCall) (cache : Bool) : Json :=
  .object ([field "type" (str "tool_use"), field "id" (str call.callId),
    field "name" (str call.name), field "input" (arguments call.arguments)] ++ cacheControl cache)

def blockValues (target : Target) (request : Request) (block : Block) (cache : Bool) :
    Except EncodeError (List Json) :=
  match block with
  | .userText text | .assistantText text => .ok [textValue text cache]
  | .media media => (mediaValue request.blobs media cache).map fun value => [value]
  | .reasoning reasoning =>
    .ok ((reasoning.replayTo target).elim [] fun replay => [replayValue reasoning replay])
  | .toolCall call => .ok [toolCallValue call cache]
  | .toolResult result => (toolResultValue request result cache).map fun value => [value]

def messageValues (target : Target) (request : Request) (role : Role) (run : List Block)
    (start : Nat) (marker : Option Nat) : Except EncodeError (List Json) :=
  if run.any (writes target) then
    (gather (run.zipIdx start) fun entry =>
      blockValues target request entry.1 (marker = some entry.2)).map fun content =>
        [.object [field "role" (str role.asStr), field "content" (.array content)]]
  else .ok []

/-- The blocks with one role from `start`. -/
def runFrom (blocks : List Block) (start : Nat) : List Block :=
  match blocks[start]? with
  | some first => (blocks.drop start).takeWhile fun block => block.role = first.role
  | none => []

def groupEnd (blocks : List Block) (start : Nat) : Nat := start + (runFrom blocks start).length

/-- The message of the blocks with one role from `start`. -/
def groupValues (target : Target) (request : Request) (start : Nat) (marker : Option Nat) :
    Except EncodeError (List Json) :=
  match request.blocks[start]? with
  | some first => messageValues target request first.role (runFrom request.blocks start) start marker
  | none => .ok []

theorem says_writeSource (media : Media) (data : List UInt8) :
    SaysMembers (writeSource media data) (.ok (sourceMembers media data)) := by
  unfold writeSource sourceMembers
  split_ifs
  · exact (says_fieldStr "type" "text").and <|
      (says_fieldStr "media_type" "text/plain").and (says_member "data" (says_string _))
  · exact (says_fieldStr "type" "base64").and <|
      (says_fieldStr "media_type" media.mime).and (says_member "data" (says_base64 none data))

theorem says_writeMedia (blobs : Option BlobStore) (media : Media) (cache : Bool) :
    SaysValue (writeMedia blobs media cache) (mediaValue blobs media cache) := by
  refine says_liftValue (blockType media.kind) fun blockType => ?_
  have hsource := says_member "source" <| says_liftValue (readBlob blobs media.blob) fun data =>
    says_object (says_writeSource media data)
  have hobject := says_object <| (says_fieldStr "type" blockType).and <|
    hsource.and (says_writeCacheControl cache)
  cases hread : readBlob blobs media.blob with
  | error error =>
    rw [hread] at hobject
    exact hobject
  | ok data =>
    rw [hread] at hobject
    exact hobject

theorem says_writeReference (tool : ToolDefinition) :
    SaysValue (writeReference tool) (.ok (referenceValue tool)) :=
  says_object ((says_fieldStr "type" "tool_reference").and (says_fieldStr "tool_name" tool.name))

theorem says_writeContent (request : Request) (result : ToolResult) :
    SaysValue (writeContent request result) (contentValue request result) := by
  unfold writeContent contentValue
  split
  · exact says_string result.content
  · have htext := says_onlyIf (!result.content.isEmpty) (says_object
      ((says_fieldStr "type" "text").and (says_fieldStr "text" result.content)))
    have hmedia : SaysValues (result.media.forM fun media => writeMedia request.blobs media false)
        (result.media.mapM fun media => mediaValue request.blobs media false) :=
      says_traverse fun media _ => says_writeMedia request.blobs media false
    have hloaded : SaysValues ((loadedTools request result).forM writeReference)
        (.ok ((loadedTools request result).map referenceValue)) :=
      says_each fun tool _ => says_writeReference tool
    have harray := says_array (Says.then joins_elements htext (Says.then joins_elements hmedia hloaded))
    generalize result.media.mapM (fun media => mediaValue request.blobs media false) = media at harray ⊢
    cases media with
    | error error => exact harray
    | ok media => exact harray

theorem says_writeToolResult (request : Request) (result : ToolResult) (cache : Bool) :
    SaysValue (writeToolResult request result cache) (toolResultValue request result cache) := by
  have hcontent := says_member "content" (says_writeContent request result)
  have hobject := says_object <| (says_fieldStr "type" "tool_result").and <|
    (says_fieldStr "tool_use_id" result.callId).and <| hcontent.and <|
      (says_fieldBool "is_error" result.isError).and (says_writeCacheControl cache)
  unfold toolResultValue
  generalize contentValue request result = content at hobject ⊢
  cases content with
  | error error => exact hobject
  | ok content => exact hobject

theorem says_writeReasoning (target : Target) (reasoning : Reasoning) :
    SaysValues (writeReasoning target reasoning)
      (.ok ((reasoning.replayTo target).elim [] fun replay => [replayValue reasoning replay])) := by
  refine says_ifSome (reasoning.replayTo target) fun replay _ => ?_
  unfold replayValue
  split_ifs
  · exact says_object <| (says_fieldStr "type" "thinking").and <|
      (says_fieldStr "thinking" reasoning.text).and (says_fieldStr "signature" replay.2)
  · exact says_object <|
      (says_fieldStr "type" "redacted_thinking").and (says_fieldStr "data" replay.2)

section Blocks

variable {isJson : String → Bool}
  (hjson : ∀ text, isJson text = true ↔ (Json.parse text.toList).isSome)
include hjson

theorem says_writeToolCall (call : ToolCall) (cache : Bool) :
    SaysValue (writeToolCall isJson call cache) (.ok (toolCallValue call cache)) := by
  have harguments : SaysMembers (fieldRaw "input" (callArguments isJson call.arguments).toList)
      (.ok [field "input" (arguments call.arguments)]) := says_fieldArguments hjson "input" call.arguments
  exact says_object <| (says_fieldStr "type" "tool_use").and <|
    (says_fieldStr "id" call.callId).and <| (says_fieldStr "name" call.name).and <|
      harguments.and (says_writeCacheControl cache)

theorem says_writeBlock (target : Target) (request : Request) (block : Block) (cache : Bool) :
    SaysValues (writeBlock isJson target request block cache)
      (blockValues target request block cache) := by
  cases block with
  | userText text => exact says_writeText text cache
  | assistantText text => exact says_writeText text cache
  | media media => exact says_writeMedia request.blobs media cache
  | reasoning reasoning => exact says_writeReasoning target reasoning
  | toolCall call => exact says_writeToolCall hjson call cache
  | toolResult result => exact says_writeToolResult request result cache

theorem says_writeMessage (target : Target) (request : Request) (role : Role) (run : List Block)
    (start : Nat) (marker : Option Nat) :
    SaysValues (writeMessage isJson target request role run start marker)
      (messageValues target request role run start marker) := by
  have hblocks := says_forM joins_elements fun entry (_ : entry ∈ run.zipIdx start) =>
    says_writeBlock hjson target request entry.1 (marker = some entry.2)
  have hmessage := says_when (run.any (writes target)) <| says_object <|
    (says_fieldStr "role" role.asStr).and (says_member "content" (says_array hblocks))
  unfold messageValues
  split_ifs with hwrites
  · rw [if_pos hwrites] at hmessage
    generalize gather (run.zipIdx start) _ = content at hmessage ⊢
    cases content with
    | error error => exact hmessage
    | ok content => exact hmessage
  · rw [if_neg hwrites] at hmessage
    exact hmessage

theorem says_writeGroup (target : Target) (request : Request) (start : Nat) (marker : Option Nat) :
    SaysGroup (writeGroup isJson target request start marker)
      (groupValues target request start marker) (groupEnd request.blocks start) := by
  unfold writeGroup groupValues groupEnd runFrom
  cases request.blocks[start]? with
  | none => exact ⟨pure (), rfl, says_pure⟩
  | some first =>
    exact ⟨_, rfl, says_writeMessage hjson target request first.role _ start marker⟩

end Blocks

theorem lt_groupEnd {blocks : List Block} {start : Nat} (h : start < blocks.length) :
    start < groupEnd blocks start := by
  unfold groupEnd runFrom
  rw [List.getElem?_eq_getElem h, List.drop_eq_getElem_cons h]
  dsimp only
  rw [List.takeWhile_cons_of_pos (by simp), List.length_cons]
  omega

end Yuke.Ai.Anthropic
