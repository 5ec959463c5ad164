import Yuke.Ai.Wire.OpenaiChat
import Yuke.Ai.Wire.SaysText

/-!
# What a Chat Completions request says
-/

set_option autoImplicit false

namespace Yuke.Ai.OpenaiChat

open Yuke.Shared
open Yuke.Ai.Write

/-! ## The head -/

def switchMember (shape : String) (more : JsonMembers) : List Nat × Json :=
  field "thinking" (.object (field "type" (str shape) :: more))

def effortMembers (on : Bool) (level : String) : JsonMembers :=
  if on then [field "reasoning_effort" (str level)] else []

def levelMembers (format : ThinkingFormat) (on : Bool) (level : String) : JsonMembers :=
  let switchShape := if on then "enabled" else "disabled"
  match format with
  | .none => []
  | .openai => [field "reasoning_effort" (str level)]
  | .openrouter => [field "reasoning" (.object [field "effort" (str level)])]
  | .deepseek => switchMember switchShape [] :: effortMembers on level
  | .zai =>
    switchMember switchShape (if on then [field "clear_thinking" (.bool false)] else []) ::
      effortMembers on level
  | .qwen => field "enable_thinking" (.bool on) :: effortMembers on level

def reasoningMembers (format : ThinkingFormat) (reasoning : ReasoningSettings) : JsonMembers :=
  let on := !reasoning.off
  let level : Option String := if on then reasoning.effort.map Effort.asStr else some "none"
  level.elim [] (levelMembers format on)

def toolValue (tool : ToolDefinition) : Json :=
  .object [field "type" (str "function"), field "function" (.object
    [field "name" (str tool.name), field "description" (str tool.description),
      field "parameters" (rawValue tool.inputSchema)])]

def formatMembers (output : OutputSchema) : JsonMembers :=
  [field "response_format" (.object
    [field "type" (str "json_schema"), field "json_schema" (.object
      [field "name" (str output.name), field "schema" (rawValue output.schema),
        field "strict" (.bool output.strict)])])]

def toolsMembers (tools : List ToolDefinition) (choice : ToolChoice) : JsonMembers :=
  if !tools.isEmpty then
    field "tools" (.array (tools.map toolValue)) ::
      if choice = .none then [field "tool_choice" (str "none")] else []
  else []

def streamOptions (dialect : ChatDialect) : JsonMembers :=
  if dialect = .standard then
    [field "stream_options" (.object [field "include_usage" (.bool true)])]
  else []

def systemValue (system : String) : Json :=
  .object [field "role" (str "system"), field "content" (str system)]

def systemValues (system : String) : List Json :=
  if !system.isEmpty then [systemValue system] else []

def headMembers (target : Target) (wire : ChatWire) (request : Request) : JsonMembers :=
  [field "model" (str target.model), field "stream" (.bool true)] ++
  streamOptions wire.dialect ++
  (request.settings.maxOutputTokens.elim [] fun tokens =>
    [field (MaxTokensField.member wire.maxTokensField) (natural tokens)]) ++
  number? "temperature" request.settings.temperature ++ number? "top_p" request.settings.topP ++
  reasoningMembers wire.thinkingFormat request.settings.reasoning ++
  request.settings.outputSchema.elim [] formatMembers ++
  toolsMembers request.tools request.settings.toolChoice

theorem says_writeSwitch (shape : String) {more : Write Unit} {members : JsonMembers}
    (h : SaysMembers more (.ok members)) :
    SaysMembers (writeSwitch shape more) (.ok [switchMember shape members]) :=
  says_member "thinking" (says_object ((says_fieldStr "type" shape).and h))

theorem says_writeEffort (on : Bool) (level : String) :
    SaysMembers (writeEffort on level) (.ok (effortMembers on level)) :=
  says_onlyIf on (says_fieldStr "reasoning_effort" level)

theorem says_writeLevel (format : ThinkingFormat) (on : Bool) (level : String) :
    SaysMembers (writeLevel format on level) (.ok (levelMembers format on level)) := by
  have heffort := says_writeEffort on level
  cases format with
  | none => exact says_pure
  | openai => exact says_fieldStr "reasoning_effort" level
  | openrouter => exact says_member "reasoning" (says_object (says_fieldStr "effort" level))
  | deepseek => exact (says_writeSwitch (if on then "enabled" else "disabled") says_pure).and heffort
  | zai =>
    have hclear := says_onlyIf on (says_fieldBool "clear_thinking" false)
    exact (says_writeSwitch (if on then "enabled" else "disabled") hclear).and heffort
  | qwen => exact (says_fieldBool "enable_thinking" on).and heffort

theorem says_writeReasoning (format : ThinkingFormat) (reasoning : ReasoningSettings) :
    SaysMembers (writeReasoning format reasoning) (.ok (reasoningMembers format reasoning)) :=
  says_ifSome _ fun level _ => says_writeLevel format (!reasoning.off) level

theorem says_writeTool {tool : ToolDefinition} (h : (raw? tool.inputSchema).isSome) :
    SaysValue (writeTool tool) (.ok (toolValue tool)) := by
  have hfunction := says_member "function" <| says_object <| (says_fieldStr "name" tool.name).and <|
    (says_fieldStr "description" tool.description).and (says_fieldRaw "parameters" h)
  exact says_object ((says_fieldStr "type" "function").and hfunction)

theorem says_writeFormat {output : OutputSchema} (h : (raw? output.schema).isSome) :
    SaysMembers (writeFormat output) (.ok (formatMembers output)) := by
  have hschema := says_member "json_schema" <| says_object <| (says_fieldStr "name" output.name).and <|
    (says_fieldRaw "schema" h).and (says_fieldBool "strict" output.strict)
  exact says_member "response_format"
    (says_object ((says_fieldStr "type" "json_schema").and hschema))

theorem says_writeTools {tools : List ToolDefinition}
    (h : ∀ tool ∈ tools, (raw? tool.inputSchema).isSome) (choice : ToolChoice) :
    SaysMembers (writeTools tools choice) (.ok (toolsMembers tools choice)) := by
  have htools := says_array (says_each fun tool htool => says_writeTool (h tool htool))
  have hchoice := says_onlyIf (decide (choice = .none)) (says_fieldStr "tool_choice" "none")
  have hbody := says_onlyIf (!tools.isEmpty) ((says_member "tools" htools).and hchoice)
  unfold toolsMembers
  simp only [decide_eq_true_eq] at hbody
  exact hbody

theorem says_writeStreamOptions (dialect : ChatDialect) :
    SaysMembers (writeStreamOptions dialect) (.ok (streamOptions dialect)) := by
  have hoptions := says_onlyIf (decide (dialect = .standard)) (says_member "stream_options"
    (says_object (says_fieldBool "include_usage" true)))
  unfold streamOptions
  simp only [decide_eq_true_eq] at hoptions
  exact hoptions

theorem opens_writeHead (target : Target) (wire : ChatWire) {request : Request}
    (hraw : RawJson request)
    (htemperature : ∀ float ∈ request.settings.temperature, float.isFinite = true)
    (htopP : ∀ float ∈ request.settings.topP, float.isFinite = true) :
    OpensObject "messages" (headMembers target wire request) (systemValues request.system)
      (writeHead target wire request) (!request.system.isEmpty) := by
  have hsystem : SaysValues (onlyIf (!request.system.isEmpty) (writeSystem request.system))
      (.ok (systemValues request.system)) := by
    refine says_onlyIf (!request.system.isEmpty) ?_
    exact says_object ((says_fieldStr "role" "system").and (says_fieldStr "content" request.system))
  have hopens := (says_fieldStr "model" target.model).opens <|
    (says_fieldBool "stream" true).opens <|
    (says_writeStreamOptions wire.dialect).opens <|
    (says_ifSome request.settings.maxOutputTokens fun tokens _ =>
      says_fieldUint (MaxTokensField.member wire.maxTokensField) tokens).opens <|
    (says_fieldFloatOpt "temperature" htemperature).opens <|
    (says_fieldFloatOpt "top_p" htopP).opens <|
    (says_writeReasoning wire.thinkingFormat request.settings.reasoning).opens <|
    (says_ifSome request.settings.outputSchema fun output houtput =>
      says_writeFormat (hraw.output output houtput)).opens <|
    (says_writeTools hraw.tools request.settings.toolChoice).opens
      (opens_write "messages" (!request.system.isEmpty) hsystem)
  refine ⟨_, rfl, ?_⟩
  simp only [headMembers, List.append_assoc]
  simpa using hopens

/-! ## The messages -/

def dataUrl (mime : String) (data : List UInt8) : Json :=
  .string (codes (base64Text (some mime) data))

def mediaValue (blobs : Option BlobStore) (media : Media) : Except EncodeError Json :=
  match media.kind with
  | .image => do
    let data ← readBlob blobs media.blob
    pure (.object [field "type" (str "image_url"),
      field "image_url" (.object [field "url" (dataUrl media.mime data)])])
  | .audio => do
    let data ← readBlob blobs media.blob
    let format ← audioFormat media.mime
    pure (.object [field "type" (str "input_audio"), field "input_audio" (.object
      [field "data" (.string (codes (encodeBase64 data))), field "format" (str format)])])
  | .pdf | .text | .other =>
    if media.filename.isEmpty then .error (.unsupported .unnamedDocument)
    else do
      let data ← readBlob blobs media.blob
      pure (.object [field "type" (str "file"), field "file" (.object
        [field "file_data" (dataUrl media.mime data), field "filename" (str media.filename)])])
  | .video => .error (.unsupported (.media .video))

def labelValue (callId : String) : Json :=
  .object [field "type" (str "text"),
    field "text" (strings ["Attachment from tool call ", callId, ":"])]

def toolResultValue (result : ToolResult) : Json :=
  .object [field "role" (str "tool"), field "tool_call_id" (str result.callId),
    field "content" (strings [if result.isError then "Error: " else "", result.content])]

def attachmentValues (blobs : Option BlobStore) : Block → Except EncodeError (List Json)
  | .toolResult result =>
    gather result.media fun media =>
      (mediaValue blobs media).map fun value => [labelValue result.callId, value]
  | .userText _ | .media _ | .assistantText _ | .reasoning _ | .toolCall _ => .ok []

def userPartValues (blobs : Option BlobStore) : Block → Except EncodeError (List Json)
  | .userText text => .ok [.object [field "type" (str "text"), field "text" (str text)]]
  | .media media => (mediaValue blobs media).map fun value => [value]
  | .toolResult _ | .assistantText _ | .reasoning _ | .toolCall _ => .ok []

def userMessageValue (blobs : Option BlobStore) (results blocks : List Block) :
    Except EncodeError Json :=
  (both (gather results (attachmentValues blobs)) (gather blocks (userPartValues blobs))).map
    fun content => .object [field "role" (str "user"), field "content" (.array content)]

def entries (text : String) : List Json :=
  match Json.parse text.toList with
  | some (.array items) => items
  | _ => []

def detailValues (target : Target) : Block → List Json
  | .reasoning reasoning => (reasoning.replayTo target).elim [] fun replay => entries replay.2
  | .userText _ | .media _ | .toolResult _ | .assistantText _ | .toolCall _ => []

def callValues : Block → List Json
  | .toolCall call =>
    [.object [field "id" (str call.callId), field "type" (str "function"), field "function" (.object
      [field "name" (str call.name), field "arguments" (str (argumentsText call.arguments))])]]
  | .userText _ | .media _ | .toolResult _ | .assistantText _ | .reasoning _ => []

def replayMembers (target : Target) (replay : ReasoningReplayMode) (blocks : List Block) :
    JsonMembers :=
  match replay with
  | .none => []
  | .reasoningContent => [field "reasoning_content" (strings (blocks.filterMap reasoningText?))]
  | .reasoningDetails =>
    if blocks.any (hasDetail target) then
      [field "reasoning_details" (.array (blocks.flatMap (detailValues target)))]
    else []

def contentValue (blocks : List Block) : Json :=
  if (blocks.filterMap text?).isEmpty then .null else strings (blocks.filterMap text?)

def assistantMessageValue (target : Target) (replay : ReasoningReplayMode) (blocks : List Block) :
    Json :=
  .object ([field "role" (str "assistant"), field "content" (contentValue blocks)] ++
    (replayMembers target replay blocks ++
      if blocks.any isToolCall then [field "tool_calls" (.array (blocks.flatMap callValues))] else []))

/-- The results from `start`. -/
def resultsFrom (blocks : List Block) (start : Nat) : List Block :=
  runFrom blocks start fun block => (toolResult? block).isSome

/-- The user blocks after the results from `start`, when these have attachments. -/
def usersAfter (blocks : List Block) (start : Nat) : List Block :=
  if (resultsFrom blocks start).any hasMedia then
    runFrom blocks (start + (resultsFrom blocks start).length) isUserPart
  else []

def answerFrom (blocks : List Block) (start : Nat) : List Block :=
  runFrom blocks start fun block => block.role = .assistant

def resultValues (blobs : Option BlobStore) (results users : List Block) :
    Except EncodeError (List Json) :=
  both (.ok ((results.filterMap toolResult?).map toolResultValue)) <|
    if results.any hasMedia then
      (userMessageValue blobs results users).map fun value => [value]
    else .ok []

def answerValues (target : Target) (replay : ReasoningReplayMode) (run : List Block) : List Json :=
  if run.any fun block => (text? block).isSome || isToolCall block then
    [assistantMessageValue target replay run]
  else []

def groupEnd (blocks : List Block) (start : Nat) : Nat :=
  match blocks[start]? with
  | none => start
  | some (.toolResult _) =>
    start + (resultsFrom blocks start).length + (usersAfter blocks start).length
  | some (.userText _) | some (.media _) => start + (runFrom blocks start isUserPart).length
  | some (.assistantText _) | some (.reasoning _) | some (.toolCall _) =>
    start + (answerFrom blocks start).length

/-- The messages of a user run, of an assistant run, or of tool results with the user blocks that
take their attachments. -/
def groupValues (target : Target) (wire : ChatWire) (request : Request) (start : Nat) :
    Except EncodeError (List Json) :=
  let blocks := request.blocks
  match blocks[start]? with
  | none => .ok []
  | some (.toolResult _) =>
    resultValues request.blobs (resultsFrom blocks start) (usersAfter blocks start)
  | some (.userText _) | some (.media _) =>
    (userMessageValue request.blobs [] (runFrom blocks start isUserPart)).map fun value => [value]
  | some (.assistantText _) | some (.reasoning _) | some (.toolCall _) =>
    .ok (answerValues target wire.reasoningReplay (answerFrom blocks start))

theorem says_dataUrl (mime : String) (data : List UInt8) :
    SaysValue (base64 (some mime) data) (.ok (dataUrl mime data)) := says_base64 (some mime) data

theorem says_writeMedia (blobs : Option BlobStore) (media : Media) :
    SaysValue (writeMedia blobs media) (mediaValue blobs media) := by
  have hfile : SaysValue (do
      let data ← lift (readBlob blobs media.blob)
      object do
        fieldStr "type" "file"
        member "file" <| object do
          member "file_data" (base64 (some media.mime) data)
          fieldStr "filename" media.filename) ((readBlob blobs media.blob).bind fun data =>
        .ok (.object [field "type" (str "file"), field "file" (.object
          [field "file_data" (dataUrl media.mime data), field "filename" (str media.filename)])])) := by
    refine says_liftValue _ fun data => ?_
    have hfile := (says_member "file_data" (says_dataUrl media.mime data)).and
      (says_fieldStr "filename" media.filename)
    exact says_object ((says_fieldStr "type" "file").and (says_member "file" (says_object hfile)))
  unfold writeMedia mediaValue
  cases media.kind with
  | image =>
    refine says_liftValue (readBlob blobs media.blob) fun data => ?_
    have hurl := says_object (says_member "url" (says_dataUrl media.mime data))
    exact says_object ((says_fieldStr "type" "image_url").and (says_member "image_url" hurl))
  | audio =>
    refine says_liftValue (readBlob blobs media.blob) fun data => ?_
    refine says_liftValue (audioFormat media.mime) fun format => ?_
    have haudio := (says_member "data" (says_base64 none data)).and (says_fieldStr "format" format)
    exact says_object
      ((says_fieldStr "type" "input_audio").and (says_member "input_audio" (says_object haudio)))
  | video => exact says_fail _
  | pdf =>
    dsimp only
    split_ifs
    · exact says_fail _
    · exact hfile
  | text =>
    dsimp only
    split_ifs
    · exact says_fail _
    · exact hfile
  | other =>
    dsimp only
    split_ifs
    · exact says_fail _
    · exact hfile

theorem says_writeAttachments (blobs : Option BlobStore) (block : Block) :
    SaysValues (writeAttachments blobs block) (attachmentValues blobs block) := by
  cases block with
  | toolResult result =>
    refine says_forM joins_elements fun media _ => ?_
    have hlabel := says_object <| (says_fieldStr "type" "text").and <|
      says_member "text" (says_stringParts ["Attachment from tool call ", result.callId, ":"])
    have hmedia : SaysValues (writeMedia blobs media)
        ((mediaValue blobs media).map fun value => [value]) := says_writeMedia blobs media
    have hboth := Says.then joins_elements hlabel hmedia
    generalize mediaValue blobs media = value at hboth ⊢
    cases value with
    | error error => exact hboth
    | ok value => exact hboth
  | userText text => exact says_pure
  | media media => exact says_pure
  | assistantText text => exact says_pure
  | reasoning reasoning => exact says_pure
  | toolCall call => exact says_pure

theorem says_writeUserPart (blobs : Option BlobStore) (block : Block) :
    SaysValues (writeUserPart blobs block) (userPartValues blobs block) := by
  cases block with
  | userText text =>
    exact says_object ((says_fieldStr "type" "text").and (says_fieldStr "text" text))
  | media media => exact says_writeMedia blobs media
  | toolResult result => exact says_pure
  | assistantText text => exact says_pure
  | reasoning reasoning => exact says_pure
  | toolCall call => exact says_pure

theorem says_writeUserMessage (blobs : Option BlobStore) (results blocks : List Block) :
    SaysValue (writeUserMessage blobs results blocks) (userMessageValue blobs results blocks) := by
  have hresults := says_forM joins_elements fun result (_ : result ∈ results) =>
    says_writeAttachments blobs result
  have hblocks := says_forM joins_elements fun block (_ : block ∈ blocks) =>
    says_writeUserPart blobs block
  have hmessage := says_object <| (says_fieldStr "role" "user").and <|
    says_member "content" (says_array (Says.then joins_elements hresults hblocks))
  unfold userMessageValue
  generalize both (gather results (attachmentValues blobs)) (gather blocks (userPartValues blobs)) =
    content at hmessage ⊢
  cases content with
  | error error => exact hmessage
  | ok content => exact hmessage

theorem trimSpace_eq (text : List Char) :
    trimSpace text = (text.dropWhile Json.isSpace).rdropWhile Json.isSpace := by
  have hspace : ∀ c, decide (c ∈ space) = Json.isSpace c := by
    intro c
    rw [Bool.eq_iff_iff]
    simp only [space, Json.isSpace, List.mem_cons, decide_eq_true_eq, Bool.or_eq_true]
    tauto
  unfold trimSpace
  simp only [hspace]

theorem items_arrayItems {text : List Char} {items : List Json}
    (h : Json.Reads text (.array items)) : Items (arrayItems text) items := by
  obtain ⟨before, inner, after, rfl, hbefore, hafter, hinner⟩ := h.array_inv
  have htrimmed : trimSpace (before ++ '[' :: (inner ++ ']' :: after)) = '[' :: (inner ++ [']']) := by
    have hwhole : '[' :: (inner ++ ']' :: after) = ('[' :: inner) ++ [']'] ++ after := by simp
    rw [trimSpace_eq, List.dropWhile_append_of_pos hbefore, List.dropWhile_cons_of_neg (by decide),
      hwhole, List.rdropWhile, List.reverse_append,
      List.dropWhile_append_of_pos fun c hc => hafter c (List.mem_reverse.mp hc)]
    have hclose := List.rdropWhile_concat_neg Json.isSpace ('[' :: inner) ']' (by decide)
    exact hclose
  have hitems : arrayItems (before ++ '[' :: (inner ++ ']' :: after)) = trimSpace inner := by
    unfold arrayItems
    rw [htrimmed]
    simp
  rw [hitems, trimSpace_eq]
  rcases hinner with ⟨rfl, hspaces⟩ | helements
  · refine .inl ⟨rfl, ?_⟩
    have hnil : inner.dropWhile Json.isSpace = [] := Json.skipSpace_spaces hspaces
    rw [hnil]
    rfl
  · exact .inr helements.dropWhile.rdropWhile

theorem details_of_replayTo {target : Target} (htarget : target.wire.protocol = .openaiChat)
    {reasoning : Reasoning} (h : ∀ replay ∈ reasoning.replay, replay.kind = .openrouterDetails →
      ∃ items, Json.parse replay.data.toList = some (.array items))
    {replay : ReplayKind × String} (hreplay : reasoning.replayTo target = some replay) :
    ∃ items, Json.parse replay.2.toList = some (.array items) := by
  unfold Reasoning.replayTo at hreplay
  cases hstate : reasoning.replay with
  | none =>
    rw [hstate] at hreplay
    cases hreplay
  | some state =>
    rw [hstate] at hreplay
    dsimp only at hreplay
    split_ifs at hreplay with htakes
    cases hreplay
    refine h state hstate ?_
    have hprotocol := htakes.2.1.trans htarget
    cases hkind : state.kind with
    | openrouterDetails => rfl
    | anthropicSignature => cases hkind ▸ hprotocol
    | anthropicRedacted => cases hkind ▸ hprotocol
    | responsesEncrypted => cases hkind ▸ hprotocol

theorem says_writeDetail {target : Target} (htarget : target.wire.protocol = .openaiChat)
    {block : Block} (h : ∀ reasoning, block = .reasoning reasoning → ∀ replay ∈ reasoning.replay,
      replay.kind = .openrouterDetails →
        ∃ items, Json.parse replay.data.toList = some (.array items)) :
    SaysValues (writeDetail target block) (.ok (detailValues target block)) := by
  cases block with
  | reasoning reasoning =>
    unfold writeDetail detailValues
    dsimp only
    cases hreplay : reasoning.replayTo target with
    | none => exact says_pure
    | some replay =>
      obtain ⟨items, hitems⟩ := details_of_replayTo htarget (h reasoning rfl) hreplay
      have hentries : entries replay.2 = items := by
        unfold entries
        rw [hitems]
      dsimp only [Option.elim_some]
      rw [hentries]
      rcases items_arrayItems (Json.reads_iff_parse.mpr hitems) with ⟨rfl, htext⟩ | helements
      · rw [htext]
        exact says_pure
      · have hne : (arrayItems replay.2.toList).isEmpty = false := by
          simpa using helements.text_ne_nil
        unfold onlyIf raw
        rw [hne]
        exact fun _ => ⟨rfl, .inr ⟨_, helements, rfl, rfl⟩⟩
  | userText text => exact says_pure
  | media media => exact says_pure
  | assistantText text => exact says_pure
  | toolResult result => exact says_pure
  | toolCall call => exact says_pure

theorem says_writeContent (blocks : List Block) :
    SaysValue (writeContent blocks) (.ok (contentValue blocks)) := by
  unfold writeContent contentValue
  split_ifs
  · exact says_null
  · exact says_stringParts _

theorem says_writeToolResult (result : ToolResult) :
    SaysValue (writeToolResult result) (.ok (toolResultValue result)) := by
  exact says_object <| (says_fieldStr "role" "tool").and <|
    (says_fieldStr "tool_call_id" result.callId).and <|
      says_member "content" (says_toolText result.content result.isError)

section Answer

variable {isJson : String → Bool}
  (hjson : ∀ text, isJson text = true ↔ (Json.parse text.toList).isSome)
  {target : Target} (htarget : target.wire.protocol = .openaiChat)
  (replay : ReasoningReplayMode) {blocks : List Block}
  (hdetails : ∀ reasoning, Block.reasoning reasoning ∈ blocks → ∀ state ∈ reasoning.replay,
    state.kind = .openrouterDetails → ∃ items, Json.parse state.data.toList = some (.array items))

include hjson in
theorem says_writeCall (block : Block) :
    SaysValues (writeCall isJson block) (.ok (callValues block)) := by
  cases block with
  | toolCall call =>
    have harguments : SaysMembers (fieldStr "arguments" (callArguments isJson call.arguments))
        (.ok [field "arguments" (str (argumentsText call.arguments))]) := by
      rw [callArguments_eq hjson]
      exact says_fieldStr "arguments" _
    have hfunction := says_member "function"
      (says_object ((says_fieldStr "name" call.name).and harguments))
    exact says_object <| (says_fieldStr "id" call.callId).and <|
      (says_fieldStr "type" "function").and hfunction
  | userText text => exact says_pure
  | media media => exact says_pure
  | toolResult result => exact says_pure
  | assistantText text => exact says_pure
  | reasoning reasoning => exact says_pure

include htarget hdetails in
theorem says_writeReplay :
    SaysMembers (writeReplay target replay blocks) (.ok (replayMembers target replay blocks)) := by
  cases replay with
  | none => exact says_pure
  | reasoningContent => exact says_member "reasoning_content" (says_stringParts _)
  | reasoningDetails =>
    have hblocks : SaysValues (blocks.forM (writeDetail target))
        (.ok (blocks.flatMap (detailValues target))) :=
      says_flat joins_elements fun block hblock => says_writeDetail htarget
        fun reasoning hreasoning => hdetails reasoning (hreasoning ▸ hblock)
    exact says_onlyIf _ (says_member "reasoning_details" (says_array hblocks))

include hjson htarget hdetails

theorem says_writeAssistantMessage :
    SaysValue (writeAssistantMessage isJson target replay blocks)
      (.ok (assistantMessageValue target replay blocks)) := by
  have hcalls := says_onlyIf (blocks.any isToolCall) (says_member "tool_calls" (says_array
    (says_flat joins_elements fun block (_ : block ∈ blocks) => says_writeCall hjson block)))
  exact says_object <| (says_fieldStr "role" "assistant").and <|
    (says_member "content" (says_writeContent blocks)).and <|
      (says_writeReplay htarget replay hdetails).and hcalls

theorem says_writeAnswer :
    SaysValues (writeAnswer isJson target replay blocks)
      (.ok (answerValues target replay blocks)) :=
  says_onlyIf _ (says_writeAssistantMessage hjson htarget replay hdetails)

end Answer

theorem says_writeResults (blobs : Option BlobStore) (results users : List Block) :
    SaysValues (writeResults blobs results users) (resultValues blobs results users) := by
  have hresults := says_each fun result (_ : result ∈ results.filterMap toolResult?) =>
    says_writeToolResult result
  have husers : SaysValues (writeUserMessage blobs results users)
      ((userMessageValue blobs results users).map fun value => [value]) :=
    says_writeUserMessage blobs results users
  exact Says.then joins_elements hresults (says_when (results.any hasMedia) husers)

theorem says_writeGroup {isJson : String → Bool}
    (hjson : ∀ text, isJson text = true ↔ (Json.parse text.toList).isSome)
    {target : Target} (htarget : target.wire.protocol = .openaiChat) (wire : ChatWire)
    {request : Request} (hraw : RawJson request) (start : Nat) :
    SaysGroup (writeGroup isJson target wire request start)
      (groupValues target wire request start) (groupEnd request.blocks start) := by
  have huser : SaysValues (writeUserMessage request.blobs [] (runFrom request.blocks start isUserPart))
      ((userMessageValue request.blobs [] (runFrom request.blocks start isUserPart)).map
        fun value => [value]) := says_writeUserMessage request.blobs [] _
  have hblocks : ∀ block ∈ answerFrom request.blocks start, block ∈ request.blocks :=
    fun block hblock => List.mem_of_mem_drop ((List.takeWhile_prefix _).subset hblock)
  have hanswer := says_writeAnswer hjson htarget wire.reasoningReplay
    fun reasoning hreasoning => hraw.details reasoning (hblocks _ hreasoning)
  unfold writeGroup groupValues groupEnd
  dsimp only
  cases request.blocks[start]? with
  | none => exact ⟨pure (), rfl, says_pure⟩
  | some first =>
    cases first with
    | toolResult result =>
      exact ⟨_, rfl, says_writeResults request.blobs (resultsFrom request.blocks start)
        (usersAfter request.blocks start)⟩
    | userText text => exact ⟨_, rfl, huser⟩
    | media media => exact ⟨_, rfl, huser⟩
    | assistantText text => exact ⟨_, rfl, hanswer⟩
    | reasoning reasoning => exact ⟨_, rfl, hanswer⟩
    | toolCall call => exact ⟨_, rfl, hanswer⟩

theorem length_runFrom {blocks : List Block} {start : Nat} {run : Block → Bool} {first : Block}
    (h : blocks[start]? = some first) (hrun : run first = true) :
    0 < (runFrom blocks start run).length := by
  obtain ⟨hlt, rfl⟩ := List.getElem?_eq_some_iff.mp h
  unfold runFrom
  rw [List.drop_eq_getElem_cons hlt, List.takeWhile_cons_of_pos hrun]
  exact Nat.succ_pos _

theorem lt_groupEnd {blocks : List Block} {start : Nat} (h : start < blocks.length) :
    start < groupEnd blocks start := by
  have hfirst := List.getElem?_eq_getElem h
  unfold groupEnd
  generalize blocks[start] = first at hfirst
  rw [hfirst]
  cases first with
  | toolResult result =>
    have hpos : 0 < (resultsFrom blocks start).length := length_runFrom hfirst rfl
    dsimp only
    omega
  | userText text => exact Nat.lt_add_of_pos_right (length_runFrom hfirst rfl)
  | media media => exact Nat.lt_add_of_pos_right (length_runFrom hfirst rfl)
  | assistantText text => exact Nat.lt_add_of_pos_right (length_runFrom hfirst rfl)
  | reasoning reasoning => exact Nat.lt_add_of_pos_right (length_runFrom hfirst rfl)
  | toolCall call => exact Nat.lt_add_of_pos_right (length_runFrom hfirst rfl)

end Yuke.Ai.OpenaiChat
