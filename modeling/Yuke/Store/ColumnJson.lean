import Yuke.Engine.TurnState
import Yuke.Protocol.Session
import Yuke.Shared.Serde

/-!
# The JSON of the columns

The serialized form of blocks, of consumed inputs, and of what a frontend shows for a commit.
-/

set_option autoImplicit false

namespace Yuke.Store.ColumnJson

open Yuke.Ai (Blob Block Digest Media Origin Reasoning ReasoningReplay ReplayKind ToolCall
  ToolDefinition ToolResult)
open Yuke.Engine (CallDisplay CommitDisplay DisplayBlock Preview ResultDisplay Subject SubjectKind
  ToolHints)
open Yuke.Protocol (ConsumedInput InputId InputKind InputSource)
open Yuke.Shared (Codec Json)
open Yuke.Shared.Codec

def hexDigits : List Char := "0123456789abcdef".toList

def hex (bytes : List UInt8) : List Char :=
  bytes.flatMap fun byte =>
    [hexDigits.getD (byte.toNat / 16) '0', hexDigits.getD (byte.toNat % 16) '0']

def unhex : List Char → Option (List UInt8)
  | [] => some []
  | [_] => none
  | high :: low :: rest => do
    let h ← Json.hexDigit high
    let l ← Json.hexDigit low
    let more ← unhex rest
    return UInt8.ofNat (h * 16 + l) :: more

def writeDigest (digest : Digest) : String := String.ofList (hex digest.bytes.toList)

def readDigest (text : String) : Option Digest :=
  if text.toList.length ≠ 64 then none
  else (unhex text.toList).bind fun bytes =>
    if h : bytes.length = 32 then some ⟨⟨bytes.toArray, by simpa using h⟩⟩ else none

theorem length_hex (bytes : List UInt8) : (hex bytes).length = 2 * bytes.length := by
  induction bytes with
  | nil => rfl
  | cons byte bytes ih =>
    rw [hex, List.flatMap_cons, List.length_append, ← hex, ih]
    simp only [List.length_cons, List.length_nil]
    omega

theorem hexDigit_hexDigits : ∀ n < 16, Json.hexDigit (hexDigits.getD n '0') = some n := by decide

theorem unhex_hex (bytes : List UInt8) : unhex (hex bytes) = some bytes := by
  induction bytes with
  | nil => rfl
  | cons byte bytes ih =>
    have hlt := byte.toNat_lt
    have hbyte : UInt8.ofNat (byte.toNat / 16 * 16 + byte.toNat % 16) = byte := by
      rw [Nat.div_add_mod']
      exact UInt8.ofNat_toNat
    rw [hex, List.flatMap_cons, ← hex]
    simp only [List.cons_append, List.nil_append, unhex,
      hexDigit_hexDigits (byte.toNat / 16) (by omega), hexDigit_hexDigits (byte.toNat % 16) (by omega),
      ih, Option.bind_eq_bind, Option.bind_some, hbyte]
    rfl

theorem readDigest_writeDigest (digest : Digest) : readDigest (writeDigest digest) = some digest := by
  have hlength : digest.bytes.toList.length = 32 := by simp
  rw [readDigest, writeDigest, String.toList_ofList, length_hex, hlength, if_neg (by decide),
    unhex_hex, Option.bind_some, dif_pos hlength]
  rfl

def digest : Codec Digest := Codec.text.map writeDigest readDigest readDigest_writeDigest

def blob : Codec Blob :=
  .object (fun blob => [member "digest" (digest.write blob.digest),
      member "len" (natural.write blob.len)])
    (fun members => do
      let found ← digest.field "digest" members
      let len ← natural.field "len" members
      return ⟨found, len⟩)
    fun blob => by simp [field]

def media : Codec Media :=
  .object (fun media => [member "blob" (blob.write media.blob), member "mime" (text.write media.mime)] ++
      skip media.filename.isEmpty "filename" (text.write media.filename))
    (fun members => do
      let found ← blob.field "blob" members
      let mime ← text.field "mime" members
      let filename ← text.fieldOr "" "filename" members
      return ⟨found, mime, filename⟩)
    fun media => by
      obtain ⟨found, mime, filename⟩ := media
      by_cases hempty : filename = "" <;> simp [field, fieldOr, skip, hempty]

def toolDefinition : Codec ToolDefinition :=
  .object (fun tool => [member "name" (text.write tool.name),
      member "description" (text.write tool.description),
      member "inputSchema" (text.write tool.inputSchema),
      member "deferLoading" (bool.write tool.deferLoading)])
    (fun members => do
      let name ← text.field "name" members
      let description ← text.field "description" members
      let inputSchema ← text.field "inputSchema" members
      let deferLoading ← bool.field "deferLoading" members
      return ⟨name, description, inputSchema, deferLoading⟩)
    fun tool => by simp [field]

def toolResult : Codec ToolResult :=
  .object (fun result => [member "callId" (text.write result.callId),
      member "content" (text.write result.content), member "isError" (bool.write result.isError)] ++
      skip result.media.isEmpty "media" (media.list.write result.media) ++
      skip result.loaded.isEmpty "loaded" (toolDefinition.list.write result.loaded))
    (fun members => do
      let callId ← text.field "callId" members
      let content ← text.field "content" members
      let isError ← bool.field "isError" members
      let attached ← media.list.fieldOr [] "media" members
      let loaded ← toolDefinition.list.fieldOr [] "loaded" members
      return ⟨callId, content, isError, attached, loaded⟩)
    fun result => by
      obtain ⟨callId, content, isError, attached, loaded⟩ := result
      by_cases hmedia : attached = [] <;> by_cases hloaded : loaded = [] <;>
        simp [field, fieldOr, skip, hmedia, hloaded]

def origin : Codec Origin :=
  .object (fun origin => [member "model" (text.write origin.model),
      member "baseUrl" (text.write origin.baseUrl)])
    (fun members => do
      let model ← text.field "model" members
      let baseUrl ← text.field "baseUrl" members
      return ⟨model, baseUrl⟩)
    fun origin => by simp [field]

def replayName : ReplayKind → String
  | .anthropicSignature => "anthropic_signature"
  | .anthropicRedacted => "anthropic_redacted"
  | .responsesEncrypted => "responses_encrypted"
  | .openrouterDetails => "openrouter_details"

def replayKind : Codec ReplayKind :=
  .named [.anthropicSignature, .anthropicRedacted, .responsesEncrypted, .openrouterDetails]
    replayName (fun kind => by cases kind <;> simp)
    (fun a b h => by cases a <;> cases b <;> first | rfl | simp [replayName] at h)

def reasoningReplay : Codec ReasoningReplay :=
  .object (fun replay => [member "origin" (origin.write replay.origin),
      member "kind" (replayKind.write replay.kind), member "data" (text.write replay.data)])
    (fun members => do
      let origin ← origin.field "origin" members
      let kind ← replayKind.field "kind" members
      let data ← text.field "data" members
      return ⟨origin, kind, data⟩)
    fun replay => by simp [field]

def reasoning : Codec Reasoning :=
  .object (fun reasoning => [member "text" (text.write reasoning.text)] ++
      skip reasoning.replay.isNone "replay"
        ((reasoningReplay.option fun _ => rfl).write reasoning.replay))
    (fun members => do
      let found ← text.field "text" members
      let replay ← (reasoningReplay.option fun _ => rfl).fieldOr none "replay" members
      return ⟨found, replay⟩)
    fun reasoning => by
      obtain ⟨found, replay⟩ := reasoning
      cases replay <;> simp [field, fieldOr, skip]

def toolCall : Codec ToolCall :=
  .object (fun call => [member "callId" (text.write call.callId), member "name" (text.write call.name),
      member "arguments" (text.write call.arguments)])
    (fun members => do
      let callId ← text.field "callId" members
      let name ← text.field "name" members
      let arguments ← text.field "arguments" members
      return ⟨callId, name, arguments⟩)
    fun call => by simp [field]

def block : Codec Block :=
  .object (fun
      | .userText found => [member "user_text" (text.write found)]
      | .media found => [member "media" (media.write found)]
      | .toolResult result => [member "tool_result" (toolResult.write result)]
      | .assistantText found => [member "assistant_text" (text.write found)]
      | .reasoning found => [member "reasoning" (reasoning.write found)]
      | .toolCall call => [member "tool_call" (toolCall.write call)])
    (fun members =>
      match members with
      | [(name, value)] =>
        if name = codesOf "user_text" then (text.read value).map .userText
        else if name = codesOf "media" then (media.read value).map .media
        else if name = codesOf "tool_result" then (toolResult.read value).map .toolResult
        else if name = codesOf "assistant_text" then (text.read value).map .assistantText
        else if name = codesOf "reasoning" then (reasoning.read value).map .reasoning
        else if name = codesOf "tool_call" then (toolCall.read value).map .toolCall
        else none
      | _ => none)
    fun block => by cases block <;> simp [member, codesOf]

def inputId : Codec InputId := natural.map InputId.number (fun n => some ⟨n⟩) fun _ => rfl

def inputSource : Codec InputSource :=
  .object (fun
      | .user => [member "kind" (text.write "user")]
      | .plugin name => [member "kind" (text.write "plugin"), member "name" (text.write name)])
    (fun members => do
      let kind ← text.field "kind" members
      if kind = "user" then return .user
      else if kind = "plugin" then return .plugin (← text.field "name" members)
      else none)
    fun source => by cases source <;> simp [field]

def kindName : InputKind → String
  | .message => "message"
  | .notification => "notification"

def inputKind : Codec InputKind :=
  .named [.message, .notification] kindName (fun kind => by cases kind <;> simp)
    (fun a b h => by cases a <;> cases b <;> first | rfl | simp [kindName] at h)

def consumedInput : Codec ConsumedInput :=
  .object (fun input => [member "id" (inputId.write input.id),
      member "source" (inputSource.write input.source), member "kind" (inputKind.write input.kind)] ++
      skip input.displayContent.isNone "displayContent"
        ((block.list.option fun _ => rfl).write input.displayContent) ++
      [member "blockCount" (natural.write input.blockCount)])
    (fun members => do
      let id ← inputId.field "id" members
      let source ← inputSource.field "source" members
      let kind ← inputKind.field "kind" members
      let displayContent ← (block.list.option fun _ => rfl).fieldOr none "displayContent" members
      let blockCount ← natural.field "blockCount" members
      return ⟨id, source, kind, displayContent, blockCount⟩)
    fun input => by
      obtain ⟨id, source, kind, displayContent, blockCount⟩ := input
      cases displayContent <;> simp [field, fieldOr, skip]

def subjectName : SubjectKind → String
  | .text => "text"
  | .file => "file"
  | .uri => "uri"

def subjectKind : Codec SubjectKind :=
  .named [.text, .file, .uri] subjectName (fun kind => by cases kind <;> simp)
    (fun a b h => by cases a <;> cases b <;> first | rfl | simp [subjectName] at h)

def subject : Codec Subject :=
  .object (fun subject => [member "argument" (text.write subject.argument),
      member "kind" (subjectKind.write subject.kind)])
    (fun members => do
      let argument ← text.field "argument" members
      let kind ← subjectKind.field "kind" members
      return ⟨argument, kind⟩)
    fun subject => by simp [field]

def previewName : Preview → String
  | .head => "head"
  | .tail => "tail"
  | .none => "none"

def preview : Codec Preview :=
  .named [.head, .tail, .none] previewName (fun preview => by cases preview <;> simp)
    (fun a b h => by cases a <;> cases b <;> first | rfl | simp [previewName] at h)

def title : Codec (Option String) := text.option fun _ => rfl

def toolHints : Codec ToolHints :=
  .object (fun hints => [member "title" (title.write hints.title),
      member "subject" ((subject.option fun _ => rfl).write hints.subject),
      member "preview" (preview.write hints.preview)])
    (fun members => do
      let title ← title.fieldOr none "title" members
      let subject ← (subject.option fun _ => rfl).fieldOr none "subject" members
      let preview ← preview.field "preview" members
      return ⟨title, subject, preview⟩)
    fun hints => by simp [field, fieldOr]

def displayBlock : Codec DisplayBlock :=
  .object (fun
      | .markdown found => [member "kind" (text.write "markdown"), member "text" (text.write found)]
      | .diff path patch => [member "kind" (text.write "diff"), member "path" (text.write path),
          member "patch" (text.write patch)])
    (fun members => do
      let kind ← text.field "kind" members
      if kind = "markdown" then return .markdown (← text.field "text" members)
      else if kind = "diff" then
        let path ← text.field "path" members
        return .diff path (← text.field "patch" members)
      else none)
    fun block => by cases block <;> simp [field]

def callDisplay : Codec CallDisplay :=
  .object (fun call => [member "blockIndex" (natural.write call.blockIndex),
      member "hints" (toolHints.write call.hints), member "folder" (title.write call.folder)])
    (fun members => do
      let blockIndex ← natural.field "blockIndex" members
      let hints ← toolHints.field "hints" members
      let folder ← title.fieldOr none "folder" members
      return ⟨blockIndex, hints, folder⟩)
    fun call => by simp [field, fieldOr]

def resultDisplay : Codec ResultDisplay :=
  .object (fun result => [member "blockIndex" (natural.write result.blockIndex),
      member "blocks" (displayBlock.list.write result.blocks)] ++
      skip result.durationMs.isNone "durationMs" ((natural.option fun _ => rfl).write result.durationMs))
    (fun members => do
      let blockIndex ← natural.field "blockIndex" members
      let blocks ← displayBlock.list.field "blocks" members
      let durationMs ← (natural.option fun _ => rfl).fieldOr none "durationMs" members
      return ⟨blockIndex, blocks, durationMs⟩)
    fun result => by
      obtain ⟨blockIndex, blocks, durationMs⟩ := result
      cases durationMs <;> simp [field, fieldOr, skip]

def commitDisplay : Codec CommitDisplay :=
  .object (fun display => [member "calls" (callDisplay.list.write display.calls),
      member "results" (resultDisplay.list.write display.results)])
    (fun members => do
      let calls ← callDisplay.list.field "calls" members
      let results ← resultDisplay.list.field "results" members
      return ⟨calls, results⟩)
    fun display => by simp [field]

end Yuke.Store.ColumnJson
