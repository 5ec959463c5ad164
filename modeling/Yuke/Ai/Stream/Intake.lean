import Yuke.Ai.Stream.OpenaiResponses
import Yuke.Ai.Stream.Sse

/-!
# The limits of a stream

A stream reads its chunks line by line, and its reducer decodes each payload. In every state of a run
the differences that the code takes without a check are not below zero, and what the stream keeps is
within its limits.
-/

set_option autoImplicit false

namespace Yuke.Ai

/-- What stops a checked reader: a size bound, or a difference below zero. -/
inductive ReadFault where
  | tooLarge
  | underflow
  deriving DecidableEq

def checkedSub (a b : Nat) : Except ReadFault Nat :=
  if b ≤ a then .ok (a - b) else .error .underflow

def asRead {α : Type} : Except TooLarge α → Except ReadFault α
  | .ok a => .ok a
  | .error _ => .error .tooLarge

namespace Sse

def checkedConsume (sse : Sse) (count : Nat) : Except ReadFault Sse := do
  let left ← checkedSub sse.maxTotal sse.total
  if count > left then .error .tooLarge
  else .ok { sse with total := sse.total + count, rest := sse.rest.drop count }

def checkedSkipLf (sse : Sse) : Except ReadFault Sse :=
  if sse.sawCr then
    let sse := { sse with sawCr := false }
    if sse.rest.head? = some lf then sse.checkedConsume 1 else .ok sse
  else
    .ok sse

def checkedScanLine (ended : Bool) (sse : Sse) : Except ReadFault (Line × Sse) := do
  let stop := sse.rest.findIdx isBreak
  let left ← checkedSub sse.maxEvent sse.line.length
  if stop > left then .error .tooLarge
  else
    match sse.rest[stop]? with
    | none => do
      let sse ← { sse with line := sse.line ++ sse.rest }.checkedConsume stop
      return (sse.outOfBytes ended, sse)
    | some terminator => do
      let text := sse.rest.take stop
      let sse ← { sse with sawCr := terminator = cr }.checkedConsume (stop + 1)
      if sse.line.isEmpty then return (.inChunk text, sse)
      else return (.copied, { sse with line := sse.line ++ text })

def checkedReadLine (ended : Bool) (sse : Sse) : Except ReadFault (Line × Sse) :=
  if sse.rest.isEmpty then .ok (sse.outOfBytes ended, sse)
  else do
    let sse ← sse.checkedSkipLf
    if sse.rest.isEmpty then return (sse.outOfBytes ended, sse)
    else sse.checkedScanLine ended

def checkedAddLine (sse : Sse) (line : Bytes) : Except ReadFault (Bool × Sse) :=
  let line := if sse.atStart then stripPrefix bom line else line
  let sse := { sse with atStart := false }
  if line.isEmpty then .ok (sse.dataSeen, sse)
  else if line.head? = some colon then .ok (false, sse)
  else
    let field := fieldOf line
    if field.1 = dataName then do
      let value := stripPrefix [space] field.2
      let separator := if sse.dataSeen then [lf] else []
      let left ← checkedSub sse.maxEvent sse.data.length
      if separator.length + value.length > left then .error .tooLarge
      else .ok (false, { sse with data := sse.data ++ separator ++ value, dataSeen := true })
    else
      .ok (false, sse)

/-- One turn of the loop of `next`, with checked differences. -/
def checkedNextLine (ended : Bool) (sse : Sse) : Except ReadFault (Option Step × Sse) := do
  match ← sse.checkedReadLine ended with
  | (.needMore, sse) => return (some .needMore, sse)
  | (.end, sse) =>
    return (some (if sse.dataSeen then .payload else .end), { sse with cut := sse.dataSeen })
  | (.inChunk line, sse) =>
    let (payload, sse) ← sse.checkedAddLine line
    return (if payload then some .payload else none, sse)
  | (.copied, sse) =>
    let (payload, sse) ← sse.checkedAddLine sse.line
    return (if payload then some .payload else none, { sse with line := [] })

/-! ## What the reader keeps -/

/-- The reader keeps its limits. The payloads so far took `heard` bytes of the total, beside the line
and the data. -/
structure Kept (limits : ResponseLimits) (heard : Nat) (sse : Sse) : Prop where
  maxTotal : sse.maxTotal = limits.maxResponseBytes
  maxEvent : sse.maxEvent = limits.maxEventBytes
  line : sse.line.length ≤ sse.maxEvent
  data : sse.data.length ≤ sse.maxEvent
  total : sse.total ≤ sse.maxTotal
  counted : heard + sse.data.length + sse.line.length ≤ sse.total

section Reads

variable {limits : ResponseLimits} {heard : Nat} {ended : Bool} {sse sse' : Sse}

theorem kept_new (limits : ResponseLimits) : (Sse.new limits).Kept limits 0 where
  maxTotal := rfl
  maxEvent := rfl
  line := Nat.zero_le _
  data := Nat.zero_le _
  total := Nat.zero_le _
  counted := Nat.le_refl _

theorem Kept.feed (h : sse.Kept limits heard) (chunk : Bytes) : (sse.feed chunk).Kept limits heard :=
  ⟨h.maxTotal, h.maxEvent, h.line, h.data, h.total, h.counted⟩

theorem Kept.takePayload (h : sse.Kept limits heard) :
    sse.takePayload.2.Kept limits (heard + sse.data.length) :=
  ⟨h.maxTotal, h.maxEvent, h.line, Nat.zero_le _, h.total, h.counted⟩

theorem consume_le {count : Nat} (hle : sse.total ≤ sse.maxTotal)
    (h : sse.consume count = .ok sse') : sse.total + count ≤ sse.maxTotal := by
  unfold consume at h
  split at h
  · cases h
  · omega

theorem checkedConsume_eq (hle : sse.total ≤ sse.maxTotal) (count : Nat) :
    sse.checkedConsume count = asRead (sse.consume count) := by
  unfold checkedConsume checkedSub consume
  rw [if_pos hle]
  change (if count > sse.maxTotal - sse.total then _ else _) = _
  split
  · rfl
  · rfl

theorem checkedSkipLf_eq (h : sse.total ≤ sse.maxTotal) :
    sse.checkedSkipLf = asRead sse.skipLf := by
  unfold checkedSkipLf skipLf
  split
  · dsimp only
    split
    · exact @checkedConsume_eq { sse with sawCr := false } h 1
    · rfl
  · rfl

theorem Kept.skipLf (h : sse.Kept limits heard) (hskip : sse.skipLf = .ok sse') :
    sse'.Kept limits heard := by
  unfold Sse.skipLf at hskip
  split at hskip
  · dsimp only at hskip
    split at hskip
    · have hle := @consume_le { sse with sawCr := false } sse' 1 h.total hskip
      have hcounted := h.counted
      rw [consume_ok hskip]
      exact ⟨h.maxTotal, h.maxEvent, h.line, h.data, hle, hcounted.trans (Nat.le_succ _)⟩
    · cases hskip
      exact ⟨h.maxTotal, h.maxEvent, h.line, h.data, h.total, h.counted⟩
  · cases hskip
    exact h

theorem checkedScanLine_eq (h : sse.Kept limits heard) :
    sse.checkedScanLine ended = asRead (sse.scanLine ended) := by
  unfold checkedScanLine scanLine checkedSub
  rw [if_pos h.line]
  change (if sse.rest.findIdx isBreak > sse.maxEvent - sse.line.length then _ else _) =
    asRead (if sse.rest.findIdx isBreak > sse.maxEvent - sse.line.length then _ else _)
  by_cases hlarge : sse.rest.findIdx isBreak > sse.maxEvent - sse.line.length
  · rw [if_pos hlarge, if_pos hlarge]
    rfl
  · rw [if_neg hlarge, if_neg hlarge]
    cases hstop : sse.rest[sse.rest.findIdx isBreak]? with
    | none =>
      dsimp only
      have hconsume := @checkedConsume_eq { sse with line := sse.line ++ sse.rest } h.total
        (sse.rest.findIdx isBreak)
      rw [hconsume]
      cases ({ sse with line := sse.line ++ sse.rest } : Sse).consume (sse.rest.findIdx isBreak) with
      | error error => rfl
      | ok copied => rfl
    | some terminator =>
      dsimp only
      have hconsume := @checkedConsume_eq { sse with sawCr := terminator = cr } h.total
        (sse.rest.findIdx isBreak + 1)
      rw [hconsume]
      cases ({ sse with sawCr := terminator = cr } : Sse).consume (sse.rest.findIdx isBreak + 1) with
      | error error => rfl
      | ok taken =>
        change (if taken.line.isEmpty then _ else _) = asRead (if taken.line.isEmpty then _ else _)
        split
        · rfl
        · rfl

def FoundKept (limits : ResponseLimits) (heard : Nat) (line : Line) (sse : Sse) : Prop :=
  sse.Kept limits heard ∧
    ∀ text, line = .inChunk text → heard + sse.data.length + sse.line.length + text.length ≤ sse.total

theorem Kept.outOfBytes (h : sse.Kept limits heard) (ended : Bool) :
    FoundKept limits heard (sse.outOfBytes ended) sse := by
  refine ⟨h, fun text htext => ?_⟩
  unfold Sse.outOfBytes at htext
  split at htext
  · split at htext
    · cases htext
    · cases htext
  · cases htext

theorem Kept.scanLine {line : Line} (h : sse.Kept limits heard)
    (hscan : sse.scanLine ended = .ok (line, sse')) : FoundKept limits heard line sse' := by
  have hcounted := h.counted
  have hline := h.line
  unfold Sse.scanLine at hscan
  dsimp only at hscan
  split at hscan
  · cases hscan
  next hevent =>
  cases hstop : sse.rest[sse.rest.findIdx isBreak]? with
  | none =>
    rw [hstop] at hscan
    have hlength : sse.rest.length ≤ sse.rest.findIdx isBreak := List.getElem?_eq_none_iff.mp hstop
    obtain ⟨copied, hconsume, hpair⟩ := bind_eq_ok.mp hscan
    cases hpair
    have hle := @consume_le { sse with line := sse.line ++ sse.rest } _ _ h.total hconsume
    dsimp only at hle
    have hcopied := consume_ok hconsume
    have hkept : sse'.Kept limits heard := by
      rw [hcopied]
      constructor
      · exact h.maxTotal
      · exact h.maxEvent
      · simp only [List.length_append]
        omega
      · exact h.data
      · exact hle
      · simp only [List.length_append]
        omega
    exact hkept.outOfBytes ended
  | some terminator =>
    rw [hstop] at hscan
    obtain ⟨hlt, -⟩ := List.getElem?_eq_some_iff.mp hstop
    obtain ⟨taken, hconsume, hpair⟩ := bind_eq_ok.mp hscan
    have hle := @consume_le { sse with sawCr := terminator = cr } _ _ h.total hconsume
    dsimp only at hle
    have htaken := consume_ok hconsume
    have htext : (sse.rest.take (sse.rest.findIdx isBreak)).length ≤ sse.rest.findIdx isBreak :=
      List.length_take_le _ _
    split at hpair
    · cases hpair
      rw [htaken]
      constructor
      · exact ⟨h.maxTotal, h.maxEvent, hline, h.data, hle, by dsimp only; omega⟩
      · intro text hfound
        cases hfound
        dsimp only
        omega
    · cases hpair
      rw [htaken]
      constructor
      · constructor
        · exact h.maxTotal
        · exact h.maxEvent
        · simp only [List.length_append]
          omega
        · exact h.data
        · exact hle
        · simp only [List.length_append]
          omega
      · intro text hfound
        cases hfound

theorem checkedReadLine_eq (h : sse.Kept limits heard) :
    sse.checkedReadLine ended = asRead (sse.readLine ended) := by
  unfold checkedReadLine readLine
  split
  · rfl
  · rw [checkedSkipLf_eq h.total]
    cases hskip : sse.skipLf with
    | error error => rfl
    | ok skipped =>
      have hscan := @checkedScanLine_eq limits heard ended skipped (h.skipLf hskip)
      change (if skipped.rest.isEmpty then _ else _) = asRead (if skipped.rest.isEmpty then _ else _)
      split
      · rfl
      · exact hscan

theorem Kept.readLine {line : Line} (h : sse.Kept limits heard)
    (hread : sse.readLine ended = .ok (line, sse')) : FoundKept limits heard line sse' := by
  unfold Sse.readLine at hread
  split at hread
  · cases hread
    exact h.outOfBytes ended
  · obtain ⟨skipped, hskip, hrest⟩ := bind_eq_ok.mp hread
    have hkept := h.skipLf hskip
    split at hrest
    · cases hrest
      exact hkept.outOfBytes ended
    · exact hkept.scanLine hrest

theorem checkedAddLine_eq (hdata : sse.data.length ≤ sse.maxEvent) (text : Bytes) :
    sse.checkedAddLine text = asRead (sse.addLine text) := by
  unfold checkedAddLine addLine checkedSub
  generalize (if sse.atStart then stripPrefix bom text else text) = line
  dsimp only
  generalize (if sse.dataSeen then [lf] else []) = separator
  split
  · rfl
  split
  · rfl
  split
  · change (if _ > sse.maxEvent - sse.data.length then _ else _) =
      asRead (if _ > sse.maxEvent - sse.data.length then _ else _)
    split
    · rfl
    · rfl
  · rfl

theorem stripPrefix_length (start line : Bytes) : (stripPrefix start line).length ≤ line.length := by
  unfold stripPrefix
  split
  · rw [List.length_drop]
    exact Nat.sub_le _ _
  · exact Nat.le_refl _

theorem fieldOf_length {line : Bytes} (h : (fieldOf line).1 = dataName) :
    (fieldOf line).2.length + 1 ≤ line.length := by
  unfold fieldOf at h ⊢
  split at h
  · next position _ =>
    have hlength := congrArg List.length h
    change (line.take position).length = 4 at hlength
    rw [List.length_take] at hlength
    simp only [List.length_drop]
    omega
  · have hlength := congrArg List.length h
    change line.length = 4 at hlength
    simp only [List.length_nil]
    omega

theorem addLine_bytes {text : Bytes} {payload : Bool} (hdata : sse.data.length ≤ sse.maxEvent)
    (h : sse.addLine text = .ok (payload, sse')) :
    sse'.maxTotal = sse.maxTotal ∧ sse'.maxEvent = sse.maxEvent ∧ sse'.total = sse.total ∧
      sse'.data.length ≤ sse.maxEvent ∧ sse'.data.length ≤ sse.data.length + text.length := by
  have hline : (if sse.atStart then stripPrefix bom text else text).length ≤ text.length := by
    split
    · exact stripPrefix_length _ _
    · exact Nat.le_refl _
  have hseparator : (if sse.dataSeen then [lf] else []).length ≤ 1 := by
    split
    · exact Nat.le_refl _
    · exact Nat.zero_le _
  unfold addLine at h
  generalize (if sse.atStart then stripPrefix bom text else text) = line at h hline
  dsimp only at h
  generalize (if sse.dataSeen then [lf] else []) = separator at h hseparator
  split at h
  · cases h
    exact ⟨rfl, rfl, rfl, hdata, Nat.le_add_right _ _⟩
  split at h
  · cases h
    exact ⟨rfl, rfl, rfl, hdata, Nat.le_add_right _ _⟩
  split at h
  · next hname =>
    have hvalue := stripPrefix_length [space] (fieldOf line).2
    have hfield := fieldOf_length hname
    split at h
    · cases h
    · cases h
      refine ⟨rfl, rfl, rfl, ?_, ?_⟩
      · simp only [List.length_append]
        omega
      · simp only [List.length_append]
        omega
  · cases h
    exact ⟨rfl, rfl, rfl, hdata, Nat.le_add_right _ _⟩

theorem Kept.addLine {text : Bytes} {payload : Bool} (h : sse.Kept limits heard)
    (hadd : sse.addLine text = .ok (payload, sse')) (line : Bytes)
    (hline : line.length ≤ sse.line.length)
    (hcounted : heard + sse.data.length + line.length + text.length ≤ sse.total) :
    ({ sse' with line := line } : Sse).Kept limits heard := by
  obtain ⟨htotal, hevent, hused, hdata, hmore⟩ := addLine_bytes h.data hadd
  have hfits := h.line
  constructor
  · exact htotal.trans h.maxTotal
  · exact hevent.trans h.maxEvent
  · dsimp only
    omega
  · dsimp only
    omega
  · dsimp only
    rw [htotal, hused]
    exact h.total
  · dsimp only
    omega

theorem checkedNextLine_eq (h : sse.Kept limits heard) :
    sse.checkedNextLine ended = asRead (sse.nextLine ended) := by
  unfold checkedNextLine nextLine
  rw [checkedReadLine_eq h]
  cases hread : sse.readLine ended with
  | error error => rfl
  | ok found =>
    obtain ⟨line, read⟩ := found
    have hadd := checkedAddLine_eq (h.readLine hread).1.data
    cases line with
    | needMore => rfl
    | «end» => rfl
    | inChunk text =>
      simp only [asRead, bind, Except.bind]
      rw [hadd text]
      cases read.addLine text with
      | error error => rfl
      | ok added => rfl
    | copied =>
      simp only [asRead, bind, Except.bind]
      rw [hadd read.line]
      cases read.addLine read.line with
      | error error => rfl
      | ok added => rfl

theorem Kept.nextLine {step : Option Step} (h : sse.Kept limits heard)
    (hnext : sse.nextLine ended = .ok (step, sse')) : sse'.Kept limits heard := by
  unfold Sse.nextLine at hnext
  obtain ⟨⟨line, read⟩, hread, hrest⟩ := bind_eq_ok.mp hnext
  obtain ⟨hkept, hfound⟩ := h.readLine hread
  cases line with
  | needMore =>
    cases hrest
    exact hkept
  | «end» =>
    cases hrest
    exact ⟨hkept.maxTotal, hkept.maxEvent, hkept.line, hkept.data, hkept.total, hkept.counted⟩
  | inChunk text =>
    obtain ⟨⟨payload, added⟩, hadd, hlast⟩ := bind_eq_ok.mp hrest
    cases hlast
    have hsame := (addLine_frame hadd).1
    have hadded := hkept.addLine hadd read.line (Nat.le_refl _) (hfound text rfl)
    rw [← hsame] at hadded
    exact hadded
  | copied =>
    obtain ⟨⟨payload, added⟩, hadd, hlast⟩ := bind_eq_ok.mp hrest
    cases hlast
    have hcounted := hkept.counted
    exact hkept.addLine hadd [] (Nat.zero_le _) (by simpa using hcounted)

end Reads

end Sse

/-! ## The reducers of the protocols -/

/-- The readers of `serde_json`, and the text of a float. -/
structure Readers where
  blockDelta : String → Option AnthropicStream.BlockDelta
  chunk : String → Option OpenaiChatStream.Chunk
  deltaEvent : String → Option OpenaiResponsesStream.DeltaEvent
  parse : String → Option Value
  floatText : String → String

namespace Readers

def anthropic (readers : Readers) : AnthropicStream.PayloadReader where
  blockDelta := readers.blockDelta
  parse := readers.parse

def chat (readers : Readers) : OpenaiChatStream.PayloadReader where
  chunk := readers.chunk
  parse := readers.parse

def responses (readers : Readers) : OpenaiResponsesStream.PayloadReader where
  deltaEvent := readers.deltaEvent
  parse := readers.parse
  floatText := readers.floatText

structure Lawful (readers : Readers) : Prop where
  anthropic : readers.anthropic.Lawful
  chat : readers.chat.Lawful
  responses : readers.responses.Lawful

end Readers

inductive Reducer where
  | anthropic (reducer : AnthropicStream.Reducer)
  | chat (reducer : OpenaiChatStream.Reducer)
  | responses (reducer : OpenaiResponsesStream.Reducer)

namespace Reducer

def new (protocol : Protocol) (origin : Origin) (limits : ResponseLimits) : Reducer :=
  match protocol with
  | .anthropicMessages => .anthropic (.new origin limits)
  | .openaiChat => .chat (.new origin limits)
  | .openaiResponses => .responses (.new origin limits)

def protocol : Reducer → Protocol
  | .anthropic _ => .anthropicMessages
  | .chat _ => .openaiChat
  | .responses _ => .openaiResponses

def draft : Reducer → Draft
  | .anthropic reducer => reducer.draft
  | .chat reducer => reducer.draft
  | .responses reducer => reducer.draft

def clearEvents : Reducer → Reducer
  | .anthropic reducer => .anthropic { reducer with draft := reducer.draft.clearEvents }
  | .chat reducer => .chat { reducer with draft := reducer.draft.clearEvents }
  | .responses reducer => .responses { reducer with draft := reducer.draft.clearEvents }

/-- Decode one payload into the draft events, or name the provider failure of an error event. -/
def decode (readers : Readers) (reducer : Reducer) (data : String) :
    Except Halt (Reducer × Option ProviderKind) :=
  match reducer with
  | .anthropic reducer => do
    let out ← reducer.decode readers.anthropic data
    pure (.anthropic out.1, out.2)
  | .chat reducer => do
    let out ← reducer.decode readers.chat data
    pure (.chat out.1, out.2)
  | .responses reducer => do
    let out ← reducer.decode readers.responses data
    pure (.responses out.1, out.2)

def items : Reducer → Nat
  | .anthropic reducer => reducer.slots.length
  | .chat reducer => reducer.details.length
  | .responses reducer => reducer.outputs.size

/-- The text of the merged entries, which become the state of a block at the end. -/
def entryBytes : Reducer → Nat
  | .chat reducer => OpenaiChatStream.detailBytes reducer.details
  | .anthropic _ | .responses _ => 0

/-- The reducer keeps its bounds after payloads of `heard` bytes. -/
def Kept (limits : ResponseLimits) (heard : Nat) : Reducer → Prop
  | .anthropic reducer => reducer.Kept limits heard
  | .chat reducer => reducer.Kept limits limits.maxEventBytes heard ∧
      (reducer.draft.done = false → reducer.Kept limits 0 heard)
  | .responses reducer => reducer.Kept limits heard

section Decodes

variable {limits : ResponseLimits} {heard : Nat} {readers : Readers} {reducer : Reducer}

theorem bounded_new (origin : Origin) (limits : ResponseLimits) :
    ({ origin := origin, limits := limits } : Draft).Bounded 0 where
  count := Nat.zero_le _
  bytes := fun _ hblock => nomatch hblock

theorem kept_new (protocol : Protocol) (origin : Origin) (limits : ResponseLimits) :
    (new protocol origin limits).Kept limits 0 := by
  cases protocol with
  | anthropicMessages =>
    constructor
    · exact rfl
    · exact bounded_new origin limits
    · exact Nat.zero_le _
    · exact fun id hid => nomatch hid
  | openaiChat =>
    have hkept : (OpenaiChatStream.Reducer.new origin limits).Kept limits 0 0 := by
      constructor
      · exact rfl
      · exact bounded_new origin limits
      · exact fun kind id hid => nomatch hid
      · exact fun tool htool => nomatch htool
      · exact ⟨Nat.zero_le _, Nat.le_refl _⟩
    exact ⟨hkept.mono (Nat.zero_le _) (Nat.le_refl _), fun _ => hkept⟩
  | openaiResponses =>
    constructor
    · exact rfl
    · exact bounded_new origin limits
    · exact Std.HashMap.size_empty.trans_le (Nat.zero_le _)
    · intro index output houtput
      have hempty : (∅ : Std.HashMap Nat OpenaiResponsesStream.Output)[index]? = some output := houtput
      rw [Std.HashMap.getElem?_empty] at hempty
      cases hempty

theorem protocol_clearEvents (reducer : Reducer) : reducer.clearEvents.protocol = reducer.protocol := by
  cases reducer <;> rfl

theorem done_clearEvents (reducer : Reducer) :
    reducer.clearEvents.draft.done = reducer.draft.done := by
  cases reducer <;> rfl

theorem pendingBytes_clearEvents (reducer : Reducer) :
    reducer.clearEvents.draft.pendingBytes = 0 := by
  cases reducer <;> rfl

theorem bounded_clearEvents {draft : Draft} {state : Nat} (h : draft.Bounded state) :
    draft.clearEvents.Bounded state := ⟨h.count, h.bytes⟩

theorem chat_clearEvents {state : Nat} {reducer : OpenaiChatStream.Reducer}
    (h : reducer.Kept limits state heard) :
    ({ reducer with draft := reducer.draft.clearEvents } : OpenaiChatStream.Reducer).Kept limits
      state heard :=
  ⟨h.limits_eq, bounded_clearEvents h.bounded, h.channels, h.tools, h.details⟩

theorem Kept.clearEvents (h : reducer.Kept limits heard) :
    reducer.clearEvents.Kept limits heard := by
  cases reducer with
  | anthropic reducer => exact ⟨h.limits_eq, bounded_clearEvents h.bounded, h.slots, h.ids⟩
  | chat reducer => exact ⟨chat_clearEvents h.1, fun hgoing => chat_clearEvents (h.2 hgoing)⟩
  | responses reducer => exact ⟨h.limits_eq, bounded_clearEvents h.bounded, h.outputs, h.fits⟩

structure Decoded (limits : ResponseLimits) (heard bytes : Nat) (reducer out : Reducer) : Prop where
  protocol : out.protocol = reducer.protocol
  kept : out.Kept limits (heard + bytes)
  pending : out.draft.pendingBytes ≤ reducer.draft.pendingBytes + bytes

theorem ensures_decode (hreaders : readers.Lawful) (h : reducer.Kept limits heard)
    (hgoing : reducer.draft.done = false) (data : String) :
    Ensures (fun out => Decoded limits heard data.utf8ByteSize reducer out.1)
      (reducer.decode readers data) := by
  cases reducer with
  | anthropic reducer =>
    apply (AnthropicStream.Reducer.ensures_decode hreaders.anthropic h data).bind
    exact fun out hout => ⟨rfl, hout.kept, hout.pending⟩
  | chat reducer =>
    apply (OpenaiChatStream.Reducer.ensures_decode hreaders.chat (h.2 hgoing) data).bind
    exact fun out hout => ⟨rfl, ⟨hout.kept, hout.going⟩, hout.pending⟩
  | responses reducer =>
    apply (OpenaiResponsesStream.Reducer.ensures_decode hreaders.responses h data).bind
    exact fun out hout => ⟨rfl, hout.kept, hout.pending⟩

end Decodes

end Reducer

/-! ## The run of a stream -/

/-- The part of a stream that reads. `found` is what the last line ended: nothing yet, a payload, or
the bytes at hand. -/
structure Intake where
  parser : Sse
  reducer : Reducer
  bodyEnded : Bool := false
  found : Option Step := none

namespace Intake

def new (protocol : Protocol) (origin : Origin) (limits : ResponseLimits) : Intake where
  parser := Sse.new limits
  reducer := Reducer.new protocol origin limits

def payload? (intake : Intake) : Option String := String.fromUTF8? ⟨intake.parser.data.toArray⟩

inductive Next (readers : Readers) : Intake → Intake → Prop where
  | line {intake : Intake} {step : Option Step} {parser : Sse} (hfound : intake.found = none)
      (hgoing : intake.reducer.draft.done = false)
      (hline : intake.parser.nextLine intake.bodyEnded = .ok (step, parser)) :
      Next readers intake { intake with parser := parser, found := step }
  | chunk {intake : Intake} (hfound : intake.found = some .needMore) (bytes : Bytes) :
      Next readers intake { intake with parser := intake.parser.feed bytes, found := none }
  | bodyEnd {intake : Intake} (hfound : intake.found = some .needMore) :
      Next readers intake { intake with bodyEnded := true, found := none }
  | payload {intake : Intake} {data : String} {reducer : Reducer}
      (hfound : intake.found = some .payload) (hdata : intake.payload? = some data)
      (hdecode : intake.reducer.clearEvents.decode readers data = .ok (reducer, none)) :
      Next readers intake { intake with
        parser := intake.parser.takePayload.2
        reducer := reducer
        found := none }

def Reached (readers : Readers) (protocol : Protocol) (origin : Origin) (limits : ResponseLimits) :
    Intake → Prop :=
  Relation.ReflTransGen (Next readers) (new protocol origin limits)

/-- What the run keeps: the payloads so far took `heard` bytes. -/
structure Kept (protocol : Protocol) (limits : ResponseLimits) (heard : Nat) (intake : Intake) :
    Prop where
  protocol_eq : intake.reducer.protocol = protocol
  parser : intake.parser.Kept limits heard
  reducer : intake.reducer.Kept limits heard
  pending : intake.reducer.draft.pendingBytes ≤ limits.maxEventBytes
  going : intake.found ≠ none → intake.reducer.draft.done = false

section Runs

variable {readers : Readers} {protocol : Protocol} {origin : Origin} {limits : ResponseLimits}
  {heard : Nat} {intake : Intake}

theorem kept_new (protocol : Protocol) (origin : Origin) (limits : ResponseLimits) :
    (new protocol origin limits).Kept protocol limits 0 where
  protocol_eq := by cases protocol <;> rfl
  parser := Sse.kept_new limits
  reducer := Reducer.kept_new protocol origin limits
  pending := by cases protocol <;> exact Nat.zero_le _
  going := fun hfound => absurd rfl hfound

theorem payload?_size {data : String} (h : intake.payload? = some data) :
    data.utf8ByteSize = intake.parser.data.length := by
  unfold payload? String.fromUTF8? at h
  split at h
  · cases h
    exact List.size_toArray
  · cases h

theorem Kept.next {after : Intake} (hreaders : readers.Lawful)
    (h : intake.Kept protocol limits heard) (hnext : Next readers intake after) :
    ∃ heard', after.Kept protocol limits heard' := by
  cases hnext with
  | line hfound hgoing hline =>
    exact ⟨heard, h.protocol_eq, h.parser.nextLine hline, h.reducer, h.pending, fun _ => hgoing⟩
  | chunk hfound bytes =>
    exact ⟨heard, h.protocol_eq, h.parser.feed bytes, h.reducer, h.pending, fun hno => absurd rfl hno⟩
  | bodyEnd hfound =>
    exact ⟨heard, h.protocol_eq, h.parser, h.reducer, h.pending, fun hno => absurd rfl hno⟩
  | @payload data reducer hfound hdata hdecode =>
    have hgoing : intake.reducer.clearEvents.draft.done = false := by
      rw [Reducer.done_clearEvents]
      apply h.going
      rw [hfound]
      exact Option.some_ne_none _
    have hdecoded := (Reducer.ensures_decode hreaders h.reducer.clearEvents hgoing data).of_ok hdecode
    have hpending := hdecoded.pending
    have hdata' := h.parser.data
    rw [h.parser.maxEvent, ← payload?_size hdata] at hdata'
    rw [Reducer.pendingBytes_clearEvents, Nat.zero_add] at hpending
    refine ⟨heard + data.utf8ByteSize, ?_, ?_, hdecoded.kept, hpending.trans hdata',
      fun hno => absurd rfl hno⟩
    · exact hdecoded.protocol.trans ((Reducer.protocol_clearEvents _).trans h.protocol_eq)
    · rw [payload?_size hdata]
      exact h.parser.takePayload

theorem Reached.kept (hreaders : readers.Lawful) (h : Reached readers protocol origin limits intake) :
    ∃ heard, intake.Kept protocol limits heard := by
  induction h with
  | refl => exact ⟨0, kept_new protocol origin limits⟩
  | tail _ hnext ih =>
    obtain ⟨heard, hkept⟩ := ih
    exact hkept.next hreaders hnext

end Runs

/-- The bound of the state of a block that holds no arguments. The entries of Chat Completions return
in one message, so they have the bound of one event. -/
def stateLimit (limits : ResponseLimits) : Protocol → Nat
  | .openaiChat => limits.maxEventBytes
  | .anthropicMessages | .openaiResponses => limits.maxResponseBytes

structure Within (protocol : Protocol) (limits : ResponseLimits) (intake : Intake) : Prop where
  line : intake.parser.line.length ≤ limits.maxEventBytes
  data : intake.parser.data.length ≤ limits.maxEventBytes
  total : intake.parser.total ≤ limits.maxResponseBytes
  arguments : ∀ block ∈ intake.reducer.draft.blocks, block.kind = .toolCall →
    block.bytes.utf8ByteSize ≤ limits.maxToolArgBytes
  state : ∀ block ∈ intake.reducer.draft.blocks, block.kind ≠ .toolCall →
    block.bytes.utf8ByteSize ≤ stateLimit limits protocol
  entries : intake.reducer.entryBytes ≤ limits.maxResponseBytes
  deltas : intake.reducer.draft.pendingBytes ≤ limits.maxEventBytes
  blocks : intake.reducer.draft.blocks.length ≤ limits.maxBlocks
  items : intake.reducer.items ≤ limits.maxBlocks

/-- The next step takes no difference below zero: the checked reader does what the reader does, and no
decode of a payload panics. -/
structure NoUnderflow (readers : Readers) (intake : Intake) : Prop where
  read : intake.parser.checkedNextLine intake.bodyEnded =
    asRead (intake.parser.nextLine intake.bodyEnded)
  decode : intake.found = some .payload → ∀ data, intake.payload? = some data →
    intake.reducer.clearEvents.decode readers data ≠ .error .panics

theorem stateLimit_le {limits : ResponseLimits} {heard : Nat} {reducer : Reducer}
    (h : reducer.Kept limits heard) (hheard : heard ≤ limits.maxResponseBytes) :
    reducer.draft.limits = limits ∧ reducer.draft.Bounded (stateLimit limits reducer.protocol) ∧
      reducer.entryBytes ≤ limits.maxResponseBytes ∧ reducer.items ≤ limits.maxBlocks := by
  cases reducer with
  | anthropic reducer => exact ⟨h.limits_eq, h.bounded.mono hheard, Nat.zero_le _, h.slots⟩
  | chat reducer =>
    exact ⟨h.1.limits_eq, h.1.bounded, h.1.details.bytes.trans hheard, h.1.details.count⟩
  | responses reducer => exact ⟨h.limits_eq, h.bounded.mono hheard, Nat.zero_le _, h.outputs⟩

theorem Kept.within {protocol : Protocol} {limits : ResponseLimits} {heard : Nat} {intake : Intake}
    (h : intake.Kept protocol limits heard) : intake.Within protocol limits := by
  have hline := h.parser.line
  have hdata := h.parser.data
  have htotal := h.parser.total
  have hcounted := h.parser.counted
  rw [h.parser.maxEvent] at hline hdata
  rw [h.parser.maxTotal] at htotal
  obtain ⟨hlimits, hbounded, hentries, hitems⟩ := stateLimit_le h.reducer (by omega)
  have hcount := hbounded.count
  rw [hlimits] at hcount
  rw [h.protocol_eq] at hbounded
  constructor
  · exact hline
  · exact hdata
  · exact htotal
  · intro block hblock hkind
    have hbytes := hbounded.bytes block hblock
    rw [hlimits, ResponseLimits.blockBound, if_pos hkind] at hbytes
    exact hbytes
  · intro block hblock hkind
    have hbytes := hbounded.bytes block hblock
    rw [ResponseLimits.blockBound, if_neg hkind] at hbytes
    exact hbytes
  · exact hentries
  · exact h.pending
  · exact hcount
  · exact hitems

theorem Kept.noUnderflow {readers : Readers} {protocol : Protocol} {limits : ResponseLimits}
    {heard : Nat} {intake : Intake} (hreaders : readers.Lawful)
    (h : intake.Kept protocol limits heard) : intake.NoUnderflow readers := by
  constructor
  · exact Sse.checkedNextLine_eq h.parser
  · intro hfound data _
    have hgoing : intake.reducer.clearEvents.draft.done = false := by
      rw [Reducer.done_clearEvents]
      apply h.going
      rw [hfound]
      exact Option.some_ne_none _
    exact (Reducer.ensures_decode hreaders h.reducer.clearEvents hgoing data).not_panics

/-- In every state of every run the differences of the stream are not below zero, and what the stream
keeps is within its limits. -/
theorem limits_hold {readers : Readers} (hreaders : readers.Lawful) {protocol : Protocol}
    {origin : Origin} {limits : ResponseLimits} {intake : Intake}
    (h : Reached readers protocol origin limits intake) :
    intake.NoUnderflow readers ∧ intake.Within protocol limits := by
  obtain ⟨heard, hkept⟩ := h.kept hreaders
  exact ⟨hkept.noUnderflow hreaders, hkept.within⟩

def deaf : Readers where
  blockDelta := fun _ => none
  chunk := fun _ => none
  deltaEvent := fun _ => none
  parse := fun _ => none
  floatText := id

theorem lawful_deaf : deaf.Lawful where
  anthropic := ⟨fun _ _ h => (by cases h), fun _ _ h => (by cases h)⟩
  chat := ⟨fun _ _ _ h => (by cases h), fun _ _ h => (by cases h)⟩
  responses := ⟨fun _ _ h => (by cases h), fun _ _ h => (by cases h)⟩

/-- The line `data: [DONE]` takes every byte of its limit, and the blank line the rest of the total. -/
def tight : ResponseLimits := { maxResponseBytes := 14, maxEventBytes := 12, maxBlocks := 0 }

def doneLine : Bytes := "data: [DONE]\n\n".toUTF8.toList

def waiting : Intake := { new .openaiChat ⟨"m", ""⟩ tight with found := some .needMore }

def doneRead : Intake :=
  { new .openaiChat ⟨"m", ""⟩ tight with parser := { Sse.new tight with
      data := "[DONE]".toUTF8.toList
      dataSeen := true
      total := 13
      atStart := false
      rest := [lf] } }

def doneFound : Intake :=
  { doneRead with
    parser := { doneRead.parser with total := 14, rest := [] }
    found := some .payload }

theorem reached_doneFound : Reached deaf .openaiChat ⟨"m", ""⟩ tight doneFound := by
  have hwaiting : Reached deaf .openaiChat ⟨"m", ""⟩ tight waiting :=
    .single (.line rfl rfl (by decide +kernel))
  have hfed := hwaiting.tail (.chunk rfl doneLine)
  have hread : Next deaf { waiting with parser := waiting.parser.feed doneLine, found := none }
      doneRead := .line rfl rfl (by decide +kernel)
  have hfound : Next deaf doneRead doneFound := .line rfl rfl (by decide +kernel)
  exact (hfed.tail hread).tail hfound

theorem limits_hold_tight :
    doneFound.payload? = some "[DONE]" ∧ doneFound.NoUnderflow deaf ∧
      doneFound.Within .openaiChat tight :=
  ⟨by decide +kernel, limits_hold lawful_deaf reached_doneFound⟩

end Intake

end Yuke.Ai
