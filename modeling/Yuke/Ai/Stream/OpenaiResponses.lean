import Yuke.Ai.Stream.Limits

/-!
# The stream of OpenAI Responses

An output item owns at most one block of each kind. A delta and the end of a part select their block
by the index of the item and by the kind. The readers of `serde_json` are parameters.
-/

set_option autoImplicit false

namespace Yuke.Ai.OpenaiResponsesStream

open Yuke.Ai.Write
open AnthropicStream (malformed required)

structure DeltaEvent where
  event : String
  outputIndex : Int
  delta : String
  summaryIndex : Option Int
  deriving DecidableEq

/-- The readers of a payload: the typed read of a delta event, and the tree of a document. The last
one gives the shortest decimal form of a float. -/
structure PayloadReader where
  deltaEvent : String → Option DeltaEvent
  parse : String → Option Value
  floatText : String → String

inductive ItemKind where
  | message
  | reasoning
  | tool
  | ignored
  deriving DecidableEq

structure Output where
  kind : ItemKind := .ignored
  /-- the block of each kind that the item opened -/
  blocks : BlockKind → Option BlockId := fun _ => none
  /-- the section of the last summary delta -/
  lastSummaryIndex : Option Int := none

def Output.require (output : Output) (kind : BlockKind) : Except Halt BlockId :=
  required (output.blocks kind)

def Output.withBlock (output : Output) (kind : BlockKind) (id : BlockId) : Output :=
  { output with blocks := Function.update output.blocks kind (some id) }

inductive DeltaKind where
  | text (block : BlockKind)
  | summary
  | reasoning
  | arguments
  deriving DecidableEq

def deltaKind (event : String) : Option DeltaKind :=
  if event = "response.output_text.delta" then some (.text .text)
  else if event = "response.refusal.delta" then some (.text .refusal)
  else if event = "response.reasoning_summary_text.delta" then some .summary
  else if event = "response.reasoning_text.delta" then some .reasoning
  else if event = "response.function_call_arguments.delta" then some .arguments
  else none

def partKind (partType : String) : Option BlockKind :=
  if partType = "output_text" then some .text
  else if partType = "refusal" then some .refusal
  else if partType = "reasoning_text" ∨ partType = "summary_text" then some .reasoning
  else none

def partType (root : Value) : Except Halt String := do
  let part ← required (root.get "part")
  required (part.getStr "type")

def incompleteReason (reason : String) : FinishReason :=
  if reason = "max_output_tokens" then .length
  else if reason = "content_filter" then .contentFilter
  else .unknown

section WriteValue

variable (floatText : String → String)

mutual

def writeValue : Value → Write Unit
  | .null => null
  | .bool flag => boolean flag
  | .integer n => int n
  | .unsigned n => uint n
  | .float text => token (floatText text).toList
  | .string text => string text
  | .array items => array (writeItems items)
  | .object members => object (writeMembers members)

def writeItems : List Value → Write Unit
  | [] => pure ()
  | item :: items => do
    writeValue item
    writeItems items

def writeMembers : List (String × Value) → Write Unit
  | [] => pure ()
  | (name, value) :: members => do
    key name
    writeValue value
    writeMembers members

end

def valueText (value : Value) : String := String.ofList (writeValue floatText value false).text

end WriteValue

structure Reducer where
  draft : Draft
  /-- the output items by their index -/
  outputs : Std.HashMap Nat Output := ∅

namespace Reducer

/-- The item at `index`. An unknown index rejects the frame. -/
def output (reducer : Reducer) (index : Nat) : Except Halt Output := required reducer.outputs[index]?

def setOutput (reducer : Reducer) (index : Nat) (output : Output) : Reducer :=
  { reducer with outputs := reducer.outputs.insert index output }

def toolName (item : Value) (search : Bool) : Except Halt String :=
  if search then .ok searchToolName else required (item.getStr "name")

def toolCallId (item : Value) (search : Bool) : Except Halt String :=
  match item.getStr "call_id" with
  | some callId => .ok callId
  | none => if search then .ok "" else malformed

def addItem (reducer : Reducer) (index : Nat) (item : Value) (itemType : String) :
    Except Halt Reducer :=
  if itemType = "message" then .ok (reducer.setOutput index { kind := .message })
  else if itemType = "reasoning" then
    -- Its block opens lazily.
    .ok (reducer.setOutput index { kind := .reasoning })
  else
    -- A client search call is a call of the search tool.
    let search : Bool := itemType = "tool_search_call" ∧ item.getStr "execution" = some "client"
    if ¬ search ∧ itemType ≠ "function_call" then .ok (reducer.setOutput index {})
    else do
      let name ← toolName item search
      let callId ← toolCallId item search
      let started ← reducer.draft.startTool callId name
      let output : Output := { kind := .tool }
      pure ({ reducer with draft := started.2 }.setOutput index (output.withBlock .toolCall started.1))

def onOutputItemAdded (reducer : Reducer) (root : Value) : Except Halt Reducer := do
  let index ← required (root.getIndex "output_index")
  let item ← required (root.get "item")
  let itemType ← required (item.getStr "type")
  -- An ignored item opens no block, so the items need their own bound.
  if !reducer.outputs.contains index ∧ reducer.draft.limits.maxBlocks ≤ reducer.outputs.size then
    .error (.error .tooLarge)
  else reducer.addItem index item itemType

def overlaps (reducer : Reducer) (output : Output) (kind : BlockKind) : Except Halt Bool :=
  match output.blocks kind with
  | none => .ok false
  | some id =>
    match reducer.draft.openBlock id with
    | .ok _ => .ok true
    | .error .panics => .error .panics
    | .error (.error _) => .ok false

def onContentPartAdded (reducer : Reducer) (root : Value) : Except Halt Reducer := do
  let index ← required (root.getIndex "output_index")
  match partKind (← partType root) with
  | none => pure reducer
  | some kind =>
    let output ← reducer.output index
    -- The parts of one kind come one after another.
    if ← reducer.overlaps output kind then malformed
    else
      let started ← reducer.draft.start kind
      pure ({ reducer with draft := started.2 }.setOutput index (output.withBlock kind started.1))

def reasoningBlock (reducer : Reducer) (index : Nat) : Except Halt (BlockId × Reducer) := do
  let output ← reducer.output index
  match output.blocks .reasoning with
  | some id => pure (id, reducer)
  | none =>
    let started ← reducer.draft.start .reasoning
    pure (started.1, { reducer with draft := started.2 }.setOutput index
      (output.withBlock .reasoning started.1))

def sectionBreak : String := "\n\n"

def partSections (draft : Draft) (id : BlockId) (last : Option Int) (summary : Int) :
    Except Halt Draft :=
  if last.any fun last => last ≠ summary then draft.delta id sectionBreak else .ok draft

def startSummary (reducer : Reducer) (index : Nat) (id : BlockId) (summary : Option Int) :
    Except Halt Reducer :=
  match summary with
  | none => .ok reducer
  | some summary => do
    let output ← reducer.output index
    let parted ← partSections reducer.draft id output.lastSummaryIndex summary
    let draft := if output.lastSummaryIndex = some summary then parted else parted.startSection id
    pure ({ reducer with draft := draft }.setOutput index
      { output with lastSummaryIndex := some summary })

def reasoningDelta (reducer : Reducer) (index : Nat) (summary : Option Int)
    (delta : Except Halt String) : Except Halt Reducer := do
  let found ← reducer.reasoningBlock index
  let delta ← delta
  let started ← found.2.startSummary index found.1 summary
  let draft ← started.draft.delta found.1 delta
  pure { started with draft := draft }

/-- Apply one delta event. Each case looks up the item before it reads `delta`. -/
def applyDelta (reducer : Reducer) (index : Nat) (kind : DeltaKind) (summary : Option Int)
    (delta : Except Halt String) : Except Halt Reducer :=
  match kind with
  | .text block => do
    let output ← reducer.output index
    let id ← output.require block
    let draft ← reducer.draft.delta id (← delta)
    pure { reducer with draft := draft }
  | .summary => reducer.reasoningDelta index summary delta
  | .reasoning => reducer.reasoningDelta index none delta
  | .arguments => do
    let output ← reducer.output index
    let id ← output.require .toolCall
    let draft ← reducer.draft.toolDelta id (← delta)
    pure { reducer with draft := draft }

def stopPart (reducer : Reducer) (root : Value) (kind : Option BlockKind) : Except Halt Reducer := do
  let index ← required (root.getIndex "output_index")
  match kind with
  | none => pure reducer
  | some kind =>
    let output ← reducer.output index
    match output.blocks kind with
    -- An item with no block of this kind sent no delta of it.
    | none => pure reducer
    | some id =>
      let draft ← reducer.draft.stopIfOpen id
      pure { reducer with draft := draft }

def readSearchCall (reader : PayloadReader) (draft : Draft) (id : BlockId) (item : Value) :
    Except Halt Draft := do
  let draft ← draft.identify id ((item.getStr "call_id").getD "") ""
  let block ← draft.openBlock id
  if block.callId = "" then malformed
  else
    let object ← required (item.get "arguments")
    if !object.isObject then malformed
    else draft.finalArgs id (valueText reader.floatText object)

def readArguments (reader : PayloadReader) (search : Bool) (draft : Draft) (id : BlockId)
    (item : Value) : Except Halt Draft :=
  if search then readSearchCall reader draft id item
  else do draft.finalArgs id (← required (item.getStr "arguments"))

def onToolDone (reader : PayloadReader) (draft : Draft) (id : BlockId) (item : Value)
    (itemType : String) : Except Halt Draft := do
  let block ← draft.openBlock id
  let search : Bool := block.name = searchToolName ∧ itemType = "tool_search_call"
  if ¬ search ∧ itemType ≠ "function_call" then malformed
  -- Another status than this one marks a call that the model never finished.
  else if (item.getStr "status").any fun status => status ≠ "completed" then draft.dropBlock id
  else do
    let named ← readArguments reader search draft id item
    named.stop id

def joinEncrypted (draft : Draft) (id : BlockId) (encrypted : String) : Except Halt Draft :=
  if encrypted = "" then .ok draft
  else do
    let draft ← draft.setReplay id .responsesEncrypted
    draft.pushBytes id encrypted

def onReasoningDone (reducer : Reducer) (index : Nat) (output : Output) (encrypted : String) :
    Except Halt Reducer :=
  if output.blocks .reasoning = none ∧ encrypted = "" then .ok reducer
  else do
    let found ← reducer.reasoningBlock index
    let joined ← joinEncrypted found.2.draft found.1 encrypted
    let draft ← joined.stopIfOpen found.1
    pure { found.2 with draft := draft }

def onOutputItemDone (reader : PayloadReader) (reducer : Reducer) (root : Value) :
    Except Halt Reducer := do
  let index ← required (root.getIndex "output_index")
  let item ← required (root.get "item")
  let output ← reducer.output index
  match output.kind with
  | .message | .ignored => pure reducer
  | .reasoning => reducer.onReasoningDone index output ((item.getStr "encrypted_content").getD "")
  | .tool =>
    let id ← output.require .toolCall
    let draft ← onToolDone reader reducer.draft id item (← required (item.getStr "type"))
    pure { reducer with draft := draft }

def readUsage (draft : Draft) (response : Value) : Draft :=
  match response.getObject "usage" with
  | none => draft
  | some usage =>
    let total := draft.usage
    let input := usage.getObject "input_tokens_details"
    { draft with usage := {
        input := usage.count "input_tokens"
        output := usage.count "output_tokens"
        cacheRead :=
          match input with
          | some details => details.count "cached_tokens"
          | none => total.cacheRead
        cacheWrite :=
          match input with
          | some details => details.count "cache_write_tokens"
          | none => total.cacheWrite
        reasoning :=
          match usage.getObject "output_tokens_details" with
          | some details => details.count "reasoning_tokens"
          | none => total.reasoning } }

def hasToolCall (draft : Draft) : Bool :=
  draft.blocks.any fun block => block.kind = .toolCall && block.state = .stopped

def onCompleted (reducer : Reducer) (root : Value) : Except Halt Reducer := do
  let response ← required (root.getObject "response")
  let read := readUsage reducer.draft response
  let reason := if hasToolCall read then .toolCalls else .stop
  let draft ← (read.setFinish reason "completed").closeAndFinish .drop
  pure { reducer with draft := draft }

def incompleteRaw (response : Value) : Except Halt (Option String) :=
  match response.getObject "incomplete_details" with
  | some details => details.optionalStr "reason"
  | none => .ok none

def onIncomplete (reducer : Reducer) (root : Value) : Except Halt Reducer := do
  let response ← required (root.getObject "response")
  let read := readUsage reducer.draft response
  let named ← incompleteRaw response
  let reason := named.getD "incomplete"
  let draft ← (read.setFinish (incompleteReason reason) reason).closeAndFinish .drop
  pure { reducer with draft := draft }

def decodeEvent (reader : PayloadReader) (reducer : Reducer) (root : Value) (event : String) :
    Except Halt (Reducer × Option ProviderKind) := do
  if event = "response.output_item.added" then return (← reducer.onOutputItemAdded root, none)
  else if event = "response.content_part.added" then return (← reducer.onContentPartAdded root, none)
  else if event = "response.output_text.done" then return (← reducer.stopPart root (some .text), none)
  else if event = "response.refusal.done" then return (← reducer.stopPart root (some .refusal), none)
  else if event = "response.content_part.done" then
    let kind ← partType root
    return (← reducer.stopPart root (partKind kind), none)
  else if event = "response.output_item.done" then
    return (← onOutputItemDone reader reducer root, none)
  else if event = "response.completed" then return (← reducer.onCompleted root, none)
  else if event = "response.incomplete" then return (← reducer.onIncomplete root, none)
  else if event = "response.failed" ∨ event = "error" then pure (reducer, some (eventKind root))
  -- Unknown event types are no-ops.
  else pure (reducer, none)

def decodeRoot (reader : PayloadReader) (reducer : Reducer) (root : Value) :
    Except Halt (Reducer × Option ProviderKind) := do
  let event ← required (root.getStr "type")
  match deltaKind event with
  | some kind =>
    let index ← required (root.getIndex "output_index")
    let delta := required (root.getStr "delta")
    return (← reducer.applyDelta index kind (root.getInt "summary_index") delta, none)
  | none => decodeEvent reader reducer root event

end Reducer

/-- The delta event of a payload that takes the typed path. A derived read also takes an array by
position, so only an object takes it. -/
def typedDelta (reader : PayloadReader) (data : String) : Option (DeltaEvent × DeltaKind) :=
  if (data.toList.dropWhile Protocol.isWhitespace).head? = some '{' then
    (reader.deltaEvent data).bind fun event => (deltaKind event.event).map fun kind => (event, kind)
  else none

def Reducer.decode (reader : PayloadReader) (reducer : Reducer) (data : String) :
    Except Halt (Reducer × Option ProviderKind) :=
  match typedDelta reader data with
  | some (event, kind) =>
    if 0 ≤ event.outputIndex then do
      return (← reducer.applyDelta event.outputIndex.toNat kind event.summaryIndex (.ok event.delta),
        none)
    else malformed
  | none => do
    let root ← required (reader.parse data)
    reducer.decodeRoot reader root

def Reducer.new (origin : Origin) (limits : ResponseLimits) : Reducer where
  draft := { origin := origin, limits := limits }

/-! ## The bounds of the reducer -/

def Output.Fits (draft : Draft) (output : Output) : Prop :=
  ∀ kind id, output.blocks kind = some id → draft.Has id kind

theorem Output.Fits.spend {draft next : Draft} {output : Output} {text state : Nat}
    (h : output.Fits draft) (hspends : draft.Spends text state next) : output.Fits next :=
  fun kind id hid => hspends.has id kind (h kind id hid)

theorem Output.Fits.withBlock {draft : Draft} {output : Output} {kind : BlockKind} {id : BlockId}
    (h : output.Fits draft) (hhas : draft.Has id kind) : (output.withBlock kind id).Fits draft := by
  intro other found hfound
  unfold Output.withBlock at hfound
  dsimp only at hfound
  by_cases hother : other = kind
  · subst hother
    rw [Function.update_self] at hfound
    cases hfound
    exact hhas
  · rw [Function.update_of_ne hother] at hfound
    exact h other found hfound

theorem ensures_require {draft : Draft} {output : Output} (h : output.Fits draft)
    (kind : BlockKind) : Ensures (fun id => draft.Has id kind) (output.require kind) := by
  apply (ensures_required _).mono
  exact fun id hid => h kind id hid

namespace Reducer

variable {limits : ResponseLimits} {n m : Nat} {reducer : Reducer}

/-- The reducer keeps its bounds, and the state of its blocks takes at most `n` bytes. -/
structure Kept (limits : ResponseLimits) (n : Nat) (reducer : Reducer) : Prop where
  limits_eq : reducer.draft.limits = limits
  bounded : reducer.draft.Bounded n
  outputs : reducer.outputs.size ≤ limits.maxBlocks
  fits : ∀ (index : Nat) (output : Output),
    reducer.outputs[index]? = some output → output.Fits reducer.draft

/-- The reducer goes on to `out` with at most `m` bytes of text. -/
structure Takes (limits : ResponseLimits) (n m : Nat) (reducer out : Reducer) : Prop where
  kept : out.Kept limits (n + m)
  pending : out.draft.pendingBytes ≤ reducer.draft.pendingBytes + m

theorem Kept.mono {n' : Nat} (h : reducer.Kept limits n) (hn : n ≤ n') : reducer.Kept limits n' :=
  { h with bounded := h.bounded.mono hn }

theorem Takes.mono {m' : Nat} {out : Reducer} (h : Takes limits n m reducer out) (hm : m ≤ m') :
    Takes limits n m' reducer out where
  kept := h.kept.mono (Nat.add_le_add_left hm _)
  pending := h.pending.trans (Nat.add_le_add_left hm _)

theorem Takes.trans {m' : Nat} {middle out : Reducer} (h : Takes limits n m reducer middle)
    (h' : Takes limits (n + m) m' middle out) : Takes limits n (m + m') reducer out := by
  have hpending := h.pending
  have hpending' := h'.pending
  constructor
  · rw [← Nat.add_assoc]
    exact h'.kept
  · omega

theorem Kept.takes {draft : Draft} {text state : Nat} (h : reducer.Kept limits n)
    (hspends : reducer.draft.Spends text state draft) (htext : text ≤ m) (hstate : state ≤ m) :
    Takes limits n m reducer { reducer with draft := draft } := by
  have hmost := hspends.mono htext hstate
  constructor
  · constructor
    · exact hmost.limits.trans h.limits_eq
    · exact hmost.bounded n h.bounded
    · exact h.outputs
    · exact fun index output houtput => (h.fits index output houtput).spend hmost
  · exact hmost.pending

theorem Kept.takes_refl (h : reducer.Kept limits n) : Takes limits n m reducer reducer :=
  h.takes (Draft.spends_refl _) (Nat.zero_le _) (Nat.zero_le _)

theorem Kept.setOutput {index : Nat} {output : Output} (h : reducer.Kept limits n)
    (hroom : index ∈ reducer.outputs ∨ reducer.outputs.size < limits.maxBlocks)
    (hfits : output.Fits reducer.draft) : (reducer.setOutput index output).Kept limits n := by
  constructor
  · exact h.limits_eq
  · exact h.bounded
  · unfold Reducer.setOutput
    dsimp only
    rw [Std.HashMap.size_insert]
    split
    · exact h.outputs
    · next hnew =>
      rcases hroom with hold | hless
      · exact absurd hold hnew
      · exact hless
  · intro other found hfound
    unfold Reducer.setOutput at hfound
    dsimp only at hfound
    rw [Std.HashMap.getElem?_insert] at hfound
    split at hfound
    · cases hfound
      exact hfits
    · exact h.fits other found hfound

theorem Takes.setOutput {out : Reducer} {index : Nat} {output : Output}
    (h : Takes limits n m reducer out)
    (hroom : index ∈ out.outputs ∨ out.outputs.size < limits.maxBlocks)
    (hfits : output.Fits out.draft) : Takes limits n m reducer (out.setOutput index output) :=
  ⟨h.kept.setOutput hroom hfits, h.pending⟩

theorem ensures_output (h : reducer.Kept limits n) (index : Nat) :
    Ensures (fun output => index ∈ reducer.outputs ∧ output.Fits reducer.draft)
      (reducer.output index) := by
  apply (ensures_required _).mono
  intro output houtput
  refine ⟨?_, h.fits index output houtput⟩
  rw [Std.HashMap.mem_iff_isSome_getElem?, houtput]
  rfl

theorem ensures_toolName (item : Value) (search : Bool) :
    Ensures (fun _ => True) (toolName item search) := by
  unfold toolName
  split
  · exact trivial
  · exact (ensures_required _).mono fun _ _ => trivial

theorem ensures_toolCallId (item : Value) (search : Bool) :
    Ensures (fun _ => True) (toolCallId item search) := by
  unfold toolCallId
  split
  · exact trivial
  · split
    · exact trivial
    · exact trivial

theorem ensures_addItem (h : reducer.Kept limits n) {index : Nat}
    (hroom : index ∈ reducer.outputs ∨ reducer.outputs.size < limits.maxBlocks) (item : Value)
    (itemType : String) : Ensures (Takes limits n m reducer) (reducer.addItem index item itemType) := by
  have hbare : ∀ kind, Output.Fits reducer.draft { kind := kind } := fun kind other id hid => by
    cases hid
  have hitem : ∀ kind, Takes limits n m reducer (reducer.setOutput index { kind := kind }) :=
    fun kind => h.takes_refl.setOutput hroom (hbare kind)
  unfold addItem
  split
  · exact hitem .message
  split
  · exact hitem .reasoning
  dsimp only
  split
  · exact hitem .ignored
  · apply (ensures_toolName item _).bind
    intro name _
    apply (ensures_toolCallId item _).bind
    intro callId _
    apply (Draft.ensures_startTool reducer.draft callId name).bind
    intro started hstarted
    have htook : Takes limits n m reducer { reducer with draft := started.2 } :=
      h.takes hstarted.1 (Nat.zero_le _) (Nat.zero_le _)
    apply htook.setOutput hroom
    exact ((hbare .tool).spend hstarted.1).withBlock hstarted.2

theorem ensures_onOutputItemAdded (h : reducer.Kept limits n) (root : Value) :
    Ensures (Takes limits n m reducer) (reducer.onOutputItemAdded root) := by
  apply (ensures_required _).bind
  intro index _
  apply (ensures_required _).bind
  intro item _
  apply (ensures_required _).bind
  intro itemType _
  split
  · exact trivial
  · next hroom =>
    apply ensures_addItem h
    rw [h.limits_eq] at hroom
    by_cases hold : index ∈ reducer.outputs
    · exact .inl hold
    · right
      by_contra hfull
      apply hroom
      constructor
      · simpa using hold
      · omega

theorem ensures_overlaps {output : Output} (h : output.Fits reducer.draft) (kind : BlockKind) :
    Ensures (fun _ => True) (reducer.overlaps output kind) := by
  unfold overlaps
  split
  · exact trivial
  · next id hid =>
    have hopen := Draft.ensures_openBlock (h kind id hid)
    split
    · exact trivial
    · next hpanics =>
      rw [hpanics] at hopen
      exact hopen
    · exact trivial

theorem ensures_partType (root : Value) : Ensures (fun _ => True) (partType root) := by
  apply (ensures_required _).bind
  intro part _
  exact (ensures_required _).mono fun _ _ => trivial

theorem ensures_onContentPartAdded (h : reducer.Kept limits n) (root : Value) :
    Ensures (Takes limits n m reducer) (reducer.onContentPartAdded root) := by
  apply (ensures_required _).bind
  intro index _
  apply (ensures_partType root).bind
  intro name _
  split
  · exact h.takes_refl
  · next kind _ =>
    apply (ensures_output h index).bind
    intro output houtput
    apply (ensures_overlaps houtput.2 kind).bind
    intro overlapping _
    split
    · exact trivial
    · apply (Draft.ensures_start reducer.draft kind).bind
      intro started hstarted
      have htook : Takes limits n m reducer { reducer with draft := started.2 } :=
        h.takes hstarted.1 (Nat.zero_le _) (Nat.zero_le _)
      exact htook.setOutput (.inl houtput.1) ((houtput.2.spend hstarted.1).withBlock hstarted.2)

theorem ensures_reasoningBlock (h : reducer.Kept limits n) (index : Nat) :
    Ensures (fun out => Takes limits n 0 reducer out.2 ∧ out.2.draft.Has out.1 .reasoning)
      (reducer.reasoningBlock index) := by
  apply (ensures_output h index).bind
  intro output houtput
  split
  · next id hid => exact ⟨h.takes_refl, houtput.2 _ _ hid⟩
  · apply (Draft.ensures_start reducer.draft .reasoning).bind
    intro started hstarted
    have htook : Takes limits n 0 reducer { reducer with draft := started.2 } :=
      h.takes hstarted.1 (Nat.zero_le _) (Nat.zero_le _)
    exact ⟨htook.setOutput (.inl houtput.1) ((houtput.2.spend hstarted.1).withBlock hstarted.2),
      hstarted.2⟩

theorem ensures_partSections {draft : Draft} {id : BlockId} (h : draft.Has id .reasoning)
    (last : Option Int) (summary : Int) :
    Ensures (draft.Spends sectionBreak.utf8ByteSize 0) (partSections draft id last summary) := by
  unfold partSections
  split
  · exact Draft.ensures_delta h _
  · exact draft.spends_refl.mono (Nat.zero_le _) (Nat.le_refl _)

theorem ensures_startSummary (h : reducer.Kept limits n) (index : Nat) {id : BlockId}
    (hhas : reducer.draft.Has id .reasoning) (summary : Option Int) :
    Ensures (fun out => Takes limits n (if summary.isSome then sectionBreak.utf8ByteSize else 0)
      reducer out ∧ out.draft.Has id .reasoning) (reducer.startSummary index id summary) := by
  cases summary with
  | none => exact ⟨h.takes_refl, hhas⟩
  | some summary =>
    apply (ensures_output h index).bind
    intro output houtput
    apply (ensures_partSections hhas output.lastSummaryIndex summary).bind
    intro parted hspends
    have hstarted : reducer.draft.Spends sectionBreak.utf8ByteSize 0
        (if output.lastSummaryIndex = some summary then parted else parted.startSection id) := by
      split
      · exact hspends
      · exact hspends.trans (Draft.spends_push (.sectionStarted id))
    have htook := h.takes hstarted (Nat.le_refl _) (Nat.zero_le _)
    have hfits : Output.Fits _ { output with lastSummaryIndex := some summary } :=
      fun kind other hother => houtput.2.spend hstarted kind other hother
    exact ⟨htook.setOutput (.inl houtput.1) hfits, hstarted.has _ _ hhas⟩

theorem ensures_reasoningDelta (h : reducer.Kept limits n) (index : Nat) (summary : Option Int)
    {delta : Except Halt String}
    (hdelta : Ensures (fun text => text.utf8ByteSize +
      (if summary.isSome then sectionBreak.utf8ByteSize else 0) ≤ m) delta) :
    Ensures (Takes limits n m reducer) (reducer.reasoningDelta index summary delta) := by
  apply (ensures_reasoningBlock h index).bind
  intro found hfound
  apply hdelta.bind
  intro text htext
  apply (ensures_startSummary hfound.1.kept index hfound.2 summary).bind
  intro started hstarted
  apply (Draft.ensures_delta hstarted.2 text).bind
  intro draft hdraft
  have htook := hfound.1.trans hstarted.1
  have hlast := htook.trans (htook.kept.takes hdraft (Nat.le_refl _) (Nat.zero_le _))
  exact hlast.mono (by omega)

def deltaCost (kind : DeltaKind) : Nat := if kind = .summary then sectionBreak.utf8ByteSize else 0

theorem ensures_applyDelta (h : reducer.Kept limits n) (index : Nat) (kind : DeltaKind)
    (summary : Option Int) {delta : Except Halt String}
    (hdelta : Ensures (fun text => text.utf8ByteSize + deltaCost kind ≤ m) delta) :
    Ensures (Takes limits n m reducer) (reducer.applyDelta index kind summary delta) := by
  cases kind with
  | text block =>
    apply (ensures_output h index).bind
    intro output houtput
    apply (ensures_require houtput.2 block).bind
    intro id hid
    apply hdelta.bind
    intro text htext
    apply (Draft.ensures_delta hid text).bind
    intro draft hdraft
    exact h.takes hdraft (by omega) (Nat.zero_le _)
  | summary =>
    apply ensures_reasoningDelta h
    apply hdelta.mono
    intro text htext
    change _ + sectionBreak.utf8ByteSize ≤ _ at htext
    split
    · exact htext
    · omega
  | reasoning => exact ensures_reasoningDelta h index none hdelta
  | arguments =>
    apply (ensures_output h index).bind
    intro output houtput
    apply (ensures_require houtput.2 .toolCall).bind
    intro id hid
    apply hdelta.bind
    intro text htext
    apply (Draft.ensures_toolDelta hid h.bounded text).bind
    intro draft hdraft
    exact h.takes hdraft (by omega) (Nat.zero_le _)

theorem ensures_stopPart (h : reducer.Kept limits n) (root : Value) (kind : Option BlockKind) :
    Ensures (Takes limits n m reducer) (reducer.stopPart root kind) := by
  apply (ensures_required _).bind
  intro index _
  split
  · exact h.takes_refl
  · next kind =>
    apply (ensures_output h index).bind
    intro output houtput
    split
    · exact h.takes_refl
    · next id hid =>
      apply (Draft.ensures_stopIfOpen (houtput.2 kind id hid)).bind
      intro draft hdraft
      exact h.takes hdraft (Nat.zero_le _) (Nat.zero_le _)

theorem ensures_readSearchCall (reader : PayloadReader) {draft : Draft} {id : BlockId}
    (h : draft.Has id .toolCall) (item : Value) :
    Ensures (draft.Spends 0 0) (readSearchCall reader draft id item) := by
  apply (Draft.ensures_identify h _ _).bind
  intro named hnamed
  have hhas := hnamed.has _ _ h
  apply (Draft.ensures_openBlock hhas).bind
  intro block _
  split
  · exact trivial
  · apply (ensures_required _).bind
    intro object _
    split
    · exact trivial
    · apply (Draft.ensures_finalArgs hhas _).mono
      intro next hnext
      exact hnamed.trans hnext

theorem ensures_readArguments (reader : PayloadReader) (search : Bool) {draft : Draft}
    {id : BlockId} (h : draft.Has id .toolCall) (item : Value) :
    Ensures (draft.Spends 0 0) (readArguments reader search draft id item) := by
  unfold readArguments
  split
  · exact ensures_readSearchCall reader h item
  · apply (ensures_required _).bind
    intro arguments _
    exact Draft.ensures_finalArgs h arguments

theorem ensures_onToolDone (reader : PayloadReader) {draft : Draft} {id : BlockId}
    (h : draft.Has id .toolCall) (item : Value) (itemType : String) :
    Ensures (draft.Spends 0 0) (onToolDone reader draft id item itemType) := by
  apply (Draft.ensures_openBlock h).bind
  intro block _
  dsimp only
  split
  · exact trivial
  split
  · exact Draft.ensures_dropBlock h
  · apply (ensures_readArguments reader _ h item).bind
    intro named hspends
    apply (Draft.ensures_stop (hspends.has _ _ h)).mono
    intro next hnext
    exact hspends.trans hnext

theorem ensures_joinEncrypted {draft : Draft} {id : BlockId} (h : draft.Has id .reasoning)
    (encrypted : String) :
    Ensures (draft.Spends 0 encrypted.utf8ByteSize) (joinEncrypted draft id encrypted) := by
  unfold joinEncrypted
  split
  · exact draft.spends_refl.mono (Nat.le_refl _) (Nat.zero_le _)
  · apply (Draft.ensures_setReplay h .responsesEncrypted).bind
    intro named hnamed
    apply (Draft.ensures_pushBytes (hnamed.has _ _ h) (by decide) encrypted).mono
    intro next hnext
    exact (hnamed.trans hnext).mono (Nat.le_refl _) (Nat.le_of_eq (Nat.zero_add _))

theorem ensures_onReasoningDone (h : reducer.Kept limits n) (index : Nat) (output : Output)
    (encrypted : String) :
    Ensures (Takes limits n encrypted.utf8ByteSize reducer)
      (reducer.onReasoningDone index output encrypted) := by
  unfold onReasoningDone
  split
  · exact h.takes_refl
  · apply (ensures_reasoningBlock h index).bind
    intro found hfound
    apply (ensures_joinEncrypted hfound.2 encrypted).bind
    intro joined hjoined
    apply (Draft.ensures_stopIfOpen (hjoined.has _ _ hfound.2)).bind
    intro draft hdraft
    have htook := hfound.1.trans (hfound.1.kept.takes (m := encrypted.utf8ByteSize)
      (hjoined.trans hdraft) (Nat.zero_le _) (Nat.le_refl _))
    exact htook.mono (Nat.le_of_eq (Nat.zero_add _))

theorem ensures_onOutputItemDone (reader : PayloadReader) (h : reducer.Kept limits n)
    (root : Value) :
    Ensures (Takes limits n root.textBytes reducer) (onOutputItemDone reader reducer root) := by
  apply (ensures_required _).bind
  intro index _
  apply (ensures_required _).bind
  intro item hitem
  apply (ensures_output h index).bind
  intro output houtput
  split
  · exact h.takes_refl
  · exact h.takes_refl
  · apply (ensures_onReasoningDone h index output _).mono
    intro out hout
    have hencrypted := (item.getD_getStr_le "encrypted_content").trans (item.bytesAt_le _)
    have hmember := Value.bytesAt_of_get hitem
    have hroot := root.bytesAt_le "item"
    exact hout.mono (by omega)
  · apply (ensures_require houtput.2 .toolCall).bind
    intro id hid
    apply (ensures_required _).bind
    intro itemType _
    apply (ensures_onToolDone reader hid item itemType).bind
    intro draft hdraft
    exact h.takes hdraft (Nat.zero_le _) (Nat.zero_le _)

theorem spends_readUsage (draft : Draft) (response : Value) :
    draft.Spends 0 0 (readUsage draft response) := by
  unfold readUsage
  split
  · exact draft.spends_refl
  · exact Draft.spends_of_eq rfl rfl rfl

theorem ensures_answered (h : reducer.Kept limits n) (response : Value) (reason : FinishReason)
    (raw : String) :
    Ensures (Takes limits n m reducer) (do
      let draft ← ((readUsage reducer.draft response).setFinish reason raw).closeAndFinish .drop
      pure { reducer with draft := draft }) := by
  apply (Draft.ensures_closeAndFinish _ .drop).bind
  intro draft hdraft
  have hread := spends_readUsage reducer.draft response
  have hset : (readUsage reducer.draft response).Spends 0 0
      ((readUsage reducer.draft response).setFinish reason raw) := Draft.spends_of_eq rfl rfl rfl
  exact h.takes ((hread.trans hset).trans hdraft.1) (Nat.zero_le _) (Nat.zero_le _)

theorem ensures_onCompleted (h : reducer.Kept limits n) (root : Value) :
    Ensures (Takes limits n m reducer) (reducer.onCompleted root) := by
  apply (ensures_required _).bind
  intro response _
  exact ensures_answered h response _ _

theorem ensures_onIncomplete (h : reducer.Kept limits n) (root : Value) :
    Ensures (Takes limits n m reducer) (reducer.onIncomplete root) := by
  apply (ensures_required _).bind
  intro response _
  have hnamed : Ensures (fun _ => True) (incompleteRaw response) := by
    unfold incompleteRaw
    split
    · exact (ensures_optionalStr _ _).mono fun _ _ => trivial
    · exact trivial
  apply hnamed.bind
  intro named _
  exact ensures_answered h response _ _

theorem ensures_decodeEvent (reader : PayloadReader) (h : reducer.Kept limits n) (root : Value)
    (event : String) :
    Ensures (fun out => Takes limits n root.textBytes reducer out.1)
      (decodeEvent reader reducer root event) := by
  unfold decodeEvent
  split
  · exact (ensures_onOutputItemAdded h root).bind fun out hout => hout
  split
  · exact (ensures_onContentPartAdded h root).bind fun out hout => hout
  split
  · exact (ensures_stopPart h root _).bind fun out hout => hout
  split
  · exact (ensures_stopPart h root _).bind fun out hout => hout
  split
  · apply (ensures_partType root).bind
    intro name _
    exact (ensures_stopPart h root _).bind fun out hout => hout
  split
  · exact (ensures_onOutputItemDone reader h root).bind fun out hout => hout
  split
  · exact (ensures_onCompleted h root).bind fun out hout => hout
  split
  · exact (ensures_onIncomplete h root).bind fun out hout => hout
  split
  · exact h.takes_refl
  · exact h.takes_refl

theorem deltaCost_le {event : String} {kind : DeltaKind} (h : deltaKind event = some kind) :
    deltaCost kind ≤ event.utf8ByteSize := by
  unfold deltaCost
  split
  · next hkind =>
    subst hkind
    unfold deltaKind at h
    split at h
    · cases h
    split at h
    · cases h
    split at h
    · next hevent =>
      rw [hevent]
      decide
    split at h
    · cases h
    split at h
    · cases h
    · cases h
  · exact Nat.zero_le _

theorem ensures_decodeRoot (reader : PayloadReader) (h : reducer.Kept limits n) (root : Value) :
    Ensures (fun out => Takes limits n root.textBytes reducer out.1)
      (decodeRoot reader reducer root) := by
  apply (ensures_required _).bind
  intro event hevent
  split
  · next kind hkind =>
    apply (ensures_required _).bind
    intro index _
    have hdelta : Ensures (fun text => text.utf8ByteSize + deltaCost kind ≤ root.textBytes)
        (required (root.getStr "delta")) := by
      apply (ensures_required _).mono
      intro text htext
      have hsum := @Value.sum_bytesAt root ["type", "delta"] (by decide)
      have htype := Value.getStr_le hevent
      have hmember := Value.getStr_le htext
      have hcost := deltaCost_le hkind
      simp only [List.map_cons, List.map_nil, List.sum_cons, List.sum_nil] at hsum
      omega
    exact (ensures_applyDelta h index kind _ hdelta).bind fun out hout => hout
  · exact ensures_decodeEvent reader h root event

end Reducer

/-- No reader makes text out of nothing: a string of a document is at least as long as its value. -/
structure PayloadReader.Lawful (reader : PayloadReader) : Prop where
  deltaEvent : ∀ data event, reader.deltaEvent data = some event →
    event.event.utf8ByteSize + event.delta.utf8ByteSize ≤ data.utf8ByteSize
  parse : ∀ data root, reader.parse data = some root → root.textBytes ≤ data.utf8ByteSize

theorem Reducer.ensures_decode {limits : ResponseLimits} {n : Nat} {reader : PayloadReader}
    (hreader : reader.Lawful) {reducer : Reducer} (h : reducer.Kept limits n) (data : String) :
    Ensures (fun out => Takes limits n data.utf8ByteSize reducer out.1)
      (Reducer.decode reader reducer data) := by
  unfold Reducer.decode
  split
  · next event kind hevent =>
    have hfound : reader.deltaEvent data = some event ∧ deltaKind event.event = some kind := by
      unfold typedDelta at hevent
      split at hevent
      · obtain ⟨found, hsome, hpair⟩ := Option.bind_eq_some_iff.mp hevent
        obtain ⟨other, hkind, heq⟩ := Option.map_eq_some_iff.mp hpair
        cases heq
        exact ⟨hsome, hkind⟩
      · cases hevent
    split
    · have hdelta : Ensures (fun text => text.utf8ByteSize + Reducer.deltaCost kind ≤
          data.utf8ByteSize) (.ok event.delta) := by
        have hbytes := hreader.deltaEvent data event hfound.1
        have hcost := Reducer.deltaCost_le hfound.2
        change event.delta.utf8ByteSize + _ ≤ _
        omega
      exact (Reducer.ensures_applyDelta h _ kind _ hdelta).bind fun out hout => hout
    · exact trivial
  · apply (ensures_required _).bind
    intro root hroot
    apply (Reducer.ensures_decodeRoot reader h root).mono
    exact fun out hout => hout.mono (hreader.parse data root hroot)

end Yuke.Ai.OpenaiResponsesStream
