import Yuke.Ai.Response

/-!
# The draft of a response

The block table and the response end of one stream. A delta keeps its text, where the code keeps the
place of the text in the payload.
-/

set_option autoImplicit false

namespace Yuke.Ai

inductive DecodeError where
  | protocol
  | tooLarge
  deriving DecidableEq

/-- Why a decode stops early: an error, or a panic. A block id that no block has panics, and so does a
difference below zero. -/
inductive Halt where
  | error (error : DecodeError)
  | panics
  deriving DecidableEq

inductive BlockState where
  | «open»
  | stopped
  /-- closed without a result -/
  | dropped
  deriving DecidableEq

/-- One neutral block. Its id is its index. `bytes` joins the arguments of a tool, or the provider
state of a reasoning block. -/
structure DraftBlock where
  kind : BlockKind
  state : BlockState := .open
  callId : String := ""
  name : String := ""
  bytes : String := ""
  replay : Option ReplayKind := none
  deriving DecidableEq

inductive Pending where
  | started (block : BlockId) (kind : BlockKind)
  | delta (block : BlockId) (kind : BlockKind) (text : String)
  | sectionStarted (block : BlockId)
  | stopped (block : BlockId)
  | done
  deriving DecidableEq

structure Draft where
  origin : Origin
  limits : ResponseLimits
  blocks : List DraftBlock := []
  events : List Pending := []
  usage : Usage := {}
  finishReason : FinishReason := .unknown
  rawFinishReason : String := ""
  done : Bool := false
  deriving DecidableEq

theorem bind_eq_ok {ε α β : Type} {x : Except ε α} {f : α → Except ε β} {b : β} :
    (x >>= f) = .ok b ↔ ∃ a, x = .ok a ∧ f a = .ok b := by
  cases x with
  | error e => simp [bind, Except.bind]
  | ok a => simp [bind, Except.bind]

namespace Draft

def result (draft : Draft) (block : DraftBlock) : BlockResult :=
  match block.kind with
  | .text => .text
  | .refusal => .refusal
  | .reasoning => .reasoning (block.replay.map fun kind => ⟨draft.origin, kind, block.bytes⟩)
  | .toolCall => .toolCall ⟨block.callId, block.name, if block.bytes = "" then "{}" else block.bytes⟩

/-- The event of `pending`, as the stream hands it out after the payload. -/
def event (draft : Draft) : Pending → Option Event
  | .started block kind => some (.blockStarted block kind)
  | .delta block .text text => some (.textDelta block text)
  | .delta block .refusal text => some (.refusalDelta block text)
  | .delta block .reasoning text => some (.reasoningDelta block text)
  | .delta block .toolCall text => some (.toolInputDelta block text)
  | .sectionStarted block => some (.reasoningSectionStarted block)
  | .stopped block => draft.blocks[block]?.map fun found => .blockStopped block (draft.result found)
  | .done => some (.done draft.finishReason draft.rawFinishReason draft.usage)

def clearEvents (draft : Draft) : Draft := { draft with events := [] }

def push (draft : Draft) (pending : Pending) : Draft :=
  { draft with events := draft.events ++ [pending] }

def setBlock (draft : Draft) (id : BlockId) (block : DraftBlock) : Draft :=
  { draft with blocks := draft.blocks.set id block }

/-- The open block `id`. A finished block rejects the frame. -/
def openBlock (draft : Draft) (id : BlockId) : Except Halt DraftBlock :=
  match draft.blocks[id]? with
  | none => .error .panics
  | some block => if block.state = .open then .ok block else .error (.error .protocol)

def start (draft : Draft) (kind : BlockKind) : Except Halt (BlockId × Draft) :=
  if draft.limits.maxBlocks ≤ draft.blocks.length ∨ 2 ^ 32 ≤ draft.blocks.length then
    .error (.error .tooLarge)
  else
    let id := draft.blocks.length
    .ok (id, { draft with
      blocks := draft.blocks ++ [{ kind := kind }]
      events := draft.events ++ [.started id kind] })

def identify (draft : Draft) (id : BlockId) (callId name : String) : Except Halt Draft := do
  let block ← draft.openBlock id
  pure (draft.setBlock id { block with
    callId := if block.callId = "" then callId else block.callId
    name := if block.name = "" then name else block.name })

def startTool (draft : Draft) (callId name : String) : Except Halt (BlockId × Draft) := do
  let (id, draft) ← draft.start .toolCall
  let draft ← draft.identify id callId name
  pure (id, draft)

def delta (draft : Draft) (id : BlockId) (text : String) : Except Halt Draft := do
  let block ← draft.openBlock id
  pure (draft.push (.delta id block.kind text))

def startSection (draft : Draft) (id : BlockId) : Draft := draft.push (.sectionStarted id)

def toolDelta (draft : Draft) (id : BlockId) (fragment : String) : Except Halt Draft := do
  let block ← draft.openBlock id
  if draft.limits.maxToolArgBytes < block.bytes.utf8ByteSize then .error .panics
  else if draft.limits.maxToolArgBytes - block.bytes.utf8ByteSize < fragment.utf8ByteSize then
    .error (.error .tooLarge)
  else
    pure ((draft.setBlock id { block with bytes := block.bytes ++ fragment }).push
      (.delta id .toolCall fragment))

def finalArgs (draft : Draft) (id : BlockId) (arguments : String) : Except Halt Draft := do
  let block ← draft.openBlock id
  if draft.limits.maxToolArgBytes < arguments.utf8ByteSize then .error (.error .tooLarge)
  else pure (draft.setBlock id { block with bytes := arguments })

def pushBytes (draft : Draft) (id : BlockId) (bytes : String) : Except Halt Draft := do
  let block ← draft.openBlock id
  pure (draft.setBlock id { block with bytes := block.bytes ++ bytes })

def setReplay (draft : Draft) (id : BlockId) (replay : ReplayKind) : Except Halt Draft := do
  let block ← draft.openBlock id
  pure (draft.setBlock id { block with replay := some replay })

def stop (draft : Draft) (id : BlockId) : Except Halt Draft := do
  let block ← draft.openBlock id
  pure ((draft.setBlock id { block with state := .stopped }).push (.stopped id))

/-- Stop the block `id` when it is open. -/
def stopIfOpen (draft : Draft) (id : BlockId) : Except Halt Draft :=
  match draft.blocks[id]? with
  | none => .error .panics
  | some block => if block.state = .open then draft.stop id else .ok draft

def anyOpen (draft : Draft) : Bool := draft.blocks.any fun block => block.state = .open

def setFinish (draft : Draft) (reason : FinishReason) (raw : String) : Draft :=
  { draft with finishReason := reason, rawFinishReason := raw }

/-- End the draft, which holds no open block. A stopped refusal is the reason of a plain stop. -/
def finish (draft : Draft) : Draft :=
  let refused := draft.blocks.any fun block => block.kind = .refusal && block.state = .stopped
  { draft with
    done := true
    finishReason :=
      if refused ∧ (draft.finishReason = .stop ∨ draft.finishReason = .toolCalls) then .refusal
      else draft.finishReason
    events := draft.events ++ [.done] }

inductive OpenTools where
  | keep
  | drop
  deriving DecidableEq

def dropBlock (draft : Draft) (id : BlockId) : Except Halt Draft := do
  let block ← draft.openBlock id
  pure (draft.setBlock id { block with state := .dropped })

/-- Close the block `id` when it is open. -/
def closeBlock (openTools : OpenTools) (draft : Draft) (id : BlockId) : Except Halt Draft :=
  match draft.blocks[id]? with
  | none => .error .panics
  | some block =>
    if block.state ≠ .open then .ok draft
    else if openTools = .drop ∧ block.kind = .toolCall then draft.dropBlock id
    else draft.stop id

def closeAndFinish (draft : Draft) (openTools : OpenTools) : Except Halt Draft := do
  let closed ← (List.range' 0 draft.blocks.length).foldlM (closeBlock openTools) draft
  pure closed.finish

theorem openBlock_ok {draft : Draft} {id : BlockId} {block : DraftBlock}
    (h : draft.openBlock id = .ok block) :
    draft.blocks[id]? = some block ∧ block.state = .open := by
  unfold openBlock at h
  split at h
  · cases h
  next found hfound =>
    split at h
    next hopen =>
      cases h
      exact ⟨hfound, hopen⟩
    · cases h

theorem delta_ok {draft next : Draft} {id : BlockId} {text : String}
    (h : draft.delta id text = .ok next) :
    ∃ block, draft.openBlock id = .ok block ∧ next = draft.push (.delta id block.kind text) := by
  obtain ⟨block, hblock, hnext⟩ := bind_eq_ok.mp h
  cases hnext
  exact ⟨block, hblock, rfl⟩

theorem pushBytes_ok {draft next : Draft} {id : BlockId} {bytes : String}
    (h : draft.pushBytes id bytes = .ok next) :
    ∃ block, draft.openBlock id = .ok block ∧
      next = draft.setBlock id { block with bytes := block.bytes ++ bytes } := by
  obtain ⟨block, hblock, hnext⟩ := bind_eq_ok.mp h
  cases hnext
  exact ⟨block, hblock, rfl⟩

theorem setReplay_ok {draft next : Draft} {id : BlockId} {replay : ReplayKind}
    (h : draft.setReplay id replay = .ok next) :
    ∃ block, draft.openBlock id = .ok block ∧
      next = draft.setBlock id { block with replay := some replay } := by
  obtain ⟨block, hblock, hnext⟩ := bind_eq_ok.mp h
  cases hnext
  exact ⟨block, hblock, rfl⟩

theorem toolDelta_ok {draft next : Draft} {id : BlockId} {fragment : String}
    (h : draft.toolDelta id fragment = .ok next) :
    ∃ block, draft.openBlock id = .ok block ∧
      next = (draft.setBlock id { block with bytes := block.bytes ++ fragment }).push
        (.delta id .toolCall fragment) := by
  obtain ⟨block, hblock, hnext⟩ := bind_eq_ok.mp h
  split at hnext
  · cases hnext
  · split at hnext
    · cases hnext
    · cases hnext
      exact ⟨block, hblock, rfl⟩

theorem stop_ok {draft next : Draft} {id : BlockId} (h : draft.stop id = .ok next) :
    ∃ block, draft.openBlock id = .ok block ∧
      next = (draft.setBlock id { block with state := .stopped }).push (.stopped id) := by
  obtain ⟨block, hblock, hnext⟩ := bind_eq_ok.mp h
  cases hnext
  exact ⟨block, hblock, rfl⟩

theorem start_ok {draft next : Draft} {kind : BlockKind} {id : BlockId}
    (h : draft.start kind = .ok (id, next)) :
    id = draft.blocks.length ∧ next = { draft with
      blocks := draft.blocks ++ [{ kind := kind }]
      events := draft.events ++ [.started id kind] } := by
  unfold start at h
  split at h
  · cases h
  · cases h
    exact ⟨rfl, rfl⟩

theorem startTool_ok {draft next : Draft} {callId name : String} {id : BlockId}
    (h : draft.startTool callId name = .ok (id, next)) :
    id = draft.blocks.length ∧ ∃ block : DraftBlock,
      block.kind = .toolCall ∧ block.state = .open ∧ next = { draft with
        blocks := draft.blocks ++ [block]
        events := draft.events ++ [.started id .toolCall] } := by
  obtain ⟨⟨first, started⟩, hstart, hrest⟩ := bind_eq_ok.mp h
  obtain ⟨named, hnamed, hpair⟩ := bind_eq_ok.mp hrest
  cases hpair
  obtain ⟨hid, rfl⟩ := start_ok hstart
  obtain ⟨block, hblock, hset⟩ := bind_eq_ok.mp hnamed
  obtain ⟨hfound, hopen⟩ := openBlock_ok hblock
  subst hid
  simp only [List.getElem?_concat_length, Option.some.injEq] at hfound
  subst hfound
  cases hset
  refine ⟨rfl, { kind := .toolCall, callId := callId, name := name }, rfl, rfl, ?_⟩
  simp [setBlock]

end Draft

end Yuke.Ai
