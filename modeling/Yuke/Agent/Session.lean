import Yuke.Agent.Memory
import Yuke.Engine.Drive

/-!
# A session

A session runs turns on its context and saves each commit of a turn in a store. Each operation is a
program over its waits. A wait shows what the handle and the future of the operation hold there, so
a caller that drops the future leaves the handle that the wait shows.
-/

set_option autoImplicit false

namespace Yuke.Agent

open Yuke.Ai (Block BlobStore ToolResult)
open Yuke.Engine
open Yuke.Protocol
open Yuke.Shared (Program)

def StoreError.text : StoreError → String
  | .owned => "another writer holds the session"
  | .notFound => "the store has no such session"
  | .notACompletedTurn => "the event does not end a completed turn"
  | .inputNotPending id => s!"input {id.number} is not pending"
  | .inputBlocksExceedCommit => "the consumed inputs have more blocks than the commit"
  | .failed _ => "the store failed"

def StoreError.toDynError (error : StoreError) : DynError where
  text := error.text
  causes :=
    match error with
    | .failed error => error.text :: error.causes
    | _ => []

def outcomeUnknown : String :=
  "The turn stopped before it saved the result of this call. The call can have run."

def turnStopped : String := "the turn stopped before it saved its end"

def sessionSource : String := "host:session"

def closeTag : String := "</system_notification>"

def escapeTag (text : List Char) : Nat → List Char
  | 0 => text
  | fuel + 1 =>
    match text with
    | [] => []
    | c :: rest =>
      if closeTag.toList.isPrefixOf (c :: rest) then
        "</ system_notification>".toList ++ escapeTag ((c :: rest).drop closeTag.length) fuel
      else
        c :: escapeTag rest fuel

def notification (plugin display text : String) : Input where
  source := .plugin plugin
  kind := .notification
  content := [.userText display]
  modelContent := some [.userText (s!"<system_notification plugin=\"{plugin}\">" ++
    String.ofList (escapeTag text.toList text.length) ++ closeTag)]
  content_ne := by simp
  modelContent_ne := by simp

def interruptionNote : NewestTurn → Option Input
  | .ended (.outcome .cancelled) =>
    some (notification sessionSource "The previous turn was cancelled."
      "The user cancelled the previous turn before it ended.")
  | .ended (.failed error) =>
    some (notification sessionSource "The previous turn failed."
      s!"The previous turn ended with an error: {error}")
  | .empty | .open | .ended (.outcome _) => none

/-- A session that one writer owns. Its lease is `none` after a failed or dropped write. -/
structure Session where
  id : SessionId
  parent : Option SessionId
  settings : SessionSettings
  prompt : List PromptSection
  context : List Block
  lease : Option Lease
  newestTurn : NewestTurn
  inputTokens : Option Nat
  deriving DecidableEq

def Session.isStale (session : Session) : Bool := session.lease.isNone

def Session.fromOpened (opened : Opened) : Session where
  id := opened.id
  parent := opened.parent
  settings := opened.settings
  prompt := opened.prompt
  context := opened.context
  lease := opened.lease
  newestTurn := opened.newestTurn
  inputTokens := opened.inputTokens

inductive InputDecision where
  | keep
  | replace (modelContent : List Block)
  | remove
  deriving DecidableEq

inductive SessionUpdate where
  | inputRemoved (id : InputId)
  | saved (event : StoredEvent)
  deriving DecidableEq

/-- What an operation of a session waits for. `pending` shows the input that the take checks again,
with the decision about it. -/
inductive SessionCall where
  | createSession (settings : SessionSettings) (prompt : List PromptSection)
      (parent : Option SessionId)
  | forkSession (through : Option EventNumber)
  | openSession (access : Access)
  | setSettings (settings : SessionSettings)
  | pending (checked : Option (PendingInput × InputDecision))
  | removeInput (input : InputId)
  | acceptInput (input : Input)
  | commit (commit : Commit) (consumed : List ConsumedInput)
  | beforeInput (input : PendingInput)
  | drive (wait : Wait)
  | update (update : SessionUpdate)

def SessionCall.Reply : SessionCall → Type
  | .createSession _ _ _ => Except StoreError Opened
  | .forkSession _ => Except StoreError Opened
  | .openSession _ => Except StoreError Opened
  | .setSettings _ => Except StoreError EventNumber
  | .pending _ => Except StoreError (List PendingInput)
  | .removeInput _ => Except StoreError Unit
  | .acceptInput _ => Except StoreError InputId
  | .commit _ _ => Except StoreError EventNumber
  | .beforeInput _ => Except DynError InputDecision
  | .drive wait => wait.Reply
  | .update _ => Unit

/-- What an operation on session `id` holds at a wait: the handle as a dropped future leaves it, the
lease of the future, and the records of the inputs that the turn took. -/
structure Held where
  id : SessionId
  session : Option Session
  lease : Option Lease
  taken : List ConsumedInput
  deriving DecidableEq

structure SessionAwait where
  held : Held
  call : SessionCall

abbrev SessionAwait.Reply (a : SessionAwait) : Type := a.call.Reply

abbrev Sessioning (α : Type) : Type := Program SessionAwait SessionAwait.Reply α

def ask (held : Held) (call : SessionCall) : Sessioning call.Reply := .call ⟨held, call⟩ .done

inductive TakeError where
  | store (error : StoreError)
  | hook (error : DynError)
  deriving DecidableEq

def TakeError.toDynError : TakeError → DynError
  | .store error => error.toDynError
  | .hook error => error

def InputError.toDynError : InputError → DynError
  | .emptyContent => { text := "the input has no content" }
  | .emptyModelContent => { text := "the model content of the input has no block" }

def ours (source : InputSource) : Bool := source = .plugin sessionSource

def beforeInput (held : Held) (input : PendingInput) : Sessioning (Except TakeError InputDecision) :=
  if ours input.input.source then return .ok .keep
  else do
    match ← ask held (.beforeInput input) with
    | .ok decision => return .ok decision
    | .error error => return .error (.hook error)

def gone (held : Held) (input : PendingInput) (decision : InputDecision) :
    Sessioning (Except TakeError Bool) :=
  if decision = .remove then return .ok false
  else do
    match ← ask held (.pending (some (input, decision))) with
    | .ok pending => return .ok (!pending.any fun other => other.id = input.id)
    | .error error => return .error (.store error)

/-- The input as the turn takes it, or `none` when the hook removed it. -/
def settle (held : Held) (input : PendingInput) :
    InputDecision → Sessioning (Except TakeError (Option PendingInput))
  | .keep => return .ok (some input)
  | .replace modelContent =>
    match input.input.withModelContent modelContent with
    | .ok replaced => return .ok (some { input with input := replaced })
    | .error error => return .error (.hook (InputError.toDynError error))
  | .remove => do
    match ← ask held (.removeInput input.id) with
    | .ok () =>
      let _ ← ask held (.update (.inputRemoved input.id))
      return .ok none
    -- A client removed the input during the hook.
    | .error (.inputNotPending _) => return .ok none
    | .error error => return .error (.store error)

def check (held : Held) (input : PendingInput) :
    Sessioning (Except TakeError (Option PendingInput)) := do
  match ← beforeInput held input with
  | .error error => return .error error
  | .ok decision =>
    match ← gone held input decision with
    | .error error => return .error error
    | .ok true => return .ok none
    | .ok false => settle held input decision

def takeEach (held : Held) (blocks : List Block) :
    List PendingInput → Sessioning (Except TakeError (List Block) × List ConsumedInput)
  | [] => return (.ok blocks, held.taken)
  | input :: rest =>
    if held.taken.any fun known => known.id = input.id then takeEach held blocks rest
    else do
      match ← check held input with
      | .error error => return (.error error, held.taken)
      | .ok none => takeEach held blocks rest
      | .ok (some input) =>
        let consumed := input.intoConsumed
        takeEach { held with taken := held.taken ++ [consumed.1] } (blocks ++ consumed.2) rest

def take (held : Held) : Sessioning (Except TakeError (List Block) × List ConsumedInput) := do
  match ← ask held (.pending none) with
  | .error error => return (.error (.store error), held.taken)
  | .ok pending => takeEach held [] pending

/-- The journal and the inbox of one turn. `failure` is the store error of a failed commit. -/
structure TurnJournal where
  taken : List ConsumedInput
  inputTokens : Option Nat
  failure : Option StoreError := none
  deriving DecidableEq

def TurnJournal.commit (held : Held) (journal : TurnJournal) (commit : Commit) :
    Sessioning (Except DynError Unit × TurnJournal) := do
  let consumed := journal.taken
  let journal := { journal with taken := [] }
  match ← ask { held with taken := [] } (.commit commit consumed) with
  | .error error => return (.error error.toDynError, { journal with failure := some error })
  | .ok eventNumber =>
    let journal :=
      { journal with inputTokens := inputTokensAfter commit journal.inputTokens }
    let _ ← ask { held with taken := [] } (.update (.saved ⟨eventNumber, .commit commit consumed⟩))
    return (.ok (), journal)

def TurnJournal.inbox (held : Held) (journal : TurnJournal) :
    Sessioning (Except DynError (List Block) × TurnJournal) := do
  match ← take { held with taken := journal.taken } with
  | (.ok blocks, taken) => return (.ok blocks, { journal with taken := taken })
  | (.error error, taken) => return (.error error.toDynError, { journal with taken := taken })

/-- The handle while a turn runs: the future holds the lease, and the turn holds the context. -/
def Session.running (session : Session) (context : List Block) : Session :=
  { session with lease := none, context := context }

def answer (session : Session) (a : Await) (journal : TurnJournal) :
    Sessioning (a.Reply × TurnJournal) :=
  let held : Held := ⟨session.id, session.running a.held, session.lease, journal.taken⟩
  match a with
  | ⟨_, .save commit⟩ => journal.commit held commit
  | ⟨_, .inbox⟩ => journal.inbox held
  | ⟨_, wait⟩ => do
    let reply ← ask held (.drive wait)
    return (reply, journal)

def hexText (count value : Nat) : String :=
  String.ofList ((List.range count).reverse.map fun i => Nat.digitChar (value / 16 ^ i % 16))

def sessionIdText (id : SessionId) : String :=
  let n := id.bytes.toNat
  "-".intercalate [hexText 8 (n / 16 ^ 24), hexText 4 (n / 16 ^ 20), hexText 4 (n / 16 ^ 16),
    hexText 4 (n / 16 ^ 12), hexText 12 n]

def promptText (sections : List PromptSection) : String :=
  let texts := (sections.filter fun part => part.text ≠ "").map fun part =>
    if part.key = "base" then part.text
    else s!"<{part.key}>\n{part.text}\n</{part.key}>"
  "\n\n".intercalate texts

structure TurnSetup where
  model : Model
  toolset : Option Toolset
  search : SearchParts
  prompt : Option (List PromptSection) := none
  blobs : BlobStore

inductive SessionError where
  | round (error : RoundError)
  | store (error : StoreError)
  | stale
  | noInput
  | inputHook (error : DynError)

def TakeError.toSessionError : TakeError → SessionError
  | .store error => .store error
  | .hook error => .inputHook error

def TurnSetup.parts (setup : TurnSetup) (session : Session) : TurnParts where
  model := setup.model
  toolset := setup.toolset
  search := setup.search
  system := promptText (setup.prompt.getD session.prompt)
  settings := session.settings.settings
  sessionId := some (sessionIdText session.id)
  blobStore := some setup.blobs

def addNote (held : Held) (newestTurn : NewestTurn) (input : List Block) :
    Sessioning (Except TakeError (List Block) × List ConsumedInput) :=
  let noted := held.taken.any fun taken => ours taken.source
  match if noted then none else interruptionNote newestTurn with
  | none => return (.ok input, held.taken)
  | some note => do
    match ← ask held (.acceptInput note) with
    | .error error => return (.error (.store error), held.taken)
    | .ok _ =>
      match ← take held with
      | (.error error, taken) => return (.error error, taken)
      | (.ok blocks, taken) => return (.ok (input ++ blocks), taken)

def Session.turnEnded (session : Session) (ran : Except TurnError Outcome)
    (context : List Block) (journal : TurnJournal) : Except SessionError Outcome × Session :=
  let left := { session.running context with inputTokens := journal.inputTokens }
  match ran with
  | .ok outcome =>
    (.ok outcome,
     { left with newestTurn := .ended (.fromResult (.ok outcome)), lease := session.lease })
  | .error (.round error) =>
    (.error (.round error),
     { left with newestTurn := .ended (.fromResult (.error error)), lease := session.lease })
  | .error (.commit error) => (.error (.store (journal.failure.getD (.failed error))), left)

def Session.drive (setup : TurnSetup) (fuel : Nat) (session : Session) (input : List Block)
    (taken : List ConsumedInput) : Sessioning (Except SessionError Outcome × Session) := do
  let parts := setup.parts session
  let ran ← (parts.run fuel session.context session.inputTokens input).handle (answer session)
    { taken := taken, inputTokens := session.inputTokens }
  return session.turnEnded ran.1.1 ran.1.2 ran.2

def Session.runTurn (setup : TurnSetup) (fuel : Nat) (session : Session) :
    Sessioning (Except SessionError Outcome × Session) :=
  if session.isStale then return (.error .stale, session)
  else do
    match ← take ⟨session.id, session, none, []⟩ with
    | (.error error, _) => return (.error error.toSessionError, session)
    | (.ok input, taken) =>
      if input.isEmpty then return (.error .noInput, session)
      else
        match ← addNote ⟨session.id, session, none, taken⟩ session.newestTurn input with
        | (.error error, _) => return (.error error.toSessionError, session)
        | (.ok input, taken) => session.drive setup fuel input taken

/-- The ids of the calls in `context` without a result. Only an answer at the end of the context has
such calls. -/
def openCalls (context : List Block) : List String :=
  (context.rtakeWhile fun block => block.role ≠ .user).filterMap fun
    | .toolCall call => some call.callId
    | _ => none

def repairOf (context : List Block) : Commit where
  blocks := (openCalls context).map fun callId =>
    .toolResult (.error callId outcomeUnknown)
  «end» := some (.failed turnStopped)

/-- Open session `id` with `access`, for the owner of the handle `session`. A turn that the store
holds as open ends as failed. -/
def openAndEndTurn (id : SessionId) (session : Option Session) (access : Access) :
    Sessioning (Except StoreError (Opened × Option StoredEvent)) := do
  match ← ask ⟨id, session, none, []⟩ (.openSession access) with
  | .error error => return .error error
  | .ok opened =>
    if opened.newestTurn.isOpen then
      let repair := repairOf opened.context
      match ← ask ⟨id, session, opened.lease, []⟩ (.commit repair []) with
      | .error error => return .error error
      | .ok eventNumber =>
        let opened := { opened with
          context := opened.context ++ repair.blocks
          newestTurn := .ended (.failed turnStopped) }
        return .ok (opened, some ⟨eventNumber, .commit repair []⟩)
    else
      return .ok (opened, none)

/-- Open session `id`, and own it. -/
def Session.open (id : SessionId) : Sessioning (Except StoreError Session) := do
  match ← openAndEndTurn id none .write with
  | .error error => return .error error
  | .ok (opened, _) => return .ok (.fromOpened opened)

def Session.recover (session : Session) :
    Sessioning (Except StoreError (Option StoredEvent) × Session) := do
  let access := if session.isStale then Access.write else .read
  match ← openAndEndTurn session.id session access with
  | .error error => return (.error error, session)
  | .ok (opened, repair) =>
    return (.ok repair,
      { session with
        settings := opened.settings
        context := opened.context
        newestTurn := opened.newestTurn
        inputTokens := opened.inputTokens
        lease := if opened.lease.isSome then opened.lease else session.lease })

end Yuke.Agent
