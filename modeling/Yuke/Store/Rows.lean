import Yuke.Agent.Memory
import Yuke.Shared.Table

/-!
# The tables of the database

The rows of the three tables, and the queries on them. A column that holds JSON has the value that
its text reads back as.
-/

set_option autoImplicit false

namespace Yuke.Store

open Yuke.Ai (Block FinishReason)
open Yuke.Engine (Answer Commit CommitDisplay DynError Outcome Replaced TurnEnd)
open Yuke.Protocol
open Yuke.Agent
open Yuke.Shared (orderBy orderByDesc)

inductive EventKind where
  | commit
  | settings
  deriving DecidableEq

structure EventColumns where
  kind : EventKind
  blocks : Option (List Block) := none
  settings : Option SessionSettings := none
  consumed : Option (List ConsumedInput) := none
  head : Option (List Block) := none
  keep : Option Nat := none
  model : Option String := none
  baseUrl : Option String := none
  inputTokens : Option Nat := none
  outputTokens : Option Nat := none
  reasoningTokens : Option Nat := none
  cacheReadTokens : Option Nat := none
  cacheWriteTokens : Option Nat := none
  finishReason : Option String := none
  endKind : Option String := none
  endFinishReason : Option String := none
  endMessage : Option String := none
  display : Option CommitDisplay := none
  deriving DecidableEq

structure EventRow where
  id : Nat
  sessionId : SessionId
  seq : Nat
  columns : EventColumns
  createdAt : Nat
  deriving DecidableEq

structure SessionRow where
  id : SessionId
  prompt : List PromptSection
  settings : SessionSettings
  title : Option String
  forkOf : Option SessionId
  parent : Option SessionId
  createdAt : Nat
  updatedAt : Nat
  newestEvent : Nat
  deriving DecidableEq

structure PendingRow where
  id : Nat
  sessionId : SessionId
  input : Input
  deriving DecidableEq

/-- The tables, and the largest ids that the events and the pending inputs ever had. -/
structure Database where
  sessions : List SessionRow := []
  events : List EventRow := []
  pendingInputs : List PendingRow := []
  lastEvent : Nat := 0
  lastInput : Nat := 0

inductive SqlError where
  | invalidColumnType (column : String) (type : String)
  | outOfRange
  deriving DecidableEq

def SqlError.toDynError : SqlError → DynError
  | .invalidColumnType column type =>
    { text := s!"Invalid column type {type} at index: 0, name: {column}" }
  | .outOfRange => { text := "out of range integral type conversion attempted" }

def failed {α : Type} (result : Except SqlError α) : Except StoreError α :=
  result.mapError fun error => .failed error.toDynError

@[simp] theorem ok_bind {ε α β : Type} (a : α) (f : α → Except ε β) :
    ((Except.ok a : Except ε α) >>= f) = f a := rfl

/-! ## The rows of events -/

def completedKind : String := "completed"
def stoppedKind : String := "stopped"
def cancelledKind : String := "cancelled"
def failedKind : String := "failed"

def endColumns : Option TurnEnd → Option String × Option String × Option String
  | none => (none, none, none)
  | some (.outcome (.completed finishReason)) => (some completedKind, some finishReason.asStr, none)
  | some (.outcome .stopped) => (some stoppedKind, none, none)
  | some (.outcome .cancelled) => (some cancelledKind, none, none)
  | some (.failed message) => (some failedKind, none, some message)

def commitParams (commit : Commit) (consumed : List ConsumedInput) : EventColumns :=
  let answer := commit.answer
  let usage := answer.map (·.usage)
  let ended := endColumns commit.end
  let empty := commit.display.calls.isEmpty && commit.display.results.isEmpty
  { kind := .commit
    blocks := some commit.blocks
    consumed := some consumed
    head := commit.replaced.map (·.head)
    keep := commit.replaced.map (·.keep)
    model := answer.map (·.origin.model)
    baseUrl := answer.map (·.origin.baseUrl)
    inputTokens := usage.bind (·.input)
    outputTokens := usage.bind (·.output)
    reasoningTokens := usage.bind (·.reasoning)
    cacheReadTokens := usage.bind (·.cacheRead)
    cacheWriteTokens := usage.bind (·.cacheWrite)
    finishReason := answer.map (·.finishReason.asStr)
    endKind := ended.1
    endFinishReason := ended.2.1
    endMessage := ended.2.2
    display := if empty then none else some commit.display }

def columnsOf : SessionEvent → EventColumns
  | .settings settings => { kind := .settings, settings := some settings }
  | .commit commit consumed => commitParams commit consumed

def required {α : Type} (value : Option α) (column : String) : Except SqlError α :=
  match value with
  | some value => .ok value
  | none => .error (.invalidColumnType column "Null")

def finishReason (name column : String) : Except SqlError FinishReason :=
  match FinishReason.fromName name with
  | some reason => .ok reason
  | none => .error (.invalidColumnType column "Text")

def turnEnd (endKind endFinishReason endMessage : Option String) :
    Except SqlError (Option TurnEnd) :=
  match endKind with
  | none => .ok none
  | some kind =>
    if kind = completedKind then do
      let name ← required endFinishReason "end_finish_reason"
      let reason ← finishReason name "end_finish_reason"
      return some (.outcome (.completed reason))
    else if kind = stoppedKind then .ok (some (.outcome .stopped))
    else if kind = cancelledKind then .ok (some (.outcome .cancelled))
    else if kind = failedKind then do
      let message ← required endMessage "end_message"
      return some (.failed message)
    else .error (.invalidColumnType "end_kind" "Text")

theorem turnEnd_endColumns (ended : Option TurnEnd) :
    turnEnd (endColumns ended).1 (endColumns ended).2.1 (endColumns ended).2.2 = .ok ended := by
  rcases ended with - | (finishReason | - | -) | message
  · rfl
  · cases finishReason <;> rfl
  · rfl
  · rfl
  · rfl

def commit (row : EventColumns) : Except SqlError Commit := do
  let replaced : Option Replaced :=
    match row.head, row.keep with
    | some head, some keep => some ⟨head, keep⟩
    | _, _ => none
  let answer : Option Answer ←
    match row.model with
    | some model => do
      let baseUrl ← required row.baseUrl "base_url"
      let name ← required row.finishReason "finish_reason"
      let reason ← finishReason name "finish_reason"
      pure (some {
        origin := ⟨model, baseUrl⟩
        usage := ⟨row.inputTokens, row.outputTokens, row.reasoningTokens, row.cacheReadTokens,
          row.cacheWriteTokens⟩
        finishReason := reason })
    | none => pure none
  let blocks ← required row.blocks "blocks"
  let ended ← turnEnd row.endKind row.endFinishReason row.endMessage
  return {
    replaced := replaced
    blocks := blocks
    answer := answer
    «end» := ended
    display := row.display.getD {} }

def storedEvent (row : EventRow) : Except SqlError StoredEvent := do
  match row.columns.kind with
  | .settings =>
    let settings ← required row.columns.settings "settings"
    return ⟨⟨row.seq⟩, .settings settings⟩
  | .commit =>
    let consumed ← required row.columns.consumed "consumed"
    let commit ← commit row.columns
    return ⟨⟨row.seq⟩, .commit commit consumed⟩

theorem commit_commitParams (commit : Commit) (consumed : List ConsumedInput) :
    Store.commit (commitParams commit consumed) = .ok commit := by
  obtain ⟨replaced, blocks, answer, ended, display⟩ := commit
  have hended := turnEnd_endColumns ended
  have hdisplay : (if display.calls.isEmpty && display.results.isEmpty then none
      else some display).getD {} = display := by
    obtain ⟨calls, results⟩ := display
    cases calls <;> cases results <;> rfl
  have hreason : ∀ reason : FinishReason, finishReason reason.asStr "finish_reason" = .ok reason := by
    intro reason
    rw [finishReason, FinishReason.fromName_asStr]
  unfold Store.commit commitParams
  simp only [required, hended, hdisplay]
  cases answer with
  | none => cases replaced <;> rfl
  | some answer => cases replaced <;> simp [hreason]

theorem storedEvent_columnsOf {row : EventRow} {event : SessionEvent}
    (h : row.columns = columnsOf event) : storedEvent row = .ok ⟨⟨row.seq⟩, event⟩ := by
  cases event with
  | settings settings => simp [storedEvent, h, columnsOf, required, pure, Except.pure]
  | commit commit consumed =>
    simp only [storedEvent, h, columnsOf, commit_commitParams]
    rfl

namespace Database

def hasSession (db : Database) (session : SessionId) : Bool :=
  db.sessions.any fun row => row.id = session

def sessionRow (db : Database) (session : SessionId) : Option SessionRow :=
  db.sessions.find? fun row => row.id = session

def eventsOf (db : Database) (session : SessionId) : List EventRow :=
  db.events.filter fun row => row.sessionId = session

def commitsOf (db : Database) (session : SessionId) : List EventRow :=
  (db.eventsOf session).filter fun row => row.columns.kind = .commit

def newestReplacement (db : Database) (session : SessionId) : Option EventRow :=
  (orderByDesc EventRow.seq
    ((db.commitsOf session).filter fun row => row.columns.keep.isSome)).head?

/-- The newest commit of the session before event `before`. -/
def previousCommit (db : Database) (session : SessionId) (before : Nat) : Option EventRow :=
  (orderByDesc EventRow.seq ((db.commitsOf session).filter fun row => row.seq < before)).head?

/-- The commits of the session from event `first` on, oldest first. -/
def commitsFrom (db : Database) (session : SessionId) (first : Nat) : List EventRow :=
  orderBy EventRow.seq ((db.commitsOf session).filter fun row => first ≤ row.seq)

def newestInputTokens (db : Database) (session : SessionId) : Option (Option Nat) :=
  (orderByDesc EventRow.seq ((db.commitsOf session).filter fun row =>
    row.columns.model.isSome || row.columns.keep.isSome)).head?.map (·.columns.inputTokens)

theorem seq_lt_of_previousCommit {db : Database} {session : SessionId} {before : Nat}
    {row : EventRow} (h : db.previousCommit session before = some row) : row.seq < before := by
  have hmem := List.mem_of_head? h
  rw [orderByDesc, List.mem_mergeSort] at hmem
  simpa using (List.mem_filter.mp hmem).2

def nextSeq (db : Database) (session : SessionId) : Nat :=
  ((db.eventsOf session).map EventRow.seq).max?.getD 0 + 1

def newEvent (db : Database) (session : SessionId) (columns : EventColumns) (now : Nat) :
    EventRow where
  id := db.lastEvent + 1
  sessionId := session
  seq := db.nextSeq session
  columns := columns
  createdAt := now

def insertEvent (db : Database) (session : SessionId) (columns : EventColumns) (now : Nat) :
    Option (Nat × Database) :=
  if db.hasSession session then
    let row := db.newEvent session columns now
    some (row.seq, { db with events := db.events ++ [row], lastEvent := row.id })
  else
    none

def updateSession (db : Database) (session : SessionId) (change : SessionRow → SessionRow) :
    Database :=
  { db with sessions := db.sessions.map fun row => if row.id = session then change row else row }

def setSessionSettings (db : Database) (session : SessionId) (settings : SessionSettings) :
    Database :=
  db.updateSession session fun row => { row with settings := settings }

def newestEvent (db : Database) (session : SessionId) : Option EventRow :=
  (orderByDesc EventRow.seq (db.eventsOf session)).head?

def touchSession (db : Database) (session : SessionId) : Database :=
  match db.newestEvent session with
  | some event =>
    db.updateSession session fun row =>
      { row with updatedAt := event.createdAt, newestEvent := event.id }
  | none => db

def addSession (db : Database) (row : SessionRow) : Database :=
  { db with sessions := db.sessions ++ [row] }

/-- Save a new session row and its first event, which holds its settings. A taken id adds no
row. -/
def insertSession (db : Database) (session : SessionId) (settings : SessionSettings)
    (prompt : List PromptSection) (parent : Option SessionId) (now : Nat) : Option Database :=
  if db.hasSession session then none
  else
    let added := db.addSession {
      id := session
      prompt := prompt
      settings := settings
      title := none
      forkOf := none
      parent := parent
      createdAt := now
      updatedAt := now
      newestEvent := 0 }
    (added.insertEvent session (columnsOf (.settings settings)) now).map fun inserted =>
      inserted.2.touchSession session

end Database

end Yuke.Store
