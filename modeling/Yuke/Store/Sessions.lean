import Yuke.Store.Cells
import Yuke.Store.Writes

/-!
# The store in a database

The methods of the store on the tables. What the work on the folder of a session gives is a parameter
of a method, and `locks` are the sessions whose lock a lease holds.
-/

set_option autoImplicit false

namespace Yuke.Store

open Yuke.Engine (Commit)
open Yuke.Protocol
open Yuke.Agent
open Yuke.Shared (orderBy orderByDesc)

def largestSeq : Nat := 2 ^ 63 - 1

/-- A machine integer binds as a signed integer of 64 bits. -/
def bindInteger (n : Nat) : Except StoreError Nat :=
  failed (if n ≤ largestSeq then .ok n else .error .outOfRange)

def taken : StoreError := .failed { text := "UNIQUE constraint failed: sessions.id" }

/-- A path that is not UTF-8 has no JSON text. -/
def saveable (settings : SessionSettings) : Except StoreError Unit :=
  match settings.cwd.toStr with
  | some _ => .ok ()
  | none => .error (.failed { text := "path contains invalid UTF-8 characters" })

def checkId (last : Nat) : Except StoreError Unit :=
  if last ≤ largestSeq then .ok () else .error (.failed { text := "database or disk is full" })

namespace Database

def deleteSession (db : Database) (session : SessionId) : Database :=
  { db with
    sessions := db.sessions.filter fun row => row.id ≠ session
    events := db.events.filter fun row => row.sessionId ≠ session
    pendingInputs := db.pendingInputs.filter fun row => row.sessionId ≠ session }

def insertPendingInput (db : Database) (session : SessionId) (input : Input) :
    Option (Nat × Database) :=
  if db.hasSession session then
    let row : PendingRow := ⟨db.lastInput + 1, session, input⟩
    some (row.id, { db with pendingInputs := db.pendingInputs ++ [row], lastInput := row.id })
  else
    none

def deletePendingInput (db : Database) (session : SessionId) (input : InputId) :
    Except StoreError (Nat × Database) := do
  let id ← bindInteger input.number
  let out := db.pendingInputs.partition fun row => row.sessionId = session ∧ row.id = id
  return (out.1.length, { db with pendingInputs := out.2 })

def pendingOf (db : Database) (session : SessionId) : List PendingInput :=
  (orderBy PendingRow.id (db.pendingInputs.filter fun row => row.sessionId = session)).map
    fun row => ⟨⟨row.id⟩, row.input⟩

def initializeTitle (db : Database) (session : SessionId) (title : String) : Database :=
  db.updateSession session fun row =>
    if row.title.isNone then { row with title := some title } else row

def setTitle (db : Database) (session : SessionId) (title : String) : Database :=
  db.updateSession session fun row => { row with title := some title }

def endsCompletedTurn (db : Database) (session : SessionId) (seq : Nat) : Bool :=
  (db.commitsOf session).any fun row => row.seq = seq ∧ row.columns.endKind = some completedKind

def forkCut (db : Database) (session : SessionId) : Option (Option Nat) :=
  (db.sessionRow session).map fun _ =>
    let commits := db.commitsOf session
    let ended := commits.filter fun row => row.columns.endKind = some completedKind
    (ended.map EventRow.seq).max?.or <|
      ((commits.map EventRow.seq).min?.map (· - 1)).or ((db.eventsOf session).map EventRow.seq).max?

/-- The newest settings of the session at event `cut`. -/
def settingsAt (db : Database) (session : SessionId) (cut : Nat) : Option SessionSettings :=
  (orderByDesc EventRow.seq ((db.eventsOf session).filter fun row =>
    row.columns.kind = .settings ∧ row.seq ≤ cut)).head?.bind (·.columns.settings)

/-- Add session `id` as a fork of `source`. A taken id adds no row. -/
def copySession (db : Database) (source : SessionRow) (id : SessionId) (cut : Nat)
    (title : Option String) (now : Nat) : Option Database :=
  if db.hasSession id then none
  else some <| db.addSession {
    id := id
    prompt := source.prompt
    settings := (db.settingsAt source.id cut).getD source.settings
    title := title
    forkOf := some source.id
    parent := none
    createdAt := now
    updatedAt := now
    newestEvent := 0 }

/-- Copy each event of `source` up to event `cut`, with its number and its time. -/
def copyEvents (db : Database) (source id : SessionId) (cut : Nat) : Database :=
  let rows := orderBy EventRow.seq ((db.eventsOf source).filter fun row => row.seq ≤ cut)
  let copies := (rows.zipIdx (db.lastEvent + 1)).map fun entry =>
    { entry.1 with id := entry.2, sessionId := id }
  { db with events := db.events ++ copies, lastEvent := db.lastEvent + rows.length }

def placeFork (db : Database) (id : SessionId) : Database :=
  match db.newestEvent id with
  | some event => db.updateSession id fun row => { row with newestEvent := event.id }
  | none => db

def listRows (db : Database) (parent : Option SessionId) (cwd : Option String) (before : Nat) :
    List SessionRow :=
  orderByDesc SessionRow.newestEvent <| db.sessions.filter fun row =>
    row.parent = parent ∧ (cwd.all fun cwd => row.settings.cwd.toStr = some cwd) ∧
      row.newestEvent < before

/-- The last `limit` events between two numbers. A negative limit takes each of them. -/
def eventsPage (db : Database) (session : SessionId) (after before : Nat) (limit : Int) :
    List EventRow :=
  let rows := orderByDesc EventRow.seq ((db.eventsOf session).filter fun row =>
    after < row.seq ∧ row.seq < before)
  orderBy EventRow.seq (if limit < 0 then rows else rows.take limit.toNat)

def ensureSession (db : Database) (session : SessionId) : Except StoreError Unit :=
  if db.hasSession session then .ok () else .error .notFound

def saveSession (db : Database) (session : SessionId) (settings : SessionSettings)
    (prompt : List PromptSection) (parent : Option SessionId) (now : Nat) :
    Except StoreError Database :=
  match db.insertSession session settings prompt parent now with
  | none => .error taken
  | some db => do
    checkId db.lastEvent
    return db

def saveSettings (db : Database) (session : SessionId) (settings : SessionSettings) (now : Nat) :
    Except StoreError (EventNumber × Database) :=
  match db.insertEvent session (columnsOf (.settings settings)) now with
  | none => .error .notFound
  | some inserted => do
    checkId inserted.2.lastEvent
    return (⟨inserted.1⟩, (inserted.2.setSessionSettings session settings).touchSession session)

def consume (db : Database) (session : SessionId) : List InputId → Except StoreError Database
  | [] => .ok db
  | input :: rest => do
    let deleted ← db.deletePendingInput session input
    if deleted.1 = 0 then .error (.inputNotPending input) else deleted.2.consume session rest

def saveCommit (db : Database) (session : SessionId) (commit : Commit)
    (consumed : List ConsumedInput) (now : Nat) : Except StoreError (EventNumber × Database) := do
  let _ ← (Cells.countsOf commit).mapM bindInteger
  match db.insertEvent session (commitParams commit consumed) now with
  | none => .error .notFound
  | some inserted => do
    checkId inserted.2.lastEvent
    let db ← inserted.2.consume session (consumed.map (·.id))
    return (⟨inserted.1⟩, db.touchSession session)

def forkPoint (db : Database) (source : SessionId) (through : Option EventNumber) :
    Except StoreError Nat := do
  match through with
  | some through =>
    db.ensureSession source
    if largestSeq < through.number then .error .notACompletedTurn
    else if db.endsCompletedTurn source through.number then .ok through.number
    else .error .notACompletedTurn
  | none =>
    match db.forkCut source with
    | none => .error .notFound
    | some cut => failed (required cut "cut")

/-- Add session `id` with the events of `source` up to `cut`. -/
def copyRows (db : Database) (source id : SessionId) (cut now : Nat) :
    Except StoreError Database :=
  match db.sessionRow source with
  | none => .error .notFound
  | some row =>
    let title := row.title.bind fun title => SessionTitle.fromText s!"Fork — {title}"
    match db.copySession row id cut (title.map SessionTitle.text) now with
    | none => .error taken
    | some db => do
      let copied := db.copyEvents source id cut
      checkId copied.lastEvent
      return copied.placeFork id

end Database

/-! ## Methods -/

structure SqliteStore where
  database : Database := {}
  locks : Finset SessionId := ∅

def readTitle (title : Option String) : Except StoreError (Option SessionTitle) :=
  match title with
  | none => .ok none
  | some text =>
    match SessionTitle.new text with
    | some title => .ok (some title)
    | none => .error (.failed { text := "a session title must contain 1 to 200 characters" })

def SessionRow.summary (row : SessionRow) : Except StoreError SessionSummary := do
  let title ← readTitle row.title
  return {
    sessionId := row.id
    model := row.settings.model
    cwd := row.settings.cwd
    title := title
    createdAt := row.createdAt
    updatedAt := row.updatedAt
    forkOf := row.forkOf
    parent := row.parent }

namespace SqliteStore

/-- Take the lock of a session. `folder` is what the work on its folder gives. -/
def takeLock (store : SqliteStore) (id : SessionId) (folder : Except StoreError Unit) :
    Except StoreError (Lease × SqliteStore) := do
  folder
  if id ∈ store.locks then .error .owned
  else .ok (⟨id⟩, { store with locks := insert id store.locks })

def release (store : SqliteStore) (id : SessionId) : SqliteStore :=
  { store with locks := store.locks.erase id }

def deleteNew (store : SqliteStore) (id : SessionId) (error : StoreError) :
    Except StoreError Opened × SqliteStore :=
  (.error error, { store with database := store.database.deleteSession id })

def createSession (store : SqliteStore) (id : SessionId) (settings : SessionSettings)
    (prompt : List PromptSection) (parent : Option SessionId) (folder : Except StoreError Unit)
    (now : Nat) : Except StoreError Opened × SqliteStore :=
  match saveable settings with
  | .error error => (.error error, store)
  | .ok () =>
    match store.database.saveSession id settings prompt parent now with
    | .error error => (.error error, store)
    | .ok db =>
      let store := { store with database := db }
      match store.takeLock id folder with
      | .error error => store.deleteNew id error
      | .ok locked =>
        (.ok {
          id := id
          settings := settings
          prompt := prompt
          context := []
          parent := parent
          newestTurn := .empty
          inputTokens := none
          lease := some locked.1 }, locked.2)

def read (store : SqliteStore) (id : SessionId) : Except StoreError Opened := do
  let opened ← failed (Store.load store.database id)
  match opened with
  | some opened => .ok opened
  | none => .error .notFound

def forkSession (store : SqliteStore) (source id : SessionId) (through : Option EventNumber)
    (folder : Except StoreError Unit) (now : Nat) : Except StoreError Opened × SqliteStore :=
  match store.database.forkPoint source through with
  | .error error => (.error error, store)
  | .ok cut =>
    match store.takeLock id folder with
    | .error error => store.deleteNew id error
    | .ok locked =>
      match store.database.copyRows source id cut now with
      | .error error => store.deleteNew id error
      | .ok db =>
        let forked := { locked.2 with database := db }
        match forked.read id with
        | .error error => { store with database := db }.deleteNew id error
        | .ok opened => (.ok { opened with lease := some locked.1 }, forked)

def setSettings (store : SqliteStore) (id : SessionId) (settings : SessionSettings) (now : Nat) :
    Except StoreError EventNumber × SqliteStore :=
  match saveable settings >>= fun _ => store.database.saveSettings id settings now with
  | .error error => (.error error, store)
  | .ok saved => (.ok saved.1, { store with database := saved.2 })

def renameSession (store : SqliteStore) (id : SessionId) (title : SessionTitle) :
    Except StoreError Unit × SqliteStore :=
  if store.database.hasSession id then
    (.ok (), { store with database := store.database.setTitle id title.text })
  else (.error .notFound, store)

def acceptInput (store : SqliteStore) (id : SessionId) (input : Input) :
    Except StoreError InputId × SqliteStore :=
  match store.database.insertPendingInput id input with
  | none => (.error .notFound, store)
  | some inserted =>
    match checkId inserted.1 with
    | .error error => (.error error, store)
    | .ok () =>
      let db := match titleOf input with
        | some title => inserted.2.initializeTitle id title.text
        | none => inserted.2
      (.ok ⟨inserted.1⟩, { store with database := db })

def removeInput (store : SqliteStore) (id : SessionId) (input : InputId) :
    Except StoreError Unit × SqliteStore :=
  match store.database.deletePendingInput id input with
  | .error error => (.error error, store)
  | .ok deleted =>
    if deleted.1 = 0 then
      (store.database.ensureSession id >>= fun _ => .error (.inputNotPending input), store)
    else (.ok (), { store with database := deleted.2 })

/-- A page of the sessions of a folder whose path has the text `cwd`. -/
def listFolder (store : SqliteStore) (cwd : Option String) (parent : Option SessionId)
    (after : Option ListPosition) (limit : Nat) : Except StoreError SessionPage := do
  let before := after.elim largestSeq fun after => min after.position largestSeq
  -- One row more than the page tells whether an older session exists.
  let rows ← bindInteger (min (limit + 1) (2 ^ 64 - 1))
  let listed ← ((store.database.listRows parent cwd before).take rows).mapM fun row => do
    let summary ← row.summary
    return (summary, row.newestEvent)
  let page := listed.take limit
  return {
    sessions := page.map Prod.fst
    next := if limit < listed.length then page.getLast?.map fun last => ⟨last.2⟩ else none }

def listSessions (store : SqliteStore) (cwd : Option PathBuf) (parent : Option SessionId)
    (after : Option ListPosition) (limit : Nat) : Except StoreError SessionPage :=
  match cwd with
  | none => store.listFolder none parent after limit
  | some path =>
    match path.toStr with
    | some text => store.listFolder (some text) parent after limit
    | none => .ok ⟨[], none⟩

def sessionSummary (store : SqliteStore) (id : SessionId) : Except StoreError SessionSummary :=
  match store.database.sessionRow id with
  | none => .error .notFound
  | some row => row.summary

def openSession (store : SqliteStore) (id : SessionId) (access : Access)
    (folder : Except StoreError Unit) : Except StoreError Opened × SqliteStore :=
  match access with
  | .read => (store.read id, store)
  | .write =>
    match store.database.ensureSession id >>= fun _ => store.takeLock id folder with
    | .error error => (.error error, store)
    | .ok locked =>
      match store.read id with
      | .error error => (.error error, store)
      | .ok opened => (.ok { opened with lease := some locked.1 }, locked.2)

def commit (store : SqliteStore) (id : SessionId) (commit : Commit) (consumed : List ConsumedInput)
    (now : Nat) : Except StoreError EventNumber × SqliteStore :=
  match checkConsumedBlocks commit consumed >>= fun _ =>
      store.database.saveCommit id commit consumed now with
  | .error error => (.error error, store)
  | .ok saved => (.ok saved.1, { store with database := saved.2 })

def pending (store : SqliteStore) (id : SessionId) : Except StoreError (List PendingInput) := do
  store.database.ensureSession id
  return store.database.pendingOf id

def load (store : SqliteStore) (id : SessionId) (page : EventPage) : Except StoreError Loaded := do
  let seq := fun number : EventNumber => min number.number largestSeq
  store.database.ensureSession id
  let rows := match page with
    | .after after => store.database.eventsPage id (after.elim 0 seq) largestSeq (-1)
    | .before before limit =>
      store.database.eventsPage id 0 (before.elim largestSeq seq) (min limit largestSeq : Nat)
  let events ← failed (rows.mapM storedEvent)
  return ⟨events, store.database.pendingOf id⟩

/-- `removal` is what the removal of the folder gives, after the rows are gone. -/
def deleteSession (store : SqliteStore) (id : SessionId) (folder removal : Except StoreError Unit) :
    Except StoreError Unit × SqliteStore :=
  match store.database.ensureSession id >>= fun _ => store.takeLock id folder with
  | .error error => (.error error, store)
  | .ok _ => (removal, { store with database := store.database.deleteSession id })

end SqliteStore

end Yuke.Store
