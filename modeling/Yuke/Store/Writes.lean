import Yuke.Store.ContextReplay

/-!
# The writes of both stores

A write of a session adds the row of its event to the tables, and the event to the session in
memory. So the tables keep the saved events of each session.
-/

set_option autoImplicit false

namespace Yuke.Store

open Yuke.Engine (Commit)
open Yuke.Protocol
open Yuke.Agent
open Yuke.Shared (Increasing)

namespace Database

variable {db : Database} {session id : SessionId}

theorem hasSession_iff : db.hasSession id = true ↔ (db.sessionRow id).isSome := by
  rw [hasSession, sessionRow, List.find?_isSome, List.any_eq_true]

@[simp] theorem eventsOf_updateSession (change : SessionRow → SessionRow) :
    (db.updateSession session change).eventsOf id = db.eventsOf id := rfl

@[simp] theorem eventsOf_touchSession :
    (db.touchSession session).eventsOf id = db.eventsOf id := by
  unfold touchSession
  split <;> rfl

theorem sessionRow_updateSession {change : SessionRow → SessionRow}
    (hchange : ∀ row, (change row).id = row.id) :
    (db.updateSession session change).sessionRow id =
      (db.sessionRow id).map fun row => if id = session then change row else row := by
  unfold sessionRow updateSession
  simp only [List.find?_map]
  have hp : (fun row : SessionRow => decide (row.id = id)) ∘
      (fun row => if row.id = session then change row else row) =
      fun row => decide (row.id = id) := by
    funext row
    simp only [Function.comp_apply]
    split
    · rw [hchange]
    · rfl
  rw [hp]
  refine Option.map_congr fun row hrow => ?_
  have hid : row.id = id := by simpa using List.find?_some hrow
  rw [hid]

theorem sessionRow_touchSession :
    ∃ change : SessionRow → SessionRow,
      (∀ row, ∃ updatedAt newestEvent,
        change row = { row with updatedAt := updatedAt, newestEvent := newestEvent }) ∧
      (db.touchSession session).sessionRow id = (db.sessionRow id).map change := by
  unfold touchSession
  cases db.newestEvent session with
  | none => exact ⟨fun row => row, fun row => ⟨row.updatedAt, row.newestEvent, rfl⟩, by simp⟩
  | some event =>
    refine ⟨fun row => if id = session then
        { row with updatedAt := event.createdAt, newestEvent := event.id } else row, ?_, ?_⟩
    · intro row
      by_cases h : id = session
      · exact ⟨event.createdAt, event.id, by simp [h]⟩
      · exact ⟨row.updatedAt, row.newestEvent, by simp [h]⟩
    · exact sessionRow_updateSession fun _ => rfl

@[simp] theorem eventsOf_addSession {row : SessionRow} :
    (db.addSession row).eventsOf id = db.eventsOf id := rfl

theorem hasSession_addSession {row : SessionRow} :
    (db.addSession row).hasSession id = (db.hasSession id || decide (id = row.id)) := by
  rw [hasSession, addSession, List.any_append, hasSession]
  simp [eq_comm]

theorem insertEvent_isSome {columns : EventColumns} {now : Nat} :
    (db.insertEvent session columns now).isSome = db.hasSession session := by
  unfold insertEvent
  split
  · next h => simp [h]
  · next h => simpa using h

theorem insertEvent_eq {columns : EventColumns} {now : Nat} {inserted : Nat × Database}
    (h : db.insertEvent session columns now = some inserted) :
    inserted.1 = db.nextSeq session ∧ inserted.2 = { db with
      events := db.events ++ [db.newEvent session columns now]
      lastEvent := db.lastEvent + 1 } := by
  unfold insertEvent at h
  split at h
  · cases h
    exact ⟨rfl, rfl⟩
  · cases h

theorem eventsOf_insertEvent {columns : EventColumns} {now : Nat} {inserted : Nat × Database}
    (h : db.insertEvent session columns now = some inserted) :
    inserted.2.eventsOf id =
      db.eventsOf id ++ if id = session then [db.newEvent session columns now] else [] := by
  rw [(insertEvent_eq h).2, eventsOf, eventsOf, List.filter_append]
  by_cases hid : id = session
  · simp [hid, newEvent]
  · have hne : ¬ session = id := fun heq => hid heq.symm
    simp [hid, hne, newEvent]

theorem sessions_insertEvent {columns : EventColumns} {now : Nat} {inserted : Nat × Database}
    (h : db.insertEvent session columns now = some inserted) :
    inserted.2.sessions = db.sessions := by
  rw [(insertEvent_eq h).2]

end Database

namespace Keeps

variable {db : Database} {id session : SessionId} {events : List SessionEvent}

theorem nextSeq (h : Keeps db id events) : db.nextSeq id = events.length + 1 := by
  rw [Database.nextSeq, h.seqs]
  cases hn : events.length with
  | zero => rfl
  | succ n =>
    have hmax : (List.range' 1 (n + 1)).max? = some (n + 1) := by
      rw [List.max?_eq_some_iff]
      simp only [List.mem_range'_1]
      exact ⟨by omega, fun b hb => by omega⟩
    rw [hmax]
    rfl

theorem insertEvent (h : Keeps db id events) {event : SessionEvent} {now : Nat}
    {inserted : Nat × Database}
    (hinsert : db.insertEvent session (columnsOf event) now = some inserted) :
    Keeps inserted.2 id (if id = session then events ++ [event] else events) := by
  rw [Keeps, Database.eventsOf_insertEvent hinsert, List.map_append, h]
  by_cases hid : id = session
  · subst hid
    simp [entries_concat, Database.newEvent, h.nextSeq]
  · simp [hid]

theorem of_eventsOf {db' : Database} (h : Keeps db id events)
    (heq : db'.eventsOf id = db.eventsOf id) : Keeps db' id events := by
  rw [Keeps, heq]
  exact h

end Keeps

/-! ## Histories of writes -/

inductive Write where
  | create (id : SessionId) (settings : SessionSettings) (prompt : List PromptSection)
      (parent : Option SessionId)
  | settings (id : SessionId) (settings : SessionSettings)
  | commit (id : SessionId) (commit : Commit) (consumed : List ConsumedInput)
  deriving DecidableEq

def writeTables (db : Database) (now : Nat) : Write → Database
  | .create id settings prompt parent => (db.insertSession id settings prompt parent now).getD db
  | .settings id settings =>
    match db.insertEvent id (columnsOf (.settings settings)) now with
    | some inserted => (inserted.2.setSessionSettings id settings).touchSession id
    | none => db
  | .commit id commit consumed =>
    match db.insertEvent id (commitParams commit consumed) now with
    | some inserted => inserted.2.touchSession id
    | none => db

def pushEvent (state : State) (now : Nat) (id : SessionId) (event : SessionEvent) : State :=
  match state.sessions.lookup id with
  | some saved =>
    let write := state.nextWrite
    write.2.insert id (saved.pushEvent event write.1 now).2
  | none => state

def writeMemory (state : State) (now : Nat) : Write → State
  | .create id settings prompt parent =>
    if id ∈ state.sessions then state
    else
      let write := state.nextWrite
      write.2.insert id (Saved.new settings prompt parent write.1 now)
  | .settings id settings => pushEvent state now id (.settings settings)
  | .commit id commit consumed => pushEvent state now id (.commit commit consumed)

/-- The saved events of session `id`, or none without the session. -/
def eventsIn (state : State) (id : SessionId) : List SessionEvent :=
  (state.sessions.lookup id).elim [] Saved.content

structure Mirrors (db : Database) (state : State) : Prop where
  sessions : ∀ id, db.hasSession id = (state.sessions.lookup id).isSome
  events : ∀ id, Keeps db id (eventsIn state id)

theorem Database.hasSession_congr {db db' : Database} {id : SessionId}
    (h : (db'.sessionRow id).isSome = (db.sessionRow id).isSome) :
    db'.hasSession id = db.hasSession id := by
  rw [Bool.eq_iff_iff, hasSession_iff, hasSession_iff, h]

theorem Database.hasSession_updateSession {db : Database} {id session : SessionId}
    {change : SessionRow → SessionRow} (hchange : ∀ row, (change row).id = row.id) :
    (db.updateSession session change).hasSession id = db.hasSession id := by
  apply hasSession_congr
  rw [sessionRow_updateSession hchange, Option.isSome_map]

@[simp] theorem Database.hasSession_touchSession {db : Database} {id session : SessionId} :
    (db.touchSession session).hasSession id = db.hasSession id := by
  obtain ⟨change, _, hrow⟩ := @sessionRow_touchSession db session id
  apply hasSession_congr
  rw [hrow, Option.isSome_map]

theorem Database.hasSession_insertEvent {db : Database} {id session : SessionId}
    {columns : EventColumns} {now : Nat} {inserted : Nat × Database}
    (h : db.insertEvent session columns now = some inserted) :
    inserted.2.hasSession id = db.hasSession id := by
  rw [hasSession, sessions_insertEvent h, hasSession]

@[simp] theorem content_pushEvent (saved : Saved) (event : SessionEvent) (write now : Nat) :
    (saved.pushEvent event write now).2.content = saved.content ++ [event] := by
  simp [Saved.pushEvent, Saved.content]

theorem lookup_insert (state : State) (id other : SessionId) (saved : Saved) :
    (state.insert id saved).sessions.lookup other =
      if other = id then some saved else state.sessions.lookup other := by
  unfold State.insert
  split
  · next h => rw [h, AList.lookup_insert]
  · next h => rw [AList.lookup_insert_ne h]

namespace Mirrors

variable {db : Database} {state : State}

theorem empty : Mirrors {} {} := ⟨fun _ => rfl, fun _ => rfl⟩

theorem push (h : Mirrors db state) {id : SessionId} {event : SessionEvent} {now : Nat}
    {inserted : Nat × Database}
    (hinsert : db.insertEvent id (columnsOf event) now = some inserted) {db' : Database}
    (hsessions : ∀ other, db'.hasSession other = inserted.2.hasSession other)
    (hevents : ∀ other, db'.eventsOf other = inserted.2.eventsOf other) :
    Mirrors db' (pushEvent state now id event) := by
  have hsession : db.hasSession id = true := by
    rw [← Database.insertEvent_isSome, hinsert]
    rfl
  rw [h.sessions] at hsession
  obtain ⟨saved, hsaved⟩ := Option.isSome_iff_exists.mp hsession
  have hstate : ∀ other, (pushEvent state now id event).sessions.lookup other =
      if other = id then some (saved.pushEvent event state.nextWrite.1 now).2
      else state.sessions.lookup other := by
    intro other
    rw [pushEvent, hsaved]
    exact lookup_insert _ id other _
  refine ⟨fun other => ?_, fun other => ?_⟩
  · rw [hsessions, Database.hasSession_insertEvent hinsert, h.sessions, hstate]
    by_cases hother : other = id
    · subst hother
      simp [hsaved]
    · simp [hother]
  · have hkeeps := ((h.events other).insertEvent hinsert).of_eventsOf (hevents other)
    rw [eventsIn, hstate]
    by_cases hother : other = id
    · subst hother
      simpa [eventsIn, hsaved] using hkeeps
    · simpa [hother, eventsIn] using hkeeps

theorem push_none (h : Mirrors db state) {id : SessionId} {event : SessionEvent} {now : Nat}
    (hinsert : db.insertEvent id (columnsOf event) now = none) :
    pushEvent state now id event = state := by
  have hsession : db.hasSession id = false := by
    rw [← Database.insertEvent_isSome, hinsert]
    rfl
  rw [h.sessions, Option.isSome_eq_false_iff, Option.isNone_iff_eq_none] at hsession
  rw [pushEvent, hsession]

theorem create (h : Mirrors db state) {id : SessionId} {settings : SessionSettings}
    {prompt : List PromptSection} {parent : Option SessionId} {now : Nat}
    (hnew : db.hasSession id = false) {write : Nat} {state' : State}
    (hstate : ∀ other, state'.sessions.lookup other =
      if other = id then some (Saved.new settings prompt parent write now)
      else state.sessions.lookup other) :
    ∃ db', db.insertSession id settings prompt parent now = some db' ∧ Mirrors db' state' := by
  have hlookup : state.sessions.lookup id = none := by
    rw [h.sessions, Option.isSome_eq_false_iff, Option.isNone_iff_eq_none] at hnew
    exact hnew
  rw [Database.insertSession, if_neg (by simp [hnew])]
  generalize hrow : SessionRow.mk id prompt settings none none parent now now 0 = row
  have hsessions : ∀ other, (db.addSession row).hasSession other =
      (db.hasSession other || decide (other = id)) := by
    intro other
    rw [Database.hasSession_addSession, ← hrow]
  have hid : (db.addSession row).hasSession id = true := by simp [hsessions]
  rw [← @Database.insertEvent_isSome _ _ (columnsOf (.settings settings)) now] at hid
  obtain ⟨inserted, hinsert⟩ := Option.isSome_iff_exists.mp hid
  refine ⟨inserted.2.touchSession id, by simp only [hinsert]; rfl, fun other => ?_,
    fun other => ?_⟩
  · rw [Database.hasSession_touchSession, Database.hasSession_insertEvent hinsert, hsessions,
      h.sessions, hstate]
    by_cases hother : other = id <;> simp [hother]
  · have hkeeps := (((h.events other).of_eventsOf Database.eventsOf_addSession).insertEvent
      hinsert).of_eventsOf (@Database.eventsOf_touchSession _ id other)
    rw [eventsIn, hstate]
    by_cases hother : other = id
    · subst hother
      simpa [eventsIn, hlookup, Saved.new, Saved.content] using hkeeps
    · simpa [hother, eventsIn] using hkeeps

theorem write (h : Mirrors db state) (now : Nat) (write : Write) :
    Mirrors (writeTables db now write) (writeMemory state now write) := by
  cases write with
  | create id settings prompt parent =>
    by_cases hid : id ∈ state.sessions
    · have hsession : db.hasSession id = true := by
        rw [h.sessions, AList.lookup_isSome]
        exact hid
      rw [writeMemory, if_pos hid, writeTables, Database.insertSession, if_pos hsession]
      exact h
    · have hsession : db.hasSession id = false := by
        rw [h.sessions, Bool.eq_false_iff, ne_eq, AList.lookup_isSome]
        exact hid
      rw [writeMemory, if_neg hid, writeTables]
      obtain ⟨db', hdb', hmirrors⟩ := h.create hsession fun other =>
        lookup_insert state.nextWrite.2 id other _
      rw [hdb']
      exact hmirrors
  | settings id settings =>
    rw [writeTables, writeMemory]
    cases hinsert : db.insertEvent id (columnsOf (.settings settings)) now with
    | none =>
      rw [h.push_none hinsert]
      exact h
    | some inserted =>
      refine h.push hinsert (fun other => ?_) fun other => Database.eventsOf_touchSession
      rw [Database.hasSession_touchSession]
      exact Database.hasSession_updateSession fun _ => rfl
  | commit id commit consumed =>
    rw [writeTables, writeMemory]
    cases hinsert : db.insertEvent id (commitParams commit consumed) now with
    | none =>
      rw [h.push_none hinsert]
      exact h
    | some inserted =>
      exact h.push hinsert (fun other => Database.hasSession_touchSession)
        fun other => Database.eventsOf_touchSession

theorem writes (history : List (Nat × Write)) :
    Mirrors (history.foldl (fun db write => writeTables db write.1 write.2) {})
      (history.foldl (fun state write => writeMemory state write.1 write.2) {}) := by
  induction history using List.reverseRecOn with
  | nil => exact empty
  | append_singleton history last ih =>
    rw [List.foldl_append, List.foldl_append]
    exact ih.write last.1 last.2

end Mirrors

def turnFacts (opened : Opened) : List Yuke.Ai.Block × NewestTurn × Option Nat :=
  (opened.context, opened.newestTurn, opened.inputTokens)

/-- After any history of writes, the walk over the rows loads each session with the context, the
newest turn and the input tokens that the replay of its commits gives. -/
theorem load_eq_replay (history : List (Nat × Write)) (id : SessionId) :
    (load (history.foldl (fun db write => writeTables db write.1 write.2) {}) id).map
        (Option.map turnFacts) =
      .ok (((history.foldl (fun state write => writeMemory state write.1 write.2) {}).sessions.lookup
        id).map fun saved => turnFacts (saved.toOpened id none)) := by
  have h := Mirrors.writes history
  generalize history.foldl (fun db write => writeTables db write.1 write.2) {} = db at h ⊢
  generalize history.foldl (fun state write => writeMemory state write.1 write.2) {} = state at h ⊢
  cases hlookup : state.sessions.lookup id with
  | none =>
    have hrow : db.sessionRow id = none := by
      have hsession := h.sessions id
      rw [hlookup, Bool.eq_iff_iff, Database.hasSession_iff] at hsession
      simpa using hsession
    rw [load, hrow]
    rfl
  | some saved =>
    have hsession := h.sessions id
    rw [hlookup, Bool.eq_iff_iff, Database.hasSession_iff] at hsession
    obtain ⟨row, hrow⟩ := Option.isSome_iff_exists.mp (hsession.mpr rfl)
    have hkeeps := h.events id
    rw [eventsIn, hlookup] at hkeeps
    rw [hkeeps.load hrow]
    rfl

end Yuke.Store
