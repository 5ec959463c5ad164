import Yuke.Agent.Store

/-!
# The store in memory

A session is the list of its saved events. A replay of the events gives its settings, its context
and its newest turn.
-/

set_option autoImplicit false

namespace Yuke.Agent

open Yuke.Ai (Block)
open Yuke.Engine (Commit Outcome TurnEnd)
open Yuke.Protocol

def settingsOf : SessionEvent → Option SessionSettings
  | .settings settings => some settings
  | .commit _ _ => none

def completed (stored : StoredEvent) : Bool :=
  match stored.event with
  | .commit commit _ =>
    match commit.end with
    | some (.outcome (.completed _)) => true
    | _ => false
  | .settings _ => false

structure Replayed where
  settings : Option SessionSettings := none
  context : List Block := []
  newestTurn : NewestTurn := .empty
  inputTokens : Option Nat := none
  deriving DecidableEq

def inputTokensAfter (commit : Commit) (inputTokens : Option Nat) : Option Nat :=
  match commit.answer with
  | some answer => answer.usage.input
  | none => if commit.replaced.isSome then none else inputTokens

def Replayed.next (replayed : Replayed) : SessionEvent → Replayed
  | .settings settings => { replayed with settings := some settings }
  | .commit commit _ =>
    { replayed with
      context := commit.apply replayed.context
      newestTurn := .ofEnd commit.end
      inputTokens := inputTokensAfter commit replayed.inputTokens }

def Replayed.of (events : List SessionEvent) : Replayed := events.foldl Replayed.next {}

@[simp] theorem Replayed.of_concat (events : List SessionEvent) (event : SessionEvent) :
    Replayed.of (events ++ [event]) = (Replayed.of events).next event := by
  simp [Replayed.of]

def forkCut (events : List StoredEvent) (through : Option EventNumber) : Except StoreError Nat :=
  match through with
  | some through =>
    if through.number = 0 then .error .notACompletedTurn
    else
      match events[through.number - 1]? with
      | some stored => if completed stored then .ok through.number else .error .notACompletedTurn
      | none => .error .notACompletedTurn
  | none =>
    match events.reverse.findIdx? completed with
    | some back => .ok (events.length - back)
    | none =>
      .ok ((events.findIdx? fun stored => (settingsOf stored.event).isNone).getD events.length)

/-- One saved session. Its first event holds its settings, and the event at index `i` has the number
`i + 1`. -/
structure Saved where
  prompt : List PromptSection
  events : List StoredEvent
  pending : List PendingInput
  newestWrite : Nat
  title : Option SessionTitle
  forkOf : Option SessionId
  parent : Option SessionId
  createdAt : Nat
  updatedAt : Nat
  numbered : events.map StoredEvent.eventNumber = (List.range' 1 events.length).map .mk
  first : ∃ stored ∈ events.head?, (settingsOf stored.event).isSome

theorem Replayed.next_settings_isSome {replayed : Replayed} (h : replayed.settings.isSome)
    (event : SessionEvent) : (replayed.next event).settings.isSome := by
  cases event with
  | settings settings => rfl
  | commit commit consumed => exact h

theorem Replayed.foldl_settings_isSome {replayed : Replayed} (h : replayed.settings.isSome)
    (events : List SessionEvent) : (events.foldl Replayed.next replayed).settings.isSome := by
  induction events generalizing replayed with
  | nil => exact h
  | cons event events ih => exact ih (next_settings_isSome h event)

theorem Replayed.settings_of (events : List SessionEvent) :
    (Replayed.of events).settings = events.reverse.findSome? settingsOf := by
  induction events using List.reverseRecOn with
  | nil => rfl
  | append_singleton events event ih =>
    rw [of_concat, List.reverse_append, List.reverse_singleton, List.singleton_append,
      List.findSome?_cons]
    cases event with
    | settings settings => rfl
    | commit commit consumed => exact ih

namespace Saved

def content (saved : Saved) : List SessionEvent := saved.events.map StoredEvent.event

def replayed (saved : Saved) : Replayed := Replayed.of saved.content

theorem replayed_settings_isSome (saved : Saved) : saved.replayed.settings.isSome := by
  obtain ⟨stored, hstored, hsettings⟩ := saved.first
  cases hevents : saved.events with
  | nil => simp [hevents] at hstored
  | cons head events =>
    have hhead : head = stored := by simpa [hevents] using hstored
    subst hhead
    obtain ⟨settings, hsettings⟩ := Option.isSome_iff_exists.mp hsettings
    have hevent : head.event = .settings settings := by
      cases h : head.event with
      | settings other => rw [h] at hsettings; simpa [settingsOf] using hsettings
      | commit commit consumed => rw [h] at hsettings; simp [settingsOf] at hsettings
    rw [replayed, content, hevents, List.map_cons, Replayed.of, List.foldl_cons, hevent]
    exact Replayed.foldl_settings_isSome rfl _

def new (settings : SessionSettings) (prompt : List PromptSection) (parent : Option SessionId)
    (write now : Nat) : Saved where
  prompt := prompt
  events := [⟨⟨1⟩, .settings settings⟩]
  pending := []
  newestWrite := write
  title := none
  forkOf := none
  parent := parent
  createdAt := now
  updatedAt := now
  numbered := rfl
  first := ⟨_, rfl, rfl⟩

def settings (saved : Saved) : SessionSettings :=
  (saved.content.reverse.findSome? settingsOf).get <| by
    rw [← Replayed.settings_of]
    exact saved.replayed_settings_isSome

/-- Save `event` with the next number of the session. -/
def pushEvent (saved : Saved) (event : SessionEvent) (write now : Nat) : EventNumber × Saved :=
  let eventNumber : EventNumber := ⟨saved.events.length + 1⟩
  (eventNumber,
   { saved with
     events := saved.events ++ [⟨eventNumber, event⟩]
     newestWrite := write
     updatedAt := now
     numbered := by
       rw [List.map_append, saved.numbered, List.length_append, List.length_singleton,
         List.range'_concat, List.map_append]
       simp [eventNumber, Nat.add_comm]
     first := by
       obtain ⟨stored, hstored, hsettings⟩ := saved.first
       exact ⟨stored, by rw [List.head?_append, Option.mem_def.mp hstored]; rfl, hsettings⟩ })

/-- The saved facts of the session `id`. -/
def summary (saved : Saved) (id : SessionId) : SessionSummary where
  sessionId := id
  model := saved.settings.model
  cwd := saved.settings.cwd
  title := saved.title
  createdAt := saved.createdAt
  updatedAt := saved.updatedAt
  forkOf := saved.forkOf
  parent := saved.parent

/-- The session `id` as a load gives it, with `lease`. -/
def toOpened (saved : Saved) (id : SessionId) (lease : Option Lease) : Opened where
  id := id
  settings := saved.replayed.settings.get saved.replayed_settings_isSome
  prompt := saved.prompt
  context := saved.replayed.context
  parent := saved.parent
  newestTurn := saved.replayed.newestTurn
  inputTokens := saved.replayed.inputTokens
  lease := lease

end Saved

/-! ## The store -/

structure State where
  sessions : AList fun _ : SessionId => Saved := ∅
  newestInput : Nat := 0
  writes : Nat := 0

/-- A store that keeps its sessions in memory. `writers` are the sessions that a lease holds. -/
structure MemoryStore where
  state : State := {}
  writers : Finset SessionId := ∅

def State.get (state : State) (id : SessionId) : Except StoreError Saved :=
  match state.sessions.lookup id with
  | some saved => .ok saved
  | none => .error .notFound

def State.insert (state : State) (id : SessionId) (saved : Saved) : State :=
  { state with sessions := state.sessions.insert id saved }

def State.nextWrite (state : State) : Nat × State :=
  (state.writes + 1, { state with writes := state.writes + 1 })

theorem forkCut_pos {events : List StoredEvent} {through : Option EventNumber} {cut : Nat}
    (hfirst : ∃ stored ∈ events.head?, (settingsOf stored.event).isSome)
    (h : forkCut events through = .ok cut) : 0 < cut := by
  obtain ⟨stored, hstored, hsettings⟩ := hfirst
  cases hevents : events with
  | nil => simp [hevents] at hstored
  | cons head rest =>
    have hhead : head = stored := by simpa [hevents] using hstored
    subst hhead hevents
    cases through with
    | some through =>
      simp only [forkCut] at h
      split at h
      · cases h
      · next hnumber =>
        split at h
        · split at h
          · cases h
            omega
          · cases h
        · cases h
    | none =>
      simp only [forkCut] at h
      split at h
      · next back hback =>
        cases h
        have hlt := (List.findIdx?_eq_some_iff_findIdx_eq.mp hback).1
        simp only [List.length_reverse] at hlt
        omega
      · cases h
        have hnot : (settingsOf head.event).isNone = false := by
          cases hs : settingsOf head.event with
          | none => simp [hs] at hsettings
          | some _ => rfl
        rw [List.findIdx?_cons, hnot]
        cases hrest : rest.findIdx? fun stored => (settingsOf stored.event).isNone with
        | none => simp
        | some index => simp

theorem take_range' (start length count : Nat) :
    (List.range' start length).take count = List.range' start (min count length) := by
  rcases Nat.le_total length count with h | h
  · rw [List.take_range'_of_length_le h, Nat.min_eq_right h]
  · rw [List.take_range'_of_length_ge h, Nat.min_eq_left h]

/-- The new session that a fork of `saved` makes. -/
def Saved.fork (saved : Saved) (source : SessionId) (through : Option EventNumber)
    (write now : Nat) : Except StoreError Saved :=
  match h : forkCut saved.events through with
  | .error error => .error error
  | .ok cut => .ok {
      prompt := saved.prompt
      events := saved.events.take cut
      pending := []
      newestWrite := write
      title := saved.title.bind fun title => SessionTitle.fromText s!"Fork — {title.text}"
      forkOf := some source
      parent := none
      createdAt := now
      updatedAt := now
      numbered := by
        rw [List.map_take, saved.numbered, ← List.map_take, take_range', List.length_take]
      first := by
        obtain ⟨stored, hstored, hsettings⟩ := saved.first
        refine ⟨stored, ?_, hsettings⟩
        rw [List.head?_take, if_neg (forkCut_pos saved.first h).ne']
        exact hstored }

namespace MemoryStore

def takeWriter (store : MemoryStore) (id : SessionId) : Except StoreError (Lease × MemoryStore) :=
  if id ∈ store.writers then .error .owned
  else .ok (⟨id⟩, { store with writers := insert id store.writers })

def release (store : MemoryStore) (id : SessionId) : MemoryStore :=
  { store with writers := store.writers.erase id }

/-- Save a new session `id`, and open it for writing. -/
def createSession (store : MemoryStore) (id : SessionId) (settings : SessionSettings)
    (prompt : List PromptSection) (parent : Option SessionId) (now : Nat) :
    Except StoreError Opened × MemoryStore :=
  let write := store.state.nextWrite
  let store := { store with state := write.2 }
  let saved := Saved.new settings prompt parent write.1 now
  match store.takeWriter id with
  | .error error => (.error error, store)
  | .ok (lease, store) =>
    (.ok (saved.toOpened id lease), { store with state := store.state.insert id saved })

def forkSession (store : MemoryStore) (source id : SessionId) (through : Option EventNumber)
    (now : Nat) : Except StoreError Opened × MemoryStore :=
  let write := store.state.nextWrite
  let store := { store with state := write.2 }
  match store.state.get source with
  | .error error => (.error error, store)
  | .ok saved =>
    match saved.fork source through write.1 now with
    | .error error => (.error error, store)
    | .ok fork =>
      match store.takeWriter id with
      | .error error => (.error error, store)
      | .ok (lease, store) =>
        (.ok (fork.toOpened id lease), { store with state := store.state.insert id fork })

def setSettings (store : MemoryStore) (id : SessionId) (settings : SessionSettings) (now : Nat) :
    Except StoreError EventNumber × MemoryStore :=
  let write := store.state.nextWrite
  let store := { store with state := write.2 }
  match store.state.get id with
  | .error error => (.error error, store)
  | .ok saved =>
    let pushed := saved.pushEvent (.settings settings) write.1 now
    (.ok pushed.1, { store with state := store.state.insert id pushed.2 })

def renameSession (store : MemoryStore) (id : SessionId) (title : SessionTitle) :
    Except StoreError Unit × MemoryStore :=
  match store.state.get id with
  | .error error => (.error error, store)
  | .ok saved =>
    (.ok (), { store with state := store.state.insert id { saved with title := some title } })

def acceptInput (store : MemoryStore) (id : SessionId) (input : Input) :
    Except StoreError InputId × MemoryStore :=
  let inputId : InputId := ⟨store.state.newestInput + 1⟩
  match store.state.get id with
  | .error error => (.error error, store)
  | .ok saved =>
    let saved := { saved with
      title := if saved.title.isNone then titleOf input else saved.title
      pending := saved.pending ++ [⟨inputId, input⟩] }
    let state := store.state.insert id saved
    (.ok inputId, { store with state := { state with newestInput := inputId.number } })

def removeInput (store : MemoryStore) (id : SessionId) (input : InputId) :
    Except StoreError Unit × MemoryStore :=
  match store.state.get id with
  | .error error => (.error error, store)
  | .ok saved =>
    match saved.pending.findIdx? fun pending => pending.id = input with
    | none => (.error (.inputNotPending input), store)
    | some position =>
      let saved := { saved with pending := saved.pending.eraseIdx position }
      (.ok (), { store with state := store.state.insert id saved })

def notPending (pending : List PendingInput) : List ConsumedInput → List InputId → Option InputId
  | [], _ => none
  | input :: consumed, earlier =>
    if input.id ∈ earlier ∨ ¬ pending.any (·.id = input.id) then some input.id
    else notPending pending consumed (earlier ++ [input.id])

def commit (store : MemoryStore) (id : SessionId) (commit : Commit) (consumed : List ConsumedInput)
    (now : Nat) : Except StoreError EventNumber × MemoryStore :=
  match checkConsumedBlocks commit consumed with
  | .error error => (.error error, store)
  | .ok () =>
    match store.state.get id with
    | .error error => (.error error, store)
    | .ok saved =>
      match notPending saved.pending consumed [] with
      | some input => (.error (.inputNotPending input), store)
      | none =>
        let write := store.state.nextWrite
        let left := saved.pending.filter fun pending => !consumed.any (·.id = pending.id)
        let saved : Saved := { saved with pending := left }
        let pushed := saved.pushEvent (.commit commit consumed) write.1 now
        (.ok pushed.1, { store with state := write.2.insert id pushed.2 })

def pending (store : MemoryStore) (id : SessionId) : Except StoreError (List PendingInput) :=
  (store.state.get id).map Saved.pending

def openSession (store : MemoryStore) (id : SessionId) (access : Access) :
    Except StoreError Opened × MemoryStore :=
  match store.state.get id with
  | .error error => (.error error, store)
  | .ok saved =>
    match access with
    | .read => (.ok (saved.toOpened id none), store)
    | .write =>
      match store.takeWriter id with
      | .error error => (.error error, store)
      | .ok taken => (.ok (saved.toOpened id taken.1), taken.2)

/-- The saved facts of at most `limit` sessions after `after`, newest first. -/
def listSessions (store : MemoryStore) (cwd : Option PathBuf) (parent : Option SessionId)
    (after : Option ListPosition) (limit : Nat) : SessionPage :=
  let listed := store.state.sessions.entries
    |>.filter (fun entry => entry.2.parent = parent)
    |>.filter (fun entry => after.all fun before => entry.2.newestWrite < before.position)
    |>.filter (fun entry => cwd.all fun cwd => entry.2.settings.cwd.same cwd)
    |>.mergeSort fun a b => b.2.newestWrite ≤ a.2.newestWrite
  let last := if limit = 0 then none else listed[limit - 1]?
  { sessions := (listed.take limit).map fun entry => entry.2.summary entry.1
    next := if limit < listed.length then last.map fun entry => ⟨entry.2.newestWrite⟩ else none }

def sessionSummary (store : MemoryStore) (id : SessionId) : Except StoreError SessionSummary :=
  (store.state.get id).map (·.summary id)

/-- The events of a page. Event number `n` stands at index `n - 1`. -/
def pageOf (events : List StoredEvent) : EventPage → List StoredEvent
  | .after number => events.drop (number.elim 0 fun number => min number.number events.length)
  | .before number limit =>
    let last := number.elim events.length fun number => min (number.number - 1) events.length
    (events.take last).drop (last - limit)

def load (store : MemoryStore) (id : SessionId) (page : EventPage) : Except StoreError Loaded :=
  (store.state.get id).map fun saved => ⟨pageOf saved.events page, saved.pending⟩

def deleteSession (store : MemoryStore) (id : SessionId) : Except StoreError Unit × MemoryStore :=
  if id ∉ store.state.sessions then (.error .notFound, store)
  else if id ∈ store.writers then (.error .owned, store)
  else
    let state := { store.state with sessions := store.state.sessions.erase id }
    (.ok (), { store with state := state })

end MemoryStore

end Yuke.Agent
