import Yuke.Store.Forks

/-!
# Runs of the store

Each method of the store leaves sound tables, so the tables are sound after each run.
-/

set_option autoImplicit false

namespace Yuke.Store

open Yuke.Ai (bind_eq_ok)
open Yuke.Engine (Commit)
open Yuke.Protocol
open Yuke.Agent
open Yuke.Shared (Increasing orderByDesc)

theorem toStr_of_saveable {settings : SessionSettings} (h : saveable settings = .ok ()) :
    settings.cwd.toStr.isSome := by
  unfold saveable at h
  split at h
  · next text htext => rw [htext]; rfl
  · cases h

theorem le_of_checkId {last : Nat} (h : checkId last = .ok ()) : last ≤ largestSeq := by
  unfold checkId at h
  split at h
  · assumption
  · cases h

namespace Sound

variable {db db' : Database} {id : SessionId} {now : Nat}

theorem newestEvent_insert (h : Sound db) {event : SessionEvent} {inserted : Nat × Database}
    (hinsert : db.insertEvent id (columnsOf event) now = some inserted) :
    inserted.2.newestEvent id = some (db.newEvent id (columnsOf event) now) := by
  have hid : db.hasSession id = true := by
    rw [← Database.insertEvent_isSome, hinsert]
    rfl
  obtain ⟨row, hrow⟩ := exists_of_hasSession hid
  obtain ⟨hmem, rfl⟩ := mem_of_sessionRow hrow
  obtain ⟨events, hfits⟩ := h.fits row hmem
  have hkeeps : Keeps db row.id events := hfits.keeps
  have hnew := hkeeps.insertEvent hinsert
  rw [if_pos rfl] at hnew
  rw [Database.newestEvent, hnew.increasing.head?_orderByDesc, Database.eventsOf_insertEvent hinsert,
    if_pos rfl, List.getLast?_concat]

theorem updateSession_updateSession {first second : SessionRow → SessionRow}
    (hfirst : ∀ row, (first row).id = row.id) :
    (db.updateSession id first).updateSession id second =
      db.updateSession id fun row => second (first row) := by
  rw [Database.updateSession, Database.updateSession, Database.updateSession, List.map_map]
  congr 1
  apply List.map_congr_left
  intro row _
  simp only [Function.comp_apply]
  by_cases hrow : row.id = id
  · rw [if_pos hrow, if_pos hrow, if_pos ((hfirst row).trans hrow)]
  · rw [if_neg hrow, if_neg hrow, if_neg hrow]

theorem insertSession (h : Sound db) {settings : SessionSettings} {prompt : List PromptSection}
    {parent : Option SessionId} (hcwd : settings.cwd.toStr.isSome)
    (hinsert : db.insertSession id settings prompt parent now = some db')
    (hbound : db'.lastEvent ≤ largestSeq) : Sound db' := by
  unfold Database.insertSession at hinsert
  split at hinsert
  · cases hinsert
  next hid =>
  rw [Bool.not_eq_true] at hid
  dsimp only at hinsert
  generalize hadded : SessionRow.mk id prompt settings none none parent now now 0 = added at hinsert
  have haddedId : added.id = id := by rw [← hadded]
  have hnil : (db.addSession added).eventsOf id = [] := h.eventsOf_nil hid
  have hnext : (db.addSession added).nextSeq id = 1 := by
    rw [Database.nextSeq, hnil]
    rfl
  obtain ⟨inserted, hevent, rfl⟩ := Option.map_eq_some_iff.mp hinsert
  have heq := (Database.insertEvent_eq hevent).2
  generalize hnew : (db.addSession added).newEvent id (columnsOf (.settings settings)) now = new at heq
  have hnewest : inserted.2.newestEvent id = some new := by
    rw [Database.newestEvent, Database.eventsOf_insertEvent hevent, hnil, if_pos rfl, hnew,
      List.nil_append, Increasing.orderByDesc_eq (List.pairwise_singleton _ new)]
    rfl
  have hfinal : inserted.2.touchSession id = { db with
      sessions := db.sessions ++ [{ added with updatedAt := new.createdAt, newestEvent := new.id }]
      events := db.events ++ [new]
      lastEvent := db.lastEvent + 1 } := by
    have hid' : db.hasSession added.id = false := by rw [haddedId, hid]
    rw [Database.touchSession, hnewest, heq]
    simp only [Database.updateSession, Database.addSession]
    rw [← haddedId, Database.sessions_updateSession_new hid']
  rw [hfinal] at hbound ⊢
  have hnewId : new.id = db.lastEvent + 1 := by
    rw [← hnew]
    rfl
  apply h.add { added with updatedAt := new.createdAt, newestEvent := new.id }
  · exact haddedId ▸ hid
  · exact List.pairwise_singleton _ _
  · intro copy hcopy
    rw [List.mem_singleton.mp hcopy, hnewId]
    refine ⟨Nat.lt_succ_self _, le_rfl, ?_⟩
    rw [← hnew]
    exact haddedId.symm
  · exact le_rfl
  · exact hbound
  · refine ⟨[.settings settings], ?_, ⟨settings, rfl⟩, ?_, rfl, ?_, ?_⟩
    · rw [← hnew, Database.newEvent, hnext]
      rfl
    · rw [← hadded]
      rfl
    · rw [← hadded]
      intro text htext
      cases htext
    · intro other hother
      cases List.mem_singleton.mp hother
      exact hcwd

theorem saveSettings (h : Sound db) {settings : SessionSettings} (hcwd : settings.cwd.toStr.isSome)
    {saved : EventNumber × Database} (hsaved : db.saveSettings id settings now = .ok saved) :
    Sound saved.2 := by
  unfold Database.saveSettings at hsaved
  split at hsaved
  · cases hsaved
  next inserted hinsert =>
  obtain ⟨_, hcheck, hsaved⟩ := bind_eq_ok.mp hsaved
  cases hsaved
  have hid : db.hasSession id = true := by
    rw [← Database.insertEvent_isSome, hinsert]
    rfl
  have hnewest : (inserted.2.setSessionSettings id settings).newestEvent id =
      some (db.newEvent id (columnsOf (.settings settings)) now) := h.newestEvent_insert hinsert
  have hfinal : (inserted.2.setSessionSettings id settings).touchSession id =
      inserted.2.updateSession id fun row => { row with
        settings := settings
        updatedAt := now
        newestEvent := db.lastEvent + 1 } := by
    rw [Database.touchSession, hnewest, Database.setSessionSettings]
    exact updateSession_updateSession fun _ => rfl
  change Sound ((inserted.2.setSessionSettings id settings).touchSession id)
  rw [hfinal]
  apply h.push hid hinsert (le_of_checkId hcheck)
  · intro other hother
    cases hother
    exact hcwd
  · intro row
    exact ⟨_, rfl⟩

theorem consume_keeps {inputs : List InputId} (h : db.consume id inputs = .ok db') :
    db'.sessions = db.sessions ∧ db'.events = db.events ∧ db'.lastEvent = db.lastEvent := by
  induction inputs generalizing db with
  | nil =>
    cases h
    exact ⟨rfl, rfl, rfl⟩
  | cons input rest ih =>
    obtain ⟨deleted, hdelete, h⟩ := bind_eq_ok.mp h
    split at h
    · cases h
    · obtain ⟨_, _, hdelete⟩ := bind_eq_ok.mp hdelete
      cases hdelete
      have hrest := ih h
      exact hrest

theorem saveCommit (h : Sound db) {commit : Commit} {consumed : List ConsumedInput}
    {saved : EventNumber × Database} (hsaved : db.saveCommit id commit consumed now = .ok saved) :
    Sound saved.2 := by
  obtain ⟨_, _, hsaved⟩ := bind_eq_ok.mp hsaved
  split at hsaved
  · cases hsaved
  next inserted hinsert =>
  obtain ⟨_, hcheck, hsaved⟩ := bind_eq_ok.mp hsaved
  obtain ⟨left, hconsume, hsaved⟩ := bind_eq_ok.mp hsaved
  cases hsaved
  obtain ⟨hsessions, hevents, hlast⟩ := consume_keeps hconsume
  have hid : db.hasSession id = true := by
    rw [← Database.insertEvent_isSome, hinsert]
    rfl
  have hinsert' : db.insertEvent id (columnsOf (.commit commit consumed)) now = some inserted :=
    hinsert
  have hnewest : left.newestEvent id =
      some (db.newEvent id (columnsOf (.commit commit consumed)) now) := by
    rw [Database.newestEvent, Database.eventsOf, hevents]
    exact h.newestEvent_insert hinsert'
  change Sound (left.touchSession id)
  rw [Database.touchSession, hnewest]
  have hpush : Sound (inserted.2.updateSession id fun row =>
      { row with updatedAt := now, newestEvent := db.lastEvent + 1 }) := by
    apply h.push hid hinsert' (le_of_checkId hcheck)
    · intro settings hsettings
      cases hsettings
    · intro row
      exact ⟨_, rfl⟩
  apply hpush.of_pending
  · simp only [Database.updateSession, hsessions]
    rfl
  · exact hevents
  · exact hlast

theorem hasSession_of_copyRows {source : SessionId} {cut : Nat}
    (h : db.copyRows source id cut now = .ok db') : db.hasSession id = false := by
  cases hid : db.hasSession id with
  | false => rfl
  | true =>
    unfold Database.copyRows at h
    split at h
    · cases h
    · simp only [Database.copySession, hid, if_true] at h
      cases h

theorem copyRows (h : Sound db) {source : SessionId} {through : Option EventNumber} {cut : Nat}
    (hpoint : db.forkPoint source through = .ok cut)
    (hcopy : db.copyRows source id cut now = .ok db') : Sound db' := by
  have hid := hasSession_of_copyRows hcopy
  cases hrow : db.sessionRow source with
  | none =>
    rw [Database.copyRows, hrow] at hcopy
    cases hcopy
  | some row =>
    obtain ⟨hmem, rfl⟩ := mem_of_sessionRow hrow
    obtain ⟨events, hfits⟩ := h.fits row hmem
    have hkeeps : Keeps db row.id events := hfits.keeps
    obtain ⟨settings, hfirst⟩ := hfits.first
    have hne : events ≠ [] := by
      intro hnil
      rw [hnil] at hfirst
      cases hfirst
    rcases hkeeps.forkPoint hrow hne through (h.length_le hkeeps) with
      ⟨cut', hcut, hcuts⟩ | ⟨herror, _⟩
    · rw [hcut] at hpoint
      cases hpoint
      have hpos := hcuts.pos ⟨settings, hfirst⟩
      rw [Database.copyRows_eq h hrow hkeeps hid hpos hcuts.le] at hcopy
      obtain ⟨_, hcheck, hcopy⟩ := bind_eq_ok.mp hcopy
      cases hcopy
      exact Database.sound_forked h hfits rfl hid hpos hcuts.le (le_of_checkId hcheck)
    · rw [herror] at hpoint
      cases hpoint

end Sound

/-! ## Runs -/

inductive Call where
  | createSession (id : SessionId) (settings : SessionSettings) (prompt : List PromptSection)
      (parent : Option SessionId) (folder : Except StoreError Unit)
  | forkSession (source id : SessionId) (through : Option EventNumber)
      (folder : Except StoreError Unit)
  | setSettings (id : SessionId) (settings : SessionSettings)
  | renameSession (id : SessionId) (title : SessionTitle)
  | acceptInput (id : SessionId) (input : Input)
  | removeInput (id : SessionId) (input : InputId)
  | openSession (id : SessionId) (access : Access) (folder : Except StoreError Unit)
  | commit (id : SessionId) (commit : Commit) (consumed : List ConsumedInput)
  | deleteSession (id : SessionId) (folder removal : Except StoreError Unit)
  | release (id : SessionId)

namespace SqliteStore

def call (store : SqliteStore) (now : Nat) : Call → SqliteStore
  | .createSession id settings prompt parent folder =>
    (store.createSession id settings prompt parent folder now).2
  | .forkSession source id through folder => (store.forkSession source id through folder now).2
  | .setSettings id settings => (store.setSettings id settings now).2
  | .renameSession id title => (store.renameSession id title).2
  | .acceptInput id input => (store.acceptInput id input).2
  | .removeInput id input => (store.removeInput id input).2
  | .openSession id access folder => (store.openSession id access folder).2
  | .commit id commit consumed => (store.commit id commit consumed now).2
  | .deleteSession id folder removal => (store.deleteSession id folder removal).2
  | .release id => store.release id

inductive Reached : SqliteStore → Prop where
  | new : Reached {}
  | call {store : SqliteStore} (now : Nat) (call : Call) :
    Reached store → Reached (store.call now call)

variable {store : SqliteStore} {id : SessionId} {now : Nat}

theorem database_takeLock {folder : Except StoreError Unit} {locked : Lease × SqliteStore}
    (h : store.takeLock id folder = .ok locked) : locked.2.database = store.database := by
  obtain ⟨_, _, h⟩ := bind_eq_ok.mp h
  split at h
  · cases h
  · cases h
    rfl

theorem sound_createSession (h : Sound store.database) {settings : SessionSettings}
    {prompt : List PromptSection} {parent : Option SessionId} {folder : Except StoreError Unit} :
    Sound (store.createSession id settings prompt parent folder now).2.database := by
  unfold createSession
  cases hsaveable : saveable settings with
  | error error => exact h
  | ok =>
    cases hsave : store.database.saveSession id settings prompt parent now with
    | error error => exact h
    | ok db =>
      have hdb : Sound db := by
        unfold Database.saveSession at hsave
        split at hsave
        · cases hsave
        next inserted hinsert =>
        obtain ⟨_, hcheck, hsave⟩ := bind_eq_ok.mp hsave
        cases hsave
        exact h.insertSession (toStr_of_saveable hsaveable) hinsert (le_of_checkId hcheck)
      dsimp only
      cases hlock : ({ store with database := db } : SqliteStore).takeLock id folder with
      | error error => exact hdb.deleteSession
      | ok locked =>
        dsimp only
        rw [database_takeLock hlock]
        exact hdb

theorem sound_forkSession (h : Sound store.database) {source : SessionId}
    {through : Option EventNumber} {folder : Except StoreError Unit} :
    Sound (store.forkSession source id through folder now).2.database := by
  unfold forkSession
  cases hpoint : store.database.forkPoint source through with
  | error error => exact h
  | ok cut =>
    dsimp only
    cases hlock : store.takeLock id folder with
    | error error => exact h.deleteSession
    | ok locked =>
      dsimp only
      cases hcopy : store.database.copyRows source id cut now with
      | error error => exact h.deleteSession
      | ok db =>
        have hdb : Sound db := h.copyRows hpoint hcopy
        dsimp only
        split
        · exact hdb.deleteSession
        · exact hdb

theorem sound_acceptInput (h : Sound store.database) {input : Input} :
    Sound (store.acceptInput id input).2.database := by
  unfold acceptInput
  cases hinsert : store.database.insertPendingInput id input with
  | none => exact h
  | some inserted =>
    have hinserted : Sound inserted.2 := by
      unfold Database.insertPendingInput at hinsert
      split at hinsert
      · cases hinsert
        exact h.of_pending rfl rfl rfl
      · cases hinsert
    dsimp only
    cases checkId inserted.1 with
    | error error => exact h
    | ok =>
      dsimp only
      cases titleOf input with
      | none => exact hinserted
      | some title =>
        apply hinserted.retitle
        intro row
        by_cases hnone : row.title.isNone
        · refine ⟨some title.text, by rw [if_pos hnone], ?_⟩
          intro text htext
          cases htext
          exact .inr ⟨title, rfl⟩
        · refine ⟨row.title, by rw [if_neg hnone], ?_⟩
          intro text htext
          exact .inl htext

theorem sound_removeInput (h : Sound store.database) {input : InputId} :
    Sound (store.removeInput id input).2.database := by
  unfold removeInput
  cases hdelete : store.database.deletePendingInput id input with
  | error error => exact h
  | ok deleted =>
    dsimp only
    split
    · exact h
    · obtain ⟨_, _, hdelete⟩ := bind_eq_ok.mp hdelete
      cases hdelete
      exact h.of_pending rfl rfl rfl

theorem sound_call (h : Sound store.database) (call : Call) :
    Sound (store.call now call).database := by
  cases call with
  | createSession id settings prompt parent folder => exact sound_createSession h
  | forkSession source id through folder => exact sound_forkSession h
  | setSettings id settings =>
    change Sound (store.setSettings id settings now).2.database
    unfold setSettings
    split
    · exact h
    next saved hsaved =>
    obtain ⟨_, hsaveable, hsaved⟩ := bind_eq_ok.mp hsaved
    exact h.saveSettings (toStr_of_saveable hsaveable) hsaved
  | renameSession id title =>
    change Sound (store.renameSession id title).2.database
    unfold renameSession
    split
    · apply h.retitle
      intro row
      refine ⟨some title.text, rfl, ?_⟩
      intro text htext
      cases htext
      exact .inr ⟨title, rfl⟩
    · exact h
  | acceptInput id input => exact sound_acceptInput h
  | removeInput id input => exact sound_removeInput h
  | openSession id access folder =>
    change Sound (store.openSession id access folder).2.database
    unfold openSession
    split
    · exact h
    · split
      · exact h
      next locked hlock =>
      obtain ⟨_, _, hlock⟩ := bind_eq_ok.mp hlock
      split
      · exact h
      · dsimp only
        rw [database_takeLock hlock]
        exact h
  | commit id commit consumed =>
    change Sound (store.commit id commit consumed now).2.database
    unfold SqliteStore.commit
    split
    · exact h
    next saved hsaved =>
    obtain ⟨_, _, hsaved⟩ := bind_eq_ok.mp hsaved
    exact h.saveCommit hsaved
  | deleteSession id folder removal =>
    change Sound (store.deleteSession id folder removal).2.database
    unfold SqliteStore.deleteSession
    split
    · exact h
    · exact h.deleteSession
  | release id => exact h

theorem Reached.sound (h : store.Reached) : Sound store.database := by
  induction h with
  | new => exact .empty
  | call now call _ ih => exact sound_call ih call

theorem readTitle_of_sound (h : Sound store.database) {row : SessionRow}
    (hrow : row ∈ store.database.sessions) :
    ∃ title, readTitle row.title = .ok title ∧ title.map SessionTitle.text = row.title := by
  obtain ⟨events, hfits⟩ := h.fits row hrow
  cases htitle : row.title with
  | none => exact ⟨none, rfl, rfl⟩
  | some text =>
    obtain ⟨title, rfl⟩ := hfits.title text htitle
    refine ⟨some title, ?_, rfl⟩
    rw [readTitle, SessionTitle.new_text]

theorem summary_of_sound (h : Sound store.database) {row : SessionRow}
    (hrow : row ∈ store.database.sessions) :
    ∃ summary, row.summary = .ok summary ∧ summary.sessionId = row.id ∧
      summary.title.map SessionTitle.text = row.title := by
  obtain ⟨title, hread, htitle⟩ := readTitle_of_sound h hrow
  rw [SessionRow.summary, hread]
  exact ⟨_, rfl, rfl, htitle⟩

end SqliteStore

def firstSettings : SessionSettings := ⟨⟨"provider", "model"⟩, {}, .ofString "/w"⟩

def firstCall : Call := .createSession ⟨1⟩ firstSettings [] none (.ok ())

def created : SqliteStore := SqliteStore.call {} 7 firstCall

theorem reached_created : created.Reached := .call 7 firstCall .new

end Yuke.Store
