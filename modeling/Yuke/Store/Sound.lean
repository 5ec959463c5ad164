import Yuke.Store.Sessions

/-!
# Sound tables

The rows of each session fit its events, in each database that the methods of the store can reach.
-/

set_option autoImplicit false

namespace Yuke.Store

open Yuke.Engine (Commit)
open Yuke.Protocol
open Yuke.Agent
open Yuke.Shared (Increasing)

/-- The row of a session fits its event rows, which save `events`. -/
structure Fits (rows : List EventRow) (row : SessionRow) (events : List SessionEvent) : Prop where
  keeps : rows.map (fun row => (row.seq, row.columns)) = entries events
  first : ∃ settings, events.head? = some (.settings settings)
  settings : (Replayed.of events).settings = some row.settings
  newest : rows.getLast?.map EventRow.id = some row.newestEvent
  title : ∀ text ∈ row.title, ∃ title : SessionTitle, title.text = text
  cwd : ∀ settings, SessionEvent.settings settings ∈ events → settings.cwd.toStr.isSome

structure Sound (db : Database) : Prop where
  ids : (db.sessions.map SessionRow.id).Nodup
  increasing : Increasing EventRow.id db.events
  last : ∀ row ∈ db.events, row.id ≤ db.lastEvent
  count : db.events.length ≤ db.lastEvent
  bound : db.lastEvent ≤ largestSeq
  owned : ∀ row ∈ db.events, db.hasSession row.sessionId = true
  fits : ∀ row ∈ db.sessions, ∃ events, Fits (db.eventsOf row.id) row events

namespace Sound

variable {db db' : Database} {id : SessionId}

theorem empty : Sound {} where
  ids := by simp
  increasing := by simp [Increasing]
  last := by simp
  count := le_rfl
  bound := Nat.zero_le _
  owned := by simp
  fits := by simp

theorem mem_of_sessionRow {row : SessionRow} (h : db.sessionRow id = some row) :
    row ∈ db.sessions ∧ row.id = id := by
  constructor
  · exact List.mem_of_find?_eq_some h
  · simpa using List.find?_some h

theorem exists_of_hasSession (h : db.hasSession id = true) : ∃ row, db.sessionRow id = some row :=
  Option.isSome_iff_exists.mp (Database.hasSession_iff.mp h)

theorem eventsOf_nil (h : Sound db) (hid : db.hasSession id = false) : db.eventsOf id = [] := by
  rw [Database.eventsOf, List.filter_eq_nil_iff]
  intro row hrow hsession
  have howned := h.owned row hrow
  rw [of_decide_eq_true hsession, hid] at howned
  cases howned

theorem length_le (h : Sound db) {events : List SessionEvent} (hkeeps : Keeps db id events) :
    events.length ≤ largestSeq := by
  have hlength : (db.eventsOf id).length = events.length := by
    simpa using congrArg List.length hkeeps.seqs
  have hfew : (db.eventsOf id).length ≤ db.events.length := List.length_filter_le _ _
  have hcount := h.count
  have hbound := h.bound
  omega

theorem grow (h : Sound db) (id : SessionId) (rows : List EventRow)
    (hids : (db'.sessions.map SessionRow.id).Nodup)
    (hevents : db'.events = db.events ++ rows)
    (hrows : Increasing EventRow.id rows)
    (hbounds : ∀ row ∈ rows, db.lastEvent < row.id ∧ row.id ≤ db'.lastEvent ∧ row.sessionId = id)
    (hcount : db.lastEvent + rows.length ≤ db'.lastEvent)
    (hbound : db'.lastEvent ≤ largestSeq)
    (hsessions : ∀ other, db.hasSession other = true → db'.hasSession other = true)
    (hid : db'.hasSession id = true)
    (hothers : ∀ row ∈ db'.sessions, row.id ≠ id → row ∈ db.sessions)
    (hown : ∀ row ∈ db'.sessions, row.id = id →
      ∃ events, Fits (db.eventsOf id ++ rows) row events) : Sound db' := by
  have heventsOf : ∀ other, db'.eventsOf other =
      db.eventsOf other ++ if other = id then rows else [] := by
    intro other
    rw [Database.eventsOf, hevents, List.filter_append]
    by_cases hother : other = id
    · rw [if_pos hother]
      congr 1
      apply List.filter_eq_self.mpr
      intro row hrow
      simp [hother, (hbounds row hrow).2.2]
    · rw [if_neg hother]
      congr 1
      apply List.filter_eq_nil_iff.mpr
      intro row hrow
      simp [(hbounds row hrow).2.2, Ne.symm hother]
  constructor
  · exact hids
  · rw [hevents]
    apply h.increasing.append hrows
    intro a ha b hb
    have hold := h.last a ha
    have hnew := (hbounds b hb).1
    omega
  · intro row hrow
    rw [hevents] at hrow
    rcases List.mem_append.mp hrow with hrow | hrow
    · have hold := h.last row hrow
      omega
    · exact (hbounds row hrow).2.1
  · have hold := h.count
    rw [hevents, List.length_append]
    omega
  · exact hbound
  · intro row hrow
    rw [hevents] at hrow
    rcases List.mem_append.mp hrow with hrow | hrow
    · exact hsessions _ (h.owned row hrow)
    · rw [(hbounds row hrow).2.2]
      exact hid
  · intro row hrow
    by_cases hother : row.id = id
    · rw [heventsOf, if_pos hother, hother]
      exact hown row hrow hother
    · rw [heventsOf, if_neg hother, List.append_nil]
      exact h.fits row (hothers row hrow hother)

/-! ## The row of one session -/

theorem mem_updateSession {change : SessionRow → SessionRow} {row : SessionRow}
    (hchange : ∀ row, (change row).id = row.id)
    (hrow : row ∈ (db.updateSession id change).sessions) :
    (row.id = id ∧ ∃ old ∈ db.sessions, old.id = id ∧ row = change old) ∨
      (row.id ≠ id ∧ row ∈ db.sessions) := by
  obtain ⟨old, hold, rfl⟩ := List.mem_map.mp hrow
  by_cases hid : old.id = id
  · left
    rw [if_pos hid]
    exact ⟨(hchange old).trans hid, old, hold, hid, rfl⟩
  · right
    rw [if_neg hid]
    exact ⟨hid, hold⟩

theorem ids_updateSession {change : SessionRow → SessionRow}
    (hchange : ∀ row, (change row).id = row.id) :
    (db.updateSession id change).sessions.map SessionRow.id = db.sessions.map SessionRow.id := by
  rw [Database.updateSession, List.map_map]
  apply List.map_congr_left
  intro row _
  simp only [Function.comp_apply]
  split
  · exact hchange row
  · rfl

theorem push (h : Sound db) (hid : db.hasSession id = true) {event : SessionEvent} {now : Nat}
    {inserted : Nat × Database} (hinsert : db.insertEvent id (columnsOf event) now = some inserted)
    (hbound : inserted.2.lastEvent ≤ largestSeq)
    (hcwd : ∀ settings, event = .settings settings → settings.cwd.toStr.isSome)
    {change : SessionRow → SessionRow}
    (hchange : ∀ row, ∃ updatedAt, change row = { row with
      settings := (settingsOf event).getD row.settings
      updatedAt := updatedAt
      newestEvent := db.lastEvent + 1 }) :
    Sound (inserted.2.updateSession id change) := by
  have hkeep : ∀ row, (change row).id = row.id := by
    intro row
    obtain ⟨_, hrow⟩ := hchange row
    rw [hrow]
  have hsessions : ∀ other, (inserted.2.updateSession id change).hasSession other =
      db.hasSession other := by
    intro other
    rw [Database.hasSession_updateSession hkeep, Database.hasSession_insertEvent hinsert]
  have heq := (Database.insertEvent_eq hinsert).2
  apply h.grow id [db.newEvent id (columnsOf event) now]
  · rw [ids_updateSession hkeep, Database.sessions_insertEvent hinsert]
    exact h.ids
  · rw [Database.updateSession, heq]
  · exact List.pairwise_singleton _ _
  · intro row hrow
    rw [List.mem_singleton.mp hrow, Database.updateSession, heq]
    exact ⟨Nat.lt_succ_self _, le_rfl, rfl⟩
  · rw [Database.updateSession, heq]
    exact le_rfl
  · exact hbound
  · intro other hother
    rw [hsessions]
    exact hother
  · rw [hsessions]
    exact hid
  · intro row hrow hother
    rcases mem_updateSession hkeep hrow with ⟨hrowId, _⟩ | ⟨_, hold⟩
    · exact absurd hrowId hother
    · rw [Database.sessions_insertEvent hinsert] at hold
      exact hold
  · intro row hrow hrowId
    rcases mem_updateSession hkeep hrow with ⟨_, old, hold, holdId, rfl⟩ | ⟨hother, _⟩
    · rw [Database.sessions_insertEvent hinsert] at hold
      obtain ⟨events, hfits⟩ := h.fits old hold
      rw [holdId] at hfits
      obtain ⟨updatedAt, hrow⟩ := hchange old
      refine ⟨events ++ [event], ?_⟩
      have hkeeps : Keeps db id events := hfits.keeps
      constructor
      · rw [List.map_append, hfits.keeps, entries_concat]
        simp [Database.newEvent, hkeeps.nextSeq]
      · obtain ⟨settings, hfirst⟩ := hfits.first
        exact ⟨settings, by rw [List.head?_append, hfirst]; rfl⟩
      · rw [Replayed.of_concat, hrow]
        cases event with
        | settings settings => rfl
        | commit commit consumed => exact hfits.settings
      · rw [hrow]
        simp [Database.newEvent]
      · rw [hrow]
        exact hfits.title
      · intro settings hsettings
        rcases List.mem_append.mp hsettings with hsettings | hsettings
        · exact hfits.cwd settings hsettings
        · exact hcwd settings (List.mem_singleton.mp hsettings).symm
    · exact absurd hrowId hother

theorem retitle (h : Sound db) {change : SessionRow → SessionRow}
    (hchange : ∀ row, ∃ title, change row = { row with title := title } ∧
      ∀ text ∈ title, text ∈ row.title ∨ ∃ title : SessionTitle, title.text = text) :
    Sound (db.updateSession id change) := by
  have hkeep : ∀ row, (change row).id = row.id := by
    intro row
    obtain ⟨_, hrow, _⟩ := hchange row
    rw [hrow]
  constructor
  · rw [ids_updateSession hkeep]
    exact h.ids
  · exact h.increasing
  · exact h.last
  · exact h.count
  · exact h.bound
  · intro row hrow
    rw [Database.hasSession_updateSession hkeep]
    exact h.owned row hrow
  · intro row hrow
    rw [Database.eventsOf_updateSession]
    rcases mem_updateSession hkeep hrow with ⟨_, old, hold, _, rfl⟩ | ⟨_, hold⟩
    · obtain ⟨title, hrow, htitle⟩ := hchange old
      obtain ⟨events, hfits⟩ := h.fits old hold
      rw [hrow]
      refine ⟨events, hfits.keeps, hfits.first, hfits.settings, hfits.newest, ?_, hfits.cwd⟩
      intro text htext
      rcases htitle text htext with hold | hnew
      · exact hfits.title text hold
      · exact hnew
    · exact h.fits row hold

theorem add (h : Sound db) (row : SessionRow) (hid : db.hasSession row.id = false)
    {rows : List EventRow} {lastEvent : Nat}
    (hrows : Increasing EventRow.id rows)
    (hbounds : ∀ copy ∈ rows,
      db.lastEvent < copy.id ∧ copy.id ≤ lastEvent ∧ copy.sessionId = row.id)
    (hcount : db.lastEvent + rows.length ≤ lastEvent) (hbound : lastEvent ≤ largestSeq)
    (hfits : ∃ events, Fits rows row events) :
    Sound { db with
      sessions := db.sessions ++ [row]
      events := db.events ++ rows
      lastEvent := lastEvent } := by
  have hnew : row.id ∉ db.sessions.map SessionRow.id := by
    intro hmem
    obtain ⟨old, hold, holdId⟩ := List.mem_map.mp hmem
    have hhas : db.hasSession row.id = true := by
      rw [Database.hasSession, List.any_eq_true]
      exact ⟨old, hold, by simp [holdId]⟩
    rw [hid] at hhas
    cases hhas
  apply h.grow row.id rows
  · rw [List.map_append, List.nodup_append]
    refine ⟨h.ids, by simp, ?_⟩
    intro a ha b hb hab
    rw [List.map_singleton, List.mem_singleton] at hb
    subst hb hab
    exact hnew ha
  · rfl
  · exact hrows
  · exact hbounds
  · exact hcount
  · exact hbound
  · intro other hother
    rw [Database.hasSession] at hother ⊢
    rw [List.any_append, hother, Bool.true_or]
  · simp [Database.hasSession]
  · intro other hother hne
    rcases List.mem_append.mp hother with hother | hother
    · exact hother
    · rw [List.mem_singleton.mp hother] at hne
      exact absurd rfl hne
  · intro other hother hotherId
    rcases List.mem_append.mp hother with hother | hother
    · exact absurd (List.mem_map.mpr ⟨other, hother, hotherId⟩) hnew
    · rw [List.mem_singleton.mp hother, h.eventsOf_nil hid, List.nil_append]
      exact hfits

theorem deleteSession (h : Sound db) : Sound (db.deleteSession id) := by
  have hevents : ∀ other, other ≠ id → (db.deleteSession id).eventsOf other = db.eventsOf other := by
    intro other hother
    rw [Database.eventsOf, Database.eventsOf, Database.deleteSession, List.filter_filter]
    apply List.filter_congr
    intro row _
    by_cases hrow : row.sessionId = other
    · simp [hrow, hother]
    · simp [hrow]
  constructor
  · exact h.ids.sublist (List.Sublist.map _ List.filter_sublist)
  · exact h.increasing.filter _
  · intro row hrow
    exact h.last row (List.mem_of_mem_filter hrow)
  · exact (List.length_filter_le _ _).trans h.count
  · exact h.bound
  · intro row hrow
    obtain ⟨hrow, hne⟩ := List.mem_filter.mp hrow
    obtain ⟨session, hsession, hid⟩ := List.any_eq_true.mp (h.owned row hrow)
    apply List.any_eq_true.mpr
    refine ⟨session, List.mem_filter.mpr ⟨hsession, ?_⟩, hid⟩
    rw [of_decide_eq_true hid]
    exact hne
  · intro row hrow
    obtain ⟨hrow, hne⟩ := List.mem_filter.mp hrow
    rw [hevents _ (of_decide_eq_true hne)]
    exact h.fits row hrow

theorem of_pending (h : Sound db) (hsessions : db'.sessions = db.sessions)
    (hevents : db'.events = db.events) (hlast : db'.lastEvent = db.lastEvent) : Sound db' := by
  have hhas : ∀ other, db'.hasSession other = db.hasSession other := by
    intro other
    rw [Database.hasSession, hsessions, Database.hasSession]
  constructor
  · rw [hsessions]
    exact h.ids
  · rw [hevents]
    exact h.increasing
  · rw [hevents, hlast]
    exact h.last
  · rw [hevents, hlast]
    exact h.count
  · rw [hlast]
    exact h.bound
  · rw [hevents]
    intro row hrow
    rw [hhas]
    exact h.owned row hrow
  · rw [hsessions]
    intro row hrow
    rw [Database.eventsOf, hevents]
    exact h.fits row hrow

end Sound

end Yuke.Store
