import Yuke.Agent.Recovery
import Yuke.Store.Reached

/-!
# A fork is a closed prefix

In both stores a fork holds the events of its source up to the cut, with no open turn and no open call,
and the source stays as it was.
-/

set_option autoImplicit false

namespace Yuke.Store

open Yuke.Engine (Commit)
open Yuke.Protocol
open Yuke.Agent

/-- The new session `id` is a closed front of `events`. -/
structure ClosedPrefix (events : List SessionEvent) (through : Option EventNumber) (id : SessionId)
    (copied : List SessionEvent) (opened : Opened) : Prop where
  cut : ∃ cut, Cuts events through cut ∧ copied = events.take cut
  shows : Shows opened id copied
  turn : opened.newestTurn = .empty ∨
    ∃ finishReason, opened.newestTurn = .ended (.outcome (.completed finishReason))
  closed : DriverHistory events → openCalls opened.context = []

theorem Cuts.closedPrefix {events : List SessionEvent} {through : Option EventNumber} {cut : Nat}
    (h : Cuts events through cut) {id : SessionId} {opened : Opened}
    (hshows : Shows opened id (events.take cut)) :
    ClosedPrefix events through id (events.take cut) opened := by
  constructor
  · exact ⟨cut, h, rfl⟩
  · exact hshows
  · rw [hshows.newestTurn]
    exact h.newestTurn
  · intro hhistory
    rw [hshows.context]
    exact h.openCalls hhistory

theorem Cuts.through_ends {events : List SessionEvent} {through : Option EventNumber} {cut : Nat}
    (h : Cuts events through cut) : ∀ n ∈ through, EndsCompletedTurn events n.number := by
  cases h with
  | through hends =>
    intro n hn
    cases hn
    exact hends
  | newest _ _ =>
    intro n hn
    cases hn
  | first _ _ _ _ =>
    intro n hn
    cases hn

theorem completed_iff (stored : StoredEvent) : completed stored = true ↔
    ∃ commit consumed finishReason, stored.event = .commit commit consumed ∧
      commit.end = some (.outcome (.completed finishReason)) := by
  obtain ⟨number, event⟩ := stored
  cases event with
  | settings settings => simp [completed]
  | commit commit consumed =>
    simp only [completed]
    split
    · next finishReason hend =>
      simp only [true_iff]
      exact ⟨commit, consumed, finishReason, rfl, hend⟩
    · next hother =>
      simp only [Bool.false_eq_true, false_iff]
      intro ⟨_, _, finishReason, heq, hend⟩
      cases heq
      exact hother finishReason hend

theorem endsCompletedTurn_map {stored : List StoredEvent} {n : Nat} :
    EndsCompletedTurn (stored.map StoredEvent.event) n ↔
      0 < n ∧ ∃ last, stored[n - 1]? = some last ∧ completed last = true := by
  rw [EndsCompletedTurn, List.getElem?_map]
  constructor
  · intro ⟨hpos, commit, consumed, finishReason, hevent, hend⟩
    obtain ⟨last, hlast, hevent⟩ := Option.map_eq_some_iff.mp hevent
    exact ⟨hpos, last, hlast, (completed_iff last).mpr ⟨commit, consumed, finishReason, hevent, hend⟩⟩
  · intro ⟨hpos, last, hlast, hcompleted⟩
    obtain ⟨commit, consumed, finishReason, hevent, hend⟩ := (completed_iff last).mp hcompleted
    refine ⟨hpos, commit, consumed, finishReason, ?_, hend⟩
    rw [hlast, Option.map_some, hevent]

theorem settingsOf_isNone (event : SessionEvent) :
    (settingsOf event).isNone = (commitOf event).isSome := by
  cases event <;> rfl

theorem forkCut_newest (stored : List StoredEvent) :
    ∃ cut, forkCut stored none = .ok cut ∧ Cuts (stored.map StoredEvent.event) none cut := by
  rw [forkCut]
  cases hback : stored.reverse.findIdx? completed with
  | some back =>
    refine ⟨stored.length - back, rfl, ?_⟩
    obtain ⟨hlt, hlast, hnewer⟩ := List.findIdx?_eq_some_iff_getElem.mp hback
    rw [List.length_reverse] at hlt
    apply Cuts.newest
    · apply endsCompletedTurn_map.mpr
      refine ⟨by omega, _, ?_, hlast⟩
      rw [List.getElem_reverse]
      have hindex : stored.length - back - 1 = stored.length - 1 - back := by omega
      rw [hindex]
      exact List.getElem?_eq_getElem _
    · intro n hn
      obtain ⟨hpos, last, hget, hcompleted⟩ := endsCompletedTurn_map.mp hn
      by_contra hlarge
      obtain ⟨hbound, hget⟩ := List.getElem?_eq_some_iff.mp hget
      have hnot := hnewer (stored.length - n) (by omega)
      rw [List.getElem_reverse] at hnot
      have hindex : stored.length - 1 - (stored.length - n) = n - 1 := by omega
      simp only [hindex, hget, hcompleted] at hnot
      exact hnot trivial
  | none =>
    have hnone : ∀ n, ¬ EndsCompletedTurn (stored.map StoredEvent.event) n := by
      intro n hn
      obtain ⟨_, last, hget, hcompleted⟩ := endsCompletedTurn_map.mp hn
      rw [List.findIdx?_eq_none_iff] at hback
      have hfalse := hback last (List.mem_reverse.mpr (List.mem_of_getElem? hget))
      rw [hcompleted] at hfalse
      cases hfalse
    refine ⟨_, rfl, ?_⟩
    simp only [settingsOf_isNone]
    cases hfirst : stored.findIdx? fun stored => (commitOf stored.event).isSome with
    | some first =>
      obtain ⟨hlt, hcommit, hbefore⟩ := List.findIdx?_eq_some_iff_getElem.mp hfirst
      rw [Option.getD_some]
      apply Cuts.first hnone
      · rw [List.length_map]
        exact hlt.le
      · intro event hevent
        obtain ⟨i, hi, rfl⟩ := List.getElem_of_mem hevent
        rw [List.length_take] at hi
        rw [List.getElem_take, List.getElem_map]
        have hnot := hbefore i (by omega)
        simpa using hnot
      · intro event hevent
        rw [List.getElem?_map, List.getElem?_eq_getElem hlt] at hevent
        cases hevent
        exact hcommit
    | none =>
      rw [List.findIdx?_eq_none_iff] at hfirst
      rw [Option.getD_none]
      apply Cuts.first hnone
      · rw [List.length_map]
      · intro event hevent
        obtain ⟨stored, hstored, rfl⟩ := List.mem_map.mp (List.mem_of_mem_take hevent)
        have hnot := hfirst stored hstored
        simpa using hnot
      · intro event hevent
        simp at hevent

theorem forkCut_eq (stored : List StoredEvent) (through : Option EventNumber) :
    (∃ cut, forkCut stored through = .ok cut ∧ Cuts (stored.map StoredEvent.event) through cut) ∨
      (forkCut stored through = .error .notACompletedTurn ∧
        ∃ n ∈ through, ¬ EndsCompletedTurn (stored.map StoredEvent.event) n.number) := by
  cases through with
  | none => exact .inl (forkCut_newest stored)
  | some n =>
    by_cases hends : EndsCompletedTurn (stored.map StoredEvent.event) n.number
    · left
      refine ⟨n.number, ?_, .through hends⟩
      obtain ⟨hpos, last, hget, hcompleted⟩ := endsCompletedTurn_map.mp hends
      simp [forkCut, hpos.ne', hget, hcompleted]
    · right
      refine ⟨?_, n, rfl, hends⟩
      by_cases hzero : n.number = 0
      · simp [forkCut, hzero]
      · cases hget : stored[n.number - 1]? with
        | none => simp [forkCut, hzero, hget]
        | some last =>
          have hnot : completed last = false := by
            rw [Bool.eq_false_iff]
            intro hcompleted
            exact hends (endsCompletedTurn_map.mpr ⟨by omega, last, hget, hcompleted⟩)
          simp [forkCut, hzero, hget, hnot]

/-- What a fork of a session with `events` gives. `Holds` are the events of the new session. -/
def ForkGives (events : List SessionEvent) (through : Option EventNumber) (id : SessionId)
    (Holds : List SessionEvent → Prop) (reply : Except StoreError Opened) : Prop :=
  (reply.isOk ↔ ∀ n ∈ through, EndsCompletedTurn events n.number) ∧
    match reply with
    | .ok opened => ∃ copied, Holds copied ∧ ClosedPrefix events through id copied opened
    | .error error => error = .notACompletedTurn

theorem content_fork {saved fork : Saved} {source : SessionId} {through : Option EventNumber}
    {write now cut : Nat} (hcut : forkCut saved.events through = .ok cut)
    (hfork : saved.fork source through write now = .ok fork) :
    fork.content = saved.content.take cut ∧ fork.pending = [] := by
  unfold Saved.fork at hfork
  split at hfork
  · cases hfork
  · next other hother =>
    rw [hcut] at hother
    cases hother
    cases hfork
    exact ⟨List.map_take, rfl⟩

theorem forkSession_memory {store : MemoryStore} {source id : SessionId} {saved : Saved}
    (hsource : store.state.sessions.lookup source = some saved) (hid : id ∉ store.state.sessions)
    (hlease : id ∉ store.writers) (through : Option EventNumber) (now : Nat) :
    let out := store.forkSession source id through now
    ForkGives saved.content through id (fun copied => ∃ fork,
      out.2.state.sessions.lookup id = some fork ∧ fork.content = copied ∧ fork.pending = []) out.1 ∧
    ∀ other ∈ store.state.sessions,
      out.2.state.sessions.lookup other = store.state.sessions.lookup other := by
  intro out
  have hget : store.state.nextWrite.2.get source = .ok saved := by
    rw [State.get, State.nextWrite, hsource]
  rcases forkCut_eq saved.events through with ⟨cut, hcut, hcuts⟩ | ⟨herror, n, hn, hends⟩
  · obtain ⟨fork, hfork⟩ : ∃ fork, saved.fork source through store.state.nextWrite.1 now =
        .ok fork := by
      unfold Saved.fork
      split
      · next error herror =>
        rw [hcut] at herror
        cases herror
      · exact ⟨_, rfl⟩
    obtain ⟨hcontent, hpending⟩ := content_fork hcut hfork
    have hout : out = (.ok (fork.toOpened id (some ⟨id⟩)), {
        state := store.state.nextWrite.2.insert id fork
        writers := insert id store.writers }) := by
      simp [out, MemoryStore.forkSession, hget, hfork, MemoryStore.takeWriter, hlease]
    rw [hout]
    have hshows : Shows (fork.toOpened id (some ⟨id⟩)) id (saved.content.take cut) := by
      rw [← hcontent]
      exact ⟨rfl, Option.some_get _, rfl, rfl, rfl⟩
    refine ⟨⟨iff_of_true rfl hcuts.through_ends, saved.content.take cut,
      ⟨fork, AList.lookup_insert _, hcontent, hpending⟩, hcuts.closedPrefix hshows⟩, ?_⟩
    intro other hother
    apply AList.lookup_insert_ne
    intro heq
    exact hid (heq ▸ hother)
  · have hfork : saved.fork source through store.state.nextWrite.1 now =
        .error .notACompletedTurn := by
      unfold Saved.fork
      split
      · next error hother =>
        rw [herror] at hother
        cases hother
        rfl
      · next cut hother =>
        rw [herror] at hother
        cases hother
    have hout : out = (.error .notACompletedTurn, { store with state := store.state.nextWrite.2 }) := by
      simp [out, MemoryStore.forkSession, hget, hfork]
    rw [hout]
    refine ⟨⟨iff_of_false (by simp [Except.isOk, Except.toBool]) fun hall => hends (hall n hn), rfl⟩, ?_⟩
    intro other _
    rfl

theorem columnsOf_inj {a b : SessionEvent} (h : columnsOf a = columnsOf b) : a = b := by
  have ha : storedEvent ⟨0, ⟨0⟩, 0, columnsOf a, 0⟩ = .ok ⟨⟨0⟩, a⟩ := storedEvent_columnsOf rfl
  have hb : storedEvent ⟨0, ⟨0⟩, 0, columnsOf a, 0⟩ = .ok ⟨⟨0⟩, b⟩ := storedEvent_columnsOf h
  rw [ha] at hb
  cases hb
  rfl

theorem Keeps.unique {db : Database} {id : SessionId} {events others : List SessionEvent}
    (h : Keeps db id events) (hothers : Keeps db id others) : events = others := by
  have hlength : events.length = others.length := by
    have hrows := congrArg List.length h.seqs
    have hrows' := congrArg List.length hothers.seqs
    rw [List.length_range'] at hrows hrows'
    exact hrows.symm.trans hrows'
  apply List.ext_getElem hlength
  intro i hi hi'
  obtain ⟨row, hrow, hseq, hcolumns⟩ := h.row_of_event (Nat.succ_pos i)
    (List.getElem?_eq_getElem hi)
  obtain ⟨_, event, hevent, hcolumns'⟩ := hothers.event_of_mem hrow
  rw [hseq, Nat.succ_eq_add_one, Nat.add_sub_cancel, List.getElem?_eq_getElem hi'] at hevent
  cases hevent
  exact columnsOf_inj (hcolumns.symm.trans hcolumns')

namespace Database

variable {db : Database} {row : SessionRow} {id : SessionId} {cut now : Nat}

theorem sessionRow_forked (hid : db.hasSession id = false) (row : SessionRow) (cut now : Nat)
    (other : SessionId) :
    (db.forked row id cut now).sessionRow other =
      if other = id then some (db.forkRow row id cut now) else db.sessionRow other := by
  rw [sessionRow, forked, List.find?_append]
  by_cases hother : other = id
  · subst hother
    have hnone : db.sessions.find? (fun row => decide (row.id = other)) = none := by
      cases hfind : db.sessions.find? fun row => decide (row.id = other) with
      | none => rfl
      | some found =>
        have hhas : db.hasSession other = true := by
          rw [hasSession_iff, sessionRow, hfind]
          rfl
        rw [hid] at hhas
        cases hhas
    rw [hnone, if_pos rfl]
    simp [forkRow]
  · rw [if_neg hother, sessionRow]
    have hnone : [db.forkRow row id cut now].find? (fun row => decide (row.id = other)) = none := by
      simp [forkRow, Ne.symm hother]
    rw [hnone, Option.or_none]

theorem eventsOf_forked (h : Sound db) (hid : db.hasSession id = false) {events : List SessionEvent}
    (hkeeps : Keeps db row.id events) (hcut : cut ≤ events.length) (now : Nat) (other : SessionId) :
    (db.forked row id cut now).eventsOf other =
      if other = id then db.copiesOf row.id id cut else db.eventsOf other := by
  have hbounds := bounds_copiesOf hkeeps hcut id
  rw [eventsOf, forked, List.filter_append]
  by_cases hother : other = id
  · have hold : db.events.filter (fun row => decide (row.sessionId = other)) = [] := by
      rw [hother]
      exact h.eventsOf_nil hid
    rw [if_pos hother, hold, List.nil_append]
    apply List.filter_eq_self.mpr
    intro copy hcopy
    rw [hother]
    exact decide_eq_true (hbounds copy hcopy).2.2
  · have hnone : (db.copiesOf row.id id cut).filter (fun row => decide (row.sessionId = other)) = [] := by
      apply List.filter_eq_nil_iff.mpr
      intro copy hcopy
      rw [(hbounds copy hcopy).2.2]
      simp [Ne.symm hother]
    rw [if_neg hother, hnone, List.append_nil]
    rfl

end Database

theorem forkSession_sqlite {store : SqliteStore} (h : store.Reached) {source id : SessionId}
    {events : List SessionEvent} (hsource : store.database.hasSession source = true)
    (hkeeps : Keeps store.database source events) (hid : store.database.hasSession id = false)
    (hlock : id ∉ store.locks) (hroom : store.database.lastEvent + events.length ≤ largestSeq)
    (through : Option EventNumber) (now : Nat) :
    let out := store.forkSession source id through (.ok ()) now
    ForkGives events through id (fun copied => out.2.database.hasSession id = true ∧
      Keeps out.2.database id copied) out.1 ∧
    out.2.database.pendingInputs = store.database.pendingInputs ∧
    ∀ other, store.database.hasSession other = true →
      out.2.database.sessionRow other = store.database.sessionRow other ∧
        out.2.database.eventsOf other = store.database.eventsOf other := by
  intro out
  obtain ⟨row, hrow⟩ := Sound.exists_of_hasSession hsource
  obtain ⟨hmem, rfl⟩ := Sound.mem_of_sessionRow hrow
  obtain ⟨events', hfits⟩ := h.sound.fits row hmem
  obtain rfl := hkeeps.unique hfits.keeps
  obtain ⟨settings, hfirst⟩ := hfits.first
  have hne : events ≠ [] := by
    intro hnil
    rw [hnil] at hfirst
    cases hfirst
  rcases hkeeps.forkPoint hrow hne through (h.sound.length_le hkeeps) with
    ⟨cut, hcut, hcuts⟩ | ⟨herror, n, hn, hends⟩
  · have hpos := hcuts.pos ⟨settings, hfirst⟩
    have hle := hcuts.le
    have hcopy : store.database.copyRows row.id id cut now =
        .ok (store.database.forked row id cut now) := by
      rw [Database.copyRows_eq h.sound hrow hkeeps hid hpos hle, checkId, if_pos (by omega)]
      rfl
    have hnew := Database.fits_forkRow hfits rfl hpos hle id now
    have hsession := Database.sessionRow_forked hid row cut now
    have hevents := Database.eventsOf_forked h.sound hid hkeeps hle now
    have hrow' : (store.database.forked row id cut now).sessionRow id =
        some (store.database.forkRow row id cut now) := by rw [hsession, if_pos rfl]
    have hkeeps' : Keeps (store.database.forked row id cut now) id (events.take cut) := by
      rw [Keeps, hevents, if_pos rfl]
      exact hnew.keeps
    have hlocked : store.takeLock id (.ok ()) =
        .ok (⟨id⟩, { store with locks := insert id store.locks }) := by
      simp [SqliteStore.takeLock, hlock]
    obtain ⟨opened, hopened, hshows⟩ : ∃ opened, out = (.ok opened, {
        database := store.database.forked row id cut now
        locks := insert id store.locks }) ∧ Shows opened id (events.take cut) := by
      simp only [out, SqliteStore.forkSession, hcut, hlocked, hcopy, SqliteStore.read,
        hkeeps'.load hrow']
      exact ⟨_, rfl, rfl, hnew.settings.symm, rfl, rfl, rfl⟩
    rw [hopened]
    refine ⟨⟨iff_of_true rfl hcuts.through_ends, events.take cut, ⟨?_, hkeeps'⟩,
      hcuts.closedPrefix hshows⟩, rfl, ?_⟩
    · rw [Database.hasSession_iff, hrow']
      rfl
    · intro other hother
      have hne : other ≠ id := by
        intro heq
        rw [heq, hid] at hother
        cases hother
      exact ⟨by rw [hsession, if_neg hne], by rw [hevents, if_neg hne]⟩
  · have hout : out = (.error .notACompletedTurn, store) := by
      simp [out, SqliteStore.forkSession, herror]
    rw [hout]
    exact ⟨⟨iff_of_false (by simp [Except.isOk, Except.toBool]) fun hall => hends (hall n hn), rfl⟩,
      rfl, fun _ _ => ⟨rfl, rfl⟩⟩

/-- In both stores a fork is a closed prefix of its source. It succeeds exactly when its point ends a
completed turn, and without a point for each saved source. -/
theorem fork_closed_front :
    (∀ (store : MemoryStore) (source id : SessionId) (saved : Saved)
        (through : Option EventNumber) (now : Nat),
      store.state.sessions.lookup source = some saved → id ∉ store.state.sessions →
      id ∉ store.writers →
      let out := store.forkSession source id through now
      ForkGives saved.content through id (fun copied => ∃ fork,
        out.2.state.sessions.lookup id = some fork ∧ fork.content = copied ∧ fork.pending = [])
        out.1 ∧
      ∀ other ∈ store.state.sessions,
        out.2.state.sessions.lookup other = store.state.sessions.lookup other) ∧
    ∀ (store : SqliteStore) (source id : SessionId) (events : List SessionEvent)
        (through : Option EventNumber) (now : Nat),
      store.Reached → store.database.hasSession source = true →
      Keeps store.database source events → store.database.hasSession id = false →
      id ∉ store.locks → store.database.lastEvent + events.length ≤ largestSeq →
      let out := store.forkSession source id through (.ok ()) now
      ForkGives events through id (fun copied => out.2.database.hasSession id = true ∧
        Keeps out.2.database id copied) out.1 ∧
      out.2.database.pendingInputs = store.database.pendingInputs ∧
      ∀ other, store.database.hasSession other = true →
        out.2.database.sessionRow other = store.database.sessionRow other ∧
          out.2.database.eventsOf other = store.database.eventsOf other :=
  ⟨fun _ _ _ _ through now hsource hid hlease =>
      forkSession_memory hsource hid hlease through now,
    fun _ _ _ _ through now hreached hsource hkeeps hid hlock hroom =>
      forkSession_sqlite hreached hsource hkeeps hid hlock hroom through now⟩

def greeted : Saved :=
  ((Saved.new firstSettings [] none 1 7).pushEvent (.commit {
    blocks := [.userText "hi"]
    «end» := some (.outcome (.completed .stop)) } []) 2 8).2

theorem fork_closed_front_greeted :
    (({ state := State.insert {} ⟨1⟩ greeted } : MemoryStore).forkSession ⟨1⟩ ⟨2⟩ (some ⟨2⟩)
        9).1.isOk = true ∧
      (created.forkSession ⟨1⟩ ⟨2⟩ none (.ok ()) 9).1.isOk = true :=
  ⟨(fork_closed_front.1 _ ⟨1⟩ ⟨2⟩ greeted (some ⟨2⟩) 9 (AList.lookup_insert _)
      (by decide +kernel) (by decide)).1.1.mpr (by
        intro n hn
        cases hn
        exact ⟨by decide, _, _, .stop, rfl, rfl⟩),
    (fork_closed_front.2 created ⟨1⟩ ⟨2⟩ [.settings firstSettings] none 9 reached_created
      (by decide +kernel) (by unfold Keeps; decide +kernel) (by decide +kernel) (by decide +kernel)
      (by decide +kernel)).1.1.mpr (by simp)⟩

end Yuke.Store
