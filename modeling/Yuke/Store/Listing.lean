import Yuke.Store.Pages

/-!
# The lists of both stores

A walk over a list gives each session once, unless the limit does not bind. A saved title never fails a
list.
-/

set_option autoImplicit false

namespace Yuke.Store

open Yuke.Protocol
open Yuke.Agent
open Yuke.Shared (Descending Increasing PageWalk mapM_of_forall₂ orderByDesc)

namespace MemoryRuns

def call (store : MemoryStore) (now : Nat) : Call → MemoryStore
  | .createSession id settings prompt parent _ =>
    (store.createSession id settings prompt parent now).2
  | .forkSession source id through _ => (store.forkSession source id through now).2
  | .setSettings id settings => (store.setSettings id settings now).2
  | .renameSession id title => (store.renameSession id title).2
  | .acceptInput id input => (store.acceptInput id input).2
  | .removeInput id input => (store.removeInput id input).2
  | .openSession id access _ => (store.openSession id access).2
  | .commit id commit consumed => (store.commit id commit consumed now).2
  | .deleteSession id _ _ => (store.deleteSession id).2
  | .release id => store.release id

inductive Reached : MemoryStore → Prop where
  | new : Reached {}
  | call {store : MemoryStore} (now : Nat) (call : Call) :
    Reached store → Reached (MemoryRuns.call store now call)

structure Ordered (state : State) : Prop where
  writes : (state.sessions.entries.map fun entry => entry.2.newestWrite).Nodup
  last : ∀ entry ∈ state.sessions.entries, entry.2.newestWrite ≤ state.writes

variable {state : State} {store : MemoryStore} {id : SessionId}

theorem Ordered.nextWrite (h : Ordered state) : Ordered state.nextWrite.2 := by
  constructor
  · exact h.writes
  · intro entry hentry
    exact (h.last entry hentry).trans (Nat.le_succ _)

theorem Ordered.insert (h : Ordered state) {saved : Saved} (hlast : saved.newestWrite ≤ state.writes)
    (hnew : ∀ entry ∈ state.sessions.entries, entry.1 ≠ id →
      entry.2.newestWrite ≠ saved.newestWrite) : Ordered (state.insert id saved) := by
  have hkerase : (state.sessions.entries.kerase id).Sublist state.sessions.entries :=
    List.kerase_sublist id _
  constructor
  · rw [State.insert, AList.entries_insert, List.map_cons, List.nodup_cons]
    constructor
    · intro hmem
      obtain ⟨entry, hentry, hwrite⟩ := List.mem_map.mp hmem
      apply hnew entry (hkerase.subset hentry) _ hwrite
      intro heq
      have hkey := List.mem_keys_of_mem hentry
      rw [heq] at hkey
      exact List.notMem_keys_kerase id state.sessions.nodupKeys hkey
    · exact h.writes.sublist (hkerase.map _)
  · rw [State.insert, AList.entries_insert]
    intro entry hentry
    rcases List.mem_cons.mp hentry with rfl | hentry
    · exact hlast
    · exact h.last entry (hkerase.subset hentry)

theorem Ordered.write (h : Ordered state) {saved : Saved}
    (hsaved : saved.newestWrite = state.writes + 1) :
    Ordered (state.nextWrite.2.insert id saved) := by
  apply h.nextWrite.insert
  · exact hsaved.le
  · intro entry hentry _
    have hlast := h.last entry hentry
    omega

theorem Ordered.change (h : Ordered state) (saved : Saved) {old : Saved}
    (hold : state.sessions.lookup id = some old) (hsaved : saved.newestWrite = old.newestWrite) :
    Ordered (state.insert id saved) := by
  have hmem : (⟨id, old⟩ : Sigma fun _ : SessionId => Saved) ∈ state.sessions.entries :=
    AList.mem_lookup_iff.mp hold
  apply h.insert
  · rw [hsaved]
    exact h.last _ hmem
  · intro entry hentry hne heq
    rw [hsaved] at heq
    exact hne (congrArg Sigma.fst (List.inj_on_of_nodup_map h.writes hentry hmem heq))

theorem get_eq_ok {saved : Saved} (h : state.get id = .ok saved) :
    state.sessions.lookup id = some saved := by
  unfold State.get at h
  split at h
  · next other hother =>
    cases h
    exact hother
  · cases h

theorem state_takeWriter {taken : Lease × MemoryStore} (h : store.takeWriter id = .ok taken) :
    taken.2.state = store.state := by
  unfold MemoryStore.takeWriter at h
  split at h
  · cases h
  · cases h
    rfl

theorem ordered_call (h : Ordered store.state) (now : Nat) (call : Call) :
    Ordered (MemoryRuns.call store now call).state := by
  cases call with
  | createSession id settings prompt parent folder =>
    change Ordered (store.createSession id settings prompt parent now).2.state
    unfold MemoryStore.createSession
    dsimp only
    split
    · exact h.nextWrite
    · next lease left htake =>
      have hleft := state_takeWriter htake
      dsimp only at hleft ⊢
      rw [hleft]
      exact h.write rfl
  | forkSession source id through folder =>
    change Ordered (store.forkSession source id through now).2.state
    unfold MemoryStore.forkSession
    dsimp only
    split
    · exact h.nextWrite
    next saved _ =>
    split
    · exact h.nextWrite
    next fork hfork =>
    split
    · exact h.nextWrite
    · next lease left htake =>
      have hleft := state_takeWriter htake
      dsimp only at hleft ⊢
      rw [hleft]
      apply h.write
      unfold Saved.fork at hfork
      split at hfork
      · cases hfork
      · cases hfork
        rfl
  | setSettings id settings =>
    change Ordered (store.setSettings id settings now).2.state
    unfold MemoryStore.setSettings
    dsimp only
    split
    · exact h.nextWrite
    · exact h.write rfl
  | renameSession id title =>
    change Ordered (store.renameSession id title).2.state
    unfold MemoryStore.renameSession
    split
    · exact h
    next saved hsaved => exact h.change _ (get_eq_ok hsaved) rfl
  | acceptInput id input =>
    change Ordered (store.acceptInput id input).2.state
    unfold MemoryStore.acceptInput
    dsimp only
    split
    · exact h
    next saved hsaved =>
    have hchanged := h.change { saved with
      title := if saved.title.isNone then titleOf input else saved.title
      pending := saved.pending ++ [⟨⟨store.state.newestInput + 1⟩, input⟩] } (get_eq_ok hsaved) rfl
    exact ⟨hchanged.writes, hchanged.last⟩
  | removeInput id input =>
    change Ordered (store.removeInput id input).2.state
    unfold MemoryStore.removeInput
    split
    · exact h
    next saved hsaved =>
    split
    · exact h
    · exact h.change _ (get_eq_ok hsaved) rfl
  | openSession id access folder =>
    change Ordered (store.openSession id access).2.state
    unfold MemoryStore.openSession
    split
    · exact h
    next saved _ =>
    cases access with
    | read => exact h
    | write =>
      dsimp only
      split
      · exact h
      · next taken htake =>
        rw [state_takeWriter htake]
        exact h
  | commit id commit consumed =>
    change Ordered (store.commit id commit consumed now).2.state
    unfold MemoryStore.commit
    split
    · exact h
    split
    · exact h
    next saved hsaved =>
    split
    · exact h
    · exact h.write rfl
  | deleteSession id folder removal =>
    change Ordered (store.deleteSession id).2.state
    unfold MemoryStore.deleteSession
    split
    · exact h
    split
    · exact h
    · have herase : (store.state.sessions.entries.kerase id).Sublist store.state.sessions.entries :=
        List.kerase_sublist id _
      constructor
      · exact h.writes.sublist (herase.map _)
      · intro entry hentry
        exact h.last entry (herase.subset hentry)
  | release id => exact h

theorem Reached.ordered (h : Reached store) : Ordered store.state := by
  induction h with
  | new => exact ⟨by simp, by simp⟩
  | call now call _ ih => exact ordered_call ih now call

def listed (store : MemoryStore) (cwd : Option PathBuf) (parent : Option SessionId) :
    List (Sigma fun _ : SessionId => Saved) :=
  store.state.sessions.entries.filter fun entry =>
    entry.2.parent = parent ∧ cwd.all fun cwd => entry.2.settings.cwd.same cwd

theorem listSessions_eq (h : Reached store) (cwd : Option PathBuf) (parent : Option SessionId)
    {limit : Nat} (hlimit : 1 ≤ limit) (after : Option ListPosition) :
    store.listSessions cwd parent after limit =
      pageAfter (listed store cwd parent) (fun entry => entry.2.newestWrite)
        (fun entry => entry.2.summary entry.1) limit after := by
  have hnodup : ((listed store cwd parent).map fun entry => entry.2.newestWrite).Nodup :=
    h.ordered.writes.sublist (List.filter_sublist.map _)
  have hleft : ((store.state.sessions.entries.filter (fun entry => entry.2.parent = parent)).filter
      (fun entry => after.all fun before => entry.2.newestWrite < before.position)).filter
      (fun entry => cwd.all fun cwd => entry.2.settings.cwd.same cwd) =
      (listed store cwd parent).filter fun entry => afterPosition after entry.2.newestWrite := by
    rw [listed, List.filter_filter, List.filter_filter, List.filter_filter]
    apply List.filter_congr
    intro entry _
    simp only [Bool.decide_and, Bool.decide_eq_true, afterPosition]
    cases decide (entry.2.parent = parent) <;> simp [Bool.and_comm]
  rw [MemoryStore.listSessions, hleft]
  change ({ sessions := _, next := _ } : SessionPage) = _
  rw [pageAfter, ← Descending.orderByDesc_filter hnodup]
  generalize horder : orderByDesc (fun entry : Sigma fun _ : SessionId => Saved =>
    entry.2.newestWrite) ((listed store cwd parent).filter fun entry =>
      afterPosition after entry.2.newestWrite) = order
  have horder' := horder
  rw [orderByDesc] at horder'
  have hzero : limit ≠ 0 := by omega
  rw [horder']
  simp only [hzero, if_false]
  congr 1
  split
  · next hmore =>
    have hlast : (order.take limit).getLast? = order[limit - 1]? := by
      rw [List.getLast?_eq_getElem?, List.length_take, Nat.min_eq_left hmore.le,
        List.getElem?_take, if_pos (by omega)]
    rw [hlast]
  · rfl

end MemoryRuns

namespace Sound

variable {db : Database}

theorem newest_row (h : Sound db) {row : SessionRow} (hrow : row ∈ db.sessions) :
    ∃ event ∈ db.events, event.id = row.newestEvent ∧ event.sessionId = row.id := by
  obtain ⟨events, hfits⟩ := h.fits row hrow
  obtain ⟨event, hevent, hid⟩ := Option.map_eq_some_iff.mp hfits.newest
  obtain ⟨hmem, hsession⟩ := List.mem_filter.mp (List.mem_of_getLast? hevent)
  exact ⟨event, hmem, hid, of_decide_eq_true hsession⟩

theorem newestEvent_le (h : Sound db) {row : SessionRow} (hrow : row ∈ db.sessions) :
    row.newestEvent ≤ db.lastEvent := by
  obtain ⟨event, hevent, hid, _⟩ := h.newest_row hrow
  rw [← hid]
  exact h.last event hevent

theorem nodup_newestEvent (h : Sound db) : (db.sessions.map SessionRow.newestEvent).Nodup := by
  apply List.Nodup.map_on _ (List.Nodup.of_map _ h.ids)
  intro a ha b hb hab
  obtain ⟨first, hfirst, hfirstId, hfirstSession⟩ := h.newest_row ha
  obtain ⟨second, hsecond, hsecondId, hsecondSession⟩ := h.newest_row hb
  have heq : first = second := h.increasing.eq_of_key hfirst hsecond (by omega)
  apply List.inj_on_of_nodup_map h.ids ha hb
  rw [← hfirstSession, ← hsecondSession, heq]

end Sound

theorem toStr_inj {a b : PathBuf} {text : String} (ha : a.toStr = some text)
    (hb : b.toStr = some text) : a = b := by
  have hbytes : ∀ path : PathBuf, path.toStr = some text → text.toByteArray = ⟨path.bytes.toArray⟩ := by
    intro path hpath
    unfold PathBuf.toStr String.fromUTF8? at hpath
    split at hpath
    · cases hpath
      rfl
    · cases hpath
  have heq := (hbytes a ha).symm.trans (hbytes b hb)
  obtain ⟨a⟩ := a
  obtain ⟨b⟩ := b
  have hlist := congrArg (fun bytes => bytes.data.toList) heq
  simpa using hlist

namespace SqliteStore

variable {store : SqliteStore}

def listed (store : SqliteStore) (cwd : Option PathBuf) (parent : Option SessionId) :
    List SessionRow :=
  store.database.sessions.filter fun row =>
    row.parent = parent ∧ cwd.all fun cwd => row.settings.cwd = cwd

theorem listRows_eq (h : Sound store.database) (hids : store.database.lastEvent < largestSeq)
    {cwd : Option PathBuf} {text : Option String} (htext : cwd.map PathBuf.toStr = text.map some)
    (parent : Option SessionId) (after : Option ListPosition) :
    store.database.listRows parent text
        (after.elim largestSeq fun after => min after.position largestSeq) =
      (orderByDesc SessionRow.newestEvent (store.listed cwd parent)).filter fun row =>
        afterPosition after row.newestEvent := by
  have hnodup : ((store.listed cwd parent).map SessionRow.newestEvent).Nodup :=
    h.nodup_newestEvent.sublist (List.filter_sublist.map _)
  rw [← Descending.orderByDesc_filter hnodup, Database.listRows, listed, List.filter_filter]
  congr 1
  apply List.filter_congr
  intro row hrow
  have hlast := h.newestEvent_le hrow
  have hafter : (row.newestEvent < after.elim largestSeq fun after => min after.position largestSeq) ↔
      afterPosition after row.newestEvent = true := by
    cases after with
    | none =>
      simp only [Option.elim_none, afterPosition, Option.all_none, iff_true]
      omega
    | some after =>
      simp only [Option.elim_some, afterPosition, Option.all_some, decide_eq_true_eq]
      omega
  have hcwd : (text.all fun text => decide (row.settings.cwd.toStr = some text)) =
      cwd.all fun cwd => decide (row.settings.cwd = cwd) := by
    cases cwd with
    | none =>
      cases text with
      | none => rfl
      | some text => cases htext
    | some cwd =>
      cases text with
      | none => cases htext
      | some text =>
        have hpath : cwd.toStr = some text := Option.some.inj htext
        simp only [Option.all_some, decide_eq_decide]
        constructor
        · intro hrow
          exact toStr_inj hrow hpath
        · intro heq
          rw [heq]
          exact hpath
  rw [hcwd, Bool.eq_iff_iff]
  simp only [decide_eq_true_eq, Bool.and_eq_true, hafter]
  tauto

theorem toStr_of_sound (h : Sound store.database) {row : SessionRow}
    (hrow : row ∈ store.database.sessions) : row.settings.cwd.toStr.isSome := by
  obtain ⟨events, hfits⟩ := h.fits row hrow
  have hsettings := hfits.settings
  rw [Replayed.settings_of] at hsettings
  obtain ⟨event, hevent, hsome⟩ := List.exists_of_findSome?_eq_some hsettings
  cases event with
  | settings settings =>
    cases hsome
    exact hfits.cwd _ (List.mem_reverse.mp hevent)
  | commit commit consumed => cases hsome

theorem listFolder_eq (h : Sound store.database) (hids : store.database.lastEvent < largestSeq)
    {cwd : Option PathBuf} {text : Option String} (htext : cwd.map PathBuf.toStr = text.map some)
    {limit : Nat} (hlimit : limit < largestSeq) {render : SessionRow → SessionSummary}
    (hrender : ∀ row ∈ store.database.sessions, row.summary = .ok (render row))
    (parent : Option SessionId) (after : Option ListPosition) :
    store.listFolder text parent after limit =
      .ok (pageAfter (store.listed cwd parent) SessionRow.newestEvent render limit after) := by
  have hrows := listRows_eq h hids htext parent after
  generalize hleft : ((orderByDesc SessionRow.newestEvent (store.listed cwd parent)).filter fun row =>
    afterPosition after row.newestEvent) = left at hrows
  have hmem : ∀ row ∈ left, row ∈ store.database.sessions := by
    intro row hrow
    rw [← hleft] at hrow
    have horder := List.mem_of_mem_filter hrow
    rw [orderByDesc, List.mem_mergeSort] at horder
    exact List.mem_of_mem_filter horder
  have hread : ((left.take (limit + 1)).mapM fun row => do
      let summary ← row.summary
      return (summary, row.newestEvent)) =
      .ok ((left.take (limit + 1)).map fun row => (render row, row.newestEvent)) := by
    apply mapM_of_forall₂
    rw [List.forall₂_map_right_iff, List.forall₂_same]
    intro row hrow
    rw [hrender row (hmem row (List.mem_of_mem_take hrow))]
    rfl
  have hbind : bindInteger (min (limit + 1) (2 ^ 64 - 1)) = .ok (limit + 1) := by
    have hmin : min (limit + 1) (2 ^ 64 - 1) = limit + 1 := by
      rw [largestSeq] at hlimit
      omega
    rw [hmin, bindInteger, if_pos (by omega)]
    rfl
  unfold listFolder
  dsimp only
  rw [hrows, hbind]
  simp only [ok_bind]
  rw [hread, pageAfter, hleft]
  simp only [ok_bind, List.length_map, List.length_take, ← List.map_take, List.take_take,
    List.map_map, List.getLast?_map, Option.map_map]
  have hmore : limit < min (limit + 1) left.length ↔ limit < left.length := by omega
  simp only [hmore, Nat.min_eq_left (Nat.le_succ limit)]
  rfl

theorem listSessions_eq (h : Sound store.database) (hids : store.database.lastEvent < largestSeq)
    {cwd : Option PathBuf} {limit : Nat}
    (hlimit : limit < largestSeq ∨ ∃ path ∈ cwd, path.toStr = none)
    {render : SessionRow → SessionSummary}
    (hrender : ∀ row ∈ store.database.sessions, row.summary = .ok (render row))
    (parent : Option SessionId) (after : Option ListPosition) :
    store.listSessions cwd parent after limit =
      .ok (pageAfter (store.listed cwd parent) SessionRow.newestEvent render limit after) := by
  cases cwd with
  | none =>
    have hbound := hlimit.resolve_right (by simp)
    exact listFolder_eq h hids rfl hbound hrender parent after
  | some path =>
    cases htext : path.toStr with
    | some text =>
      have hbound := hlimit.resolve_right (by simp [htext])
      simp only [listSessions, htext]
      have hpath : (some path).map PathBuf.toStr = (some text).map some := congrArg some htext
      exact listFolder_eq h hids hpath hbound hrender parent after
    | none =>
      have hempty : store.listed (some path) parent = [] := by
        apply List.filter_eq_nil_iff.mpr
        intro row hrow hmatch
        have hsome := toStr_of_sound h hrow
        have hcwd := (of_decide_eq_true hmatch).2
        rw [Option.all_some, decide_eq_true_eq] at hcwd
        rw [hcwd, htext] at hsome
        cases hsome
      have hnil : orderByDesc SessionRow.newestEvent [] = [] := List.mergeSort_nil
      simp [listSessions, htext, hempty, pageAfter, hnil]

theorem listSessions_error {cwd : Option PathBuf} {limit : Nat} (hlimit : largestSeq ≤ limit)
    (hpath : ∀ path ∈ cwd, path.toStr ≠ none) (parent : Option SessionId)
    (after : Option ListPosition) :
    store.listSessions cwd parent after limit =
      .error (.failed { text := "out of range integral type conversion attempted" }) := by
  have hbind : bindInteger (min (limit + 1) (2 ^ 64 - 1)) =
      .error (.failed { text := "out of range integral type conversion attempted" }) := by
    have hlarge : ¬ min (limit + 1) (2 ^ 64 - 1) ≤ largestSeq := by
      rw [largestSeq] at hlimit ⊢
      omega
    rw [bindInteger, if_neg hlarge]
    rfl
  have hfolder : ∀ text, store.listFolder text parent after limit =
      .error (.failed { text := "out of range integral type conversion attempted" }) := by
    intro text
    unfold listFolder
    rw [hbind]
    rfl
  unfold listSessions
  cases cwd with
  | none => exact hfolder none
  | some path =>
    obtain ⟨text, htext⟩ := Option.ne_none_iff_exists'.mp (hpath path rfl)
    simp only [htext]
    exact hfolder (some text)

end SqliteStore

def MemoryPages (store : MemoryStore) (cwd : Option PathBuf) (parent : Option SessionId)
    (limit : Nat) : Prop :=
  ListsOnce (fun after => .ok (store.listSessions cwd parent after limit))
      (MemoryRuns.listed store cwd parent) (fun entry => entry.2.newestWrite)
      (fun entry => .ok (entry.2.summary entry.1)) ∧
    ∀ id saved, store.state.sessions.lookup id = some saved →
      CoversEvents (store.load id) limit saved.content

def SqlitePages (store : SqliteStore) (cwd : Option PathBuf) (parent : Option SessionId)
    (limit : Nat) : Prop :=
  ListsOnce (fun after => store.listSessions cwd parent after limit) (store.listed cwd parent)
      SessionRow.newestEvent SessionRow.summary ∧
    ∀ id events, store.database.hasSession id = true → Keeps store.database id events →
      CoversEvents (store.load id) limit events

theorem MemoryRuns.Reached.pages {store : MemoryStore} (h : MemoryRuns.Reached store)
    (cwd : Option PathBuf) (parent : Option SessionId) {limit : Nat} (hlimit : 1 ≤ limit) :
    MemoryPages store cwd parent limit := by
  constructor
  · apply listsOnce_of_pages (h.ordered.writes.sublist (List.filter_sublist.map _)) hlimit
      fun entry => entry.2.summary entry.1
    · intro after
      exact congrArg Except.ok (MemoryRuns.listSessions_eq h cwd parent hlimit after)
    · intro entry _
      rfl
  · intro id saved hsaved
    rw [CoversEvents, Saved.content, numbered_content saved.numbered]
    apply coversEvents saved.numbered hlimit
    intro before
    refine ⟨saved.pending, ?_⟩
    rw [MemoryStore.load, State.get, hsaved]
    rfl

theorem SqliteStore.Reached.events {store : SqliteStore} (h : store.Reached)
    (hids : store.database.lastEvent < largestSeq) {limit : Nat} (hlimit : 1 ≤ limit)
    {id : SessionId} {events : List SessionEvent} (hid : store.database.hasSession id = true)
    (hkeeps : Keeps store.database id events) : CoversEvents (store.load id) limit events := by
  have hlength : events.length < largestSeq := by
    have hrows : (store.database.eventsOf id).length = events.length := by
      simpa using congrArg List.length hkeeps.seqs
    have hfew : (store.database.eventsOf id).length ≤ store.database.events.length :=
      List.length_filter_le _ _
    have hcount := h.sound.count
    omega
  apply coversEvents (numbered_numbered events) hlimit
  intro before
  exact ⟨_, hkeeps.load_before hid hlength before limit⟩

theorem SqliteStore.Reached.lists {store : SqliteStore} (h : store.Reached)
    (hids : store.database.lastEvent < largestSeq) {cwd : Option PathBuf}
    (parent : Option SessionId) {limit : Nat} (hlimit : 1 ≤ limit)
    (hbind : limit < largestSeq ∨ ∃ path ∈ cwd, path.toStr = none) :
    ListsOnce (fun after => store.listSessions cwd parent after limit) (store.listed cwd parent)
      SessionRow.newestEvent SessionRow.summary := by
  have : Nonempty SessionSummary := ⟨⟨⟨0⟩, ⟨"", ""⟩, ⟨[]⟩, none, 0, 0, none, none⟩⟩
  have hsummary : ∀ row ∈ store.database.sessions, ∃ summary, row.summary = .ok summary := by
    intro row hrow
    obtain ⟨summary, hsummary, _⟩ := SqliteStore.summary_of_sound h.sound hrow
    exact ⟨summary, hsummary⟩
  choose! render hrender using hsummary
  apply listsOnce_of_pages (h.sound.nodup_newestEvent.sublist (List.filter_sublist.map _)) hlimit
    render
  · intro after
    exact SqliteStore.listSessions_eq h.sound hids hbind hrender parent after
  · intro row hrow
    exact hrender row (List.mem_of_mem_filter hrow)

theorem not_sqlitePages {store : SqliteStore} {cwd : Option PathBuf} {limit : Nat}
    (hlimit : largestSeq ≤ limit) (hpath : ∀ path ∈ cwd, path.toStr ≠ none)
    (parent : Option SessionId) : ¬ SqlitePages store cwd parent limit := by
  intro ⟨⟨_, _, hwalk, _⟩, _⟩
  have hpage : sessionPages (fun after => store.listSessions cwd parent after limit) none = none := by
    rw [sessionPages, store.listSessions_error hlimit hpath]
  cases hwalk with
  | last h =>
    rw [hpage] at h
    cases h
  | more h _ =>
    rw [hpage] at h
    cases h

def createdInMemory : MemoryStore := MemoryRuns.call {} 7 firstCall

theorem SqliteStore.exists_listFolder {store : SqliteStore} (h : Sound store.database)
    (text : Option String) (parent : Option SessionId) (after : Option ListPosition) {limit : Nat}
    (hlimit : limit < largestSeq) : ∃ page, store.listFolder text parent after limit = .ok page := by
  have hbind : bindInteger (min (limit + 1) (2 ^ 64 - 1)) = .ok (min (limit + 1) (2 ^ 64 - 1)) := by
    rw [bindInteger, if_pos (by omega)]
    rfl
  have hread : ∀ rows : List SessionRow, (∀ row ∈ rows, row ∈ store.database.sessions) →
      ∃ listed, (rows.mapM fun row => do
        let summary ← row.summary
        return (summary, row.newestEvent)) = Except.ok listed := by
    intro rows hrows
    induction rows with
    | nil => exact ⟨[], rfl⟩
    | cons row rows ih =>
      obtain ⟨summary, hsummary, _⟩ := summary_of_sound h (hrows row List.mem_cons_self)
      obtain ⟨listed, hlisted⟩ := ih fun other hother => hrows other (List.mem_cons_of_mem _ hother)
      refine ⟨(summary, row.newestEvent) :: listed, ?_⟩
      rw [List.mapM_cons, hsummary, hlisted]
      rfl
  unfold listFolder
  dsimp only
  rw [hbind]
  simp only [ok_bind]
  obtain ⟨listed, hlisted⟩ := hread ((store.database.listRows parent text
    (after.elim largestSeq fun after => min after.position largestSeq)).take
      (min (limit + 1) (2 ^ 64 - 1))) (by
    intro row hrow
    have horder := List.mem_of_mem_take hrow
    rw [Database.listRows, orderByDesc, List.mem_mergeSort] at horder
    exact List.mem_of_mem_filter horder)
  rw [hlisted]
  exact ⟨_, rfl⟩

/-- Each saved title reads back, so no list and no summary of a saved session fails on it. -/
theorem titles_read_back {store : SqliteStore} (h : store.Reached) :
    (∀ text title, SessionTitle.fromText text = some title →
      SessionTitle.new title.text = some title) ∧
    (∀ row ∈ store.database.sessions, ∃ summary, row.summary = .ok summary ∧
      summary.title.map SessionTitle.text = row.title) ∧
    (∀ id, store.database.hasSession id = true → ∃ summary, store.sessionSummary id = .ok summary) ∧
    ∀ cwd parent after limit, limit < largestSeq →
      ∃ page, store.listSessions cwd parent after limit = .ok page := by
  refine ⟨fun _ title _ => title.new_text, ?_, ?_, ?_⟩
  · intro row hrow
    obtain ⟨summary, hsummary, _, htitle⟩ := SqliteStore.summary_of_sound h.sound hrow
    exact ⟨summary, hsummary, htitle⟩
  · intro id hid
    obtain ⟨row, hrow⟩ := Sound.exists_of_hasSession hid
    obtain ⟨summary, hsummary, _⟩ :=
      SqliteStore.summary_of_sound h.sound (Sound.mem_of_sessionRow hrow).1
    refine ⟨summary, ?_⟩
    rw [SqliteStore.sessionSummary, hrow]
    exact hsummary
  · intro cwd parent after limit hlimit
    unfold SqliteStore.listSessions
    split
    · exact store.exists_listFolder h.sound _ parent after hlimit
    · split
      · exact store.exists_listFolder h.sound _ parent after hlimit
      · exact ⟨_, rfl⟩

def hello : Input where
  source := .user
  kind := .message
  content := [.userText " hello \n world "]
  modelContent := none
  content_ne := List.cons_ne_nil _ _
  modelContent_ne := (Option.some_ne_none []).symm

def forkedOnce : SqliteStore :=
  (created.call 8 (.acceptInput ⟨1⟩ hello)).call 9 (.forkSession ⟨1⟩ ⟨2⟩ none (.ok ()))

theorem titles_read_back_fork :
    forkedOnce.database.sessions.map SessionRow.title =
        [some "hello world", some "Fork — hello world"] ∧
      ∃ page, forkedOnce.listSessions none none none 5 = .ok page :=
  ⟨by decide +kernel, (titles_read_back (.call 9 _ (.call 8 _ reached_created))).2.2.2
    none none none 5 (by decide)⟩

end Yuke.Store
