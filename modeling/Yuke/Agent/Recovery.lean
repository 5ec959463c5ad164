import Yuke.Agent.History

/-!
# Recovery

A session that opens, or opens again, closes the turn that the store holds as open. Its memory is then
the replay of the store, and another recovery has nothing to save.
-/

set_option autoImplicit false

namespace Yuke.Agent

open Yuke.Engine
open Yuke.Protocol
open Yuke.Shared (Program)

structure Shows (opened : Opened) (id : SessionId) (events : List SessionEvent) : Prop where
  id : opened.id = id
  settings : some opened.settings = (Replayed.of events).settings
  context : opened.context = (Replayed.of events).context
  newestTurn : opened.newestTurn = (Replayed.of events).newestTurn
  inputTokens : opened.inputTokens = (Replayed.of events).inputTokens

/-- A store of sessions. `Has` gives the events of a session, and `Free` a session that no lease holds. A
load replays the events, and a commit without inputs adds its event. -/
structure SessionStore (σ : Type) where
  Has : σ → SessionId → List SessionEvent → Prop
  Free : σ → SessionId → Prop
  openSession : σ → SessionId → Access → Except StoreError Opened × σ
  commit : σ → SessionId → Commit → List ConsumedInput → Except StoreError EventNumber × σ
  read : ∀ {s id events}, Has s id events → ∃ opened,
    openSession s id .read = (.ok opened, s) ∧ Shows opened id events ∧ opened.lease = none
  write : ∀ {s id events}, Has s id events → Free s id → ∃ opened s',
    openSession s id .write = (.ok opened, s') ∧ Shows opened id events ∧
      opened.lease = some ⟨id⟩ ∧ Has s' id events
  saves : ∀ {s id events} (change : Commit), Has s id events → ∃ number s',
    commit s id change [] = (.ok number, s') ∧ Has s' id (events ++ [.commit change []])

namespace SessionStore

variable {σ : Type} (store : SessionStore σ)

def reply (s : σ) : (a : SessionAwait) → Option (a.Reply × σ)
  | ⟨held, .openSession access⟩ => some (store.openSession s held.id access)
  | ⟨held, .commit commit consumed⟩ => some (store.commit s held.id commit consumed)
  | _ => none

def run {α : Type} : Sessioning α → σ → Option (α × σ)
  | .done a, s => some (a, s)
  | .call a next, s => (store.reply s a).bind fun out => run (next out.1) out.2
  | .cut, _ => none

@[simp] theorem run_bind {α β : Type} (p : Sessioning α) (f : α → Sessioning β) (s : σ) :
    store.run (p >>= f) s = (store.run p s).bind fun out => store.run (f out.1) out.2 := by
  induction p generalizing s with
  | done a => rfl
  | cut => rfl
  | call a next ih =>
    change ((store.reply s a).bind fun out => store.run (next out.1 >>= f) out.2) = _
    simp only [ih, run, Option.bind_assoc]

theorem run_ask {held : Held} {call : SessionCall} {reply : call.Reply} {s s' : σ}
    (h : store.reply s ⟨held, call⟩ = some (reply, s')) :
    store.run (ask held call) s = some (reply, s') := by
  rw [ask, run, h]
  rfl

end SessionStore

/-! ## Open and recover -/

structure Session.Replays (session : Session) (events : List SessionEvent) : Prop where
  settings : some session.settings = (Replayed.of events).settings
  context : session.context = (Replayed.of events).context
  newestTurn : session.newestTurn = (Replayed.of events).newestTurn
  inputTokens : session.inputTokens = (Replayed.of events).inputTokens

/-- The events of a store after a load that saved `repair`. -/
def withRepair (events : List SessionEvent) (repair : Option StoredEvent) : List SessionEvent :=
  events ++ (repair.map StoredEvent.event).toList

section

variable {σ : Type} {store : SessionStore σ} {s s' : σ} {id : SessionId}
  {events : List SessionEvent}

/-- What a load leaves: no open call, no open turn, and a store that holds what the load shows. -/
structure Closed (store : SessionStore σ) (id : SessionId) (events : List SessionEvent)
    (opened : Opened) (after : σ) : Prop where
  paired : Paired opened.context
  ended : opened.newestTurn.isOpen = false
  has : store.Has after id events
  shows : Shows opened id events

theorem Shows.closed {opened : Opened} (h : Shows opened id events) (hcloses : Closes events)
    (hhas : store.Has s id events) (hended : opened.newestTurn.isOpen = false) :
    Closed store id events opened s where
  paired := by
    rw [h.context]
    rw [h.newestTurn] at hended
    exact hcloses.ended hended
  ended := hended
  has := hhas
  shows := h

theorem Shows.repaired {opened : Opened} (h : Shows opened id events) :
    Shows { opened with
        context := opened.context ++ (repairOf opened.context).blocks
        newestTurn := .ended (.failed turnStopped) } id
      (events ++ [.commit (repairOf opened.context) []]) where
  id := h.id
  settings := by
    rw [Replayed.of_concat]
    exact h.settings
  context := by
    rw [Replayed.of_concat]
    exact congrArg (· ++ (repairOf opened.context).blocks) h.context
  newestTurn := by
    rw [Replayed.of_concat]
    rfl
  inputTokens := by
    rw [Replayed.of_concat]
    exact h.inputTokens

theorem run_openAndEndTurn {access : Access} {opened : Opened} (session : Option Session)
    (hopen : store.openSession s id access = (.ok opened, s')) (hshows : Shows opened id events)
    (hhas : store.Has s' id events) (hcloses : Closes events) :
    ∃ loaded repair after,
      store.run (openAndEndTurn id session access) s = some (.ok (loaded, repair), after) ∧
        Closed store id (withRepair events repair) loaded after ∧ loaded.lease = opened.lease := by
  have hreply : store.run (ask ⟨id, session, none, []⟩ (.openSession access)) s =
      some (.ok opened, s') := store.run_ask (congrArg some hopen)
  cases hturn : opened.newestTurn.isOpen with
  | false =>
    have hclosed : Closed store id (withRepair events none) opened s' := by
      rw [withRepair, Option.map_none, Option.toList_none, List.append_nil]
      exact hshows.closed hcloses hhas hturn
    refine ⟨opened, none, s', ?_, hclosed, rfl⟩
    rw [openAndEndTurn, store.run_bind, hreply, Option.bind_some]
    simp only [hturn, Bool.false_eq_true, if_false]
    rfl
  | true =>
    obtain ⟨number, after, hcommit, hafter⟩ := store.saves (repairOf opened.context) hhas
    have hsave : store.run (ask ⟨id, session, opened.lease, []⟩
        (.commit (repairOf opened.context) [])) s' = some (.ok number, after) :=
      store.run_ask (congrArg some hcommit)
    have hcut := hcloses.cut
    rw [← hshows.context] at hcut
    refine ⟨_, some ⟨number, .commit (repairOf opened.context) []⟩, after, ?_,
      ⟨paired_repair hcut, rfl, hafter, hshows.repaired⟩, rfl⟩
    rw [openAndEndTurn, store.run_bind, hreply, Option.bind_some]
    simp only [hturn, if_true]
    rw [store.run_bind, hsave, Option.bind_some]
    rfl

/-- A session after an open or a recovery: each call has its result, no turn is open, the memory is the
replay of the store, and another recovery leaves the session and the store as they are. -/
structure Recovered (store : SessionStore σ) (session : Session) (events : List SessionEvent)
    (after : σ) : Prop where
  paired : Paired session.context
  ended : session.newestTurn.isOpen = false
  has : store.Has after session.id events
  replays : session.Replays events
  again : store.run session.recover after = some ((.ok none, session), after)

theorem run_recover_of_replays {session : Session} (hhas : store.Has s session.id events)
    (hreplays : session.Replays events) (hended : session.newestTurn.isOpen = false)
    (howned : session.isStale = false) :
    store.run session.recover s = some ((.ok none, session), s) := by
  obtain ⟨opened, hopen, hshows, hlease⟩ := store.read hhas
  have hturn : opened.newestTurn = session.newestTurn :=
    hshows.newestTurn.trans hreplays.newestTurn.symm
  have hsettings : opened.settings = session.settings :=
    Option.some.inj (hshows.settings.trans hreplays.settings.symm)
  have hcontext : opened.context = session.context := hshows.context.trans hreplays.context.symm
  have htokens : opened.inputTokens = session.inputTokens :=
    hshows.inputTokens.trans hreplays.inputTokens.symm
  have hreply : store.run (ask ⟨session.id, some session, none, []⟩ (.openSession .read)) s =
      some (.ok opened, s) := store.run_ask (congrArg some hopen)
  have hload : store.run (openAndEndTurn session.id session .read) s =
      some (.ok (opened, none), s) := by
    rw [openAndEndTurn, store.run_bind, hreply, Option.bind_some]
    simp only [hturn, hended, Bool.false_eq_true, if_false]
    rfl
  rw [Session.recover]
  simp only [howned, Bool.false_eq_true, if_false]
  rw [store.run_bind, hload, Option.bind_some]
  simp only [hturn, hsettings, hcontext, htokens, hlease, Option.isSome_none, Bool.false_eq_true,
    if_false]
  rfl

theorem Closed.recovered {opened : Opened} (h : Closed store id events opened s) {session : Session}
    (hid : session.id = id) (howned : session.isStale = false)
    (hmemory : session.settings = opened.settings ∧ session.context = opened.context ∧
      session.newestTurn = opened.newestTurn ∧ session.inputTokens = opened.inputTokens) :
    Recovered store session events s := by
  obtain ⟨hsettings, hcontext, hturn, htokens⟩ := hmemory
  have hhas : store.Has s session.id events := hid ▸ h.has
  have hended : session.newestTurn.isOpen = false := hturn ▸ h.ended
  have hreplays : session.Replays events := by
    constructor
    · rw [hsettings]
      exact h.shows.settings
    · rw [hcontext]
      exact h.shows.context
    · rw [hturn]
      exact h.shows.newestTurn
    · rw [htokens]
      exact h.shows.inputTokens
  exact ⟨hcontext ▸ h.paired, hended, hhas, hreplays,
    run_recover_of_replays hhas hreplays hended howned⟩

theorem open_recovered (hhas : store.Has s id events) (hcloses : Closes events)
    (hfree : store.Free s id) :
    ∃ session repair after, store.run (Session.open id) s = some (.ok session, after) ∧
      session.id = id ∧ Recovered store session (withRepair events repair) after := by
  obtain ⟨opened, s', hopen, hshows, hlease, hhas'⟩ := store.write hhas hfree
  obtain ⟨loaded, repair, after, hrun, hclosed, hloaded⟩ :=
    run_openAndEndTurn none hopen hshows hhas' hcloses
  refine ⟨.fromOpened loaded, repair, after, ?_, hclosed.shows.id, ?_⟩
  · rw [Session.open, store.run_bind, hrun]
    rfl
  · apply hclosed.recovered hclosed.shows.id
    · rw [Session.isStale, Session.fromOpened, hloaded, hlease]
      rfl
    · exact ⟨rfl, rfl, rfl, rfl⟩

theorem recover_recovered {session : Session} (hhas : store.Has s session.id events)
    (hcloses : Closes events) (hfree : session.isStale → store.Free s session.id) :
    ∃ repair left after, store.run session.recover s = some ((.ok repair, left), after) ∧
      left.id = session.id ∧ Recovered store left (withRepair events repair) after := by
  have hopened : ∃ opened s', store.openSession s session.id
        (if session.isStale then Access.write else .read) = (.ok opened, s') ∧
      Shows opened session.id events ∧ store.Has s' session.id events ∧
      (opened.lease.isSome ∨ session.isStale = false) := by
    cases hstale : session.isStale with
    | true =>
      obtain ⟨opened, s', hopen, hshows, hlease, hhas'⟩ := store.write hhas (hfree hstale)
      exact ⟨opened, s', hopen, hshows, hhas', .inl (by simp [hlease])⟩
    | false =>
      obtain ⟨opened, hopen, hshows, _⟩ := store.read hhas
      exact ⟨opened, s, hopen, hshows, hhas, .inr rfl⟩
  obtain ⟨opened, s', hopen, hshows, hhas', howned⟩ := hopened
  obtain ⟨loaded, repair, after, hrun, hclosed, hloaded⟩ :=
    run_openAndEndTurn (some session) hopen hshows hhas' hcloses
  let left : Session := { session with
    settings := loaded.settings
    context := loaded.context
    newestTurn := loaded.newestTurn
    inputTokens := loaded.inputTokens
    lease := if loaded.lease.isSome then loaded.lease else session.lease }
  have hleft : left.isStale = false := by
    change (if loaded.lease.isSome then loaded.lease else session.lease).isNone = false
    rw [hloaded]
    rcases howned with hlease | hheld
    · simp [hlease]
    · cases hlease : opened.lease with
      | none => exact hheld
      | some lease => rfl
  refine ⟨repair, left, after, ?_, rfl, hclosed.recovered rfl hleft ⟨rfl, rfl, rfl, rfl⟩⟩
  rw [Session.recover, store.run_bind, hrun, Option.bind_some]
  rfl

/-- An open and a recovery close the turn of each history of the driver, wherever it was cut. -/
theorem recovery_closes_cut (store : SessionStore σ) (hhistory : DriverHistory events)
    (hhas : store.Has s id events) :
    (store.Free s id → ∃ session repair after,
      store.run (Session.open id) s = some (.ok session, after) ∧
        session.id = id ∧ Recovered store session (withRepair events repair) after) ∧
    ∀ session : Session, session.id = id → (session.isStale → store.Free s id) →
      ∃ repair left after, store.run session.recover s = some ((.ok repair, left), after) ∧
        left.id = id ∧ Recovered store left (withRepair events repair) after := by
  constructor
  · exact open_recovered hhas hhistory.closes
  · rintro session rfl hfree
    exact recover_recovered hhas hhistory.closes hfree

end

def MemoryStore.sessionStore (now : Nat) : SessionStore MemoryStore where
  Has store id events := ∃ saved, store.state.sessions.lookup id = some saved ∧ saved.content = events
  Free store id := id ∉ store.writers
  openSession := MemoryStore.openSession
  commit store id change consumed := store.commit id change consumed now
  read := by
    rintro store id events ⟨saved, hsaved, rfl⟩
    refine ⟨saved.toOpened id none, ?_, ⟨rfl, ?_, rfl, rfl, rfl⟩, rfl⟩
    · simp [MemoryStore.openSession, State.get, hsaved]
    · exact Option.some_get _
  write := by
    rintro store id events ⟨saved, hsaved, rfl⟩ hfree
    refine ⟨saved.toOpened id (some ⟨id⟩), { store with writers := insert id store.writers }, ?_,
      ⟨rfl, ?_, rfl, rfl, rfl⟩, rfl, saved, hsaved, rfl⟩
    · simp [MemoryStore.openSession, State.get, hsaved, MemoryStore.takeWriter, hfree]
    · exact Option.some_get _
  saves := by
    rintro store id events change ⟨saved, hsaved, rfl⟩
    refine ⟨_, _, by
      simp [MemoryStore.commit, checkConsumedBlocks, State.get, hsaved, MemoryStore.notPending]
      exact ⟨rfl, rfl⟩, ?_⟩
    refine ⟨_, AList.lookup_insert _, ?_⟩
    simp [Saved.content, Saved.pushEvent]

def Saved.pushCommits (saved : Saved) (commits : List Commit) : Saved :=
  commits.foldl (fun saved commit => (saved.pushEvent (.commit commit []) 2 0).2) saved

theorem content_pushCommits (saved : Saved) (commits : List Commit) :
    (saved.pushCommits commits).content =
      saved.content ++ commitEvents (commits.map fun commit => (commit, [])) := by
  induction commits generalizing saved with
  | nil => exact (List.append_nil _).symm
  | cons commit commits ih =>
    rw [Saved.pushCommits, List.foldl_cons, ← Saved.pushCommits, ih]
    simp [Saved.content, Saved.pushEvent, commitEvents]

def callHistory : List SessionEvent :=
  [.settings ⟨⟨"provider", "model"⟩, {}, ⟨[]⟩⟩] ++
    commitEvents (callRun.2.2.saved.map fun commit => (commit, []))

def callStore : MemoryStore where
  state := State.insert {} ⟨0⟩
    ((Saved.new ⟨⟨"provider", "model"⟩, {}, ⟨[]⟩⟩ [] none 1 0).pushCommits callRun.2.2.saved)

theorem callHistory_driver : DriverHistory callHistory :=
  .turn plainParts 4 [.userText "hi"] none _ (.created _) rfl rfl
    (Program.run_follow (fun c a => record_calmReply callCompletion c a) 9 _ _)
    (by rw [List.map_map]; exact List.map_id _)

theorem recovery_closes_cut_call :
    openCalls (Replayed.of callHistory).context = ["call_1"] ∧
      (⟨0⟩ ∉ callStore.writers → ∃ session repair after,
        (MemoryStore.sessionStore 7).run (Session.open ⟨0⟩) callStore = some (.ok session, after) ∧
          session.id = ⟨0⟩ ∧
          Recovered (MemoryStore.sessionStore 7) session (withRepair callHistory repair) after) :=
  ⟨by decide +kernel, (recovery_closes_cut (MemoryStore.sessionStore 7) callHistory_driver
    ⟨_, AList.lookup_insert _, content_pushCommits _ _⟩).1⟩

end Yuke.Agent
