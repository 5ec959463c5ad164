import Yuke.Protocol.Session

/-!
# The registry of the open sessions

The registry admits each open and close. A call runs on its own up to its next wait, and other calls
run while it waits. A caller can drop a call at each wait.
-/

set_option autoImplicit false

namespace Yuke.App

open Yuke.Protocol

structure LiveSession where
  id : SessionId
  number : Nat
  deriving DecidableEq

inductive Phase where
  | ready
  | reloading
  | stopped
  deriving DecidableEq

structure Open where
  live : LiveSession
  attachments : Nat
  deadline : Option Nat
  deriving DecidableEq

inductive Slot where
  | opening
  | open (state : Open)
  | closing
  deriving DecidableEq

inductive AppError where
  | notOpen (id : SessionId)
  | alreadyOpen (id : SessionId)
  | changing (id : SessionId)
  | reloading
  | stopped
  deriving DecidableEq

/-- Refuse an open or a close in `phase`. -/
def admits : Phase → Except AppError Unit
  | .ready => .ok ()
  | .reloading => .error .reloading
  | .stopped => .error .stopped

/-- The wait of a session with no holder, no turn and no running job before it closes. -/
def grace : Nat := 30 * 1000000000

structure Attachment where
  id : SessionId
  live : LiveSession
  deriving DecidableEq

/-- A call that waits. `fresh` marks the start of a session that the call saved just now. -/
inductive Call where
  /-- A `create` or a `fork` before its session is saved. -/
  | creating
  /-- An `open` that reads the saved session. -/
  | opening (id : SessionId)
  | starting (id : SessionId) (fresh : Bool)
  /-- The close of a session that started after the shutdown. -/
  | discarding (live : LiveSession) (fresh : Bool)
  | deleting (id : SessionId)
  | closing (id : SessionId)
  | closingAll
  deriving DecidableEq

def Call.transition? : Call → Option SessionId
  | .opening id | .starting id _ | .closing id => some id
  | .creating | .discarding _ _ | .deleting _ | .closingAll => none

/-- The app: its registry, the calls that wait, the living attachments, the countdown tasks, the
sessions that run and were not told to stop, and the guard of a reload with its sessions. -/
structure System where
  phase : Phase := .ready
  slots : AList fun _ : SessionId => Slot := ∅
  calls : Nat → Option Call := fun _ => none
  attachments : List Attachment := []
  countdowns : List (SessionId × Nat) := []
  running : List LiveSession := []
  started : Nat := 0
  reload : Option (List LiveSession) := none
  now : Nat := 0

namespace System

def setSlot (s : System) (id : SessionId) (slot : Slot) : System :=
  { s with slots := s.slots.insert id slot }

def setCall (s : System) (call : Nat) (state : Option Call) : System :=
  { s with calls := Function.update s.calls call state }

def stop (s : System) (live : LiveSession) : System :=
  { s with running := s.running.filter (· ≠ live) }

/-! ## The service -/

/-- Hold the open session `id`. -/
def attach (s : System) (id : SessionId) : Except AppError System :=
  match s.slots.lookup id with
  | some (.open state) =>
    let held := s.setSlot id (.open
      { state with attachments := state.attachments + 1, deadline := none })
    .ok { held with attachments := s.attachments ++ [⟨id, state.live⟩] }
  | _ => .error (.notOpen id)

/-- Release `attachment`. A later open of the same id is not released. -/
def detach (s : System) (attachment : Attachment) : System :=
  let left := { s with attachments := s.attachments.erase attachment }
  match s.slots.lookup attachment.id with
  | some (.open state) =>
    if attachment.live = state.live then
      left.setSlot attachment.id (.open { state with attachments := state.attachments - 1 })
    else left
  | _ => left

/-- Stop the countdown of session `id`, because a turn starts. -/
def touch (s : System) (id : SessionId) : System :=
  match s.slots.lookup id with
  | some (.open state) => s.setSlot id (.open { state with deadline := none })
  | _ => s

/-- Start the countdown of session `id`. `jobs` is the wait of a session whose job runs. -/
def reportIdle (s : System) (id : SessionId) (jobs : Option Nat) : System :=
  match s.slots.lookup id with
  | some (.open state) =>
    if state.attachments > 0 ∨ state.deadline.isSome then s
    else
      let deadline := s.now + jobs.getD grace
      let counting := s.setSlot id (.open { state with deadline := some deadline })
      { counting with countdowns := s.countdowns ++ [(id, deadline)] }
  | _ => s

/-- Mark session `id` as opening. -/
def reserve (s : System) (id : SessionId) : Except AppError System :=
  match admits s.phase with
  | .error error => .error error
  | .ok () =>
    match s.slots.lookup id with
    | some (.open _) => .error (.alreadyOpen id)
    | some .opening | some .closing => .error (.changing id)
    | none => .ok (s.setSlot id .opening)

def dropTransition (s : System) (id : SessionId) : System :=
  match s.slots.lookup id with
  | some .opening | some .closing => { s with slots := s.slots.erase id }
  | _ => s

/-- Make the slot of a transition open with `live`. -/
def openTransition (s : System) (id : SessionId) (live : LiveSession) : Except AppError System :=
  if s.phase = .stopped then .error .stopped
  else .ok (s.setSlot id (.open ⟨live, 0, none⟩))

/-- Mark the open session `id` as closing, and tell it to stop. -/
def startClose (s : System) (id : SessionId) (live : LiveSession) (call : Nat) : System :=
  ((s.setSlot id .closing).stop live).setCall call (some (.closing id))

/-- Close session `id`. -/
def close (s : System) (id : SessionId) (call : Nat) : Except AppError System :=
  match admits s.phase with
  | .error error => .error error
  | .ok () =>
    match s.slots.lookup id with
    | some (.open state) => .ok (s.startClose id state.live call)
    | some .opening | some .closing => .error (.changing id)
    | none => .error (.notOpen id)

/-- Close session `id` at `deadline` if no holder or turn cancelled it. During a reload, start a new
countdown. -/
def expire (s : System) (id : SessionId) (deadline : Nat) (jobs : Option Nat) (call : Nat) :
    System :=
  match s.slots.lookup id with
  | some (.open state) =>
    if state.deadline ≠ some deadline then s
    else if s.phase = .reloading then
      (s.setSlot id (.open { state with deadline := none })).reportIdle id jobs
    else s.startClose id state.live call
  | _ => s

def openOf : Slot → Option LiveSession
  | .open state => some state.live
  | .opening | .closing => none

def opened (s : System) : List LiveSession := s.slots.entries.filterMap fun entry => openOf entry.2

def startReload (s : System) : Except AppError System :=
  match admits s.phase with
  | .error error => .error error
  | .ok () =>
    match s.slots.entries.find? fun entry => (openOf entry.2).isNone with
    | some entry => .error (.changing entry.1)
    | none => .ok { s with phase := .reloading, reload := some s.opened }

def endReload (s : System) : System :=
  { s with reload := none, phase := if s.phase = .reloading then .ready else s.phase }

def closeAll (s : System) (call : Nat) : System :=
  let stopped := { s with
    phase := .stopped
    slots := ∅
    running := s.running.filter fun live => live ∉ s.opened }
  stopped.setCall call (some .closingAll)

def startSession (s : System) (id : SessionId) (fresh : Bool) (jobs : Option Nat) (call : Nat) :
    System :=
  let live : LiveSession := ⟨id, s.started⟩
  let s := { s with started := s.started + 1, running := s.running ++ [live] }
  match s.openTransition id live with
  | .error _ => ((s.dropTransition id).stop live).setCall call (some (.discarding live fresh))
  | .ok s => ((s.dropTransition id).setCall call none).reportIdle id jobs

def finish (s : System) (call : Nat) : Call → System
  | .creating | .deleting _ | .closingAll => s.setCall call none
  | .opening id | .closing id => (s.dropTransition id).setCall call none
  | .starting id fresh =>
    (s.dropTransition id).setCall call (if fresh then some (.deleting id) else none)
  | .discarding live fresh => s.setCall call (if fresh then some (.deleting live.id) else none)

def drop (s : System) (call : Nat) (state : Call) : System :=
  match state.transition? with
  | some id => (s.dropTransition id).setCall call none
  | none => s.setCall call none

end System

/-- What happens next. A new call gets an unused number, and `jobs` is the wait of a session whose
job runs. -/
inductive Event where
  | create (call : Nat)
  /-- The session of a `create` or `fork` is saved. `runs` tells whether its model can run. -/
  | saved (call : Nat) (id : SessionId) (runs : Bool)
  | open (call : Nat) (id : SessionId)
  /-- An `open` read its session, and its settings can run. -/
  | read (call : Nat)
  | started (call : Nat) (jobs : Option Nat)
  | finish (call : Nat)
  | drop (call : Nat)
  | close (call : Nat) (id : SessionId)
  | closeAll (call : Nat)
  | attach (id : SessionId)
  | detach (attachment : Attachment)
  | turn (id : SessionId)
  | idle (id : SessionId) (jobs : Option Nat)
  | expire (call : Nat) (id : SessionId) (deadline : Nat) (jobs : Option Nat)
  | startReload
  | endReload
  | tick (span : Nat)
  deriving DecidableEq

def orSame (s : System) : Except AppError System → System
  | .ok s' => s'
  | .error _ => s

/-- The system after `event`, or `none` when the event cannot happen. A reload borrows the app, and
the shutdown takes it, so neither starts during a reload. -/
def step (s : System) : Event → Option System
  | .create call =>
    if s.calls call ≠ none then none
    else some <| orSame s <| (admits s.phase).map fun () => s.setCall call (some .creating)
  | .saved call id runs =>
    match s.calls call with
    | some .creating =>
      if runs = false then some (s.setCall call (some (.deleting id)))
      else
        match s.reserve id with
        | .error _ => some (s.setCall call (some (.deleting id)))
        | .ok s => some (s.setCall call (some (.starting id true)))
    | _ => none
  | .open call id =>
    if s.calls call ≠ none then none
    else some <| orSame s <| (s.reserve id).map fun s => s.setCall call (some (.opening id))
  | .read call =>
    match s.calls call with
    | some (.opening id) => some (s.setCall call (some (.starting id false)))
    | _ => none
  | .started call jobs =>
    match s.calls call with
    | some (.starting id fresh) => some (s.startSession id fresh jobs call)
    | _ => none
  | .finish call => (s.calls call).map (s.finish call)
  | .drop call => (s.calls call).map (s.drop call)
  | .close call id => if s.calls call ≠ none then none else some (orSame s (s.close id call))
  | .closeAll call =>
    if s.calls call ≠ none ∨ s.reload.isSome then none else some (s.closeAll call)
  | .attach id => some (orSame s (s.attach id))
  | .detach attachment =>
    if attachment ∈ s.attachments then some (s.detach attachment) else none
  | .turn id => some (s.touch id)
  | .idle id jobs => some (s.reportIdle id jobs)
  | .expire call id deadline jobs =>
    if s.calls call ≠ none ∨ (id, deadline) ∉ s.countdowns ∨ s.now < deadline then none
    else
      let s := { s with countdowns := s.countdowns.erase (id, deadline) }
      some (s.expire id deadline jobs call)
  | .startReload => if s.reload.isSome then none else some (orSame s s.startReload)
  | .endReload => if s.reload.isSome then some s.endReload else none
  | .tick span => some { s with now := s.now + span }

def run (events : List Event) : Option System := events.foldlM step {}

end Yuke.App
