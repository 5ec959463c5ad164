import Mathlib

/-!
# The MCP servers of a session

Each server that can start has a task of its own, and one more task waits for the trust of the
project servers. A task runs on its own up to its next wait. A close stops the tasks one after
another, and the other tasks run while it waits for one of them.
-/

set_option autoImplicit false

namespace Yuke.Mcp

inductive McpServerSource where
  | user
  | project
  deriving DecidableEq

inductive McpServerState where
  | connecting
  | connected (tools : Nat)
  | failed (error : String)
  | disabled
  | untrusted
  deriving DecidableEq

structure McpServer where
  name : String
  source : McpServerSource
  state : McpServerState
  deriving DecidableEq

/-- An entry of a config. `command` is what its `command` gives. -/
structure ServerConfig where
  enabled : Bool
  command : Except String Unit

inductive Phase where
  /-- No task: the server cannot start, or the user did not trust it. -/
  | absent
  /-- The server waits for the trust. -/
  | gated
  /-- The task did not run yet. -/
  | spawned
  /-- The program runs, and the connect waits. -/
  | connecting
  /-- The task holds the connection. -/
  | connected
  /-- The connection ended, and the task waits for the log of its program. -/
  | ending
  | over
  /-- A close aborted the task. `early` marks an abort before the end of the start. -/
  | aborted (early : Bool)
  deriving DecidableEq

structure Slot (Peer Tool : Type) where
  name : String
  source : McpServerSource
  state : McpServerState
  peer : Option Peer := none
  stop : Bool := false
  tools : List Tool := []
  task : Phase

inductive TrustTask where
  | absent
  | waiting
  | over
  | aborted
  deriving DecidableEq

/-- A close, with the tasks that it has to stop and the stops that it took. A `none` is the trust
task. `told` says that the first task was told to stop. -/
structure Closing where
  tasks : List (Option Nat)
  stops : List Bool
  told : Bool := false
  deriving DecidableEq

/-- The servers of one session. `answer` is the answer of the trust question, and `closes` has each
close in the order of their calls. -/
structure Servers (Peer Tool : Type) where
  slots : List (Slot Peer Tool)
  closed : Bool := false
  tasks : List (Option Nat)
  starting : Int
  trust : TrustTask
  answer : Option Bool := none
  reports : List McpServer := []
  closes : List Closing := []

variable {Peer Tool : Type}

namespace Slot

def server (slot : Slot Peer Tool) : McpServer := ⟨slot.name, slot.source, slot.state⟩

def starts (slot : Slot Peer Tool) : Bool :=
  match slot.task with
  | .gated | .spawned | .connecting | .aborted true => true
  | .absent | .connected | .ending | .over | .aborted false => false

def start (source : McpServerSource) (entry : String × ServerConfig) : Slot Peer Tool :=
  if entry.2.enabled = false then
    { name := entry.1, source := source, state := .disabled, task := .absent }
  else
    match entry.2.command with
    | .error error =>
      { name := entry.1, source := source, state := .failed error, task := .absent }
    | .ok () =>
      match source with
      | .user => { name := entry.1, source := source, state := .connecting, task := .spawned }
      | .project => { name := entry.1, source := source, state := .untrusted, task := .gated }

end Slot

namespace Servers

/-- The places of the servers whose task stands at `phase`. -/
def places (slots : List (Slot Peer Tool)) (phase : Phase) : List Nat :=
  (List.range slots.length).filter fun i => (slots[i]?.map Slot.task) = some phase

/-- Start each server of `user`, and hold each one of `project` back until the trust. -/
def start (user project : List (String × ServerConfig)) : Servers Peer Tool :=
  let user := user.filter fun entry => entry.1 ∉ project.map Prod.fst
  let slots := user.map (Slot.start .user) ++ project.map (Slot.start .project)
  let launches := places slots .spawned
  let gated := places slots .gated
  { slots := slots
    tasks := launches.map some ++ if gated.isEmpty then [] else [none]
    starting := launches.length + gated.length
    trust := if gated.isEmpty then .absent else .waiting }

/-- Change the slot `index`, and report its new state before a close. -/
def update (s : Servers Peer Tool) (index : Nat) (change : Slot Peer Tool → Slot Peer Tool) :
    Servers Peer Tool :=
  match s.slots[index]? with
  | none => s
  | some slot =>
    let next := change slot
    { s with
      slots := s.slots.set index next
      reports := if s.closed then s.reports else s.reports ++ [next.server] }

/-- Move the task of the slot `index`. -/
def setTask (s : Servers Peer Tool) (index : Nat) (task : Phase) : Servers Peer Tool :=
  match s.slots[index]? with
  | none => s
  | some slot => { s with slots := s.slots.set index { slot with task := task } }

def countDown (s : Servers Peer Tool) : Servers Peer Tool := { s with starting := s.starting - 1 }

def startGated (trusted : Bool) (s : Servers Peer Tool) (index : Nat) : Servers Peer Tool :=
  if trusted = false ∨ s.closed = true then (s.setTask index .absent).countDown
  else
    let started := s.update index fun slot => { slot with state := .connecting, task := .spawned }
    { started with tasks := started.tasks ++ [some index] }

def startTrusted (s : Servers Peer Tool) (trusted : Bool) : Servers Peer Tool :=
  (places s.slots .gated).foldl (startGated trusted)
    { s with trust := .over, answer := some trusted }

def connected (s : Servers Peer Tool) (index : Nat) :
    Except String (Peer × List Tool) → Servers Peer Tool
  | .ok (peer, tools) =>
    (s.update index fun slot =>
      { slot with
        state := .connected tools.length, peer := some peer, stop := true, tools := tools
        task := .connected }).countDown
  | .error error =>
    (s.update index fun slot => { slot with state := .failed error, task := .over }).countDown

/-- `error` with the last stderr lines of its server, when the server wrote any. -/
def withLog (error log : String) : String := if log = "" then error else error ++ "\n" ++ log

def ended (s : Servers Peer Tool) (index : Nat) (log : String) : Servers Peer Tool :=
  s.update index fun slot =>
    { slot with
      peer := none, stop := false, tools := []
      state := .failed (withLog "the server stopped" log), task := .over }

def close (s : Servers Peer Tool) : Servers Peer Tool :=
  { s with
    closed := true
    tasks := []
    slots := s.slots.map fun slot => { slot with stop := false }
    closes := s.closes ++ [{ tasks := s.tasks, stops := s.slots.map Slot.stop }] }

def abort (s : Servers Peer Tool) (index : Nat) : Servers Peer Tool :=
  match s.slots[index]?.map Slot.task with
  | some .spawned | some .connecting => s.setTask index (.aborted true)
  | some .connected | some .ending => s.setTask index (.aborted false)
  | _ => s

/-- Tell `task` to stop: with the stop of its connection, or by an abort. -/
def tell (s : Servers Peer Tool) (stops : List Bool) : Option Nat → Servers Peer Tool
  | none => if s.trust = .waiting then { s with trust := .aborted } else s
  | some index => if stops[index]? = some true then s else s.abort index

def Over (s : Servers Peer Tool) : Option Nat → Prop
  | none => s.trust ≠ .waiting
  | some index => ∀ slot, s.slots[index]? = some slot →
      slot.task = .over ∨ slot.task = .aborted true ∨ slot.task = .aborted false

instance (s : Servers Peer Tool) (task : Option Nat) : Decidable (s.Over task) := by
  cases task with
  | none => unfold Over; infer_instance
  | some index =>
    unfold Over
    exact decidable_of_iff (∀ slot ∈ s.slots[index]?,
      slot.task = .over ∨ slot.task = .aborted true ∨ slot.task = .aborted false) (by rfl)

def Counts (s : Servers Peer Tool) : Prop :=
  s.trust = .waiting ∨ ∃ slot ∈ s.slots, slot.task = .spawned ∨ slot.task = .connecting ∨
    slot.task = .connected ∨ slot.task = .ending

instance (s : Servers Peer Tool) : Decidable s.Counts := inferInstanceAs (Decidable (_ ∨ _))

end Servers

inductive Event (Peer Tool : Type) where
  /-- The user answers the trust question. -/
  | answer (trusted : Bool)
  /-- The task of a server runs for the first time, and starts the program. -/
  | launch (index : Nat)
  | connected (index : Nat) (result : Except String (Peer × List Tool))
  /-- The connection of a server ends, by itself or by its stop. -/
  | stopped (index : Nat)
  /-- The program of a server is cleaned up, with the last lines of its stderr. -/
  | ended (index : Nat) (log : String)
  | close
  /-- The close `call` tells its next task to stop. -/
  | tell (call : Nat)
  /-- The wait of the close `call` for that task ends. -/
  | next (call : Nat)
  /-- A call of `ready` returns. -/
  | ready

namespace Servers

/-- Whether the task of the slot `index` stands at `phase`. -/
def At (s : Servers Peer Tool) (index : Nat) (phase : Phase) : Prop :=
  s.slots[index]?.map Slot.task = some phase

instance (s : Servers Peer Tool) (index : Nat) (phase : Phase) : Decidable (s.At index phase) :=
  inferInstanceAs (Decidable (_ = _))

/-- The servers after `event`, or `none` when the event cannot happen. -/
def step (s : Servers Peer Tool) : Event Peer Tool → Option (Servers Peer Tool)
  | .answer trusted => if s.trust = .waiting then some (s.startTrusted trusted) else none
  | .launch index => if s.At index .spawned then some (s.setTask index .connecting) else none
  | .connected index result =>
    if s.At index .connecting then some (s.connected index result) else none
  | .stopped index => if s.At index .connected then some (s.setTask index .ending) else none
  | .ended index log => if s.At index .ending then some (s.ended index log) else none
  | .close => some s.close
  | .tell call =>
    match s.closes[call]? with
    | some ⟨task :: tasks, stops, false⟩ =>
      let told := s.tell stops task
      some { told with closes := told.closes.set call ⟨task :: tasks, stops, true⟩ }
    | _ => none
  | .next call =>
    match s.closes[call]? with
    | some ⟨task :: tasks, stops, true⟩ =>
      if s.Over task then some { s with closes := s.closes.set call ⟨tasks, stops, false⟩ } else none
    | _ => none
  | .ready => if s.starting = 0 ∨ ¬ s.Counts then some s else none

end Servers

end Yuke.Mcp
