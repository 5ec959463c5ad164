import Yuke.Ai.Request
import Yuke.Protocol.Session

/-!
# The session folders of several processes

Each call is a list of operations, and the operations of all calls mix in any order. An operation is
one transaction of the database, one lock attempt, or one change of a folder. A lock belongs to the
file that was opened, so a folder that is removed and made again has another lock.
-/

set_option autoImplicit false

namespace Yuke.Store.Files

open Yuke.Ai (Digest)
open Yuke.Protocol (SessionId)

abbrev ProcessId := Nat

abbrev CallId := Nat

abbrev LockId := Nat

abbrev Temporary := ProcessId × Nat

structure Folder where
  lock : Option LockId := none
  temporary : List Temporary := []
  blobs : List Digest := []
  deriving DecidableEq

inductive Entry where
  | lock
  | temporary (name : Temporary)
  | blob (digest : Digest)
  deriving DecidableEq

namespace Folder

def entries (folder : Folder) : List Entry :=
  (folder.lock.map fun _ => Entry.lock).toList ++ folder.temporary.map .temporary ++
    folder.blobs.map .blob

def unlink (folder : Folder) : Entry → Folder
  | .lock => { folder with lock := none }
  | .temporary name => { folder with temporary := folder.temporary.filter (· ≠ name) }
  | .blob digest => { folder with blobs := folder.blobs.filter (· ≠ digest) }

end Folder

inductive Op where
  /-- `ensure_session` -/
  | ensure
  /-- The sweep finds no row of the session. -/
  | absent
  /-- `create_dir_all` -/
  | makeFolder
  /-- The open of the lock file, which makes it when it is missing. -/
  | openLock
  | tryLock
  /-- `read_dir` of the folder of the source. -/
  | listBlobs
  /-- The end of the copies. -/
  | copyBlobs
  | syncFolder
  | copyRows
  /-- The load of the session for the caller. Its call on the thread of the connection ends. -/
  | load
  /-- The caller gets its lease. -/
  | lease
  | writeTemporary
  | rename
  /-- The put returns. -/
  | returned
  | deleteRows
  | dropLock
  /-- `remove_dir_all` -/
  | removeFolder
  /-- `save_commit` or `save_settings` -/
  | save
  | dropOwner
  deriving DecidableEq

inductive Kind where
  | create
  /-- A fork of the events of `source` through `cut`. -/
  | fork (source : SessionId) (cut : Nat)
  /-- An open for writing. -/
  | «open»
  | put (blob : Digest)
  | delete
  /-- The sweep of one folder that a store finds when it opens. -/
  | sweep
  /-- A commit, or a change of the settings. Its event names `blobs`. -/
  | write (blobs : List Digest)
  deriving DecidableEq

/-- The operations of a call. A create has saved its rows when it begins, and a fork has read its
cut. The sync of the folder that holds the session folders changes nothing here. -/
def Kind.program : Kind → List Op
  | .create => [.makeFolder, .openLock, .tryLock, .lease]
  | .fork _ _ => [.makeFolder, .openLock, .tryLock, .listBlobs, .copyBlobs, .syncFolder, .copyRows,
      .load, .lease]
  | .open => [.ensure, .makeFolder, .openLock, .tryLock, .load, .lease]
  | .put _ => [.ensure, .makeFolder, .writeTemporary, .rename, .syncFolder, .returned]
  | .delete => [.ensure, .makeFolder, .openLock, .tryLock, .deleteRows, .dropLock, .removeFolder]
  | .sweep => [.absent, .makeFolder, .openLock, .tryLock, .dropLock, .removeFolder]
  | .write _ => [.save, .dropOwner]

/-- `delete_new_session` after a failed create or fork. -/
def Kind.cleanup : Kind → List Op
  | .create | .fork _ _ => [.deleteRows, .removeFolder]
  | _ => []

structure Call where
  kind : Kind
  process : ProcessId
  session : SessionId
  /-- The operations that are left. -/
  rest : List Op
  /-- What the call does after a failure. -/
  cleanup : List Op := []
  /-- The lock file that the call has open. -/
  file : Option LockId := none
  held : Option LockId := none
  temporary : Option (Temporary × Digest) := none
  /-- The blobs of the source that the copy has not come to. -/
  left : List Digest := []
  deriving DecidableEq

inductive Holder where
  | call (process : ProcessId) (call : CallId)
  /-- The owners of a store have the lock. -/
  | owner (process : ProcessId) (session : SessionId)
  | write (process : ProcessId) (call : CallId)
  deriving DecidableEq

def Holder.process : Holder → ProcessId
  | .call process _ | .owner process _ | .write process _ => process

def Call.holder (call : Call) (c : CallId) : Holder :=
  match call.kind with
  | .write _ => .write call.process c
  | _ => .call call.process c

structure Row where
  events : List (List Digest)
  deriving DecidableEq

/-- Where a fork comes from. `had` has the blobs of the source when the copy of the blobs began. -/
structure Forked where
  call : CallId
  source : SessionId
  cut : Nat
  had : List Digest := []
  deriving DecidableEq

structure Slot where
  /-- The id was generated. -/
  used : Bool := false
  row : Option Row := none
  folder : Option Folder := none
  forked : Option Forked := none
  deriving DecidableEq

structure State where
  slots : SessionId → Slot := fun _ => {}
  calls : CallId → Option Call := fun _ => none
  holders : LockId → List Holder := fun _ => []
  /-- The owners of each store. -/
  owners : ProcessId → SessionId → Option LockId := fun _ _ => none
  leases : List (ProcessId × SessionId) := []
  nextLock : LockId := 0
  nextTemporary : ProcessId → Nat := fun _ => 0
  /-- The puts that returned. -/
  returned : List (SessionId × Digest) := []
  /-- The blobs that forks copied. -/
  copied : List (SessionId × Digest) := []

namespace State

def setSlot (s : State) (id : SessionId) (slot : Slot) : State :=
  { s with slots := Function.update s.slots id slot }

def setFolder (s : State) (id : SessionId) (folder : Option Folder) : State :=
  s.setSlot id { s.slots id with folder := folder }

/-- Go on with `call`, which ends when it has no operation left. -/
def setCall (s : State) (c : CallId) (call : Call) : State :=
  { s with calls := Function.update s.calls c (if call.rest = [] then none else some call) }

def removeHolder (s : State) (lock : Option LockId) (holder : Holder) : State :=
  match lock with
  | none => s
  | some f => { s with holders := Function.update s.holders f ((s.holders f).filter (· ≠ holder)) }

/-- A new temporary file of the call with the content of `blob`. -/
def writeTemporary (s : State) (c : CallId) (call : Call) (blob : Digest) : Option State :=
  match (s.slots call.session).folder with
  | none => none
  | some folder =>
    let name := (call.process, s.nextTemporary call.process)
    some <| ({ s with
      nextTemporary := Function.update s.nextTemporary call.process (name.2 + 1) }.setFolder
        call.session (some { folder with temporary := name :: folder.temporary })).setCall c
      { call with temporary := some (name, blob) }

def rename (s : State) (c : CallId) (call : Call) : Option State :=
  match (s.slots call.session).folder, call.temporary with
  | some folder, some (name, blob) =>
    if name ∈ folder.temporary then
      some <| (s.setFolder call.session (some { folder with
        temporary := folder.temporary.filter (· ≠ name)
        blobs := folder.blobs.insert blob })).setCall c
        { call with temporary := none }
    else none
  | _, _ => none

/-- The success of `op`. `call` has the operations after it left. -/
def perform (s : State) (c : CallId) (call : Call) (op : Op) : Option State :=
  let slot := s.slots call.session
  match op with
  | .ensure => if slot.row = none then none else some (s.setCall c call)
  | .absent => if slot.row = none then some (s.setCall c call) else none
  | .makeFolder => some ((s.setFolder call.session (some (slot.folder.getD {}))).setCall c call)
  | .openLock =>
    match slot.folder with
    | none => none
    | some folder =>
      match folder.lock with
      | some f => some (s.setCall c { call with file := some f })
      | none =>
        some <| ({ s with nextLock := s.nextLock + 1 }.setFolder call.session
          (some { folder with lock := some s.nextLock })).setCall c
          { call with file := some s.nextLock }
  | .tryLock =>
    match call.file with
    | none => none
    | some f =>
      if s.holders f = [] then
        some <| { s with holders := Function.update s.holders f [call.holder c] }.setCall c
          { call with held := some f }
      else none
  | .listBlobs =>
    match call.kind, slot.forked with
    | .fork source _, some forked =>
      match (s.slots source).folder with
      | none => none
      | some folder =>
        some <| (s.setSlot call.session
          { slot with forked := some { forked with had := folder.blobs } }).setCall c
          { call with left := folder.blobs }
    | _, _ => none
  | .copyBlobs =>
    if call.left = [] ∧ call.temporary = none then some (s.setCall c call) else none
  | .syncFolder => if slot.folder = none then none else some (s.setCall c call)
  | .copyRows =>
    match call.kind with
    | .fork source cut =>
      match (s.slots source).row with
      | none => none
      | some row =>
        some <| (s.setSlot call.session
          { slot with row := some ⟨row.events.take cut⟩ }).setCall c call
    | _ => none
  | .load => if slot.row = none then none else some (s.setCall c { call with cleanup := [] })
  | .lease =>
    match call.held with
    | none => none
    | some f =>
      let s := (s.removeHolder (s.owners call.process call.session)
        (.owner call.process call.session)).removeHolder (some f) (call.holder c)
      some <| { s with
        holders := Function.update s.holders f
          (.owner call.process call.session :: s.holders f)
        owners := Function.update s.owners call.process
          (Function.update (s.owners call.process) call.session (some f))
        leases := (call.process, call.session) :: s.leases }.setCall c { call with held := none }
  | .writeTemporary =>
    match call.kind with
    | .put blob => s.writeTemporary c call blob
    | _ => none
  | .rename => s.rename c call
  | .returned =>
    match call.kind with
    | .put blob => some ({ s with returned := (call.session, blob) :: s.returned }.setCall c call)
    | _ => none
  | .deleteRows => some ((s.setSlot call.session { slot with row := none }).setCall c call)
  | .dropLock =>
    some ((s.removeHolder call.held (call.holder c)).setCall c { call with held := none })
  | .removeFolder =>
    match slot.folder with
    | none => some (s.setCall c call)
    | some folder =>
      if folder.entries = [] then some ((s.setFolder call.session none).setCall c call) else none
  | .save =>
    match call.kind, slot.row with
    | .write blobs, some row =>
      some <| (s.setSlot call.session { slot with row := some ⟨row.events ++ [blobs]⟩ }).setCall c
        call
    | _, _ => none
  | .dropOwner =>
    some ((s.removeHolder call.held (call.holder c)).setCall c { call with held := none })

end State

/-! ## The steps -/

inductive Event where
  | start (process : ProcessId) (call : CallId) (kind : Kind) (session : SessionId)
  /-- The next operation of the call succeeds. -/
  | run (call : CallId)
  /-- A fork copies `blob` to a temporary file. -/
  | copy (call : CallId) (blob : Digest)
  /-- The copied file gets its name. -/
  | place (call : CallId)
  /-- The listing comes to the end without `blob`, which was gone for a moment. -/
  | skip (call : CallId) (blob : Digest)
  /-- `remove_dir_all` removes one entry. -/
  | unlink (call : CallId) (entry : Entry)
  /-- The call fails, or a sweep finds the row or a lock that is not free. -/
  | fail (call : CallId)
  /-- The caller drops the call before it gets the lease. -/
  | forget (call : CallId)
  /-- The end of a lease. -/
  | drop (process : ProcessId) (session : SessionId)
  | stop (process : ProcessId)
  deriving DecidableEq

def Call.begin (kind : Kind) (process : ProcessId) (session : SessionId) : Call :=
  { kind := kind, process := process, session := session, rest := kind.program,
    cleanup := kind.cleanup }

namespace State

/-- The start of a call. A create saves its rows and a fork reads its cut, both for a new id. A write
clones the lock that the owners of its store have. -/
def start (s : State) (process : ProcessId) (c : CallId) (kind : Kind) (id : SessionId) :
    Option State :=
  let call := Call.begin kind process id
  let slot := s.slots id
  if s.calls c ≠ none then none
  else match kind with
  | .create =>
    if slot.used then none
    else some ((s.setSlot id { slot with used := true, row := some ⟨[[]]⟩ }).setCall c call)
  | .fork source cut =>
    match (s.slots source).row with
    | none => none
    | some row =>
      if slot.used ∨ row.events.length < cut then none
      else some <| (s.setSlot id
        { slot with used := true, forked := some ⟨c, source, cut, []⟩ }).setCall c call
  | .sweep => if slot.folder = none then none else some (s.setCall c call)
  | .write _ =>
    match s.owners process id with
    | none => some (s.setCall c call)
    | some f =>
      some <| { s with
        holders := Function.update s.holders f (call.holder c :: s.holders f) }.setCall c
        { call with held := some f }
  | _ => some (s.setCall c call)

/-- The loop of `copy_blobs`: the files come to the folder of the fork one after the other. -/
def copying (s : State) (c : CallId) : Option Call :=
  match s.calls c with
  | some call => if call.rest.head? = some .copyBlobs then some call else none
  | none => none

def readable (s : State) (id : SessionId) (blob : Digest) : Bool :=
  match (s.slots id).folder with
  | some folder => blob ∈ folder.blobs
  | none => false

def source? (call : Call) : Option SessionId :=
  match call.kind with
  | .fork source _ => some source
  | _ => none

/-- The state after `event`, or `none` when the event cannot happen. -/
def step (s : State) : Event → Option State
  | .start process c kind id => s.start process c kind id
  | .run c =>
    match s.calls c with
    | some call =>
      match call.rest with
      | op :: rest => s.perform c { call with rest := rest } op
      | [] => none
    | none => none
  | .copy c blob =>
    match s.copying c with
    | some call =>
      if call.temporary = none ∧ (source? call).any (s.readable · blob) then
        s.writeTemporary c call blob
      else none
    | none => none
  | .place c =>
    match s.copying c with
    | some call =>
      match call.temporary with
      | some (_, blob) =>
        (s.rename c { call with left := call.left.filter (· ≠ blob) }).map fun s =>
          { s with copied := (call.session, blob) :: s.copied }
      | none => none
    | none => none
  | .skip c blob =>
    match s.copying c with
    | some call =>
      if (source? call).any (s.readable · blob) then none
      else some (s.setCall c { call with left := call.left.filter (· ≠ blob) })
    | none => none
  | .unlink c entry =>
    match s.calls c with
    | some call =>
      if call.rest.head? = some .removeFolder then
        (s.slots call.session).folder.map fun folder =>
          s.setFolder call.session (some (folder.unlink entry))
      else none
    | none => none
  | .fail c =>
    match s.calls c with
    | some call =>
      some <| (s.removeHolder call.held (call.holder c)).setCall c
        { call with rest := call.cleanup, cleanup := [], held := none, file := none }
    | none => none
  | .forget c =>
    match s.calls c with
    | some call =>
      if call.rest = [.lease] then
        some ((s.removeHolder call.held (call.holder c)).setCall c { call with rest := [] })
      else none
    | none => none
  | .drop process id =>
    if (process, id) ∈ s.leases then
      let s := s.removeHolder (s.owners process id) (.owner process id)
      some { s with
        leases := s.leases.erase (process, id)
        owners := Function.update s.owners process
          (Function.update (s.owners process) id none) }
    else none
  | .stop process =>
    some { s with
      calls := fun c => (s.calls c).filter (·.process ≠ process)
      holders := fun f => (s.holders f).filter (·.process ≠ process)
      owners := Function.update s.owners process fun _ => none
      leases := s.leases.filter (·.1 ≠ process) }

def forking (s : State) (id : SessionId) : Bool :=
  match (s.slots id).forked with
  | some forked =>
    match s.calls forked.call with
    | some call => call.session = id ∧ .copyRows ∈ call.rest
    | none => false
  | none => false

def owns (s : State) : Holder → Bool
  | .call _ c =>
    match s.calls c with
    | some call => call.rest = [.lease]
    | none => false
  | .owner _ _ | .write _ _ => true

def owned (s : State) (id : SessionId) : Bool :=
  match (s.slots id).folder with
  | some folder =>
    match folder.lock with
    | some f => (s.holders f).any s.owns
    | none => false
  | none => false

/-- A sweep gives its lock back, and removes the folder next, only when the session has no row and no
fork of it runs. A failed create or fork deletes its rows only when nobody owns the session. A create
takes the lock only when its session was not deleted. -/
def settled (s : State) : Event → Bool
  | .run c =>
    match s.calls c with
    | some call =>
      match call.rest with
      | .dropLock :: _ =>
        call.kind ≠ .sweep ∨ ((s.slots call.session).row = none ∧ ¬ s.forking call.session)
      | .deleteRows :: _ => call.kind = .delete ∨ ¬ s.owned call.session
      | .tryLock :: _ => call.kind ≠ .create ∨ (s.slots call.session).row ≠ none
      | _ => true
    | none => true
  | _ => true

end State

end Yuke.Store.Files
