import Yuke.App.Sessions

/-!
# The saved sessions behind the registry

A saved session can name a parent. No store checks that name, so the app keeps the tree: a `create`
looks up its parent, and a `remove` deletes children before their parents. Each call of the store is
one step, and a call of the app waits before and after it.
-/

set_option autoImplicit false

namespace Yuke.App

open Yuke.Protocol

inductive StoreKind where
  | sqlite
  | memory
  deriving DecidableEq

structure SavedSession where
  id : SessionId
  parent : Option SessionId
  forkOf : Option SessionId
  deriving DecidableEq

/-- A `create` or a `fork` that waits. -/
inductive Creation where
  /-- It looks up its parent. -/
  | checking (parent : SessionId)
  /-- It resolves the folder, builds the prompt and saves the session. -/
  | creating (parent : Option SessionId)
  | forking (source : SessionId)
  deriving DecidableEq

/-- A `remove` of the session `id` that waits. -/
inductive Removal where
  /-- It has read the children of the first `next` sessions of `tree`. -/
  | reading (id : SessionId) (tree : List SessionId) (next : Nat)
  /-- It deletes the sessions of `left`, the last one first. With none left it has returned. -/
  | deleting (id : SessionId) (tree left : List SessionId)
  deriving DecidableEq

/-- The app and its store. `past` holds every session that was ever saved, oldest first, and each
lease has the call that took it. -/
structure Service where
  app : System := {}
  saved : List SavedSession := []
  past : List SavedSession := []
  leases : List (SessionId × Nat) := []
  creations : Nat → Option Creation := fun _ => none
  removals : Nat → Option Removal := fun _ => none

namespace Service

def ids (s : Service) : List SessionId := s.saved.map SavedSession.id

def pastIds (s : Service) : List SessionId := s.past.map SavedSession.id

def Leased (s : Service) (id : SessionId) : Prop := id ∈ s.leases.map Prod.fst

instance (s : Service) (id : SessionId) : Decidable (s.Leased id) :=
  inferInstanceAs (Decidable (id ∈ s.leases.map Prod.fst))

/-- The saved sessions that name `parent`. -/
def children (s : Service) (parent : SessionId) : List SessionId :=
  (s.saved.filter (·.parent = some parent)).map SavedSession.id

/-- The open session of the slot of `id`. -/
def opened (s : Service) (id : SessionId) : Option LiveSession :=
  (s.app.slots.lookup id).bind System.openOf

def setCreation (s : Service) (call : Nat) (state : Option Creation) : Service :=
  { s with creations := Function.update s.creations call state }

def setRemoval (s : Service) (call : Nat) (state : Option Removal) : Service :=
  { s with removals := Function.update s.removals call state }

end Service

inductive SaveEnd where
  | saved (runs : Bool)
  | failed
  /-- The save failed after its rows, and SQLite did not take them back. -/
  | halfway
  deriving DecidableEq

inductive DeleteEnd where
  | deleted
  | failed
  /-- SQLite deleted the rows, and the removal of the folder failed. -/
  | halfway
  deriving DecidableEq

namespace Service

variable (kind : StoreKind)

def insert (s : Service) (session : SavedSession) : Service :=
  { s with saved := s.saved ++ [session], past := s.past ++ [session] }

def erase (s : Service) (id : SessionId) : Service :=
  { s with saved := s.saved.filter (·.id ≠ id) }

/-- Delete session `id`. A session with a lease and an unknown session stay as they are. -/
def deleteSession (s : Service) (id : SessionId) : DeleteEnd → Option Service
  | .failed => some s
  | .deleted => if id ∈ s.ids ∧ ¬ s.Leased id then some (s.erase id) else none
  | .halfway => if kind = .sqlite ∧ id ∈ s.ids ∧ ¬ s.Leased id then some (s.erase id) else none

/-- The end of a `create` or `fork` that saved nothing that its caller knows. -/
def endCreation (s : Service) (call : Nat) : Service :=
  let left := s.setCreation call none
  if s.app.calls call = some .creating then { left with app := s.app.setCall call none } else left

/-- Save the new session of a `create` or `fork`. The id of a session is new. A dropped call leaves
the session without an open. -/
def save (s : Service) (call : Nat) (session : SavedSession) : SaveEnd → Option Service
  | .failed => some (s.endCreation call)
  | .halfway =>
    if kind = .sqlite ∧ session.id ∉ s.pastIds then some ((s.insert session).endCreation call)
    else none
  | .saved runs =>
    if session.id ∈ s.pastIds then none
    else
      let kept := (s.insert session).setCreation call none
      let held := { kept with leases := s.leases ++ [(session.id, call)] }
      match step s.app (.saved call session.id runs) with
      | some app => some { held with app := app }
      | none => some held

def allChildren : Nat := 2 ^ 32 - 1

/-- Whether `page` is what a read of the children of `parent` gives. -/
def IsPage (s : Service) (parent : SessionId) (page : List SessionId) : Prop :=
  page.Nodup ∧ (∀ child ∈ page, child ∈ s.children parent) ∧
    page.length = min allChildren (s.children parent).length

instance (s : Service) (parent : SessionId) (page : List SessionId) :
    Decidable (s.IsPage parent page) :=
  inferInstanceAs (Decidable (_ ∧ _ ∧ _))

/-- Whether call `call` starts session `id`, and owns its lease. -/
def Starts (s : Service) (call : Nat) (id : SessionId) : Prop :=
  s.app.calls call = some (.starting id true) ∨ s.app.calls call = some (.starting id false)

instance (s : Service) (call : Nat) (id : SessionId) : Decidable (s.Starts call id) :=
  inferInstanceAs (Decidable (_ ∨ _))

end Service

def Event.Alone : Event → Prop
  | .create _ | .saved _ _ _ | .read _ => False
  | _ => True

instance (event : Event) : Decidable event.Alone := by
  cases event <;> unfold Event.Alone <;> infer_instance

inductive ServiceEvent where
  | registry (event : Event)
  /-- A `create` or a `fork` starts. -/
  | create (call : Nat) (creation : Creation)
  /-- The store answers the look at the parent, or fails. -/
  | check (call : Nat) (answers : Bool)
  | save (call : Nat) (id : SessionId) (stop : SaveEnd)
  /-- An `open` has its session. -/
  | read (call : Nat)
  /-- The lease of a session that is not open ends. -/
  | release (id : SessionId) (call : Nat)
  | remove (call : Nat) (id : SessionId)
  /-- The store gives the children of the next session of a `remove`, or fails. -/
  | list (call : Nat) (page : Option (List SessionId))
  /-- A `remove` that has its tree looks for an open session. -/
  | look (call : Nat)
  | delete (call : Nat) (stop : DeleteEnd)
  /-- The delete of a new session that did not start. -/
  | discard (call : Nat) (stop : DeleteEnd)
  deriving DecidableEq

/-- The first wait of a `create` with or without a parent, and of a `fork`. -/
def Creation.First : Creation → Prop
  | .checking _ | .creating none | .forking _ => True
  | .creating (some _) => False

instance (creation : Creation) : Decidable creation.First := by
  cases creation with
  | creating parent => cases parent <;> unfold Creation.First <;> infer_instance
  | _ => exact isTrue trivial

namespace Service

variable (kind : StoreKind)

/-- The service after `event`, or `none` when the event cannot happen. -/
def step (s : Service) : ServiceEvent → Option Service
  | .registry event =>
    if ¬ event.Alone then none
    else
      match App.step s.app event with
      | none => none
      | some app =>
        match event with
        | .finish call =>
          if s.app.calls call = some .creating then
            some { s.setCreation call none with app := app }
          else some { s with app := app }
        | _ => some { s with app := app }
  | .create call creation =>
    if s.creations call ≠ none ∨ ¬ creation.First then none
    else
      match App.step s.app (.create call) with
      | none => none
      | some app =>
        if app.calls call = some .creating then
          some { s.setCreation call (some creation) with app := app }
        else some s
  | .check call answers =>
    match s.creations call with
    | some (.checking parent) =>
      if answers = true ∧ parent ∈ s.ids then
        some (s.setCreation call (some (.creating (some parent))))
      else some (s.endCreation call)
    | _ => none
  | .save call id stop =>
    match s.creations call with
    | some (.creating parent) => s.save kind call ⟨id, parent, none⟩ stop
    | some (.forking source) =>
      if stop ≠ .failed ∧ source ∉ s.ids then none
      else s.save kind call ⟨id, none, some source⟩ stop
    | _ => none
  | .read call =>
    match s.app.calls call with
    | some (.opening id) =>
      if id ∉ s.ids ∨ s.Leased id then none
      else
        (App.step s.app (.read call)).map fun app =>
          { s with app := app, leases := s.leases ++ [(id, call)] }
    | _ => none
  | .release id call =>
    if s.Starts call id ∨ (s.opened id).isSome then none
    else some { s with leases := s.leases.filter (· ≠ (id, call)) }
  | .remove call id =>
    if s.removals call ≠ none then none else some (s.setRemoval call (some (.reading id [id] 0)))
  | .list call page =>
    match s.removals call with
    | some (.reading id tree next) =>
      match tree[next]? with
      | none => none
      | some parent =>
        match page with
        | none => some (s.setRemoval call none)
        | some page =>
          if s.IsPage parent page then
            some (s.setRemoval call (some (.reading id (tree ++ page) (next + 1))))
          else none
    | _ => none
  | .look call =>
    match s.removals call with
    | some (.reading id tree next) =>
      if next < tree.length then none
      else if tree.any fun session => (s.app.slots.lookup session).isSome then
        some (s.setRemoval call none)
      else some (s.setRemoval call (some (.deleting id tree tree)))
    | _ => none
  | .delete call stop =>
    match s.removals call with
    | some (.deleting id tree left) =>
      match left.getLast? with
      | none => none
      | some session =>
        (s.deleteSession kind session stop).map fun s =>
          s.setRemoval call
            (if stop = .deleted then some (.deleting id tree left.dropLast) else none)
    | _ => none
  | .discard call stop =>
    match s.app.calls call with
    | some (.deleting id) =>
      (s.deleteSession kind id stop).map fun s => { s with app := s.app.setCall call none }
    | _ => none

end Service

end Yuke.App
