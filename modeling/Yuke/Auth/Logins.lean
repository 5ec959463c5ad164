import Yuke.Auth.File

/-!
# The logins of the app

A login polls in a task of its own and then saves. The map of logins holds the newest login of the
provider. A logout takes it out, waits for its task, and removes the entry of the file.
-/

set_option autoImplicit false

namespace Yuke.Auth

inductive LoginOutcome where
  | succeeded
  | cancelled
  | failed (message : String)
  deriving DecidableEq

def NO_REFRESH : String := "the provider gave no refresh token, so the login cannot last"

namespace Logins

/-- Who writes `auth.json`: the task of a login, a logout, a key update, a refresh of the provider in
any process, or a writer of another provider. -/
inductive Owner where
  | login (id : Nat)
  | logout (call : Nat)
  | key (call : Nat)
  | refresh (number : Nat)
  | other (number : Nat)
  deriving DecidableEq

def Owner.isRefresh : Owner → Bool
  | .refresh _ => true
  | .login _ | .logout _ | .key _ | .other _ => false

/-- Where the task of a login stands. `saved` is the end of the save, before the task goes on. -/
inductive Stage where
  | polling
  | saving
  | saved (ended : Except String Unit)
  | ended

structure LoginTask where
  stop : Bool
  stage : Stage

inductive Leaving where
  | waiting (id : Nat)
  | removing
  | removed (ended : Except String Unit)
  | returned

def Leaving.inProgress : Leaving → Bool
  | .waiting _ | .removing | .removed _ => true
  | .returned => false

inductive Mark where
  | answered (id : Nat)
  | ended (id : Nat) (outcome : LoginOutcome)
  | stored (owner : Owner)
  | removed (call : Nat)
  | returned (call : Nat) (ok : Bool)
  deriving DecidableEq

end Logins

open Logins

/-- The logins of `provider`. `pending` is its entry in the map of logins, and `last` is the last id
of a login of any provider. -/
structure Logins where
  provider : String
  file : Entries
  lock : Option Owner := none
  last : Nat := 0
  pending : Option Nat := none
  starting : Nat → Bool := fun _ => false
  tasks : Nat → Option LoginTask := fun _ => none
  logouts : Nat → Option Leaving := fun _ => none
  writers : Owner → Option Writer := fun _ => none
  log : List Mark := []

namespace Logins

def tell (s : Logins) (mark : Mark) : Logins := { s with log := s.log ++ [mark] }

def setTask (s : Logins) (id : Nat) (task : LoginTask) : Logins :=
  { s with tasks := Function.update s.tasks id (some task) }

def setLogout (s : Logins) (call : Nat) (leaving : Leaving) : Logins :=
  { s with logouts := Function.update s.logouts call (some leaving) }

def setWriter (s : Logins) (owner : Owner) (writer : Option Writer) : Logins :=
  { s with writers := Function.update s.writers owner writer }

/-- Ask the login `id` to stop. -/
def stop (s : Logins) (id : Nat) : Logins :=
  match s.tasks id with
  | some task => s.setTask id { task with stop := true }
  | none => s

/-- Begin a `write_entry`. -/
def write (s : Logins) (owner : Owner) (entry : Option Stored) : Logins :=
  s.setWriter owner (some ⟨s.provider, entry, .locking⟩)

def login (s : Logins) (call : Nat) : Logins :=
  let s := { s with starting := Function.update s.starting call true }
  match s.pending with
  | some earlier => { s with pending := none }.stop earlier
  | none => s

def answered (s : Logins) (call : Nat) : Logins :=
  let id := s.last + 1
  { s with
    starting := Function.update s.starting call false
    last := id
    pending := some id
    tasks := Function.update s.tasks id (some ⟨false, .polling⟩)
    log := s.log ++ [.answered id] }

def logout (s : Logins) (call : Nat) : Logins :=
  match s.pending with
  | some earlier => ({ s with pending := none }.stop earlier).setLogout call (.waiting earlier)
  | none => (s.setLogout call .removing).write (.logout call) none

def finish (s : Logins) (id : Nat) (task : LoginTask) (outcome : LoginOutcome) : Logins :=
  ({ s with pending := if s.pending = some id then none else s.pending }.setTask id
    { task with stage := .ended }).tell (.ended id outcome)

def polled (s : Logins) (id : Nat) (task : LoginTask) : Except String Grant → Logins
  | .error message => s.finish id task (.failed message)
  | .ok grant =>
    match grant.refreshToken with
    | none => s.finish id task (.failed NO_REFRESH)
    | some token =>
      let login := StoredLogin.fromGrant { grant with refreshToken := none } token none
      (s.setTask id { task with stage := .saving }).write (.login id) (some (.login login))

def outcomeOf : Except String Unit → LoginOutcome
  | .ok () => .succeeded
  | .error message => .failed message

/-! ## The writes -/

def release (s : Logins) : Logins := { s with lock := none }

/-- The end of a `write_entry`. Its owner learns how it ended. -/
def wrote (s : Logins) (owner : Owner) (ended : Except String Unit) : Logins :=
  let s := s.setWriter owner none
  match owner with
  | .login id =>
    match s.tasks id with
    | some task => s.setTask id { task with stage := .saved ended }
    | none => s
  | .logout call => s.setLogout call (.removed ended)
  | .key _ | .refresh _ | .other _ => s

/-- The mark of a write of `owner` that had its effect. -/
def tellWritten (s : Logins) : Owner → Logins
  | .logout call => s.tell (.removed call)
  | .login id => s.tell (.stored (.login id))
  | .key call => s.tell (.stored (.key call))
  | .refresh _ | .other _ => s

def writeRead (s : Logins) (owner : Owner) (writer : Writer) (fails : Option String) : Logins :=
  match setRead s.file writer.provider writer.entry fails.isSome, fails with
  | .writing entries, _ => s.setWriter owner (some { writer with phase := .writing entries })
  | .ended _, some text => s.release.wrote owner (.error text)
  | .ended _, none => (s.release.wrote owner (.ok ())).tellWritten owner

def writeFile (s : Logins) (owner : Owner) (entries : Entries) (text : String) : Write → Logins
  | .written => ({ s with file := entries }.release.wrote owner (.ok ())).tellWritten owner
  | .failed => s.release.wrote owner (.error text)
  | .unsynced => ({ s with file := entries }.release.wrote owner (.error text)).tellWritten owner

end Logins

/-- What happens next. A new call, key update, refresh or writer gets an unused number. -/
inductive LoginEvent where
  | login (call : Nat)
  | answered (call : Nat)
  | startFails (call : Nat)
  | otherAnswered
  | cancel (id : Nat)
  | polled (id : Nat) (out : Except String Grant)
  | stopped (id : Nat)
  | finish (id : Nat)
  | logout (call : Nat)
  | joined (call : Nat)
  | returned (call : Nat)
  | setKey (call : Nat) (apiKey : String)
  | refresh (number : Nat)
  | other (number : Nat) (provider : String) (entry : Option Stored)
  | lock (owner : Owner)
  | lockFails (owner : Owner) (text : String)
  | refreshRead (number : Nat) (new : Option StoredLogin)
  | read (owner : Owner) (fails : Option String)
  | write (owner : Owner) (write : Write) (text : String)

namespace Logins

/-- The step of the task of the login `id`. -/
def taskStep (s : Logins) (id : Nat) (task : LoginTask) : LoginEvent → Option Logins
  | .polled _ out =>
    match task.stage with
    | .polling => some (s.polled id task out)
    | _ => none
  | .stopped _ =>
    match task.stage with
    | .polling => if task.stop then some (s.finish id task .cancelled) else none
    | _ => none
  | .finish _ =>
    match task.stage with
    | .saved ended => some (s.finish id task (outcomeOf ended))
    | _ => none
  | _ => none

/-- The step of the logout `call`. -/
def logoutStep (s : Logins) (call : Nat) (leaving : Leaving) : LoginEvent → Option Logins
  | .joined _ =>
    match leaving with
    | .waiting id =>
      match s.tasks id with
      | some ⟨_, .ended⟩ => some ((s.setLogout call .removing).write (.logout call) none)
      | _ => none
    | _ => none
  | .returned _ =>
    match leaving with
    | .removed ended =>
      some ((s.setLogout call .returned).tell (.returned call ended.isOk))
    | _ => none
  | _ => none

/-- The step of a `write_entry`. A refresh reads the login under the lock before its write. -/
def writerStep (s : Logins) (owner : Owner) (writer : Writer) : LoginEvent → Option Logins
  | .lock _ =>
    match writer.phase with
    | .locking =>
      if s.lock.isSome then none
      else some ({ s with lock := some owner }.setWriter owner
        (some { writer with phase := .locked }))
    | _ => none
  | .lockFails _ text =>
    match writer.phase with
    | .locking => some (s.wrote owner (.error text))
    | _ => none
  | .refreshRead _ new =>
    match writer.phase with
    | .locked =>
      if (s.file.login s.provider).isNone then some (s.release.wrote owner (.ok ()))
      else some (s.setWriter owner (some ⟨s.provider, new.map .login,
        .writing (s.file.set s.provider (new.map .login))⟩))
    | _ => none
  | .read _ fails =>
    match writer.phase with
    | .locked => some (s.writeRead owner writer fails)
    | _ => none
  | .write _ write text =>
    match writer.phase with
    | .writing entries => some (s.writeFile owner entries text write)
    | _ => none
  | _ => none

/-- The logins after `event`, or `none` when the event cannot happen. -/
def step (s : Logins) (event : LoginEvent) : Option Logins :=
  match event with
  | .login call => if s.starting call then none else some (s.login call)
  | .answered call => if s.starting call then some (s.answered call) else none
  | .startFails call =>
    if s.starting call then some { s with starting := Function.update s.starting call false }
    else none
  | .otherAnswered => some { s with last := s.last + 1 }
  | .cancel id => if s.pending = some id then some (s.stop id) else some s
  | .polled id _ | .stopped id | .finish id =>
    (s.tasks id).bind fun task => s.taskStep id task event
  | .logout call => if (s.logouts call).isSome then none else some (s.logout call)
  | .joined call | .returned call =>
    (s.logouts call).bind fun leaving => s.logoutStep call leaving event
  | .setKey call apiKey =>
    if (s.writers (.key call)).isSome then none
    else some (s.write (.key call) (some (.apiKey apiKey)))
  | .refresh number =>
    if (s.writers (.refresh number)).isSome then none else some (s.write (.refresh number) none)
  | .other number provider entry =>
    if (s.writers (.other number)).isSome ∨ provider = s.provider then none
    else some (s.setWriter (.other number) (some ⟨provider, entry, .locking⟩))
  | .refreshRead number _ =>
    (s.writers (.refresh number)).bind fun writer => s.writerStep (.refresh number) writer event
  | .read owner _ =>
    if owner.isRefresh then none
    else (s.writers owner).bind fun writer => s.writerStep owner writer event
  | .lock owner | .lockFails owner _ | .write owner _ _ =>
    (s.writers owner).bind fun writer => s.writerStep owner writer event

end Logins

end Yuke.Auth
