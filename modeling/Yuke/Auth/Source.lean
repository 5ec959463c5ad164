import Yuke.Auth.File
import Yuke.Shared.Steps

/-!
# The credentials of a login

Each process has one source of the login of a provider. A call reads the file, and it refreshes a
login that ends soon under the lock. The lock goes into the save and is released there, before the
call goes on.
-/

set_option autoImplicit false

namespace Yuke.Auth

open Yuke.Shared (Steps outcome when Exclusive)

/-- An access token from `credential/update`. Only memory holds it. -/
structure Pushed where
  accessToken : String
  expiresAt : Nat
  accountId : Option String
  deriving DecidableEq

/-- The answer of the provider to a refresh. `transient` says that a repeat is safe. -/
inductive RefreshAnswer where
  | granted (grant : Grant)
  | transient (cause : String)
  | permanent
  | ambiguous
  | badResponse
  deriving DecidableEq

def RefreshAnswer.spends : RefreshAnswer → Bool
  | .transient _ => false
  | .granted _ | .permanent | .ambiguous | .badResponse => true

/-- What gave a stored refresh token. `kept` is a grant of a process that names none. -/
inductive Origin where
  | login
  | given
  | kept (process : Nat)
  deriving DecidableEq

/-- Where the task of a call stands. `saved` is the end of the save, before the call goes on. -/
inductive Phase where
  | reading
  | locking
  | unlocked
  | locked
  | read (stored : StoredLogin)
  | sending (stored : StoredLogin)
  | saving (stored : StoredLogin) (new : Option StoredLogin) (origin : Origin)
  | writing (stored : StoredLogin) (new : Option StoredLogin) (origin : Origin) (entries : Entries)
  | saved (stored : StoredLogin) (new : Option StoredLogin) (failed : Bool)
  | done (out : Except AuthError StoredLogin)

def Phase.holds : Phase → Bool
  | .locked | .read _ | .sending _ | .saving _ _ _ | .writing _ _ _ _ => true
  | .reading | .locking | .unlocked | .saved _ _ _ | .done _ => false

structure Task where
  process : Nat
  phase : Phase

structure Call where
  process : Nat
  task : Option Nat
  deriving DecidableEq

inductive Holder where
  | task (number : Nat)
  | writer (number : Nat)
  deriving DecidableEq

inductive Gave where
  | pushed (accessToken : String) (accountId : Option String)
  | stored (accessToken : String) (accountId : Option String)
  | failed (error : AuthError)
  deriving DecidableEq

inductive Entry where
  | pushed (process : Nat)
  | cleared (process : Nat)
  | began (process call : Nat)
  | gave (call : Nat) (out : Gave)
  | sent (process : Nat) (token : String)
  | ended (process : Nat) (token : String) (answer : RefreshAnswer)
  | stored (token : String) (origin : Origin)
  deriving DecidableEq

/-- The file and its lock, the sources of the login of `provider` in each process, and their
tasks. -/
structure Sources where
  provider : String
  file : Entries
  lock : Option Holder := none
  spent : Nat → List String := fun _ => []
  pushed : Nat → Option Pushed := fun _ => none
  tasks : Nat → Option Task := fun _ => none
  calls : Nat → Option Call := fun _ => none
  writers : Nat → Option Writer := fun _ => none
  log : List Entry := []

namespace Sources

def tell (s : Sources) (entry : Entry) : Sources := { s with log := s.log ++ [entry] }

def setTask (s : Sources) (number : Nat) (task : Task) : Sources :=
  { s with tasks := Function.update s.tasks number (some task) }

def setCall (s : Sources) (number : Nat) (call : Call) : Sources :=
  { s with calls := Function.update s.calls number (some call) }

def setWriter (s : Sources) (number : Nat) (writer : Option Writer) : Sources :=
  { s with writers := Function.update s.writers number writer }

def release (s : Sources) : Sources := { s with lock := none }

def spend (s : Sources) (process : Nat) (token : String) : Sources :=
  { s with spent := Function.update s.spent process (token :: s.spent process) }

def current (s : Sources) (number : Nat) (task : Task) (fails : Option String) (now : Nat) :
    Sources :=
  match fails, s.file.login s.provider with
  | some text, _ => s.setTask number { task with phase := .done (.error (.file text)) }
  | none, none => s.setTask number { task with phase := .done (.error .noLogin) }
  | none, some stored =>
    if stored.valid now MARGIN then s.setTask number { task with phase := .done (.ok stored) }
    else s.setTask number { task with phase := .locking }

def unlocked (s : Sources) (number : Nat) (task : Task) (fails : Option String) (now : Nat) :
    Sources :=
  match fails, s.file.login s.provider with
  | some text, _ => s.setTask number { task with phase := .done (.error (.file text)) }
  | none, none => s.setTask number { task with phase := .done (.error .noLogin) }
  | none, some stored =>
    if stored.valid now 0 then s.setTask number { task with phase := .done (.ok stored) }
    else s.setTask number { task with phase := .done (.error .held) }

def readLocked (s : Sources) (number : Nat) (task : Task) (fails : Option String) : Sources :=
  match fails, s.file.login s.provider with
  | some text, _ => s.release.setTask number { task with phase := .done (.error (.file text)) }
  | none, none => s.release.setTask number { task with phase := .done (.error .noLogin) }
  | none, some stored => s.setTask number { task with phase := .read stored }

def refresh (s : Sources) (number : Nat) (task : Task) (stored : StoredLogin) (now : Nat) :
    Sources :=
  if stored.valid now MARGIN then
    s.release.setTask number { task with phase := .done (.ok stored) }
  else if stored.refreshToken ∈ s.spent task.process then
    if stored.valid now 0 then s.release.setTask number { task with phase := .done (.ok stored) }
    else s.release.setTask number { task with phase := .done (.error .ended) }
  else
    (s.setTask number { task with phase := .sending stored }).tell
      (.sent task.process stored.refreshToken)

def answered (s : Sources) (number : Nat) (task : Task) (stored : StoredLogin)
    (answer : RefreshAnswer) (now : Nat) : Sources :=
  let s := s.tell (.ended task.process stored.refreshToken answer)
  match answer with
  | .granted grant =>
    let new := StoredLogin.fromGrant grant stored.refreshToken stored.accountId
    let origin := if grant.refreshToken.isSome then .given else .kept task.process
    s.setTask number { task with phase := .saving stored (some new) origin }
  | .transient cause =>
    if stored.valid now 0 then s.release.setTask number { task with phase := .done (.ok stored) }
    else s.release.setTask number { task with phase := .done (.error (.expired cause)) }
  | .permanent | .ambiguous | .badResponse =>
    s.setTask number { task with phase := .saving stored none .given }

def saveRead (s : Sources) (number : Nat) (task : Task) (stored : StoredLogin)
    (new : Option StoredLogin) (origin : Origin) (fails : Bool) : Sources :=
  match setRead s.file s.provider (new.map .login) fails with
  | .ended ok => s.release.setTask number { task with phase := .saved stored new !ok }
  | .writing entries => s.setTask number { task with phase := .writing stored new origin entries }

def tellStored (s : Sources) (entry : Option Stored) (origin : Origin) : Sources :=
  match entry with
  | some (.login login) => s.tell (.stored login.refreshToken origin)
  | some (.apiKey _) | none => s

def saveWrite (s : Sources) (number : Nat) (task : Task) (stored : StoredLogin)
    (new : Option StoredLogin) (origin : Origin) (entries : Entries) (write : Write) : Sources :=
  let (file, ok) := setWrite s.file entries write
  let t := ({ s with file := file }.release).setTask number
    { task with phase := .saved stored new !ok }
  if write = .failed then t else t.tellStored (new.map .login) origin

def record (s : Sources) (number : Nat) (task : Task) (stored : StoredLogin)
    (new : Option StoredLogin) (failed : Bool) : Sources :=
  let out : Except AuthError StoredLogin :=
    match new with
    | some login => .ok login
    | none => .error .ended
  let t := s.setTask number { task with phase := .done out }
  if failed then t.spend task.process stored.refreshToken else t

/-! ## Calls and other writers -/

def credential (s : Sources) (call task process now : Nat) : Sources :=
  let s := s.tell (.began process call)
  match s.pushed process with
  | some pushed =>
    let s := s.setCall call ⟨process, none⟩
    if pushed.expiresAt ≤ now then s.tell (.gave call (.failed .pushExpired))
    else s.tell (.gave call (.pushed pushed.accessToken pushed.accountId))
  | none => (s.setCall call ⟨process, some task⟩).setTask task ⟨process, .reading⟩

def finish (s : Sources) (number process : Nat) (out : Except AuthError StoredLogin) : Sources :=
  let s := s.setCall number ⟨process, none⟩
  match out with
  | .error error => s.tell (.gave number (.failed error))
  | .ok current =>
    match s.pushed process with
    | some pushed => s.tell (.gave number (.pushed pushed.accessToken pushed.accountId))
    | none => s.tell (.gave number (.stored current.accessToken current.accountId))

def writerRead (s : Sources) (number : Nat) (writer : Writer) (fails : Bool) : Sources :=
  match setRead s.file writer.provider writer.entry fails with
  | .ended _ => s.release.setWriter number none
  | .writing entries => s.setWriter number (some { writer with phase := .writing entries })

def writerWrite (s : Sources) (number : Nat) (writer : Writer) (entries : Entries)
    (write : Write) : Sources :=
  let t := ({ s with file := (setWrite s.file entries write).1 }.release).setWriter number none
  if write = .failed ∨ writer.provider ≠ s.provider then t else t.tellStored writer.entry .login

end Sources

/-- What happens next. A new call, task or writer gets an unused number. -/
inductive SourceEvent where
  | push (process : Nat) (pushed : Pushed)
  | clearPush (process : Nat)
  | credential (call task process now : Nat)
  | finish (call : Nat)
  | dropCall (call : Nat)
  | read (task : Nat) (fails : Option String) (now : Nat)
  | lock (task : Nat)
  | giveUp (task : Nat)
  | lockFails (task : Nat) (text : String)
  | check (task : Nat) (now : Nat)
  | answer (task : Nat) (answer : RefreshAnswer) (now : Nat)
  | saveRead (task : Nat) (fails : Bool)
  | saveWrite (task : Nat) (write : Write)
  | record (task : Nat)
  | write (writer : Nat) (provider : String) (entry : Option Stored)
  | writerLock (writer : Nat)
  | writerFails (writer : Nat)
  | writerRead (writer : Nat) (fails : Bool)
  | writerWrite (writer : Nat) (write : Write)

open Sources in
/-- The step of the task `number`, or `none` when it does not stand there. -/
def taskStep (s : Sources) (number : Nat) (task : Task) : SourceEvent → Option Sources
  | .read _ fails now =>
    match task.phase with
    | .reading => some (s.current number task fails now)
    | .unlocked => some (s.unlocked number task fails now)
    | .locked => some (s.readLocked number task fails)
    | _ => none
  | .lock _ =>
    match task.phase with
    | .locking =>
      if s.lock.isSome then none
      else some ({ s with lock := some (.task number) }.setTask number
        { task with phase := .locked })
    | _ => none
  | .giveUp _ =>
    match task.phase with
    | .locking => some (s.setTask number { task with phase := .unlocked })
    | _ => none
  | .lockFails _ text =>
    match task.phase with
    | .locking => some (s.setTask number { task with phase := .done (.error (.file text)) })
    | _ => none
  | .check _ now =>
    match task.phase with
    | .read stored => some (s.refresh number task stored now)
    | _ => none
  | .answer _ answer now =>
    match task.phase with
    | .sending stored => some (s.answered number task stored answer now)
    | _ => none
  | .saveRead _ fails =>
    match task.phase with
    | .saving stored new origin => some (s.saveRead number task stored new origin fails)
    | _ => none
  | .saveWrite _ write =>
    match task.phase with
    | .writing stored new origin entries =>
      some (s.saveWrite number task stored new origin entries write)
    | _ => none
  | .record _ =>
    match task.phase with
    | .saved stored new failed => some (s.record number task stored new failed)
    | _ => none
  | _ => none

/-- The sources after `event`, or `none` when the event cannot happen. -/
def Sources.step (s : Sources) (event : SourceEvent) : Option Sources :=
  match event with
  | .push process pushed =>
    some ({ s with pushed := Function.update s.pushed process (some pushed) }.tell
      (.pushed process))
  | .clearPush process =>
    some ({ s with pushed := Function.update s.pushed process none }.tell (.cleared process))
  | .credential call task process now =>
    if (s.calls call).isSome ∨ (s.tasks task).isSome then none
    else some (s.credential call task process now)
  | .finish call =>
    (s.calls call).bind fun waiting => (waiting.task.bind s.tasks).bind fun task =>
      match task.phase with
      | .done out => some (s.finish call waiting.process out)
      | _ => none
  | .dropCall call =>
    (s.calls call).bind fun waiting => waiting.task.map fun _ =>
      s.setCall call ⟨waiting.process, none⟩
  | .read task _ _ | .lock task | .giveUp task | .lockFails task _ | .check task _
  | .answer task _ _ | .saveRead task _ | .saveWrite task _ | .record task =>
    (s.tasks task).bind fun state => taskStep s task state event
  | .write writer provider entry =>
    if (s.writers writer).isSome then none
    else some (s.setWriter writer (some ⟨provider, entry, .locking⟩))
  | .writerLock writer =>
    (s.writers writer).bind fun state =>
      match state.phase with
      | .locking =>
        if s.lock.isSome then none
        else some ({ s with lock := some (.writer writer) }.setWriter writer
          (some { state with phase := .locked }))
      | _ => none
  | .writerFails writer =>
    (s.writers writer).bind fun state =>
      match state.phase with
      | .locking => some (s.setWriter writer none)
      | _ => none
  | .writerRead writer fails =>
    (s.writers writer).bind fun state =>
      match state.phase with
      | .locked => some (s.writerRead writer state fails)
      | _ => none
  | .writerWrite writer write =>
    (s.writers writer).bind fun state =>
      match state.phase with
      | .writing entries => some (s.writerWrite writer state entries write)
      | _ => none

end Yuke.Auth
