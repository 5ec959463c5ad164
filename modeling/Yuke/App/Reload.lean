import Yuke.App.Sessions

/-!
# The reload of the plugins

A reload holds the lock of each open session, starts a new runtime beside the old one, and opens the
plugins of each session in it. Only then it swaps. Each wait can fail, and calls of the sessions run
meanwhile.
-/

set_option autoImplicit false

namespace Yuke.App

open Yuke.Protocol

/-- The session of the plugins of `owner` in a runtime. -/
structure Script where
  runtime : Nat
  owner : LiveSession
  closed : Bool := false
  deriving DecidableEq

structure Runtime where
  plugins : Bool := true
  runs : Bool := true
  reports : Bool := true
  deriving DecidableEq

def Runtime.stopped (runtime : Runtime) : Prop :=
  runtime.plugins = false ∧ runtime.runs = false ∧ runtime.reports = false

def Script.close (script : Script) : Script := { script with closed := true }

inductive Locker where
  | session
  | reload
  deriving DecidableEq

inductive ReloadError where
  | app (error : AppError)
  | turnRuns
  | invalid (text : String)
  | internal (text : String)
  deriving DecidableEq

/-- The waits of `stop_runtime`, in their order. -/
inductive Stop where
  | plugins
  | shutdown
  | reporter
  deriving DecidableEq

def Stop.next : Stop → Option Stop
  | .plugins => some .shutdown
  | .shutdown => some .reporter
  | .reporter => none

inductive Stage where
  | starting
  | importing (runtime : Nat) (left : List String)
  | loading (runtime : Nat)
  | opening (runtime : Nat) (opened : List (LiveSession × Nat)) (rest : List LiveSession)
  /-- The cleanup of the opened scripts after a failure. -/
  | cleaning (runtime : Nat) (left : List Nat) (error : ReloadError)
  | stopping (runtime : Nat) (stop : Stop) (error : ReloadError)
  /-- The close of an old script, after the swap of its session. -/
  | replacing (runtime old : Nat) (rest : List (LiveSession × Nat))
  /-- The stop of the old runtime, after the swap of the runtimes. -/
  | ending (old : Nat) (stop : Stop)
  deriving DecidableEq

structure Pool where
  runtimes : List Runtime := [{}]
  scripts : List Script := []
  deriving DecidableEq

namespace Pool

def start (p : Pool) : Pool := { p with runtimes := p.runtimes ++ [{}] }

/-- Open the plugins of `live` in `runtime`. -/
def openScript (p : Pool) (runtime : Nat) (live : LiveSession) : Pool :=
  { p with scripts := p.scripts ++ [⟨runtime, live, false⟩] }

def closeScript (p : Pool) (script : Nat) : Pool :=
  { p with scripts := p.scripts.modify script Script.close }

/-- One wait of `stop_runtime`. A failure is a warning, and the end of the runtime ends its
scripts. -/
def stop (p : Pool) (runtime : Nat) : Stop → Pool
  | .plugins =>
    { p with runtimes := p.runtimes.modify runtime fun state => { state with plugins := false } }
  | .shutdown => { p with
      runtimes := p.runtimes.modify runtime fun state => { state with runs := false }
      scripts := p.scripts.map fun script =>
        if script.runtime = runtime then script.close else script }
  | .reporter =>
    { p with runtimes := p.runtimes.modify runtime fun state => { state with reports := false } }

end Pool

structure Attempt (Profile : Type) where
  held : List LiveSession
  oldProfile : Profile
  stage : Stage

/-- The app: its registry, its profile, its runtime with its reporter and the handle of the service,
and the script and the lock of each session. `turns` are the turns that started, and `outcome` is
the end of the last reload. -/
structure AppState (Profile : Type) where
  system : System := {}
  profile : Profile
  interface : Bool
  runtime : Nat := 0
  reporter : Nat := 0
  handle : Nat := 0
  pool : Pool := {}
  script : LiveSession → Option Nat := fun _ => none
  locks : LiveSession → Option Locker := fun _ => none
  turns : List LiveSession := []
  attempt : Option (Attempt Profile) := none
  outcome : Option (Except ReloadError Unit) := none

namespace AppState

variable {Profile : Type}

def setStage (a : AppState Profile) (attempt : Attempt Profile) (stage : Stage) :
    AppState Profile :=
  { a with attempt := some { attempt with stage := stage } }

def hold (locks : LiveSession → Option Locker) :
    List LiveSession → Option (LiveSession → Option Locker)
  | [] => some locks
  | live :: rest =>
    if (locks live).isSome then none else hold (Function.update locks live (some .reload)) rest

def finish (a : AppState Profile) (attempt : Attempt Profile) (out : Except ReloadError Unit) :
    AppState Profile :=
  { a with
    locks := fun live => if live ∈ attempt.held then none else a.locks live
    system := a.system.endReload
    attempt := none
    outcome := some out }

def fail (a : AppState Profile) (attempt : Attempt Profile) (error : ReloadError) :
    AppState Profile :=
  { a with profile := attempt.oldProfile }.finish attempt (.error error)

def imports (interface : Bool) : List String :=
  if interface then ["yuke:internal/builtins", "yuke:internal/tui"]
  else ["yuke:internal/builtins"]

def notLoaded (failures : List String) : String :=
  "the reload keeps the old plugins, because a plugin did not load: " ++ "; ".intercalate failures

/-- Begin a reload. `loaded` is the profile that the files give. -/
def reload (a : AppState Profile) (loaded : Except String Profile) : AppState Profile :=
  match a.system.startReload with
  | .error error => { a with outcome := some (.error (.app error)) }
  | .ok system =>
    match hold a.locks a.system.opened, loaded with
    | none, _ => { a with system := system.endReload, outcome := some (.error .turnRuns) }
    | some _, .error text =>
      { a with system := system.endReload, outcome := some (.error (.invalid text)) }
    | some locks, .ok profile => { a with
        system := system
        locks := locks
        profile := profile
        attempt := some ⟨a.system.opened, a.profile, .starting⟩ }

def started (a : AppState Profile) (attempt : Attempt Profile) : AppState Profile :=
  { a with pool := a.pool.start }.setStage attempt
    (.importing a.pool.runtimes.length (imports a.interface))

def replace (a : AppState Profile) (attempt : Attempt Profile) (runtime : Nat) :
    List (LiveSession × Nat) → AppState Profile
  | [] =>
    { a with runtime := runtime, reporter := runtime, handle := runtime }.setStage attempt
      (.ending a.runtime .plugins)
  | (live, script) :: rest =>
    let swapped := { a with script := Function.update a.script live (some script) }
    match a.script live with
    | some old => swapped.setStage attempt (.replacing runtime old rest)
    | none => swapped.replace attempt runtime rest

def openNext (a : AppState Profile) (attempt : Attempt Profile) (runtime : Nat)
    (opened : List (LiveSession × Nat)) : List LiveSession → AppState Profile
  | [] => a.replace attempt runtime opened
  | rest => a.setStage attempt (.opening runtime opened rest)

def cleanNext (a : AppState Profile) (attempt : Attempt Profile) (runtime : Nat)
    (error : ReloadError) : List Nat → AppState Profile
  | [] => a.setStage attempt (.stopping runtime .plugins error)
  | left => a.setStage attempt (.cleaning runtime left error)

end AppState

inductive AppEvent (Profile : Type) where
  | system (event : Event)
  /-- A session that was told to stop closes its script. -/
  | closeScript (script : Nat)
  | lock (live : LiveSession)
  | startTurn (live : LiveSession)
  | unlock (live : LiveSession)
  | reload (loaded : Except String Profile)
  /-- The wait of the reload ends well. `failures` are the plugins that did not load. -/
  | goesOn (failures : List String)
  /-- The wait of the reload fails. -/
  | fails (text : String)

def ofReload : Event → Bool
  | .startReload | .endReload | .turn _ => true
  | _ => false

/-- The session that starts with `event`. -/
def System.starts (s : System) : Event → Option LiveSession
  | .started call _ =>
    match s.calls call with
    | some (.starting id _) => some ⟨id, s.started⟩
    | _ => none
  | _ => none

namespace AppState

variable {Profile : Type}

def systemStep (a : AppState Profile) (event : Event) : Option (AppState Profile) :=
  if ofReload event then none
  else (Yuke.App.step a.system event).map fun system =>
    match a.system.starts event with
    | some live => { a with
        system := system
        pool := a.pool.openScript a.handle live
        script := Function.update a.script live (some a.pool.scripts.length) }
    | none => { a with system := system }

def goOn (a : AppState Profile) (attempt : Attempt Profile) (failures : List String) :
    AppState Profile :=
  match attempt.stage with
  | .starting => a.started attempt
  | .importing runtime (_ :: module :: left) =>
    a.setStage attempt (.importing runtime (module :: left))
  | .importing runtime _ => a.setStage attempt (.loading runtime)
  | .loading runtime =>
    if failures.isEmpty then a.openNext attempt runtime [] attempt.held
    else a.setStage attempt (.stopping runtime .plugins (.invalid (notLoaded failures)))
  | .opening runtime opened (live :: rest) =>
    { a with pool := a.pool.openScript runtime live }.openNext attempt runtime
      (opened ++ [(live, a.pool.scripts.length)]) rest
  | .opening runtime opened [] => a.openNext attempt runtime opened []
  | .cleaning runtime (script :: left) error =>
    { a with pool := a.pool.closeScript script }.cleanNext attempt runtime error left
  | .cleaning runtime [] error => a.cleanNext attempt runtime error []
  | .stopping runtime stop error =>
    let stopped := { a with pool := a.pool.stop runtime stop }
    match stop.next with
    | some next => stopped.setStage attempt (.stopping runtime next error)
    | none => stopped.fail attempt error
  | .replacing runtime old rest =>
    { a with pool := a.pool.closeScript old }.replace attempt runtime rest
  | .ending old stop =>
    let stopped := { a with pool := a.pool.stop old stop }
    match stop.next with
    | some next => stopped.setStage attempt (.ending old next)
    | none => stopped.finish attempt (.ok ())

/-- The wait of a reload fails, or `none` when it cannot fail. -/
def failHere (a : AppState Profile) (attempt : Attempt Profile) (text : String) :
    Option (AppState Profile) :=
  match attempt.stage with
  | .starting => some (a.fail attempt (.internal text))
  | .importing runtime _ =>
    some (a.setStage attempt (.stopping runtime .plugins (.internal text)))
  | .opening runtime opened _ =>
    some (a.cleanNext attempt runtime (.internal text) (opened.map (·.2)))
  | _ => none

/-- The app after `event`, or `none` when the event cannot happen. A session starts a turn only
under its lock, and a reload borrows the app. -/
def step (a : AppState Profile) : AppEvent Profile → Option (AppState Profile)
  | .system event => a.systemStep event
  | .closeScript script =>
    match a.pool.scripts[script]? with
    | some state =>
      if state.owner ∈ a.system.running then none
      else some { a with pool := a.pool.closeScript script }
    | none => none
  | .lock live =>
    if (a.locks live).isSome then none
    else some { a with locks := Function.update a.locks live (some .session) }
  | .startTurn live =>
    if a.locks live = some .session ∧ live ∈ a.system.running then
      some { a with system := a.system.touch live.id, turns := a.turns ++ [live] }
    else none
  | .unlock live =>
    if a.locks live = some .session then
      some { a with locks := Function.update a.locks live none }
    else none
  | .reload loaded => if a.attempt.isSome then none else some (a.reload loaded)
  | .goesOn failures => a.attempt.map fun attempt => a.goOn attempt failures
  | .fails text => a.attempt.bind fun attempt => a.failHere attempt text

end AppState

end Yuke.App
