import Yuke.Agent.Session

/-!
# The `input.before` handlers

The plugins of a session check each input before a turn takes it. The handlers run in JavaScript, one
after another, and each one can wait. Meanwhile the turn can be cancelled and the session can close.
-/

set_option autoImplicit false

namespace Yuke.Js

open Yuke.Ai (Block Blob Media)
open Yuke.Engine (DynError chainText)
open Yuke.Protocol
open Yuke.Agent (InputDecision)

inductive MediaSource where
  | path (path : String)
  | bytes (bytes : List UInt8)
  deriving DecidableEq

structure MediaFile where
  mimeType : String
  source : MediaSource
  deriving DecidableEq

structure SessionHost where
  read : String → Except String (List UInt8)
  putMedia : List UInt8 → Except DynError Blob

def readMedia (host : SessionHost) :
    List MediaFile → Except DynError (List (List UInt8 × String))
  | [] => .ok []
  | file :: files =>
    match file.source with
    | .bytes bytes =>
      match readMedia host files with
      | .error error => .error error
      | .ok read => .ok ((bytes, file.mimeType) :: read)
    | .path path =>
      match host.read path with
      | .error text => .error { text := path ++ ": " ++ text }
      | .ok bytes =>
        match readMedia host files with
        | .error error => .error error
        | .ok read => .ok ((bytes, file.mimeType) :: read)

def putMedia (host : SessionHost) : List (List UInt8 × String) → Except DynError (List Media)
  | [] => .ok []
  | (bytes, mime) :: rest =>
    match host.putMedia bytes with
    | .error error => .error error
    | .ok blob =>
      match putMedia host rest with
      | .error error => .error error
      | .ok media => .ok (⟨blob, mime, ""⟩ :: media)

def storeMedia (host : SessionHost) (files : List MediaFile) : Except DynError (List Media) :=
  match readMedia host files with
  | .error error => .error error
  | .ok read => putMedia host read

inductive InputItem where
  | block (block : Block)
  | media (file : MediaFile)
  deriving DecidableEq

/-- The answer of an `input.before` handler. -/
inductive InputBeforeAnswer where
  | block (reason : String)
  | replace (blocks : List InputItem)
  | handled
  deriving DecidableEq

inductive NoticeLevel where
  | warn
  | error
  deriving DecidableEq

structure Notice where
  source : String
  level : NoticeLevel
  message : String
  deriving DecidableEq

inductive RunError where
  | script (name : Option String) (message : String)
  | other (error : DynError)
  deriving DecidableEq

structure Scope where
  plugin : String
  closed : Bool
  handlers : Nat
  deriving DecidableEq

inductive HookEnd where
  | ran (replaced : Option (List InputItem))
  /-- A handler blocked or handled the input, or failed. -/
  | removed
  /-- The session closed before the end of the handlers. -/
  | closed (replaced : Option (List InputItem))
  /-- The token of the turn was cancelled before the end of the handlers. -/
  | cancelled
  | failed (error : RunError)
  deriving DecidableEq

/-- The handlers on one input. `left` are the plugins of the handlers that did not answer, and the
first of them runs now. -/
inductive HookState where
  | running (left : List String) (current : List InputItem) (replaced closed : Bool)
  | ended (finish : HookEnd)
  deriving DecidableEq

structure HookRun where
  state : HookState
  notices : List Notice := []
  deriving DecidableEq

inductive HookEvent where
  /-- The handler answers or throws. `none` is no change. -/
  | answers (answer : Except String (Option InputBeforeAnswer))
  | closes
  /-- The call sees the cancelled token. -/
  | cancels
  /-- The engine stops, or cannot read the answer. -/
  | fails (error : RunError)

def replacement (current : List InputItem) (replaced : Bool) : Option (List InputItem) :=
  if replaced then some current else none

def HookState.next (left : List String) (current : List InputItem) (replaced : Bool) : HookState :=
  if left = [] then .ended (.ran (replacement current replaced))
  else .running left current replaced false

/-- Start the handlers on `blocks`. A closed session has no scopes, and runs no handler. -/
def startInputBefore (scopes : Option (List Scope)) (blocks : List Block) : HookRun :=
  match scopes with
  | none => { state := .ended (.closed none) }
  | some scopes =>
    let left := scopes.flatMap fun scope =>
      if scope.closed then [] else List.replicate scope.handlers scope.plugin
    { state := .next left (blocks.map .block) false }

def HookRun.finish (run : HookRun) (finish : HookEnd) (notices : List Notice := []) : HookRun :=
  { state := .ended finish, notices := run.notices ++ notices }

/-- The run after `event`, or `none` when the event cannot happen. -/
def HookRun.step (run : HookRun) (event : HookEvent) : Option HookRun :=
  match run.state, event with
  | .ended _, _ | .running [] _ _ _, _ => none
  | .running (plugin :: _) _ _ _, .answers (.error text) =>
    some (run.finish .removed
      [⟨"host:plugins", .error, "input.before of plugin " ++ plugin ++ " failed: " ++ text⟩])
  -- The answer of a closed scope does not count.
  | .running _ current replaced true, .answers (.ok _) =>
    some (run.finish (.closed (replacement current replaced)))
  | .running (plugin :: left) current replaced false, .answers (.ok answer) =>
    match answer with
    | none => some { run with state := .next left current replaced }
    | some (.replace blocks) => some { run with state := .next left blocks true }
    | some .handled => some (run.finish .removed)
    | some (.block reason) =>
      some (run.finish .removed [⟨plugin, .warn, "the plugin blocked the input: " ++ reason⟩])
  | .running left current replaced _, .closes =>
    some { run with state := .running left current replaced true }
  | .running _ _ _ _, .cancels => some (run.finish .cancelled)
  | .running _ _ _ _, .fails error => some (run.finish (.failed error))

def HookEnd.answer : HookEnd → Except RunError (Option (Option (List InputItem)))
  | .ran none | .closed none | .cancelled => .ok none
  | .ran (some blocks) | .closed (some blocks) => .ok (some (some blocks))
  | .removed => .ok (some none)
  | .failed error => .error error

def errorText (name : Option String) (message : String) : String :=
  if message = "" then name.getD "the tool failed" else message

/-- The text of a failed run of the `point` hooks. -/
def failureText (point : String) : RunError → String
  | .script name message => errorText name message
  | .other error => "the " ++ point ++ " hooks failed: " ++ chainText error

def filesOf (items : List InputItem) : List MediaFile :=
  items.filterMap fun item =>
    match item with
    | .block _ => none
    | .media file => some file

def placed : List InputItem → List Media → List Block
  | [], _ => []
  | .block block :: items, media => block :: placed items media
  | .media _ :: items, [] => placed items []
  | .media _ :: items, next :: media => .media next :: placed items media

def stored (host : SessionHost) (point : String) (items : List InputItem) :
    Except DynError (List Block) :=
  match storeMedia host (filesOf items) with
  | .error error => .error { text := "the " ++ point ++ " hooks failed: " ++ chainText error }
  | .ok media => .ok (placed items media)

def beforeInput (host : SessionHost) (finish : HookEnd) : Except DynError InputDecision :=
  match finish.answer with
  | .error error => .error { text := failureText "input.before" error }
  | .ok none => .ok .keep
  | .ok (some none) => .ok .remove
  | .ok (some (some items)) =>
    match stored host "input.before" items with
    | .error error => .error error
    | .ok blocks => .ok (.replace blocks)

inductive Places : InputItem → Block → Prop where
  | block (block : Block) : Places (.block block) block
  | media (file : MediaFile) (blob : Blob) :
      Places (.media file) (.media ⟨blob, file.mimeType, ""⟩)

theorem readMedia_mimes {host : SessionHost} {files : List MediaFile}
    {read : List (List UInt8 × String)} (h : readMedia host files = .ok read) :
    read.map Prod.snd = files.map MediaFile.mimeType := by
  induction files generalizing read with
  | nil =>
    cases h
    rfl
  | cons file files ih =>
    have hrest : ∀ {bytes : List UInt8}, (match readMedia host files with
        | .error error => .error error
        | .ok read => .ok ((bytes, file.mimeType) :: read) :
          Except DynError (List (List UInt8 × String))) = .ok read →
        read.map Prod.snd = (file :: files).map MediaFile.mimeType := by
      intro bytes hread
      split at hread
      · cases hread
      · next others hothers =>
        cases hread
        rw [List.map_cons, List.map_cons, ih hothers]
    unfold readMedia at h
    split at h
    · exact hrest h
    · split at h
      · cases h
      · exact hrest h

theorem placed_places {host : SessionHost} {items : List InputItem}
    {read : List (List UInt8 × String)} {media : List Media}
    (hread : read.map Prod.snd = (filesOf items).map MediaFile.mimeType)
    (hput : putMedia host read = .ok media) : List.Forall₂ Places items (placed items media) := by
  induction items generalizing read media with
  | nil => exact .nil
  | cons item items ih =>
    cases item with
    | block block => exact .cons (.block block) (ih hread hput)
    | media file =>
      cases read with
      | nil => cases hread
      | cons first read =>
        obtain ⟨hmime, hrest⟩ := List.cons_eq_cons.mp hread
        unfold putMedia at hput
        split at hput
        · cases hput
        · next blob _ =>
          split at hput
          · cases hput
          · next others hothers =>
            cases hput
            rw [hmime]
            exact .cons (.media file blob) (ih hrest hothers)

theorem stored_places {host : SessionHost} {point : String} {items : List InputItem}
    {blocks : List Block} (h : stored host point items = .ok blocks) :
    List.Forall₂ Places items blocks := by
  unfold stored storeMedia at h
  split at h
  · cases h
  · next media hmedia =>
    cases h
    split at hmedia
    · cases hmedia
    · next read hread => exact placed_places (readMedia_mimes hread) hmedia

end Yuke.Js
