import Yuke.Engine.TurnState

/-!
# The records of a session

The ids, the inputs, the settings and the saved events of a session.
-/

set_option autoImplicit false

namespace Yuke.Protocol

open Yuke.Ai (Block Settings)
open Yuke.Engine (Commit)

/-- The 16 bytes of a session id, as one number. -/
structure SessionId where
  bytes : BitVec 128
  deriving DecidableEq

/-- The number of an event in its session. The events have the numbers 1, 2, 3, and so on. -/
structure EventNumber where
  number : Nat
  deriving DecidableEq

structure InputId where
  number : Nat
  deriving DecidableEq

inductive InputSource where
  | user
  | plugin (name : String)
  deriving DecidableEq

inductive InputKind where
  | message
  | notification
  deriving DecidableEq

inductive InputError where
  | emptyContent
  | emptyModelContent
  deriving DecidableEq

structure Input where
  source : InputSource
  kind : InputKind
  content : List Block
  modelContent : Option (List Block)
  content_ne : content ≠ []
  modelContent_ne : modelContent ≠ some []
  deriving DecidableEq

namespace Input

def new (source : InputSource) (kind : InputKind) (content : List Block) :
    Except InputError Input :=
  if h : content = [] then .error .emptyContent else .ok {
    source := source
    kind := kind
    content := content
    modelContent := none
    content_ne := h
    modelContent_ne := by simp }

/-- Give the model `modelContent` in place of the content. Equal content is not kept twice. -/
def withModelContent (input : Input) (modelContent : List Block) : Except InputError Input :=
  if h : modelContent = [] then .error .emptyModelContent else .ok {
    source := input.source
    kind := input.kind
    content := input.content
    modelContent := if modelContent ≠ input.content then some modelContent else none
    content_ne := input.content_ne
    modelContent_ne := by
      split
      · simpa using h
      · simp }

def modelBlocks (input : Input) : List Block := input.modelContent.getD input.content

theorem modelBlocks_ne (input : Input) : input.modelBlocks ≠ [] := by
  have hmodel := input.modelContent_ne
  unfold modelBlocks
  cases h : input.modelContent with
  | none => exact input.content_ne
  | some blocks =>
    rw [h] at hmodel
    simpa using hmodel

end Input

structure PendingInput where
  id : InputId
  input : Input
  deriving DecidableEq

/-- An input that a commit consumed. It has the next `blockCount` blocks of the commit. -/
structure ConsumedInput where
  id : InputId
  source : InputSource
  kind : InputKind
  displayContent : Option (List Block)
  blockCount : Nat
  deriving DecidableEq

def PendingInput.intoConsumed (pending : PendingInput) : ConsumedInput × List Block :=
  let input := pending.input
  let out : Option (List Block) × List Block :=
    match input.modelContent with
    | some modelContent => (some input.content, modelContent)
    | none => (none, input.content)
  (⟨pending.id, input.source, input.kind, out.1, out.2.length⟩, out.2)

theorem PendingInput.intoConsumed_blocks (pending : PendingInput) :
    pending.intoConsumed.2 = pending.input.modelBlocks := by
  unfold intoConsumed Input.modelBlocks
  cases h : pending.input.modelContent <;> simp [h]

structure ModelReference where
  provider : String
  model : String
  deriving DecidableEq

structure PathBuf where
  bytes : List UInt8
  deriving DecidableEq

namespace PathBuf

/-- Whether the path starts at the root, and its components. A path ignores repeated and final
separators, and each `.` but a first one. -/
def components (path : PathBuf) : Bool × List (List UInt8) :=
  let slash : UInt8 := 0x2f
  let dot : List UInt8 := [0x2e]
  let absolute := path.bytes.head? = some slash
  let parts := (path.bytes.splitOn slash).filter fun part => !part.isEmpty
  let start := if absolute then [] else parts.head?.toList.filter (· = dot)
  (absolute, start ++ parts.filter (· ≠ dot))

def same (a b : PathBuf) : Bool := a.components = b.components

def ofString (text : String) : PathBuf := ⟨text.toUTF8.toList⟩

/-- The text of a path that is valid UTF-8. -/
def toStr (path : PathBuf) : Option String := String.fromUTF8? ⟨path.bytes.toArray⟩

end PathBuf

structure SessionSettings where
  model : ModelReference
  settings : Settings
  cwd : PathBuf
  deriving DecidableEq

inductive SessionEvent where
  | commit (commit : Commit) (consumed : List ConsumedInput)
  | settings (settings : SessionSettings)
  deriving DecidableEq

structure StoredEvent where
  eventNumber : EventNumber
  event : SessionEvent
  deriving DecidableEq

end Yuke.Protocol
