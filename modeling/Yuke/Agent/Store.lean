import Yuke.Protocol.Session
import Yuke.Protocol.Title

/-!
# What a store saves and loads

The data of the steps of a store, and the checks that each store shares.
-/

set_option autoImplicit false

namespace Yuke.Agent

open Yuke.Ai (Block)
open Yuke.Engine (Commit DynError TurnEnd)
open Yuke.Protocol

structure PromptSection where
  key : String
  text : String
  deriving DecidableEq

inductive StoreError where
  | owned
  | notFound
  | notACompletedTurn
  | inputNotPending (id : InputId)
  | inputBlocksExceedCommit
  | failed (error : DynError)
  deriving DecidableEq

structure ListPosition where
  position : Nat
  deriving DecidableEq

structure SessionSummary where
  sessionId : SessionId
  model : ModelReference
  cwd : PathBuf
  title : Option SessionTitle
  createdAt : Nat
  updatedAt : Nat
  forkOf : Option SessionId
  parent : Option SessionId
  deriving DecidableEq

structure SessionPage where
  sessions : List SessionSummary
  next : Option ListPosition
  deriving DecidableEq

inductive Access where
  | read
  | write
  deriving DecidableEq

/-- The saved events that a load reads: the ones after a number, or the last ones before it. -/
inductive EventPage where
  | after (number : Option EventNumber)
  | before (number : Option EventNumber) (limit : Nat)
  deriving DecidableEq

structure Loaded where
  events : List StoredEvent
  pending : List PendingInput
  deriving DecidableEq

inductive NewestTurn where
  | empty
  | open
  | ended (turnEnd : TurnEnd)
  deriving DecidableEq

def NewestTurn.isOpen (turn : NewestTurn) : Bool := turn = .open

def NewestTurn.ofEnd (turnEnd : Option TurnEnd) : NewestTurn :=
  match turnEnd with
  | some turnEnd => .ended turnEnd
  | none => .open

structure Lease where
  id : SessionId
  deriving DecidableEq

structure Opened where
  id : SessionId
  settings : SessionSettings
  prompt : List PromptSection
  context : List Block
  parent : Option SessionId
  newestTurn : NewestTurn
  inputTokens : Option Nat
  lease : Option Lease
  deriving DecidableEq

def titleOf (input : Input) : Option SessionTitle :=
  if input.kind = .message then
    let text := input.content.filterMap fun
      | .userText text => some text
      | _ => none
    SessionTitle.fromText ("\n".intercalate text)
  else
    none

/-- The model blocks of the consumed inputs must fit in the commit. A sum that overflows is larger
than any block count. -/
def checkConsumedBlocks (commit : Commit) (consumed : List ConsumedInput) : Except StoreError Unit :=
  if (consumed.map ConsumedInput.blockCount).sum ≤ commit.blocks.length then .ok ()
  else .error .inputBlocksExceedCommit

end Yuke.Agent
