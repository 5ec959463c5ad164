import Yuke.Engine.Tool

/-!
# The decisions of one turn

A turn state does no I/O. Each call that feeds it a fact returns the next action, with the commit
that the driver saves before it acts.
-/

set_option autoImplicit false

namespace Yuke.Engine

open Yuke.Ai

/-- A new context: `head`, then the last `keep` blocks of the old context. -/
structure Replaced where
  head : List Block
  keep : Nat
  deriving DecidableEq

structure Answer where
  origin : Origin
  usage : Usage
  finishReason : FinishReason
  deriving DecidableEq

inductive Outcome where
  | completed (finishReason : FinishReason)
  | stopped
  | cancelled
  deriving DecidableEq

inductive TurnEnd where
  | outcome (outcome : Outcome)
  | failed (text : String)
  deriving DecidableEq

structure CallDisplay where
  blockIndex : Nat
  hints : ToolHints
  folder : Option String
  deriving DecidableEq

structure ResultDisplay where
  blockIndex : Nat
  blocks : List DisplayBlock
  durationMs : Option Nat
  deriving DecidableEq

structure CommitDisplay where
  calls : List CallDisplay := []
  results : List ResultDisplay := []
  deriving DecidableEq

structure Commit where
  replaced : Option Replaced := none
  blocks : List Block
  answer : Option Answer := none
  «end» : Option TurnEnd := none
  display : CommitDisplay := {}
  deriving DecidableEq

inductive ModelError where
  | encode (error : DynError)
  | attempt (error : DynError)
  deriving DecidableEq

inductive RoundError where
  | credential (error : DynError)
  | model (error : ModelError)
  | hook (error : DynError) (after : Option RoundError)
  | inbox (error : DynError)

def RoundError.toDynError : RoundError → DynError
  | .credential error | .inbox error | .model (.encode error) | .model (.attempt error) => error
  | .hook error none => error
  | .hook error (some after) =>
    { error with text := s!"{error.text} (after: {chainText after.toDynError})" }

/-- The context after a replacement: `head`, then the last `keep` blocks of the old context. -/
def Replaced.apply (replaced : Replaced) (context : List Block) : List Block :=
  replaced.head ++ context.drop (context.length - replaced.keep)

/-- Replay this commit on a copy of the context: apply `replaced`, then append `blocks`. -/
def Commit.apply (commit : Commit) (context : List Block) : List Block :=
  (match commit.replaced with
    | some replaced => replaced.apply context
    | none => context) ++ commit.blocks

/-- The context after the replay of `commits` in order. -/
def replay (context : List Block) (commits : List Commit) : List Block :=
  commits.foldl (fun context commit => commit.apply context) context

@[simp] theorem replay_nil (context : List Block) : replay context [] = context := rfl

@[simp] theorem replay_append_singleton (context : List Block) (commits : List Commit)
    (commit : Commit) :
    replay context (commits ++ [commit]) = commit.apply (replay context commits) := by
  simp [replay]

theorem Commit.apply_of_not_replaced {commit : Commit} (h : commit.replaced = none)
    (context : List Block) : commit.apply context = context ++ commit.blocks := by
  simp [Commit.apply, h]

def TurnEnd.fromResult : Except RoundError Outcome → TurnEnd
  | .ok ended => .outcome ended
  | .error error => .failed (chainText error.toDynError)

/-! ## The state -/

/-- The decisions of one turn on the caller's context. A commit holds its first `saved` blocks. -/
structure TurnState where
  context : List Block
  saved : Nat
  turnEnd : Option FinishReason
  inputTokens : Option Nat
  results : List ResultDisplay
  saved_le : saved ≤ context.length

inductive Action where
  | send (commit : Option Commit)
  | callTools (commit : Commit)
  | afterRound (context : List Block) (finishReason : Option FinishReason) (commit : Commit)
  | done (commit : Commit) (result : Except RoundError Outcome)

def cancelledReason : String := "the user cancelled the turn."

def outputLimitReason : String :=
  "the response hit the output token limit, so its arguments may be truncated."

/-- The error result of `call` when it did not run. -/
def notExecuted (call : ToolCall) (reason : String) : ToolResult :=
  .error call.callId s!"Tool call \"{call.name}\" was not executed: {reason}"

@[simp] theorem notExecuted_callId (call : ToolCall) (reason : String) :
    (notExecuted call reason).callId = call.callId := rfl

def u64Max : Nat := 2 ^ 64 - 1

namespace TurnState

/-- The decisions of one turn on `context`. The context counts as saved. -/
def new (context : List Block) (inputTokens : Option Nat) : TurnState where
  context := context
  saved := context.length
  turnEnd := none
  inputTokens := inputTokens
  results := []
  saved_le := le_rfl

def unsaved (state : TurnState) : List Block := state.context.drop state.saved

def extend (state : TurnState) (blocks : List Block) : TurnState where
  context := state.context ++ blocks
  saved := state.saved
  turnEnd := state.turnEnd
  inputTokens := state.inputTokens
  results := state.results
  saved_le := by
    have := state.saved_le
    rw [List.length_append]
    omega

def takeUnsaved (state : TurnState) : TurnState where
  context := state.context
  saved := state.context.length
  turnEnd := state.turnEnd
  inputTokens := state.inputTokens
  results := state.results
  saved_le := le_rfl

def takeResults (state : TurnState) : TurnState := { state with results := [] }

/-- Replace the context with `head` and the last `keep` blocks, and return the commit of it. -/
def replace (state : TurnState) (replace : Replaced) : Commit × TurnState :=
  let cut := state.context.length - replace.keep
  let context := replace.head ++ state.context.drop cut
  ({ replaced := some ⟨context.take replace.head.length, context.length - replace.head.length⟩
     blocks := [] },
   { context := context
     saved := context.length
     turnEnd := state.turnEnd
     inputTokens := none
     results := state.results
     saved_le := le_rfl })

def afterRound (state : TurnState) (answer : Option Answer) : Action × TurnState :=
  (.afterRound state.context state.turnEnd
    { blocks := state.unsaved, answer := answer, display := { results := state.results } },
   state.takeUnsaved.takeResults)

/-- The end of the turn with `result`, after the blocks since the last commit. -/
def done (state : TurnState) (result : Except RoundError Outcome) : Action × TurnState :=
  (.done
    { blocks := state.unsaved
      «end» := some (.fromResult result)
      display := { results := state.results } }
    result,
   state.takeUnsaved.takeResults)

/-- The commit of the blocks since the last commit, or `none` when no block came. -/
def commit (state : TurnState) : Option Commit × TurnState :=
  (if state.saved < state.context.length then some { blocks := state.unsaved } else none,
   state.takeUnsaved)

def send (state : TurnState) (input : List Block) : Action × TurnState :=
  let out := ({ state with turnEnd := none } : TurnState).extend input |>.commit
  (.send out.1, out.2)

def stop (state : TurnState) : Action × TurnState :=
  match state.turnEnd with
  | some finishReason => state.done (.ok (.completed finishReason))
  | none => state.done (.ok .stopped)

/-- Continue after a round, and send `input` after it. -/
def proceed (state : TurnState) (input : List Block) : Action × TurnState :=
  -- Input that arrived during the final answer continues the turn.
  if state.turnEnd.isSome ∧ input.isEmpty then state.stop else state.send input

def cancel (state : TurnState) : Action × TurnState := state.done (.ok .cancelled)

def fail (state : TurnState) (error : RoundError) : Action × TurnState := state.done (.error error)

def notRunReason : FinishReason → String
  | .length => outputLimitReason
  | finishReason => s!"the response ended with finish reason {finishReason.asStr}."

/-- Take the answer to a request. `origin` names the target that answered. -/
def modelFinished (state : TurnState) (completion : Completion) (origin : Origin) :
    Action × TurnState :=
  let finishReason := completion.finishReason
  let state := { state with inputTokens := completion.usage.input }
  let answer : Answer := ⟨origin, completion.usage, finishReason⟩
  if completion.toolCalls.isEmpty then
    let state := state.extend completion.intoBlocks
    ({ state with turnEnd := some finishReason } : TurnState).afterRound (some answer)
  else if finishReason = .toolCalls ∨ finishReason = .stop then
    let state := state.extend completion.intoBlocks
    (.callTools { blocks := state.unsaved, answer := some answer }, state.takeUnsaved)
  else
    -- No call runs, but each call gets a result, so the next request stays valid.
    let results := completion.toolCalls.map fun call =>
      Block.toolResult (notExecuted call (notRunReason finishReason))
    let state := (state.extend completion.intoBlocks).extend results
    -- The model can issue a cut call again, so only another reason ends the turn.
    let state := if finishReason = .length then state else
      { state with turnEnd := some finishReason }
    state.afterRound (some answer)

def addOutcome (state : TurnState) (finished : Finished) : TurnState :=
  let display := finished.outcome.display
  let results :=
    if !display.isEmpty || finished.duration.isSome then
      state.results ++ [{
        blockIndex := state.context.length - state.saved
        blocks := display
        durationMs := finished.duration.map (min u64Max) }]
    else
      state.results
  ({ state with results := results } : TurnState).extend [.toolResult finished.outcome.result]

def addOutcomes (state : TurnState) (outcomes : List Finished) : TurnState :=
  outcomes.foldl addOutcome state

def toolsFinished (state : TurnState) (outcomes : List Finished) : Action × TurnState :=
  (state.addOutcomes outcomes).afterRound none

/-- End a cancelled request. The `kept` output of the cancelled attempt joins the context, with an
error result for each tool call in it. -/
def modelCancelled (state : TurnState) (kept : List Partial) : Action × TurnState :=
  let blocks := kept.map Partial.toBlock
  let notRun := (toolCallsOf blocks).map fun call =>
    Block.toolResult (notExecuted call cancelledReason)
  ((state.extend blocks).extend notRun).cancel

def toolsCancelled (state : TurnState) (outcomes : List Finished) : Action × TurnState :=
  (state.addOutcomes outcomes).cancel

end TurnState

end Yuke.Engine
