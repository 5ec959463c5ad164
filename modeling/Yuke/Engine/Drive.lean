import Yuke.Shared.Program
import Yuke.Engine.TurnState

/-!
# The standard driver

The driver carries out each action of a turn state over a caller's transport. It is a program over
its waits: the caller owns the context of the turn, so each wait shows the context that the turn
holds there. A cancel can end each wait that the driver races, and the caller can drop the turn at
each wait.
-/

set_option autoImplicit false

namespace Yuke.Engine

open Yuke.Ai Yuke.Shared

structure CredentialSource where
  handle : Nat
  deriving DecidableEq

structure Model where
  target : Target
  source : CredentialSource
  contextWindow : Option Nat
  deriving DecidableEq

structure RoundStart where
  context : List Block
  model : Model
  settings : Settings
  system : String
  tools : List ToolDefinition
  inputTokens : Option Nat

structure RoundPlan where
  replace : Option Replaced := none
  model : Option Model := none
  settings : Option Settings := none

inductive ToolDecision where
  | run
  | block (reason : String)

inductive RoundDecision where
  | proceed
  | stop

inductive Raced (α : Type) where
  | done (value : α)
  | cancelled

inductive TurnEvent where
  | responseStarted
  | responseFailed (error : DynError)
  | responseCancelled (blocks : List PartialBlock)
  | model (event : Event)
  | toolStarted (blockIndex : Nat) (call : ToolCall)
  | toolFinished (blockIndex : Nat) (result : ToolResult) (display : List DisplayBlock)
      (duration : Option Nat)
  | roundFailed (error : RoundError)
  | retryScheduled (after : Nat) (error : DynError)

/-- What a turn waits for. A turn without a journal saves nothing, so its `save` is always `ok`.
`wake` asks the executor which call of a parallel group goes on. -/
inductive Wait where
  | save (commit : Commit)
  | beforeRound (round : RoundStart)
  | retryRound (round : RoundStart) (error : RoundError)
  | beforeTool (call : ToolCall)
  | afterTool (call : ToolCall) (outcome : ToolOutcome)
  | afterRound (context : List Block) (finishReason : Option FinishReason)
  | inbox
  | credential (source : CredentialSource)
  | encode (target : Target) (credential : Credential) (request : Request)
  | openReply (request : Request)
  | nextEvent
  | cancelReply
  | finishReply
  | retryDelay (error : DynError) (number : Nat)
  | sleep (delay : Nat)
  | runTool (blockIndex : Nat) (call : ToolCall)
  | isCancelled
  | event (event : TurnEvent)
  | wake (count : Nat)

def Wait.Reply : Wait → Type
  | .save _ => Except DynError Unit
  | .beforeRound _ => Raced (Except DynError RoundPlan)
  | .retryRound _ _ => Raced (Except DynError (Option RoundPlan))
  | .beforeTool _ => Raced ToolDecision
  | .afterTool _ _ => Raced (Option ToolOutcome)
  | .afterRound _ _ => Raced (Except DynError RoundDecision)
  | .inbox => Except DynError (List Block)
  | .credential _ => Raced (Except DynError Credential)
  | .encode _ _ _ => Except DynError Unit
  | .openReply _ => Raced Unit
  | .nextEvent => Raced (Option Event)
  | .cancelReply => List PartialBlock
  | .finishReply => Except DynError Completion
  | .retryDelay _ _ => Option Nat
  | .sleep _ => Raced Unit
  | .runTool _ _ => Except DynError ToolContent × Nat
  | .isCancelled => Bool
  | .event _ => Unit
  | .wake _ => Nat

structure Await where
  held : List Block
  wait : Wait

abbrev Await.Reply (await : Await) : Type := await.wait.Reply

abbrev Driving (α : Type) : Type := Program Await Await.Reply α

def await (held : List Block) (wait : Wait) : Driving wait.Reply :=
  .call ⟨held, wait⟩ .done

def emit (held : List Block) (event : TurnEvent) : Driving Unit := await held (.event event)

structure TurnParts where
  model : Model
  toolset : Option Toolset
  search : SearchParts
  system : String
  settings : Settings
  sessionId : Option String
  blobStore : Option BlobStore

inductive TurnError where
  | round (error : RoundError)
  | commit (error : DynError)

inductive Sent where
  | answered (completion : Completion) (origin : Origin) (nativeSearch : Bool)
  | failed (error : RoundError)
  | cancelled (kept : List Partial)

def Sent.native (nativeSearch : Bool) : Sent → Bool
  | .answered _ _ native => native
  | .failed _ | .cancelled _ => nativeSearch

def Sent.step (state : TurnState) : Sent → Action × TurnState
  | .answered completion origin _ => state.modelFinished completion origin
  | .failed error => state.fail error
  | .cancelled kept => state.modelCancelled kept

/-- A tool call after the deferred-tool bridge, and the result of a call that does not run. -/
structure Resolved where
  blockIndex : Nat
  call : ToolCall
  result : Option ToolResult
  deriving DecidableEq

namespace TurnParts

variable (parts : TurnParts)

def tools : Toolset := parts.toolset.getD .new

/-- The call that `call` runs, and its result when it runs nothing. -/
def resolve (blockIndex : Nat) (call : ToolCall) : Resolved :=
  if call.name = toolCallName ∧ parts.toolset.any Toolset.hasDeferred then
    match unwrapCall parts.search call with
    | .ok real => ⟨blockIndex, real, none⟩
    | .error refused => ⟨blockIndex, call, some refused⟩
  else
    ⟨blockIndex, call, none⟩

/-- Whether `call` runs the built-in search of the deferred tools. -/
def isSearch (call : ToolCall) : Bool :=
  call.name = searchToolName ∧ parts.toolset.any Toolset.hasDeferred

def concurrency (resolved : Resolved) : Concurrency :=
  if resolved.result.isSome ∨ parts.isSearch resolved.call then
    .parallel
  else
    parts.toolset.elim .parallel fun toolset => toolset.concurrency resolved.call.name

/-- The tool calls of `blocks` with their positions, after the bridge. -/
def resolveCalls (blocks : List Block) : List Resolved :=
  blocks.zipIdx.filterMap fun
    | (.toolCall call, blockIndex) => some (parts.resolve blockIndex call)
    | _ => none

/-- The hints and the folder of each tool call among `blocks`. -/
def callDisplay (blocks : List Block) : List CallDisplay :=
  blocks.zipIdx.filterMap fun
    | (.toolCall call, blockIndex) => some {
        blockIndex := blockIndex
        hints := parts.tools.hintsOf (parts.resolve blockIndex call).call.name
        folder := parts.tools.folder }
    | _ => none

def journaled (commit : Commit) : Commit :=
  if (parts.callDisplay commit.blocks).isEmpty then commit else
    { commit with display := ⟨parts.callDisplay commit.blocks, commit.display.results⟩ }

/-- Save `commit`. The save does not race the cancel, and a failed save ends the turn. -/
def save (held : List Block) (commit : Commit) : Driving (Except TurnError Unit) := do
  match ← await held (.save (parts.journaled commit)) with
  | .ok () => return .ok ()
  | .error error => return .error (.commit error)

def requestOf (context : List Block) (tools : List ToolDefinition) (settings : Settings) :
    Request where
  blocks := context
  tools := tools
  blobs := parts.blobStore
  system := parts.system
  settings := settings
  sessionId := parts.sessionId

/-- The output of a cancelled reply that joins the context. Cancelled reasoning has no provider
replay state, so the context omits it. -/
def keptOutput (blocks : List PartialBlock) : List PartialBlock :=
  blocks.filter fun block => block.content matches .text _ | .refusal _ | .toolCall _

def readReply (held : List Block) : Nat → Driving (Option (List Partial))
  | 0 => .cut
  | fuel + 1 => do
    match ← await held .nextEvent with
    | .done (some event) =>
      emit held (.model event)
      readReply held fuel
    | .done none => return none
    | .cancelled =>
      let blocks ← await held .cancelReply
      emit held (.responseCancelled (keptOutput blocks))
      return some ((keptOutput blocks).map fun block => block.content)

/-- Send `request` to `model`, and send it again while the retry policy permits a retry. -/
def send (request : Request) (model : Model) (readFuel : Nat) : Nat → Nat → Driving Sent
  | 0, _ => .cut
  | fuel + 1, number => do
    let held := request.blocks
    match ← await held (.credential model.source) with
    | .cancelled => return .cancelled []
    | .done (.error error) => return .failed (.credential error)
    | .done (.ok credential) =>
      match ← await held (.encode model.target credential request) with
      | .error error => return .failed (.model (.encode error))
      | .ok () =>
        emit held .responseStarted
        match ← await held (.openReply request) with
        | .cancelled =>
          emit held (.responseCancelled [])
          return .cancelled []
        | .done () =>
          match ← readReply held readFuel with
          | some kept => return .cancelled kept
          | none =>
            match ← await held .finishReply with
            | .ok completion =>
              return .answered completion (.of model.target) model.target.toolSearch
            | .error error =>
              emit held (.responseFailed error)
              match ← await held (.retryDelay error number) with
              | none => return .failed (.model (.attempt error))
              | some delay =>
                emit held (.retryScheduled delay error)
                match ← await held (.sleep delay) with
                | .cancelled => return .cancelled []
                | .done () => send request model readFuel fuel (number + 1)

def roundStart (state : TurnState) (model : Model) (settings : Settings)
    (tools : List ToolDefinition) : RoundStart where
  context := state.context
  model := model
  settings := settings
  system := parts.system
  tools := tools
  inputTokens := state.inputTokens

def changes (state : TurnState) (replace : Replaced) : Bool :=
  !replace.head.isEmpty || replace.keep < state.context.length

def replaceContext (state : TurnState) (plan : RoundPlan) :
    Driving (Except TurnError Unit × TurnState) :=
  match plan.replace.filter (changes state) with
  | none => return (.ok (), state)
  | some replace => do
    let (commit, state) := state.replace replace
    let saved ← parts.save state.context commit
    return (saved, state)

def sendPlans (loopFuel : Nat) :
    Nat → TurnState → RoundPlan → Driving (Except TurnError Sent × TurnState)
  | 0, _, _ => .cut
  | fuel + 1, state, plan => do
    match ← parts.replaceContext state plan with
    | (.error error, state) => return (.error error, state)
    | (.ok (), state) =>
      let model := plan.model.getD parts.model
      let settings := plan.settings.getD parts.settings
      let tools := declaredTools parts.tools model.target.toolSearch
      match ← send (parts.requestOf state.context tools settings) model loopFuel loopFuel 1 with
      | .failed error =>
        emit state.context (.roundFailed error)
        let round := parts.roundStart state model settings tools
        match ← await state.context (.retryRound round error) with
        | .done (.ok (some plan)) => sendPlans loopFuel fuel state plan
        | .done (.ok none) => return (.ok (.failed error), state)
        | .done (.error hook) => return (.ok (.failed (.hook hook (some error))), state)
        | .cancelled => return (.ok (.cancelled []), state)
      | sent => return (.ok sent, state)

def sendRound (fuel : Nat) (state : TurnState) : Driving (Except TurnError Sent × TurnState) := do
  let tools := declaredTools parts.tools parts.model.target.toolSearch
  let round := parts.roundStart state parts.model parts.settings tools
  match ← await state.context (.beforeRound round) with
  | .done (.ok plan) => parts.sendPlans fuel fuel state plan
  | .done (.error error) => return (.ok (.failed (.hook error none)), state)
  | .cancelled => return (.ok (.cancelled []), state)

/-! ## The tool calls of an answer -/

/-- Ask the hook whether the call runs. The result of a call that does not run is known here. -/
def beforeTool (held : List Block) (call : ToolCall) : Driving (Option ToolResult) := do
  match ← await held (.beforeTool call) with
  | .done .run => return none
  | .done (.block reason) => return some (.error call.callId reason)
  | .cancelled => return some (notExecuted call cancelledReason)

def emitRefused (held : List Block) (resolved : Resolved) : Driving Unit :=
  match resolved.result with
  | some result => emit held (.toolFinished resolved.blockIndex result [] none)
  | none => return ()

def approve (held : List Block) (resolved : Resolved) : Driving Resolved := do
  emit held (.toolStarted resolved.blockIndex resolved.call)
  match resolved.result with
  | some _ =>
    emitRefused held resolved
    return resolved
  | none =>
    let result ← beforeTool held resolved.call
    emitRefused held { resolved with result := result }
    return { resolved with result := result }

def approveAll (held : List Block) : List Resolved → Driving (List Resolved)
  | [] => return []
  | resolved :: rest => do
    let first ← approve held resolved
    let others ← approveAll held rest
    return first :: others

/-- Ask the hook for a replacement of `outcome`. A cancel keeps `outcome`. -/
def afterTool (held : List Block) (call : ToolCall) (outcome : ToolOutcome) :
    Driving ToolOutcome := do
  match ← await held (.afterTool call outcome) with
  | .done (some replacement) => return replacement
  | .done none | .cancelled => return outcome

/-- Run `call` in the toolset. A name that no tool has starts nothing. -/
def callTool (held : List Block) (blockIndex : Nat) (call : ToolCall) : Driving Finished := do
  match parts.tools.find call.name with
  | none => return Toolset.unknownTool call
  | some _ =>
    let (content, duration) ← await held (.runTool blockIndex call)
    return Toolset.outcomeOf call content duration

/-- Run `call` as the search or in the toolset. -/
def searchOrCall (held : List Block) (blockIndex : Nat) (call : ToolCall) (nativeSearch : Bool) :
    Driving Finished :=
  if parts.isSearch call then
    return .ofResult (Engine.search parts.search parts.tools call nativeSearch)
  else
    parts.callTool held blockIndex call

/-- Run an approved call and ask the hook after it. A cancel before the start runs nothing. -/
def startCall (held : List Block) (blockIndex : Nat) (call : ToolCall) (nativeSearch : Bool)
    (cancelled : Bool) : Driving Finished :=
  if cancelled then
    return .ofResult (notExecuted call cancelledReason)
  else do
    let finished ← parts.searchOrCall held blockIndex call nativeSearch
    let outcome ← afterTool held call finished.outcome
    return ⟨outcome, finished.duration⟩

def runCall (held : List Block) (blockIndex : Nat) (call : ToolCall) (nativeSearch : Bool) :
    Driving Finished := do
  let cancelled : Bool ← await held .isCancelled
  let finished ← parts.startCall held blockIndex call nativeSearch cancelled
  emit held (.toolFinished blockIndex finished.outcome.result finished.outcome.display
    finished.duration)
  return finished

def finishCall (held : List Block) (nativeSearch : Bool) (resolved : Resolved) :
    Driving Finished :=
  match resolved.result with
  | some result => return .ofResult result
  | none => parts.runCall held resolved.blockIndex resolved.call nativeSearch

def callGroup (fuel : Nat) (held : List Block) (nativeSearch : Bool) (group : List Resolved) :
    Driving (List Finished) := do
  let group ← approveAll held group
  Program.joinAll (await held (.wake group.length)) fuel
    (group.map (parts.finishCall held nativeSearch))

def groups : List Resolved → List (List Resolved)
  | [] => []
  | first :: rest =>
    let parallel := fun resolved => parts.concurrency resolved = .parallel
    if parallel first then
      (first :: rest.takeWhile parallel) :: groups (rest.dropWhile parallel)
    else
      [first] :: groups rest
termination_by calls => calls.length
decreasing_by
  · have := List.length_dropWhile_le (fun resolved => decide (parts.concurrency resolved = .parallel)) rest
    simp only [List.length_cons]
    omega
  · simp

def callGroups (fuel : Nat) (held : List Block) (nativeSearch : Bool) :
    List (List Resolved) → Driving (List Finished)
  | [] => return []
  | group :: rest => do
    let first ← parts.callGroup fuel held nativeSearch group
    let others ← callGroups fuel held nativeSearch rest
    return first ++ others

/-- Run the calls in `blocks`, the blocks of an answer commit, in call order. -/
def callTools (fuel : Nat) (held : List Block) (blocks : List Block) (nativeSearch : Bool) :
    Driving (List Finished) :=
  parts.callGroups fuel held nativeSearch (parts.groups (parts.resolveCalls blocks))

/-- Carry out one action after another until the turn is done. The result holds the context that
the turn leaves. -/
def carryOut (loopFuel : Nat) :
    Nat → Bool → Action × TurnState → Driving (Except TurnError Outcome × List Block)
  | 0, _, _ => .cut
  | fuel + 1, nativeSearch, (action, state) => do
    match action with
    | .send commit =>
      let saved ← match commit with
        | some commit => parts.save state.context commit
        | none => pure (.ok ())
      match saved with
      | .error error => return (.error error, state.context)
      | .ok () =>
        match ← parts.sendRound loopFuel state with
        | (.error error, state) => return (.error error, state.context)
        | (.ok sent, state) =>
          carryOut loopFuel fuel (sent.native nativeSearch) (sent.step state)
    | .callTools commit =>
      match ← parts.save state.context commit with
      | .error error => return (.error error, state.context)
      | .ok () =>
        let outcomes ← parts.callTools loopFuel state.context commit.blocks nativeSearch
        let cancelled : Bool ← await state.context .isCancelled
        if cancelled then
          carryOut loopFuel fuel nativeSearch (state.toolsCancelled outcomes)
        else
          carryOut loopFuel fuel nativeSearch (state.toolsFinished outcomes)
    | .afterRound context finishReason commit =>
      match ← parts.save state.context commit with
      | .error error => return (.error error, state.context)
      | .ok () =>
        match ← await state.context (.afterRound context finishReason) with
        | .done (.ok .proceed) =>
          -- The driver takes the input only when the turn goes on, so a stop or a cancel leaves it.
          match ← await state.context .inbox with
          | .ok input => carryOut loopFuel fuel nativeSearch (state.proceed input)
          | .error error => carryOut loopFuel fuel nativeSearch (state.fail (.inbox error))
        | .done (.ok .stop) => carryOut loopFuel fuel nativeSearch state.stop
        | .done (.error error) =>
          carryOut loopFuel fuel nativeSearch (state.fail (.hook error none))
        | .cancelled => carryOut loopFuel fuel nativeSearch state.cancel
    | .done commit result =>
      match ← parts.save state.context commit with
      | .error error => return (.error error, state.context)
      | .ok () => return (result.mapError .round, state.context)

/-- Run the turn of `input` on `context` until it ends. -/
def run (fuel : Nat) (context : List Block) (inputTokens : Option Nat) (input : List Block) :
    Driving (Except TurnError Outcome × List Block) :=
  parts.carryOut fuel fuel false ((TurnState.new context inputTokens).send input)

end TurnParts

/-- The replies of a world where no wait fails, nothing is cancelled, each request gets the answer
`completion`, and the inbox stays empty. -/
def calmReply (completion : Completion) (a : Await) : a.Reply :=
  match a with
  | ⟨_, .save _⟩ => Except.ok ()
  | ⟨_, .beforeRound _⟩ => Raced.done (.ok {})
  | ⟨_, .retryRound _ _⟩ => Raced.done (.ok none)
  | ⟨_, .beforeTool _⟩ => Raced.done .run
  | ⟨_, .afterTool _ _⟩ => Raced.done none
  | ⟨_, .afterRound _ _⟩ => Raced.done (.ok .proceed)
  | ⟨_, .inbox⟩ => Except.ok []
  | ⟨_, .credential _⟩ => Raced.done (.ok .none)
  | ⟨_, .encode _ _ _⟩ => Except.ok ()
  | ⟨_, .openReply _⟩ => Raced.done ()
  | ⟨_, .nextEvent⟩ => Raced.done none
  | ⟨_, .cancelReply⟩ => []
  | ⟨_, .finishReply⟩ => Except.ok completion
  | ⟨_, .retryDelay _ _⟩ => none
  | ⟨_, .sleep _⟩ => Raced.done ()
  | ⟨_, .runTool _ _⟩ => (Except.ok ⟨"", [], false, []⟩, 0)
  | ⟨_, .isCancelled⟩ => false
  | ⟨_, .event _⟩ => ()
  | ⟨_, .wake _⟩ => (0 : Nat)

end Yuke.Engine
