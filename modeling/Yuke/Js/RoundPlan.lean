import Yuke.Agent.Session
import Yuke.Engine.DriveReplay
import Yuke.Js.InputBefore
import Yuke.Shared.Json

/-!
# The plan of a round

The `round.before` and `round.retry` handlers of the plugins run one after another, and each of them
can replace the context. The host gets one replacement for all of them, and the engine applies it to
the context before the round.
-/

set_option autoImplicit false

namespace Yuke.Js

open Yuke.Ai (Block Settings)
open Yuke.Engine (Commit DynError Driving Model Replaced RoundPlan TurnError TurnParts TurnState
  chainText plainParts replay replay_append_singleton u64Max)
open Yuke.Protocol (ModelReference)
open Yuke.Shared (Json Program)

def mediaTokens : Nat := 1600

def bytesPerToken : Nat := 4

def textTokens (bytes : Nat) : Nat := (bytes + bytesPerToken - 1) / bytesPerToken

def blockTokens : Block → Nat
  | .media _ => mediaTokens
  | .userText text | .assistantText text => textTokens text.utf8ByteSize
  | .toolResult result =>
    textTokens result.content.utf8ByteSize + result.media.length * mediaTokens
  | .reasoning reasoning =>
    let state := reasoning.replay.elim 0 fun replay => replay.data.utf8ByteSize
    textTokens (max reasoning.text.utf8ByteSize state)
  | .toolCall call => textTokens (call.name.utf8ByteSize + call.arguments.utf8ByteSize)

/-- The estimated input tokens of a request. The count of the provider holds each block before the
newest assistant run, so the estimate adds that run and each later block to it. -/
def contextTokens (context : List Block) (inputTokens : Option Nat) : Nat :=
  match inputTokens with
  | none => (context.map blockTokens).sum
  | some inputTokens =>
    let isAnswer (block : Block) := block.role = .assistant
    let later := context.reverse.takeWhile fun block => ¬ isAnswer block
    let run := (context.reverse.dropWhile fun block => ¬ isAnswer block).takeWhile isAnswer
    -- With no answer, the whole context adds to the count.
    min (inputTokens + ((later ++ run).map blockTokens).sum) u64Max

/-- The replacements so far make the context `head`, then the last `kept` blocks of the context
before the round. -/
structure Seen where
  head : List Block
  kept : Nat
  deriving DecidableEq

namespace Seen

def blocks (seen : Seen) (before : List Block) : List Block :=
  seen.head ++ before.drop (before.length - seen.kept)

def take (seen : Seen) (replace : Replaced) : Seen :=
  let keeps := min replace.keep (seen.head.length + seen.kept)
  { head :=
      -- A keep past the kept blocks also keeps the end of the earlier head.
      if keeps ≤ seen.kept then replace.head
      else replace.head ++ seen.head.drop (seen.head.length - (keeps - seen.kept))
    kept := min seen.kept keeps }

theorem blocks_take {seen : Seen} {before : List Block} (hkept : seen.kept ≤ before.length)
    (replace : Replaced) : (seen.take replace).blocks before = replace.apply (seen.blocks before) := by
  have hlen : (seen.blocks before).length = seen.head.length + seen.kept := by
    simp only [blocks, List.length_append, List.length_drop]
    omega
  have hcut : seen.head.length + seen.kept - replace.keep = seen.head.length + seen.kept -
      min replace.keep (seen.head.length + seen.kept) := by omega
  rw [Replaced.apply, hlen, hcut]
  have hle : min replace.keep (seen.head.length + seen.kept) ≤ seen.head.length + seen.kept :=
    Nat.min_le_right ..
  unfold take blocks
  generalize min replace.keep (seen.head.length + seen.kept) = keeps at hle
  dsimp only
  rcases Nat.lt_or_ge seen.kept keeps with hover | hunder
  · -- The keep reaches the earlier head, so all kept blocks stay.
    have hhead : seen.head.length + seen.kept - keeps = seen.head.length - (keeps - seen.kept) := by
      omega
    have hkeeps : min seen.kept keeps = seen.kept := by omega
    rw [if_neg (by omega), hhead, hkeeps, List.drop_append_of_le_length (by omega),
      List.append_assoc]
  · have hhead : seen.head.length + seen.kept - keeps = seen.head.length + (seen.kept - keeps) := by
      omega
    have hkeeps : before.length - min seen.kept keeps =
        before.length - seen.kept + (seen.kept - keeps) := by omega
    rw [if_pos hunder, hhead, hkeeps, List.drop_length_add_append, List.drop_drop]

theorem kept_take_le (seen : Seen) (replace : Replaced) : (seen.take replace).kept ≤ seen.kept :=
  Nat.min_le_left ..

end Seen

/-! ## The handlers -/

structure RoundFailure where
  kind : String
  message : String
  deriving DecidableEq

inductive RoundPoint where
  | before
  | retry (failure : RoundFailure) (retries : Nat)
  deriving DecidableEq

def RoundPoint.name : RoundPoint → String
  | .before => "round.before"
  | .retry _ _ => "round.retry"

structure RoundRequest where
  point : RoundPoint
  window : Option Nat
  inputTokens : Option Nat
  context : List Block
  deriving DecidableEq

structure RoundEvent where
  request : RoundRequest
  seen : Seen
  deriving DecidableEq

namespace RoundEvent

def context (event : RoundEvent) : List Block := event.seen.blocks event.request.context

def blocks (event : RoundEvent) : Nat := event.seen.head.length + event.seen.kept

def tokens (event : RoundEvent) : List Nat :=
  (event.seen.head ++ event.request.context.drop
    (event.request.context.length - event.seen.kept)).map blockTokens

/-- The count of the provider is of the old context, so after a replacement only the estimate of
each block holds. -/
def contextTokens (event : RoundEvent) : Nat :=
  if 0 < event.seen.head.length ∨ event.seen.kept ≠ event.request.context.length then
    event.tokens.sum
  else Js.contextTokens event.request.context event.request.inputTokens

end RoundEvent

abbrev SettingsChanges : Type := List (List Nat × Json)

/-- The fields of `old`, then the ones of `new`. A field that both have keeps its place and takes the
new value. -/
def spread (old new : SettingsChanges) : SettingsChanges :=
  new.foldl (fun fields field =>
    if fields.any fun other => other.1 == field.1 then
      fields.map fun other => if other.1 == field.1 then field else other
    else fields ++ [field]) old

structure RoundBeforeAnswer where
  replace : Option Replaced := none
  model : Option ModelReference := none
  settings : Option SettingsChanges := none

structure PlannedReplace where
  plugin : String
  head : List Block
  keep : Nat

structure PlannedModel where
  plugin : String
  reference : ModelReference

structure PlannedSettings where
  plugin : String
  changes : SettingsChanges

/-- The plan of all handlers. Each part names the plugin of its last change. -/
structure PlannedRound where
  replace : Option PlannedReplace := none
  model : Option PlannedModel := none
  settings : Option PlannedSettings := none

structure Planning where
  seen : Seen
  plan : PlannedRound := {}
  answered : Bool := false

namespace Planning

/-- Take the answer of a handler of `plugin`. -/
def take (planning : Planning) (plugin : String) (answer : RoundBeforeAnswer) : Planning :=
  let seen := answer.replace.elim planning.seen planning.seen.take
  { seen := seen
    plan :=
      { replace :=
          if answer.replace.isSome then some ⟨plugin, seen.head, seen.kept⟩
          else planning.plan.replace
        model := (answer.model.map (PlannedModel.mk plugin)).or planning.plan.model
        settings :=
          match answer.settings with
          | none => planning.plan.settings
          | some changes =>
            let old := planning.plan.settings.elim [] PlannedSettings.changes
            some ⟨plugin, spread old changes⟩ }
    answered := true }

def result (planning : Planning) : Option PlannedRound :=
  if planning.answered then some planning.plan else none

end Planning

inductive RoundEnd where
  | planned (plan : Option PlannedRound)
  /-- The token of the turn was cancelled before the end of the handlers. -/
  | cancelled
  /-- A handler failed. -/
  | threw (text : String)
  /-- The engine stops, or cannot read the plan. -/
  | failed (error : RunError)

/-- The handlers of one round. `left` are the plugins of the handlers that did not answer, and the
first of them runs now with `event`. -/
inductive RoundRun where
  | running (event : RoundEvent) (left : List String) (planning : Planning) (closed : Bool)
  | ended (finish : RoundEnd)

inductive RoundHookEvent where
  /-- The handler answers or throws. `none` is no answer. A head that JSON cannot hold throws. -/
  | answers (answer : Except String (Option RoundBeforeAnswer))
  | closes
  /-- The call sees the cancelled token. -/
  | cancels
  | fails (error : RunError)

def RoundRun.next (request : RoundRequest) (left : List String) (planning : Planning) : RoundRun :=
  if left = [] then .ended (.planned planning.result)
  else .running ⟨request, planning.seen⟩ left planning false

def startRoundPlan (scopes : Option (List Scope)) (request : RoundRequest) : RoundRun :=
  match scopes with
  | none => .ended (.planned none)
  | some scopes =>
    let left := scopes.flatMap fun scope =>
      if scope.closed then [] else List.replicate scope.handlers scope.plugin
    .next request left { seen := ⟨[], request.context.length⟩ }

/-- The run after `event`, or `none` when the event cannot happen. -/
def RoundRun.step (request : RoundRequest) (run : RoundRun) (event : RoundHookEvent) :
    Option RoundRun :=
  match run, event with
  | .ended _, _ | .running _ [] _ _, _ => none
  | .running _ (plugin :: _) _ _, .answers (.error text) =>
    some (.ended (.threw (request.point.name ++ " of plugin " ++ plugin ++ " failed: " ++ text)))
  -- The answer of a closed scope does not count.
  | .running _ _ planning true, .answers (.ok _) => some (.ended (.planned planning.result))
  | .running _ (plugin :: left) planning false, .answers (.ok answer) =>
    some (.next request left (answer.elim planning (planning.take plugin)))
  | .running event left planning _, .closes => some (.running event left planning true)
  | .running _ _ _ _, .cancels => some (.ended .cancelled)
  | .running _ _ _ _, .fails error => some (.ended (.failed error))

structure RoundHost where
  model : ModelReference → Except DynError Model
  mergeSettings : Settings → SettingsChanges → Except String Settings

/-- The plan of the engine for a round with `settings`. Each failure names its plugin. -/
def PlannedRound.toPlan (planned : PlannedRound) (settings : Settings) (host : RoundHost)
    (point : String) : Except DynError RoundPlan := do
  let failed {α : Type} (plugin : String) : Except String α → Except DynError α :=
    Except.mapError fun error => { text := point ++ " of plugin " ++ plugin ++ " failed: " ++ error }
  let model ← planned.model.mapM fun part =>
    failed part.plugin ((host.model part.reference).mapError chainText)
  let settings ← planned.settings.mapM fun part =>
    failed part.plugin (host.mergeSettings settings part.changes)
  return { replace := planned.replace.map fun part => ⟨part.head, part.keep⟩, model, settings }

def RoundEnd.answer : RoundEnd → Except RunError (Option PlannedRound)
  | .planned plan => .ok plan
  | .cancelled => .ok none
  | .threw text => .error (.script (some "Error") text)
  | .failed error => .error error

def beforeRound (settings : Settings) (host : RoundHost) (finish : RoundEnd) :
    Except DynError RoundPlan :=
  match finish.answer with
  | .error error => .error { text := failureText "round.before" error }
  | .ok none => .ok {}
  | .ok (some planned) => planned.toPlan settings host "round.before"

/-- The plan of the next attempt of a failed round whose handlers ended so. With no plan, the turn
ends with the failure. -/
def retryRound (settings : Settings) (host : RoundHost) (finish : RoundEnd) :
    Except DynError (Option RoundPlan) :=
  match finish.answer with
  | .error error => .error { text := failureText "round.retry" error }
  | .ok none => .ok none
  | .ok (some planned) => (planned.toPlan settings host "round.retry").map some

/-- The handlers of `point` ended so, and the engine reads `plan`. -/
def RoundEnd.Gives (finish : RoundEnd) (point : RoundPoint) (settings : Settings)
    (host : RoundHost) (plan : RoundPlan) : Prop :=
  match point with
  | .before => beforeRound settings host finish = .ok plan
  | .retry _ _ => retryRound settings host finish = .ok (some plan)

theorem toPlan_replace {planned : PlannedRound} {settings : Settings} {host : RoundHost}
    {point : String} {plan : RoundPlan} (h : planned.toPlan settings host point = .ok plan) :
    plan.replace = planned.replace.map fun part => ⟨part.head, part.keep⟩ := by
  unfold PlannedRound.toPlan at h
  simp only [bind, Except.bind, pure, Except.pure] at h
  split at h
  · cases h
  · split at h
    · cases h
    · cases h
      rfl

theorem RoundEnd.Gives.replace {planned : Option PlannedRound} {point : RoundPoint}
    {settings : Settings} {host : RoundHost} {plan : RoundPlan}
    (h : (RoundEnd.planned planned).Gives point settings host plan) :
    plan.replace = (planned.bind PlannedRound.replace).map fun part => ⟨part.head, part.keep⟩ := by
  cases planned with
  | none =>
    cases point with
    | before =>
      cases h
      rfl
    | retry failure retries => cases h
  | some planned =>
    cases point with
    | before => exact toPlan_replace h
    | retry failure retries =>
      have hmap : (planned.toPlan settings host "round.retry").map some = .ok (some plan) := h
      cases hplan : planned.toPlan settings host "round.retry" with
      | error error =>
        rw [hplan] at hmap
        cases hmap
      | ok plan =>
        rw [hplan] at hmap
        cases hmap
        exact toPlan_replace hplan

/-! ## The replacements in turn -/

def replaceCommit (replace : Replaced) : Commit where
  replaced := some replace
  blocks := []

/-- The blocks after `replaces`, one commit after another. -/
def inTurn (context : List Block) (replaces : List Replaced) : List Block :=
  replay context (replaces.map replaceCommit)

theorem inTurn_concat (context : List Block) (replaces : List Replaced) (replace : Replaced) :
    inTurn context (replaces ++ [replace]) = replace.apply (inTurn context replaces) := by
  unfold inTurn
  rw [List.map_append, List.map_singleton, replay_append_singleton]
  exact List.append_nil _

def RoundHookEvent.replaces : RoundHookEvent → List Replaced
  | .answers (.ok (some answer)) => answer.replace.toList
  | _ => []

def RoundHookEvent.goesOn : RoundHookEvent → Bool
  | .closes => false
  | _ => true

def answered (events : List RoundHookEvent) : List Replaced :=
  (events.takeWhile RoundHookEvent.goesOn).flatMap RoundHookEvent.replaces

/-- The plan up to now holds `replaces`. -/
structure Planning.Holds (planning : Planning) (request : RoundRequest)
    (replaces : List Replaced) : Prop where
  kept : planning.seen.kept ≤ request.context.length
  blocks : planning.seen.blocks request.context = inTurn request.context replaces
  replace : ∀ part, planning.plan.replace = some part → ⟨part.head, part.keep⟩ = planning.seen
  none : planning.plan.replace = none → replaces = []
  silent : planning.answered = false → replaces = []

/-- The plan that the host gets makes the blocks of `replaces`. -/
def Composes (request : RoundRequest) (plan : Option PlannedRound) (replaces : List Replaced) :
    Prop :=
  match plan.bind PlannedRound.replace with
  | none => replaces = []
  | some part =>
    (Replaced.mk part.head part.keep).apply request.context = inTurn request.context replaces

def RoundRun.Holds (run : RoundRun) (request : RoundRequest) (replaces : List Replaced) : Prop :=
  match run with
  | .running event _ planning _ =>
    event = ⟨request, planning.seen⟩ ∧ planning.Holds request replaces
  | .ended (.planned plan) => Composes request plan replaces
  | .ended _ => True

section Runs

variable {request : RoundRequest} {replaces : List Replaced} {planning : Planning}

theorem Planning.Holds.start (request : RoundRequest) :
    ({ seen := ⟨[], request.context.length⟩ } : Planning).Holds request [] where
  kept := le_rfl
  blocks := by
    unfold Seen.blocks inTurn
    simp
  replace := by
    intro part hpart
    cases hpart
  none := fun _ => rfl
  silent := fun _ => rfl

theorem Planning.Holds.take (h : planning.Holds request replaces) (plugin : String)
    (answer : RoundBeforeAnswer) :
    (planning.take plugin answer).Holds request (replaces ++ answer.replace.toList) := by
  unfold Planning.take
  cases hreplace : answer.replace with
  | none =>
    rw [Option.toList_none, List.append_nil]
    constructor
    · exact h.kept
    · exact h.blocks
    · exact h.replace
    · exact h.none
    · intro hanswered
      cases hanswered
  | some replace =>
    constructor
    · exact le_trans (Seen.kept_take_le ..) h.kept
    · rw [Option.toList_some, inTurn_concat, ← h.blocks]
      exact Seen.blocks_take h.kept replace
    · intro part hpart
      cases hpart
      rfl
    · intro hnone
      cases hnone
    · intro hanswered
      cases hanswered

theorem Planning.Holds.result (h : planning.Holds request replaces) :
    Composes request planning.result replaces := by
  unfold Composes Planning.result
  cases hanswered : planning.answered with
  | false => exact h.silent hanswered
  | true =>
    rw [if_pos rfl, Option.bind_some]
    cases hpart : planning.plan.replace with
    | none => exact h.none hpart
    | some part =>
      dsimp only
      rw [← h.blocks, ← h.replace part hpart]
      rfl

theorem RoundRun.Holds.next (h : planning.Holds request replaces) (left : List String) :
    (RoundRun.next request left planning).Holds request replaces := by
  unfold RoundRun.next
  split
  · exact h.result
  · exact ⟨rfl, h⟩

theorem holds_startRoundPlan (scopes : Option (List Scope)) (request : RoundRequest) :
    (startRoundPlan scopes request).Holds request [] := by
  cases scopes with
  | none => exact rfl
  | some scopes => exact .next (.start request) _

def RoundRun.isOpen : RoundRun → Bool
  | .running _ _ _ closed => !closed
  | .ended _ => true

theorem step_holds {run run' : RoundRun} {event : RoundHookEvent}
    (h : run.Holds request replaces) (hstep : run.step request event = some run') :
    run'.Holds request (replaces ++ if run.isOpen then event.replaces else []) := by
  cases run with
  | ended finish => cases hstep
  | running seen left planning closed =>
    obtain ⟨rfl, hplanning⟩ := h
    cases left with
    | nil => cases hstep
    | cons plugin left =>
      cases event with
      | closes =>
        cases hstep
        refine ⟨rfl, ?_⟩
        simpa [RoundHookEvent.replaces] using hplanning
      | cancels | fails =>
        cases hstep
        trivial
      | answers answer =>
        rcases answer with text | answer
        · cases hstep
          trivial
        · cases closed with
          | true =>
            cases hstep
            simpa [RoundRun.isOpen, RoundRun.Holds] using hplanning.result
          | false =>
            cases hstep
            cases answer with
            | none => exact .next (by simpa [RoundHookEvent.replaces] using hplanning) left
            | some answer => exact .next (hplanning.take plugin answer) left

theorem isOpen_step {run run' : RoundRun} {event : RoundHookEvent}
    (hstep : run.step request event = some run') :
    run'.isOpen = (run.isOpen && event.goesOn) ∨ ∃ finish, run' = .ended finish := by
  cases run with
  | ended finish => cases hstep
  | running seen left planning closed =>
    cases left with
    | nil => cases hstep
    | cons plugin left =>
      cases event with
      | closes =>
        cases hstep
        exact .inl (by simp [RoundRun.isOpen, RoundHookEvent.goesOn])
      | cancels | fails =>
        cases hstep
        exact .inr ⟨_, rfl⟩
      | answers answer =>
        rcases answer with text | answer
        · cases hstep
          exact .inr ⟨_, rfl⟩
        · cases closed with
          | true =>
            cases hstep
            exact .inr ⟨_, rfl⟩
          | false =>
            cases hstep
            unfold RoundRun.next
            split
            · exact .inr ⟨_, rfl⟩
            · exact .inl rfl

theorem run_holds {run run' : RoundRun} {events : List RoundHookEvent}
    (h : run.Holds request replaces)
    (hrun : events.foldlM (RoundRun.step request) run = some run') :
    run'.Holds request (replaces ++ if run.isOpen then answered events else []) := by
  induction events generalizing run replaces with
  | nil =>
    cases hrun
    simpa [answered] using h
  | cons event events ih =>
    rw [List.foldlM_cons] at hrun
    obtain ⟨middle, hstep, hrest⟩ := Option.bind_eq_some_iff.mp hrun
    have hlast := ih (step_holds h hstep) hrest
    rcases isOpen_step hstep with hopen | ⟨finish, rfl⟩
    · rw [hopen] at hlast
      cases hrunopen : run.isOpen with
      | false => simpa [hrunopen] using hlast
      | true =>
        cases hgoes : event.goesOn with
        | true => simpa [hrunopen, hgoes, answered] using hlast
        | false =>
          cases event with
          | closes => simpa [hrunopen, hgoes, answered, RoundHookEvent.replaces] using hlast
          | _ => cases hgoes
    · cases events with
      | nil =>
        cases hrest
        cases hgoes : event.goesOn with
        | true => simpa [answered, hgoes] using step_holds h hstep
        | false =>
          cases event with
          | closes => simpa [hgoes, answered, RoundHookEvent.replaces] using step_holds h hstep
          | _ => cases hgoes
      | cons other events => cases hrest

end Runs

theorem replaceContext_context (parts : TurnParts) (state : TurnState) (plan : RoundPlan) :
    ∃ (saved : Driving (Except TurnError Unit)) (state' : TurnState),
      parts.replaceContext state plan = (saved >>= fun result => pure (result, state')) ∧
      state'.context = plan.replace.elim state.context fun replace => replace.apply state.context := by
  unfold TurnParts.replaceContext
  cases hreplace : plan.replace with
  | none => exact ⟨pure (.ok ()), state, rfl, rfl⟩
  | some replace =>
    cases hchanges : TurnParts.changes state replace with
    | true =>
      rw [Option.filter_some_pos hchanges]
      exact ⟨_, _, rfl, rfl⟩
    | false =>
      -- No head, and each block stays.
      obtain ⟨hhead, hkeep⟩ : replace.head = [] ∧ state.context.length ≤ replace.keep := by
        simpa [TurnParts.changes] using hchanges
      rw [Option.filter_some_neg (by simp [hchanges])]
      refine ⟨pure (.ok ()), state, rfl, ?_⟩
      rw [Option.elim_some, Replaced.apply, hhead, Nat.sub_eq_zero_of_le hkeep]
      rfl

/-- Each handler sees the blocks after the answers before it, and the one replacement of the plan
gives the engine the blocks after all of them. -/
theorem plan_composes (parts : TurnParts) {scopes : Option (List Scope)} {request : RoundRequest}
    {events : List RoundHookEvent} {run : RoundRun}
    (hrun : events.foldlM (RoundRun.step request) (startRoundPlan scopes request) = some run) :
    (∀ event left planning closed, run = .running event left planning closed →
      event.context = inTurn request.context (answered events)) ∧
    ∀ planned settings host plan state, run = .ended (.planned planned) →
      (RoundEnd.planned planned).Gives request.point settings host plan →
      state.context = request.context →
      ∃ (saved : Driving (Except TurnError Unit)) (state' : TurnState),
        parts.replaceContext state plan = (saved >>= fun result => pure (result, state')) ∧
        state'.context = inTurn request.context (answered events) := by
  have hholds : run.Holds request (answered events) := by
    have hstart := run_holds (holds_startRoundPlan scopes request) hrun
    have hopen : (startRoundPlan scopes request).isOpen = true := by
      cases scopes with
      | none => rfl
      | some scopes =>
        unfold startRoundPlan RoundRun.next
        dsimp only
        split <;> rfl
    rwa [hopen, if_pos rfl, List.nil_append] at hstart
  constructor
  · rintro event left planning closed rfl
    obtain ⟨rfl, hplanning⟩ := hholds
    exact hplanning.blocks
  · rintro planned settings host plan state rfl hgives hcontext
    obtain ⟨saved, state', heq, hafter⟩ := replaceContext_context parts state plan
    refine ⟨saved, state', heq, ?_⟩
    have hcomposes : Composes request planned (answered events) := hholds
    unfold Composes at hcomposes
    rw [hafter, hcontext, hgives.replace]
    split at hcomposes
    · next hnone =>
      rw [hnone, hcomposes]
      rfl
    · next part hpart =>
      rw [hpart]
      exact hcomposes

def threeTexts : RoundRequest where
  point := .before
  window := none
  inputTokens := none
  context := [.userText "a", .assistantText "b", .userText "c"]

def reachingAnswers : List RoundHookEvent :=
  [.answers (.ok (some { replace := some ⟨[.userText "x", .userText "y"], 1⟩ })),
    .answers (.ok (some { replace := some ⟨[.userText "z"], 2⟩ }))]

theorem plan_composes_reaching :
    ∃ (saved : Driving (Except TurnError Unit)) (state' : TurnState),
      plainParts.replaceContext (.new threeTexts.context none)
        { replace := some ⟨[.userText "z", .userText "y"], 1⟩ } =
          (saved >>= fun result => pure (result, state')) ∧
      state'.context = inTurn threeTexts.context (answered reachingAnswers) := by
  have hrun : ∃ planned, reachingAnswers.foldlM (RoundRun.step threeTexts)
      (startRoundPlan (some [⟨"p", false, 2⟩]) threeTexts) = some (.ended (.planned planned)) ∧
      ∀ host, (RoundEnd.planned planned).Gives .before {} host
        { replace := some ⟨[.userText "z", .userText "y"], 1⟩ } :=
    ⟨_, rfl, fun _ => rfl⟩
  obtain ⟨planned, hrun, hgives⟩ := hrun
  exact (plan_composes plainParts hrun).2 planned {} ⟨fun _ => .error {text := ""},
    fun _ _ => .error ""⟩ _ _ rfl (hgives _) rfl

end Yuke.Js
