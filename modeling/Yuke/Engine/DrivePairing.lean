import Yuke.Engine.DriveRules
import Yuke.Engine.DriveReplay
import Yuke.Engine.Pairing

/-!
# Each tool call is answered exactly once

An observer tells the story of a turn: the context it starts with, each input that it takes, and
each answer of the model. The context of a request is this story, with the results of each answer
right behind it.
-/

set_option autoImplicit false

namespace Yuke.Engine

open Yuke.Ai Yuke.Shared

/-- A part of the story of a turn. `given` is the context of the start or of a replacement. -/
inductive Part where
  | given (blocks : List Block)
  | input (blocks : List Block)
  | answer (blocks : List Block)

abbrev Story := List Part

/-- The context tells the story: each answer is followed at once by one result for each of its
calls, in call order. -/
inductive Told : Story → List Block → Prop where
  | nil : Told [] []
  | given {story : Story} {context blocks : List Block} :
    Told story context → Paired blocks → Told (story ++ [.given blocks]) (context ++ blocks)
  | input {story : Story} {context : List Block} (blocks : List Block) :
    Told story context → Told (story ++ [.input blocks]) (context ++ blocks)
  | answer {story : Story} {context blocks : List Block} {results : List ToolResult} :
    Told story context → (∀ block ∈ blocks, block.role = .assistant) →
    results.map (fun result => result.callId)
      = (toolCallsOf blocks).map (fun call => call.callId) →
    Told (story ++ [.answer blocks]) (context ++ (blocks ++ results.map Block.toolResult))

inductive Pending : List Block → Story → List Block → Prop where
  | answer {story : Story} {context blocks : List Block} :
    Told story context → (∀ block ∈ blocks, block.role = .assistant) →
    Pending blocks (story ++ [.answer blocks]) (context ++ blocks)

theorem Told.paired {story : Story} {context : List Block} (h : Told story context)
    (hinput : ∀ blocks, Part.input blocks ∈ story → Paired blocks) : Paired context := by
  induction h with
  | nil => exact paired_nil
  | given _ hblocks ih =>
    exact (ih fun blocks hmem => hinput blocks (List.mem_append_left _ hmem)).append hblocks
  | input blocks _ ih =>
    refine (ih fun other hmem => hinput other (List.mem_append_left _ hmem)).append ?_
    exact hinput blocks (List.mem_append_right _ (List.mem_singleton.mpr rfl))
  | answer _ hrole hids ih =>
    refine (ih fun blocks hmem => hinput blocks (List.mem_append_left _ hmem)).append ?_
    exact paired_answer hrole hids

def Story.record (story : Story) (a : Await) (reply : a.Reply) : Story :=
  match a, reply with
  | ⟨held, .save commit⟩, _ => if commit.replaced.isSome then [.given held] else story
  | ⟨_, .inbox⟩, reply =>
    match reply with
    | .ok input => story ++ [.input input]
    | .error _ => story
  | ⟨_, .finishReply⟩, reply =>
    match reply with
    | .ok completion => story ++ [.answer completion.intoBlocks]
    | .error _ => story
  | ⟨_, .cancelReply⟩, blocks =>
    story ++ [.answer ((TurnParts.keptOutput blocks).map fun block => block.content.toBlock)]
  | _, _ => story

def PairedPlan (held : List Block) (plan : RoundPlan) : Prop :=
  ∀ replaced, plan.replace = some replaced → Paired (replaced.apply held)

def KeepsPairs (a : Await) (reply : a.Reply) : Prop :=
  match a, reply with
  | ⟨_, .afterTool call _⟩, reply =>
    match reply with
    | .done (some replacement) => replacement.result.callId = call.callId
    | .done none | .cancelled => True
  | ⟨held, .beforeRound _⟩, reply =>
    match reply with
    | .done (.ok plan) => PairedPlan held plan
    | .done (.error _) | .cancelled => True
  | ⟨held, .retryRound _ _⟩, reply =>
    match reply with
    | .done (.ok (some plan)) => PairedPlan held plan
    | .done (.ok none) | .done (.error _) | .cancelled => True
  | _, _ => True

def storyAnswers (story : Story) (a : Await) (reply : a.Reply) (story' : Story) : Prop :=
  story' = story.record a reply ∧ KeepsPairs a reply

def storyContract : Contract Await Await.Reply Story where
  allowed story a :=
    match a.wait with
    | .openReply request => request.blocks = a.held ∧ Told story a.held
    | _ => True
  answers := storyAnswers

def Heard (blocks : List Block) (story : Story) (held : List Block) : Prop :=
  (∀ block ∈ blocks, block.role = .assistant) ∧
    ((blocks = [] ∧ Told story held) ∨
      ∃ told, story = told ++ [.answer blocks] ∧ Told told held)

/-- What a failed save leaves: at most the calls of the last answer are open. -/
def AtMostPending (story : Story) (held : List Block) : Prop :=
  Told story held ∨ ∃ blocks, Pending blocks story held

structure Story.Ready (out : Action × TurnState) (story : Story) : Prop where
  settled : out.2.Settled
  told : match out.1 with
    | .callTools commit => Pending commit.blocks story out.2.context
    | _ => Told story out.2.context
  blocks : ∀ commit, out.1.commit? = some commit → commit.replaced = none

section

variable {story story' : Story} {held : List Block}

theorem asks_keep_story {a : Await} {reply : a.Reply} (ha : a.Asks) :
    story.record a reply = story := by
  obtain ⟨held, wait⟩ := a
  cases wait with
  | save | inbox | finishReply | cancelReply => cases ha
  | _ => rfl

theorem works_keep_story {a : Await} {reply : a.Reply} (ha : a.Works) :
    story.record a reply = story := by
  obtain ⟨held, wait⟩ := a
  cases wait with
  | save | inbox | finishReply | cancelReply => cases ha
  | _ => rfl

theorem story_asks : Footing storyContract Eq Told Await.Asks where
  refl := fun _ => rfl
  trans := Eq.trans
  stands := fun h hs => h ▸ hs
  same := by
    rintro story a reply _ ha ⟨rfl, _⟩
    exact (asks_keep_story ha).symm
  allowed := by
    rintro story ⟨held, wait⟩ hs ha
    cases wait with
    | openReply request => exact ⟨ha, hs⟩
    | _ => trivial

theorem story_works (blocks : List Block) :
    Footing storyContract Eq (Pending blocks) Await.Works where
  refl := fun _ => rfl
  trans := Eq.trans
  stands := fun h hs => h ▸ hs
  same := by
    rintro story a reply _ ha ⟨rfl, _⟩
    exact (works_keep_story ha).symm
  allowed := by
    rintro story ⟨held, wait⟩ hs ha
    cases wait with
    | openReply => cases ha
    | _ => trivial

theorem intoBlocks_role (completion : Completion) :
    ∀ block ∈ completion.intoBlocks, block.role = .assistant := by
  intro block hblock
  obtain ⟨part, _, rfl⟩ := List.mem_map.mp hblock
  cases part <;> rfl

theorem partial_role (content : Partial) : content.toBlock.role = .assistant := by
  cases content <;> rfl

theorem story_hearing : Hearing storyContract Eq Told Heard where
  asks := story_asks
  silence := fun hs => ⟨by simp, .inl ⟨rfl, hs⟩⟩
  finish := by
    intro story held hs
    refine ⟨trivial, ?_⟩
    rintro reply _ ⟨rfl, _⟩
    rcases reply with error | completion
    · rfl
    · exact ⟨intoBlocks_role completion, .inr ⟨story, rfl, hs⟩⟩
  cancel := by
    intro story held hs
    refine ⟨trivial, ?_⟩
    rintro blocks _ ⟨rfl, _⟩
    refine ⟨?_, .inr ⟨story, rfl, hs⟩⟩
    intro block hblock
    obtain ⟨kept, _, rfl⟩ := List.mem_map.mp hblock
    exact partial_role kept.content
  show_cancel := by
    intro story held blocks shown heard
    refine ⟨trivial, ?_⟩
    rintro _ _ ⟨rfl, _⟩
    exact heard

theorem story_outcomes : Outcomes storyContract Eq True (fun _ _ _ => True) where
  same := fun _ _ => trivial
  record := fun _ => trivial
  keep := fun h _ => h.2

/-! ## The steps of a turn -/

theorem Heard.told {blocks : List Block} (heard : Heard blocks story held)
    {results : List ToolResult} (hids : results.map (fun result => result.callId)
      = (toolCallsOf blocks).map fun call => call.callId) :
    Told story (held ++ (blocks ++ results.map Block.toolResult)) := by
  obtain ⟨hrole, ⟨rfl, hs⟩ | ⟨told, rfl, hs⟩⟩ := heard
  · have hnone : results = [] := by simpa using hids
    simpa [hnone] using hs
  · exact .answer hs hrole hids

theorem notExecuted_ids (calls : List ToolCall) (reason : String) :
    (calls.map fun call => notExecuted call reason).map (fun result => result.callId)
      = calls.map fun call => call.callId := by
  simp [Function.comp_def]

theorem ready_of_told {state : TurnState} {out : Action × TurnState} {blocks : List Block}
    {displays : List ResultDisplay} (hgrown : state.Grown blocks displays out)
    (hnot : ∀ commit, out.1 ≠ .callTools commit) (htold : Told story (state.context ++ blocks)) :
    Story.Ready out story where
  settled := hgrown.settled
  told := by
    rw [hgrown.context_eq]
    split
    · rename_i commit haction
      exact absurd haction (hnot commit)
    · exact htold
  blocks := fun commit hcommit => (hgrown.commit_eq commit hcommit).1

theorem forbidden_eq (completion : Completion)
    (h : ¬ (completion.finishReason = .toolCalls ∨ completion.finishReason = .stop)) :
    TurnState.forbiddenResults completion = (completion.toolCalls.map fun call =>
      notExecuted call (TurnState.notRunReason completion.finishReason)).map Block.toolResult := by
  simp [TurnState.forbiddenResults, h, Function.comp_def]

theorem modelFinished_ready {state : TurnState} (hsettled : state.Settled)
    (completion : Completion) (origin : Origin)
    (heard : Heard completion.intoBlocks story state.context) :
    Story.Ready (state.modelFinished completion origin) story := by
  have hgrown := TurnState.modelFinished_grown hsettled completion origin
  by_cases hcalls : completion.toolCalls = []
  · have hnone : TurnState.forbiddenResults completion = [] := by
      simp [TurnState.forbiddenResults, hcalls]
    refine ready_of_told hgrown ?_ ?_
    · intro commit
      simp [TurnState.modelFinished, hcalls, TurnState.afterRound]
    · have hids : ([] : List ToolResult).map (fun result => result.callId)
          = (toolCallsOf completion.intoBlocks).map fun call => call.callId := by simp [hcalls]
      rw [hnone]
      exact heard.told hids
  · by_cases hruns : completion.finishReason = .toolCalls ∨ completion.finishReason = .stop
    · have hnone : TurnState.forbiddenResults completion = [] := by
        simp [TurnState.forbiddenResults, hruns]
      rw [hnone, List.append_nil] at hgrown
      obtain ⟨hrole, ⟨hblocks, _⟩ | ⟨told, rfl, hs⟩⟩ := heard
      · refine absurd ?_ hcalls
        rw [← toolCallsOf_intoBlocks, hblocks]
        rfl
      · refine ⟨hgrown.settled, ?_, fun commit hcommit => (hgrown.commit_eq commit hcommit).1⟩
        rw [hgrown.context_eq]
        split
        · rename_i commit haction
          have hcommit := hgrown.commit_eq commit (by rw [haction]; rfl)
          rw [hcommit.2.1]
          exact .answer hs hrole
        · rename_i haction
          have hcall : ∃ commit, (state.modelFinished completion origin).1 = .callTools commit := by
            simp [TurnState.modelFinished, hcalls, hruns]
          exact hcall.elim fun commit h => (haction commit h).elim
    · refine ready_of_told hgrown ?_ ?_
      · intro commit
        simp [TurnState.modelFinished, hcalls, hruns, TurnState.afterRound]
      · rw [forbidden_eq completion hruns]
        exact heard.told (by rw [notExecuted_ids, toolCallsOf_intoBlocks])

theorem modelCancelled_ready {state : TurnState} (hsettled : state.Settled)
    (partials : List Partial) (heard : Heard (partials.map Partial.toBlock) story state.context) :
    Story.Ready (state.modelCancelled partials) story := by
  refine ready_of_told (TurnState.modelCancelled_grown hsettled partials) ?_ ?_
  · intro commit
    simp [TurnState.modelCancelled, TurnState.cancel, TurnState.done]
  · have hresults : TurnState.cancelledResults partials
        = ((toolCallsOf (partials.map Partial.toBlock)).map fun call =>
          notExecuted call cancelledReason).map Block.toolResult := by
      simp [TurnState.cancelledResults, Function.comp_def]
    rw [hresults]
    exact heard.told (notExecuted_ids _ _)

theorem resolveCalls_ids (parts : TurnParts) (blocks : List Block) :
    (parts.resolveCalls blocks).map (fun resolved => resolved.call.callId)
      = (toolCallsOf blocks).map fun call => call.callId := by
  unfold TurnParts.resolveCalls toolCallsOf
  rw [List.map_filterMap, List.map_filterMap]
  have hfst : blocks = blocks.zipIdx.map Prod.fst := by simp
  conv_rhs => rw [hfst]
  rw [List.filterMap_map]
  refine List.filterMap_congr ?_
  rintro ⟨block, blockIndex⟩ _
  cases block with
  | toolCall call =>
    simp [Block.toolCall?, (resolve_refuses parts blockIndex call).2.1]
  | _ => rfl

theorem Pending.told {parts : TurnParts} {blocks : List Block} {outcomes : List Finished}
    (h : Pending blocks story held)
    (hanswers : List.Forall₂ (fun resolved finished =>
        Answers True (fun _ _ (_ : Story) => True) resolved finished story)
      (parts.resolveCalls blocks) outcomes) :
    Told story (held ++ TurnState.resultBlocks outcomes) := by
  obtain ⟨hs, hrole⟩ := h
  have hids : outcomes.map (fun finished => finished.outcome.result.callId)
      = (parts.resolveCalls blocks).map fun resolved => resolved.call.callId := by
    rw [← List.forall₂_eq_eq_eq, List.forall₂_map_left_iff, List.forall₂_map_right_iff]
    exact hanswers.flip.imp fun _ _ hanswer => hanswer.2 trivial
  have hresults : TurnState.resultBlocks outcomes
      = (outcomes.map fun finished => finished.outcome.result).map Block.toolResult := by
    simp [TurnState.resultBlocks]
  rw [hresults, List.append_assoc]
  refine .answer hs hrole ?_
  rw [← resolveCalls_ids parts, ← hids, List.map_map]
  rfl

theorem save_story {parts : TurnParts} {commit : Commit} (hreplaced : commit.replaced = none) :
    (parts.save held commit).Holds storyContract (fun _ story' => story' = story) story := by
  refine ⟨trivial, ?_⟩
  rintro reply _ ⟨rfl, _⟩
  have hrecord : story.record ⟨held, .save (parts.journaled commit)⟩ reply = story := by
    simp [Story.record, hreplaced]
  rcases reply with error | _
  · exact hrecord
  · exact hrecord

theorem told_given {context : List Block} (h : Paired context) : Told [.given context] context :=
  @Told.given [] [] context .nil h

theorem story_invariant (parts : TurnParts) :
    TurnInvariant parts storyContract Eq Told Heard Pending PairedPlan True (fun _ _ _ => True)
      Story.Ready AtMostPending (fun _ => Told) where
  hearing := story_hearing
  works := story_works
  outcomes := story_outcomes
  settled := fun hready => hready.settled
  plan_before := fun h => h.2
  plan_retry := fun h => h.2
  replace := by
    intro story state plan replaced _ _ hplan hfound
    have hpaired : Paired (state.replace replaced).2.context := hplan replaced hfound
    refine ⟨trivial, ?_⟩
    rintro reply _ ⟨rfl, _⟩
    have hstory : story.record ⟨(state.replace replaced).2.context,
        .save (parts.journaled (state.replace replaced).1)⟩ reply
        = [.given (state.replace replaced).2.context] := by
      simp [Story.record, TurnState.replace]
    rcases reply with error | _
    · exact .inl (hstory ▸ told_given hpaired)
    · exact hstory ▸ told_given hpaired
  save := by
    intro story action state commit hready hcommit
    refine (save_story (hready.blocks commit hcommit)).mono ?_
    rintro saved _ rfl
    have htold := hready.told
    cases action with
    | callTools other =>
      cases hcommit
      rcases saved with error | _
      · exact .inr ⟨_, htold⟩
      · exact htold
    | send | afterRound | done =>
      rcases saved with error | _
      · exact .inl htold
      · exact htold
  silent := by
    intro story action state hready hnone
    cases action with
    | send => exact hready.told
    | callTools | afterRound | done => cases hnone
  answered := fun completion origin hsettled heard =>
    modelFinished_ready hsettled completion origin heard
  cancelled := fun partials hsettled heard => modelCancelled_ready hsettled partials heard
  ended := by
    intro story state result hsettled hs
    refine ready_of_told (TurnState.ended_grown hsettled result) ?_ ?_
    · intro commit
      simp [TurnState.done]
    · simpa using hs
  inbox := by
    intro story state hsettled hs
    refine ⟨trivial, ?_⟩
    rintro reply _ ⟨rfl, _⟩
    rcases reply with error | input
    · refine ready_of_told (TurnState.fail_grown hsettled _) ?_ ?_
      · intro commit
        simp [TurnState.fail, TurnState.done]
      · rw [List.append_nil]
        exact hs
    · refine ready_of_told (TurnState.proceed_grown hsettled input) ?_ (.input input hs)
      intro commit
      unfold TurnState.proceed TurnState.stop TurnState.done TurnState.send
      split
      · split
        · simp
        · simp
      · simp
  finished := by
    intro story state blocks outcomes hsettled hpending hanswers
    have htold := hpending.told hanswers
    constructor
    · refine ready_of_told (TurnState.toolsFinished_grown hsettled outcomes) ?_ htold
      intro commit
      simp [TurnState.toolsFinished, TurnState.afterRound]
    · refine ready_of_told (TurnState.toolsCancelled_grown hsettled outcomes) ?_ htold
      intro commit
      simp [TurnState.toolsCancelled, TurnState.cancel, TurnState.done]

end

def PairedInputs (story : Story) : Prop := ∀ blocks, Part.input blocks ∈ story → Paired blocks

/-- Where a run stands, the calls of each answer have their results. A turn that a failed save
stops has no end, and its last answer can be open. -/
def Answered (story : Story) : Driving (Except TurnError Outcome × List Block) → Prop
  | .call ⟨held, .openReply request⟩ _ =>
    request.blocks = held ∧ Told story held ∧ (PairedInputs story → Paired held)
  | .done (.error (.commit _), context) => AtMostPending story context
  | .done (_, context) => Told story context ∧ (PairedInputs story → Paired context)
  | _ => True

/-- Before each request and at the end of a turn, each tool call of each answer has exactly one
result, in call order, before the next answer. -/
theorem calls_answered_once (parts : TurnParts) (fuel : Nat) (start input : List Block)
    (inputTokens : Option Nat) (hstart : Paired start) {trace : List ((a : Await) × a.Reply)}
    {story : Story} {rest : Driving (Except TurnError Outcome × List Block)}
    (hrun : Program.Run storyAnswers (parts.run fuel start inputTokens input)
      [.given start, .input input] trace rest story) : Answered story rest := by
  have hgrown := TurnState.send_grown (TurnState.Settled.new start inputTokens) input
  have hready : Story.Ready ((TurnState.new start inputTokens).send input)
      [.given start, .input input] := by
    refine ready_of_told hgrown ?_ (.input input (told_given hstart))
    intro commit
    simp [TurnState.send]
  have hturn := carryOut_holds (story_invariant parts) fuel fuel false hready
  have hrest := hturn.run hrun
  cases rest with
  | cut => trivial
  | done out =>
    obtain ⟨result, context⟩ := out
    rcases result with (error | error) | outcome
    · exact ⟨hrest, hrest.paired⟩
    · exact hrest
    · exact ⟨hrest, hrest.paired⟩
  | call a next =>
    obtain ⟨held, wait⟩ := a
    cases wait with
    | openReply request => exact ⟨hrest.1.1, hrest.1.2, hrest.1.2.paired⟩
    | _ => trivial

def cutCompletion : Completion where
  content := [.toolCall ⟨"call_1", "read", "\x7b"⟩]
  finishReason := .length
  rawFinishReason := "length"
  usage := {}

theorem calmReply_keepsPairs (completion : Completion) (a : Await) :
    KeepsPairs a (calmReply completion a) := by
  obtain ⟨held, wait⟩ := a
  cases wait with
  | beforeRound round =>
    rintro replaced hreplaced
    cases hreplaced
  | _ => trivial

def cutRun : List ((a : Await) × a.Reply) ×
    Driving (Except TurnError Outcome × List Block) × Story :=
  (plainParts.run 4 [] none [.userText "hi"]).follow
    (fun story a => (calmReply cutCompletion a, story.record a (calmReply cutCompletion a)))
    15 [.given [], .input [.userText "hi"]]

theorem calls_answered_once_cut :
    cutRun.2.2 = [.given [], .input [.userText "hi"], .answer cutCompletion.intoBlocks,
        .input []] ∧
      Answered cutRun.2.2 cutRun.2.1 :=
  ⟨rfl, calls_answered_once plainParts 4 [] [.userText "hi"] none rfl
    (Program.run_follow (fun _ a => ⟨rfl, calmReply_keepsPairs cutCompletion a⟩) 15 _ _)⟩

end Yuke.Engine
