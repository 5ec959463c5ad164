import Yuke.Engine.DriveRules

/-!
# How the input reaches the context

The blocks of the inbox join the context in one commit of their own, and no request is sent before
the save of this commit. The other commits hold what the model and the tools made.
-/

set_option autoImplicit false

namespace Yuke.Engine

open Yuke.Ai Yuke.Shared

def Made : Block → Prop
  | .userText _ | .media _ => False
  | .assistantText _ | .reasoning _ | .toolCall _ | .toolResult _ => True

def recordInput (given : List Block) (a : Await) (reply : a.Reply) : List Block :=
  match a, reply with
  | ⟨_, .inbox⟩, reply =>
    match reply with
    | .ok input => input
    | .error _ => given
  | ⟨_, .save _⟩, reply =>
    match reply with
    | .ok () => []
    | .error _ => given
  | _, _ => given

/-- A commit holds the whole given input and nothing else, or blocks that the turn made. -/
def Sourced (given : List Block) (commit : Commit) : Prop :=
  if given = [] then ∀ block ∈ commit.blocks, Made block else commit.blocks = given

def inputContract : Contract Await Await.Reply (List Block) where
  allowed given a :=
    match a.wait with
    | .save commit => Sourced given commit
    | .openReply _ | .inbox => given = []
    | _ => True
  answers given a reply given' := given' = recordInput given a reply

def Ungiven (given : List Block) (_ : List Block) : Prop := given = []

structure InputReady (out : Action × TurnState) (given : List Block) : Prop where
  settled : out.2.Settled
  sourced : ∀ commit, out.1.commit? = some commit → Sourced given commit
  silent : out.1.commit? = none → given = []

theorem made_toBlock (part : Content) : Made part.toBlock := by
  cases part <;> trivial

theorem made_partial (part : Partial) : Made part.toBlock := by
  cases part <;> trivial

theorem made_intoBlocks (completion : Completion) :
    ∀ block ∈ completion.intoBlocks, Made block := by
  intro block hblock
  obtain ⟨part, _, rfl⟩ := List.mem_map.mp hblock
  exact made_toBlock part

theorem made_forbiddenResults (completion : Completion) :
    ∀ block ∈ TurnState.forbiddenResults completion, Made block := by
  intro block hblock
  unfold TurnState.forbiddenResults at hblock
  split at hblock
  · cases hblock
  · obtain ⟨call, _, rfl⟩ := List.mem_map.mp hblock
    trivial

theorem made_cancelledResults (kept : List Partial) :
    ∀ block ∈ kept.map Partial.toBlock ++ TurnState.cancelledResults kept, Made block := by
  intro block hblock
  rcases List.mem_append.mp hblock with hblock | hblock
  · obtain ⟨part, _, rfl⟩ := List.mem_map.mp hblock
    exact made_partial part
  · obtain ⟨call, _, rfl⟩ := List.mem_map.mp hblock
    trivial

theorem made_resultBlocks (outcomes : List Finished) :
    ∀ block ∈ TurnState.resultBlocks outcomes, Made block := by
  intro block hblock
  obtain ⟨finished, _, rfl⟩ := List.mem_map.mp hblock
  trivial

theorem inputReady_of_made {state : TurnState} {out : Action × TurnState} {blocks : List Block}
    {displays : List ResultDisplay} (hgrown : state.Grown blocks displays out)
    (hmade : ∀ block ∈ blocks, Made block) : InputReady out [] where
  settled := hgrown.settled
  sourced := by
    intro commit hcommit
    rw [Sourced, if_pos rfl, (hgrown.commit_eq commit hcommit).2.1]
    exact hmade
  silent := fun _ => rfl

theorem inputReady_of_input {state : TurnState} {out : Action × TurnState} {input : List Block}
    (hgrown : state.Grown input [] out) : InputReady out input where
  settled := hgrown.settled
  sourced := by
    intro commit hcommit
    have hblocks := (hgrown.commit_eq commit hcommit).2.1
    unfold Sourced
    split
    · next hinput =>
      rw [hblocks, hinput]
      exact fun block hblock => nomatch hblock
    · exact hblocks
  silent := fun hnone => hgrown.silent hnone

theorem ungiven_footing (Kind : Await → Prop) (hinbox : ∀ held, ¬ Kind ⟨held, .inbox⟩)
    (hsave : ∀ held commit, ¬ Kind ⟨held, .save commit⟩) :
    Footing inputContract (fun given given' => given' = given) Ungiven Kind where
  refl := fun _ => rfl
  trans := fun h h' => h'.trans h
  stands := fun h hs => h.trans hs
  allowed := by
    rintro given ⟨held, wait⟩ hs ha
    cases wait with
    | save commit => exact absurd ha (hsave held commit)
    | inbox => exact absurd ha (hinbox held)
    | openReply => exact hs
    | _ => trivial
  same := by
    rintro given ⟨held, wait⟩ reply _ ha rfl
    cases wait with
    | inbox => exact absurd ha (hinbox held)
    | save commit => exact absurd ha (hsave held commit)
    | _ => rfl

theorem input_invariant (parts : TurnParts) :
    TurnInvariant parts inputContract (fun given given' => given' = given) Ungiven
      (fun _ => Ungiven) (fun _ => Ungiven) (fun _ _ => True) False (fun _ _ _ => True)
      InputReady (fun _ _ => True) (fun _ _ _ => True) where
  hearing := {
    asks := ungiven_footing _ (fun _ h => h) (fun _ _ h => h)
    silence := fun hs => hs
    finish := by
      rintro _ held rfl
      refine ⟨trivial, ?_⟩
      rintro reply _ rfl
      cases reply <;> rfl
    cancel := by
      rintro _ held rfl
      refine ⟨trivial, ?_⟩
      rintro reply _ rfl
      rfl
    show_cancel := by
      rintro _ held blocks shown rfl
      refine ⟨trivial, ?_⟩
      rintro reply _ rfl
      rfl }
  works := fun _ => ungiven_footing _ (fun _ h => h) (fun _ _ h => h)
  outcomes := {
    same := fun _ _ => trivial
    record := fun _ => trivial
    keep := fun _ h => h.elim }
  settled := fun hready => hready.settled
  plan_before := fun _ => trivial
  plan_retry := fun _ => trivial
  replace := by
    rintro _ state plan replaced _ rfl _ _
    refine ⟨?_, ?_⟩
    · change Sourced [] (parts.journaled (state.replace replaced).1)
      rw [Sourced, if_pos rfl, journaled_blocks]
      exact fun block hblock => nomatch hblock
    · rintro reply _ rfl
      rcases reply with error | _
      · trivial
      · rfl
  save := by
    rintro given action state commit hready hcommit
    refine ⟨?_, ?_⟩
    · have hsourced := hready.sourced commit hcommit
      change Sourced given (parts.journaled commit)
      rw [Sourced, journaled_blocks]
      exact hsourced
    · rintro reply _ rfl
      rcases reply with error | _
      · trivial
      · cases action with
        | send | afterRound | callTools => rfl
        | done => trivial
  silent := fun hready hnone => hready.silent hnone
  answered := by
    rintro _ state completion origin hsettled rfl
    refine inputReady_of_made (TurnState.modelFinished_grown hsettled completion origin) ?_
    intro block hblock
    rcases List.mem_append.mp hblock with hblock | hblock
    · exact made_intoBlocks completion block hblock
    · exact made_forbiddenResults completion block hblock
  cancelled := by
    rintro _ state partials hsettled rfl
    exact inputReady_of_made (TurnState.modelCancelled_grown hsettled partials)
      (made_cancelledResults partials)
  ended := by
    rintro _ state result hsettled rfl
    exact inputReady_of_made (TurnState.ended_grown hsettled result) fun _ h => nomatch h
  inbox := by
    rintro _ state hsettled rfl
    refine ⟨rfl, ?_⟩
    rintro reply _ rfl
    rcases reply with error | input
    · exact inputReady_of_made (TurnState.fail_grown hsettled _) fun _ h => nomatch h
    · exact inputReady_of_input (TurnState.proceed_grown hsettled input)
  finished := by
    rintro _ state blocks outcomes hsettled rfl _
    exact ⟨inputReady_of_made (TurnState.toolsFinished_grown hsettled outcomes)
        (made_resultBlocks outcomes),
      inputReady_of_made (TurnState.toolsCancelled_grown hsettled outcomes)
        (made_resultBlocks outcomes)⟩

theorem run_holds_input (parts : TurnParts) (fuel : Nat) (start input : List Block)
    (inputTokens : Option Nat) :
    (parts.run fuel start inputTokens input).Holds inputContract
      (TurnPost (fun _ _ => True) fun _ _ _ => True) input :=
  carryOut_holds (input_invariant parts) fuel fuel false
    (inputReady_of_input
      (TurnState.send_grown (TurnState.Settled.new start inputTokens) input))

end Yuke.Engine
