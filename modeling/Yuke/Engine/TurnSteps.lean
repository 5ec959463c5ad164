import Yuke.Engine.TurnState

/-!
# What each step of a turn state does

Between two waits of the driver a turn state is settled: its commits cover the whole context, and
it keeps no display. Each step grows a settled state by some blocks, and the commit of its action
holds exactly these blocks.
-/

set_option autoImplicit false

namespace Yuke.Engine

open Yuke.Ai

def Action.commit? : Action → Option Commit
  | .send commit => commit
  | .callTools commit | .afterRound _ _ commit | .done commit _ => some commit

namespace TurnState

structure Settled (state : TurnState) : Prop where
  saved_eq : state.saved = state.context.length
  results_eq : state.results = []

/-- The step added `blocks` to the context, and its commit holds them with `displays`. -/
structure Grown (state : TurnState) (blocks : List Block) (displays : List ResultDisplay)
    (out : Action × TurnState) : Prop where
  context_eq : out.2.context = state.context ++ blocks
  settled : out.2.Settled
  commit_eq : ∀ commit, out.1.commit? = some commit →
    commit.replaced = none ∧ commit.blocks = blocks ∧ commit.display = { results := displays }
  silent : out.1.commit? = none → blocks = []

/-- The display of the outcomes whose first result stands at `start` in the commit. -/
def displaysFrom (start : Nat) : List Finished → List ResultDisplay
  | [] => []
  | finished :: rest =>
    (if !finished.outcome.display.isEmpty || finished.duration.isSome then
      [{ blockIndex := start
         blocks := finished.outcome.display
         durationMs := finished.duration.map (min u64Max) }]
    else []) ++ displaysFrom (start + 1) rest

def resultBlocks (outcomes : List Finished) : List Block :=
  outcomes.map fun finished => .toolResult finished.outcome.result

variable {state : TurnState}

theorem Settled.new (context : List Block) (inputTokens : Option Nat) :
    (TurnState.new context inputTokens).Settled := ⟨rfl, rfl⟩

theorem Settled.replace (h : state.Settled) (replaced : Replaced) :
    (state.replace replaced).2.Settled := ⟨rfl, h.results_eq⟩

theorem replace_apply (state : TurnState) (replaced : Replaced) :
    (state.replace replaced).1.apply state.context = (state.replace replaced).2.context := by
  simp only [replace, Commit.apply, Replaced.apply, List.append_nil]
  rw [List.take_left]
  congr 2
  rw [List.length_append, List.length_drop]
  omega

@[simp] theorem extend_context (state : TurnState) (blocks : List Block) :
    (state.extend blocks).context = state.context ++ blocks := rfl

@[simp] theorem extend_saved (state : TurnState) (blocks : List Block) :
    (state.extend blocks).saved = state.saved := rfl

@[simp] theorem extend_results (state : TurnState) (blocks : List Block) :
    (state.extend blocks).results = state.results := rfl

theorem unsaved_of_grown {base : TurnState} (h : base.Settled) {blocks : List Block}
    (hcontext : state.context = base.context ++ blocks) (hsaved : state.saved = base.saved) :
    state.unsaved = blocks := by
  unfold unsaved
  rw [hcontext, hsaved, h.saved_eq, List.drop_left]

theorem grown_of_commit {base : TurnState} (h : base.Settled) {blocks : List Block}
    (hcontext : state.context = base.context ++ blocks) (hsaved : state.saved = base.saved)
    (action : Action) {commit : Commit} (haction : action.commit? = some commit)
    (hreplaced : commit.replaced = none) (hblocks : commit.blocks = state.unsaved)
    (hdisplay : commit.display = { results := state.results }) :
    Grown base blocks state.results (action, state.takeUnsaved.takeResults) where
  context_eq := hcontext
  settled := ⟨rfl, rfl⟩
  commit_eq := by
    intro other hother
    rw [haction] at hother
    cases hother
    exact ⟨hreplaced, hblocks.trans (unsaved_of_grown h hcontext hsaved), hdisplay⟩
  silent := by
    intro hnone
    rw [haction] at hnone
    cases hnone

theorem afterRound_grown {base : TurnState} (h : base.Settled) (state : TurnState)
    (blocks : List Block) (hcontext : state.context = base.context ++ blocks) (hsaved : state.saved = base.saved)
    (answer : Option Answer) : Grown base blocks state.results (state.afterRound answer) :=
  grown_of_commit h hcontext hsaved _ rfl rfl rfl rfl

theorem done_grown {base : TurnState} (h : base.Settled) (state : TurnState)
    (blocks : List Block) (hcontext : state.context = base.context ++ blocks) (hsaved : state.saved = base.saved)
    (result : Except RoundError Outcome) : Grown base blocks state.results (state.done result) :=
  grown_of_commit h hcontext hsaved _ rfl rfl rfl rfl

theorem ended_grown (h : state.Settled) (result : Except RoundError Outcome) :
    Grown state [] [] (state.done result) := by
  have := done_grown h state [] (by simp) rfl result
  rwa [h.results_eq] at this

theorem stop_grown (h : state.Settled) : Grown state [] [] state.stop := by
  unfold stop
  split
  · exact ended_grown h _
  · exact ended_grown h _

theorem fail_grown (h : state.Settled) (error : RoundError) :
    Grown state [] [] (state.fail error) := ended_grown h _

theorem send_grown (h : state.Settled) (input : List Block) :
    Grown state input [] (state.send input) := by
  have hunsaved : (({ state with turnEnd := none } : TurnState).extend input).unsaved = input :=
    unsaved_of_grown h rfl rfl
  refine ⟨rfl, ⟨rfl, h.results_eq⟩, ?_, ?_⟩
  · intro commit hcommit
    simp only [send, TurnState.commit, Action.commit?] at hcommit
    split at hcommit
    · cases hcommit
      exact ⟨rfl, hunsaved, rfl⟩
    · cases hcommit
  · intro hnone
    simp only [send, TurnState.commit, Action.commit?, extend_saved, extend_context,
      List.length_append, h.saved_eq] at hnone
    split at hnone
    · cases hnone
    · exact List.eq_nil_of_length_eq_zero (by omega)

theorem proceed_grown (h : state.Settled) (input : List Block) :
    Grown state input [] (state.proceed input) := by
  unfold proceed
  split
  · rename_i hend
    rw [List.isEmpty_iff.mp hend.2]
    exact stop_grown h
  · exact send_grown h input

def forbiddenResults (completion : Completion) : List Block :=
  if completion.finishReason = .toolCalls ∨ completion.finishReason = .stop then []
  else completion.toolCalls.map fun call =>
    .toolResult (notExecuted call (notRunReason completion.finishReason))

theorem modelFinished_grown (h : state.Settled) (completion : Completion) (origin : Origin) :
    Grown state (completion.intoBlocks ++ forbiddenResults completion) []
      (state.modelFinished completion origin) := by
  unfold modelFinished
  by_cases hcalls : completion.toolCalls.isEmpty
  · simp only [hcalls, if_true]
    have hnone : forbiddenResults completion = [] := by
      simp [forbiddenResults, List.isEmpty_iff.mp hcalls]
    rw [hnone, List.append_nil]
    have := afterRound_grown h
      { ({ state with inputTokens := completion.usage.input } : TurnState).extend
        completion.intoBlocks with turnEnd := some completion.finishReason }
      completion.intoBlocks rfl rfl (some ⟨origin, completion.usage, completion.finishReason⟩)
    simpa [h.results_eq] using this
  · by_cases hruns : completion.finishReason = .toolCalls ∨ completion.finishReason = .stop
    · simp only [hcalls, hruns, if_true, if_false, Bool.false_eq_true]
      have hnone : forbiddenResults completion = [] := by simp [forbiddenResults, hruns]
      rw [hnone, List.append_nil]
      refine ⟨rfl, ⟨rfl, h.results_eq⟩, ?_, ?_⟩
      · intro commit hcommit
        cases hcommit
        exact ⟨rfl, unsaved_of_grown h rfl rfl, rfl⟩
      · intro hnone
        cases hnone
    · simp only [hcalls, hruns, if_false, Bool.false_eq_true]
      have hresults : forbiddenResults completion = completion.toolCalls.map fun call =>
          .toolResult (notExecuted call (notRunReason completion.finishReason)) := by
        simp [forbiddenResults, hruns]
      rw [← hresults]
      split
      · have := afterRound_grown h
          ((({ state with inputTokens := completion.usage.input } : TurnState).extend
            completion.intoBlocks).extend (forbiddenResults completion))
          (completion.intoBlocks ++ forbiddenResults completion) (by simp) rfl (some ⟨origin, completion.usage, completion.finishReason⟩)
        simpa [h.results_eq] using this
      · have := afterRound_grown h
          { (({ state with inputTokens := completion.usage.input } : TurnState).extend
            completion.intoBlocks).extend (forbiddenResults completion) with
              turnEnd := some completion.finishReason }
          (completion.intoBlocks ++ forbiddenResults completion) (by simp) rfl (some ⟨origin, completion.usage, completion.finishReason⟩)
        simpa [h.results_eq] using this

def cancelledResults (kept : List Partial) : List Block :=
  (toolCallsOf (kept.map Partial.toBlock)).map fun call =>
    .toolResult (notExecuted call cancelledReason)

theorem modelCancelled_grown (h : state.Settled) (kept : List Partial) :
    Grown state (kept.map Partial.toBlock ++ cancelledResults kept) []
      (state.modelCancelled kept) := by
  have := done_grown h
    ((state.extend (kept.map Partial.toBlock)).extend (cancelledResults kept))
    (kept.map Partial.toBlock ++ cancelledResults kept) (by simp) rfl (.ok .cancelled)
  rw [extend_results, extend_results, h.results_eq] at this
  exact this

theorem addOutcomes_spec (outcomes : List Finished) (state : TurnState) :
    (state.addOutcomes outcomes).context = state.context ++ resultBlocks outcomes ∧
    (state.addOutcomes outcomes).saved = state.saved ∧
    (state.addOutcomes outcomes).results =
      state.results ++ displaysFrom (state.context.length - state.saved) outcomes := by
  induction outcomes generalizing state with
  | nil => simp [addOutcomes, resultBlocks, displaysFrom]
  | cons finished rest ih =>
    obtain ⟨hcontext, hsaved, hresults⟩ := ih (state.addOutcome finished)
    have hstep : state.addOutcomes (finished :: rest)
        = (state.addOutcome finished).addOutcomes rest := rfl
    rw [hstep]
    refine ⟨?_, ?_, ?_⟩
    · rw [hcontext]
      simp [addOutcome, resultBlocks]
    · exact hsaved
    · have hle := state.saved_le
      have hat : (state.addOutcome finished).context.length - (state.addOutcome finished).saved
          = state.context.length - state.saved + 1 := by
        simp only [addOutcome, extend_context, extend_saved, List.length_append,
          List.length_singleton]
        omega
      rw [hresults, hat, displaysFrom, ← List.append_assoc]
      congr 1
      simp only [addOutcome, extend_results]
      split
      · rfl
      · simp

theorem addOutcomes_settled (h : state.Settled) (outcomes : List Finished) :
    (state.addOutcomes outcomes).results = displaysFrom 0 outcomes := by
  rw [(addOutcomes_spec outcomes state).2.2, h.results_eq, h.saved_eq]
  simp

theorem toolsFinished_grown (h : state.Settled) (outcomes : List Finished) :
    Grown state (resultBlocks outcomes) (displaysFrom 0 outcomes)
      (state.toolsFinished outcomes) := by
  obtain ⟨hcontext, hsaved, _⟩ := addOutcomes_spec outcomes state
  rw [← addOutcomes_settled h]
  exact afterRound_grown h _ _ hcontext hsaved none

theorem toolsCancelled_grown (h : state.Settled) (outcomes : List Finished) :
    Grown state (resultBlocks outcomes) (displaysFrom 0 outcomes)
      (state.toolsCancelled outcomes) := by
  obtain ⟨hcontext, hsaved, _⟩ := addOutcomes_spec outcomes state
  rw [← addOutcomes_settled h]
  exact done_grown h _ _ hcontext hsaved _

theorem mem_displaysFrom {outcomes : List Finished} {start : Nat} {display : ResultDisplay}
    (hmem : display ∈ displaysFrom start outcomes) :
    ∃ k finished, outcomes[k]? = some finished ∧ display.blockIndex = start + k ∧
      display.blocks = finished.outcome.display ∧
      display.durationMs = finished.duration.map (min u64Max) := by
  induction outcomes generalizing start with
  | nil => simp [displaysFrom] at hmem
  | cons finished rest ih =>
    rw [displaysFrom, List.mem_append] at hmem
    rcases hmem with hmem | hmem
    · split at hmem
      · rw [List.mem_singleton] at hmem
        subst hmem
        exact ⟨0, finished, rfl, rfl, rfl, rfl⟩
      · cases hmem
    · obtain ⟨k, found, hget, hindex, hblocks, hduration⟩ := ih hmem
      exact ⟨k + 1, found, by simpa using hget, by omega, hblocks, hduration⟩

end TurnState

end Yuke.Engine
