import Yuke.Engine.DriveRules

/-!
# Commits replay to the context

An observer of a whole turn keeps a ledger: the commits that were saved, and the calls that
finished since the newest of them. Each request and each call finds the whole context in the
ledger.
-/

set_option autoImplicit false

namespace Yuke.Engine

open Yuke.Ai Yuke.Shared

/-- The saved commits of a turn, the calls that finished after the newest one, and the input that
the turn took after it. -/
structure Ledger where
  saved : List Commit
  finished : List (Nat × Finished)
  taken : List Block

namespace Ledger

def commitSaved (ledger : Ledger) (commit : Commit) : Ledger where
  saved := ledger.saved ++ [commit]
  finished := []
  taken := []

def callFinished (ledger : Ledger) (blockIndex : Nat) (finished : Finished) : Ledger :=
  { ledger with finished := ledger.finished ++ [(blockIndex, finished)] }

def inputTaken (ledger : Ledger) (input : List Block) : Ledger :=
  { ledger with taken := ledger.taken ++ input }

def record (ledger : Ledger) (a : Await) (reply : a.Reply) : Ledger :=
  match a, reply with
  | ⟨_, .save commit⟩, reply =>
    match reply with
    | .ok () => ledger.commitSaved commit
    | .error _ => ledger
  | ⟨_, .inbox⟩, reply =>
    match reply with
    | .ok input => ledger.inputTaken input
    | .error _ => ledger
  | ⟨_, .event (.toolFinished blockIndex result display duration)⟩, _ =>
    ledger.callFinished blockIndex ⟨⟨result, display⟩, duration⟩
  | _, _ => ledger

def newest (ledger : Ledger) : List Block := (ledger.saved.getLast?.map Commit.blocks).getD []

end Ledger

/-- The positions of the tool calls among `blocks`. -/
def callPositions (blocks : List Block) : List Nat :=
  blocks.zipIdx.filterMap fun
    | (.toolCall _, blockIndex) => some blockIndex
    | _ => none

/-- Each display of the commit stands at the block that it shows. A call display shows the hints of
the call at its block. A result display shows the outcome of the call that stands at the same place
among the calls of the answer commit before it. -/
structure Placed (parts : TurnParts) (ledger : Ledger) (commit : Commit) : Prop where
  calls : ∀ display ∈ commit.display.calls, ∃ call,
    commit.blocks[display.blockIndex]? = some (.toolCall call) ∧
    display.hints = parts.tools.hintsOf (parts.resolve display.blockIndex call).call.name ∧
    display.folder = parts.tools.folder
  results : ∀ display ∈ commit.display.results, ∃ finished callIndex,
    commit.blocks[display.blockIndex]? = some (.toolResult finished.outcome.result) ∧
    display.blocks = finished.outcome.display ∧
    display.durationMs = finished.duration.map (min u64Max) ∧
    (callPositions ledger.newest)[display.blockIndex]? = some callIndex ∧
    (callIndex, finished) ∈ ledger.finished

def Ledger.Stands (start : List Block) (ledger : Ledger) (held : List Block) : Prop :=
  replay start ledger.saved = held ∧ ledger.taken = []

/-- What each wait of a turn needs of the ledger, for a turn that started on `start`. -/
def ledgerContract (parts : TurnParts) (start : List Block) :
    Contract Await Await.Reply Ledger where
  allowed ledger a :=
    match a.wait with
    | .save commit =>
      commit.apply (replay start ledger.saved) = a.held ∧ Placed parts ledger commit ∧
        ledger.taken <+: commit.blocks
    | .openReply request => request.blocks = a.held ∧ replay start ledger.saved = a.held
    | .inbox => ledger.Stands start a.held
    | _ => replay start ledger.saved = a.held
  answers ledger a reply ledger' := ledger' = ledger.record a reply

def Ledger.Same (ledger ledger' : Ledger) : Prop :=
  ledger'.saved = ledger.saved ∧ ledger'.taken = ledger.taken ∧
    ledger.finished ⊆ ledger'.finished

def Ledger.Calling (start blocks : List Block) (ledger : Ledger) (held : List Block) : Prop :=
  ledger.Stands start held ∧ ledger.newest = blocks

structure Ledger.Ready (parts : TurnParts) (start : List Block) (out : Action × TurnState)
    (ledger : Ledger) : Prop where
  settled : out.2.Settled
  commit : ∀ commit, out.1.commit? = some commit →
    commit.apply (replay start ledger.saved) = out.2.context ∧ ledger.taken <+: commit.blocks ∧
      Placed parts ledger commit
  silent : out.1.commit? = none → ledger.Stands start out.2.context

section

variable {parts : TurnParts} {start held : List Block} {ledger ledger' : Ledger}

theorem Ledger.same_refl (ledger : Ledger) : ledger.Same ledger :=
  ⟨rfl, rfl, List.Subset.refl _⟩

theorem Ledger.Same.trans {ledger'' : Ledger} (h : ledger.Same ledger')
    (h' : ledger'.Same ledger'') : ledger.Same ledger'' :=
  ⟨h'.1.trans h.1, h'.2.1.trans h.2.1, List.Subset.trans h.2.2 h'.2.2⟩

theorem Ledger.Same.stands (h : ledger.Same ledger') (hs : ledger.Stands start held) :
    ledger'.Stands start held := by
  unfold Stands at hs ⊢
  rw [h.1, h.2.1]
  exact hs

theorem Ledger.Same.newest (h : ledger.Same ledger') : ledger'.newest = ledger.newest := by
  unfold Ledger.newest
  rw [h.1]

theorem asks_same {a : Await} {reply : a.Reply} (ha : a.Asks) :
    ledger.Same (ledger.record a reply) := by
  obtain ⟨held, wait⟩ := a
  cases wait with
  | save | inbox => cases ha
  | event event =>
    cases event with
    | toolStarted | toolFinished => cases ha
    | _ => exact ledger.same_refl
  | _ => exact ledger.same_refl

theorem works_same {a : Await} {reply : a.Reply} (ha : a.Works) :
    ledger.Same (ledger.record a reply) := by
  obtain ⟨held, wait⟩ := a
  cases wait with
  | save | inbox => cases ha
  | event event =>
    cases event with
    | toolFinished => exact ⟨rfl, rfl, List.subset_append_left _ _⟩
    | _ => exact ledger.same_refl
  | _ => exact ledger.same_refl

theorem ledger_asks (parts : TurnParts) (start : List Block) :
    Footing (ledgerContract parts start) Ledger.Same (Ledger.Stands start) Await.Asks where
  refl := Ledger.same_refl
  trans := Ledger.Same.trans
  stands := Ledger.Same.stands
  same := by
    rintro ledger a reply _ ha rfl
    exact asks_same ha
  allowed := by
    rintro ledger ⟨held, wait⟩ hs ha
    cases wait with
    | openReply request => exact ⟨ha, hs.1⟩
    | save | inbox => cases ha
    | _ => exact hs.1

theorem ledger_hearing (parts : TurnParts) (start : List Block) :
    Hearing (ledgerContract parts start) Ledger.Same (Ledger.Stands start)
      (fun _ => Ledger.Stands start) where
  asks := ledger_asks parts start
  silence := fun hs => hs
  finish := by
    intro ledger held hs
    refine ⟨hs.1, ?_⟩
    rintro reply _ rfl
    rcases reply with error | completion
    · exact Ledger.same_refl _
    · exact hs
  cancel := by
    intro ledger held hs
    refine ⟨hs.1, ?_⟩
    rintro blocks _ rfl
    exact hs
  show_cancel := by
    intro ledger held blocks shown hs
    refine ⟨hs.1, ?_⟩
    rintro _ _ rfl
    exact hs

theorem ledger_works (parts : TurnParts) (start blocks : List Block) :
    Footing (ledgerContract parts start) Ledger.Same (Ledger.Calling start blocks)
      Await.Works where
  refl := Ledger.same_refl
  trans := Ledger.Same.trans
  stands := fun h hs => ⟨h.stands hs.1, h.newest.trans hs.2⟩
  same := by
    rintro ledger a reply _ ha rfl
    exact works_same ha
  allowed := by
    rintro ledger ⟨held, wait⟩ hs ha
    cases wait with
    | save | inbox | openReply => cases ha
    | _ => exact hs.1.1

theorem ledger_outcomes (parts : TurnParts) (start : List Block) :
    Outcomes (ledgerContract parts start) Ledger.Same False
      (fun blockIndex finished ledger => (blockIndex, finished) ∈ ledger.finished) where
  same := fun h hmem => h.2.2 hmem
  record := by
    rintro ledger _ held blockIndex finished rfl
    exact List.mem_append_right _ (List.mem_singleton.mpr rfl)
  keep := fun _ h => h.elim

theorem placed_of_no_display {commit : Commit} (h : commit.display = {}) :
    Placed parts ledger commit where
  calls := by simp [h]
  results := by simp [h]

theorem resolveCalls_positions (parts : TurnParts) (blocks : List Block) :
    (parts.resolveCalls blocks).map (fun resolved => resolved.blockIndex)
      = callPositions blocks := by
  unfold TurnParts.resolveCalls callPositions
  rw [List.map_filterMap]
  refine List.filterMap_congr ?_
  rintro ⟨block, blockIndex⟩ _
  cases block with
  | toolCall call => simp [(resolve_refuses parts blockIndex call).2.2]
  | _ => rfl

theorem placed_outcomes {outcomes : List Finished} {commit : Commit}
    (hblocks : commit.blocks = TurnState.resultBlocks outcomes)
    (hdisplay : commit.display = { results := TurnState.displaysFrom 0 outcomes })
    (hanswers : List.Forall₂ (fun resolved finished => (resolved.blockIndex, finished) ∈
      ledger.finished) (parts.resolveCalls ledger.newest) outcomes) :
    Placed parts ledger commit where
  calls := by simp [hdisplay]
  results := by
    intro display hmem
    rw [hdisplay] at hmem
    obtain ⟨k, finished, hget, hindex, hshown, hduration⟩ := TurnState.mem_displaysFrom hmem
    rw [Nat.zero_add] at hindex
    obtain ⟨hk, hfinished⟩ := List.getElem?_eq_some_iff.mp hget
    have hlen := hanswers.length_eq
    have hat := (List.forall₂_iff_get.mp hanswers).2 k (by omega) hk
    refine ⟨finished, ((parts.resolveCalls ledger.newest).get ⟨k, by omega⟩).blockIndex,
      ?_, hshown, hduration, ?_, ?_⟩
    · rw [hblocks, hindex, TurnState.resultBlocks, List.getElem?_map, hget]
      rfl
    · rw [← resolveCalls_positions parts, hindex, List.getElem?_map,
        List.getElem?_eq_getElem (by omega)]
      rfl
    · simpa [hfinished] using hat

theorem callDisplay_spec {display : CallDisplay} {blocks : List Block}
    (hmem : display ∈ parts.callDisplay blocks) : ∃ call,
      blocks[display.blockIndex]? = some (.toolCall call) ∧
      display.hints = parts.tools.hintsOf (parts.resolve display.blockIndex call).call.name ∧
      display.folder = parts.tools.folder := by
  obtain ⟨⟨block, blockIndex⟩, hblock, hdisplay⟩ := List.mem_filterMap.mp hmem
  cases block with
  | toolCall call =>
    simp only [Option.some.injEq] at hdisplay
    subst hdisplay
    refine ⟨call, ?_, rfl, rfl⟩
    simpa using List.mem_zipIdx_iff_getElem?.mp hblock
  | userText | media | toolResult | assistantText | reasoning => cases hdisplay

theorem placed_journaled {commit : Commit} (h : Placed parts ledger commit) :
    Placed parts ledger (parts.journaled commit) := by
  unfold TurnParts.journaled
  split
  · exact h
  · exact ⟨fun display hmem => callDisplay_spec hmem, h.results⟩

/-! ## The steps of a turn -/

theorem ready_of_grown {state : TurnState} {out : Action × TurnState} {blocks : List Block}
    {displays : List ResultDisplay} (hsaved : replay start ledger.saved = state.context)
    (hgrown : state.Grown blocks displays out) (htaken : ledger.taken <+: blocks)
    (hplaced : ∀ commit : Commit, commit.blocks = blocks →
      commit.display = { results := displays } → Placed parts ledger commit) :
    Ledger.Ready parts start out ledger where
  settled := hgrown.settled
  commit := by
    intro commit hcommit
    obtain ⟨hreplaced, hblocks, hdisplay⟩ := hgrown.commit_eq commit hcommit
    refine ⟨?_, hblocks ▸ htaken, hplaced commit hblocks hdisplay⟩
    rw [Commit.apply_of_not_replaced hreplaced, hblocks, hsaved, hgrown.context_eq]
  silent := by
    intro hnone
    have hblocks := hgrown.silent hnone
    rw [hblocks] at htaken
    refine ⟨?_, List.prefix_nil.mp htaken⟩
    rw [hsaved, hgrown.context_eq, hblocks, List.append_nil]

theorem ready_of_quiet_grown {state : TurnState} {out : Action × TurnState}
    {blocks : List Block} (hs : ledger.Stands start state.context)
    (hgrown : state.Grown blocks [] out) : Ledger.Ready parts start out ledger :=
  ready_of_grown hs.1 hgrown (hs.2 ▸ List.nil_prefix)
    fun _ _ hdisplay => placed_of_no_display hdisplay

theorem save_ready {commit : Commit} (happly : commit.apply (replay start ledger.saved) = held)
    (htaken : ledger.taken <+: commit.blocks) (hplaced : Placed parts ledger commit) :
    (parts.save held commit).Holds (ledgerContract parts start)
      (fun saved ledger' => saved = .ok () →
        ledger'.Stands start held ∧ ledger'.newest = commit.blocks) ledger := by
  refine ⟨⟨?_, placed_journaled hplaced, by simpa using htaken⟩, ?_⟩
  · rw [journaled_apply]
    exact happly
  · rintro reply _ rfl
    rcases reply with error | _
    · intro hsaved
      cases hsaved
    · intro _
      refine ⟨⟨?_, rfl⟩, ?_⟩
      · simp only [Ledger.record, Ledger.commitSaved, replay_append_singleton]
        rw [journaled_apply]
        exact happly
      · simp [Ledger.record, Ledger.commitSaved, Ledger.newest]

theorem ledger_invariant (parts : TurnParts) (start : List Block) :
    TurnInvariant parts (ledgerContract parts start) Ledger.Same (Ledger.Stands start)
      (fun _ => Ledger.Stands start) (Ledger.Calling start) (fun _ _ => True) False
      (fun blockIndex finished ledger => (blockIndex, finished) ∈ ledger.finished)
      (Ledger.Ready parts start) (fun _ _ => True)
      (fun _ ledger held => ledger.Stands start held) where
  hearing := ledger_hearing parts start
  works := ledger_works parts start
  outcomes := ledger_outcomes parts start
  settled := fun hready => hready.settled
  plan_before := fun _ => trivial
  plan_retry := fun _ => trivial
  replace := by
    intro ledger state plan replaced _ hs _ _
    have happly : (state.replace replaced).1.apply (replay start ledger.saved)
        = (state.replace replaced).2.context := by
      rw [hs.1]
      exact TurnState.replace_apply state replaced
    have htaken : ledger.taken <+: (state.replace replaced).1.blocks := by
      rw [hs.2]
      exact List.nil_prefix
    refine (save_ready happly htaken (placed_of_no_display rfl)).mono ?_
    intro saved ledger' hsaved
    rcases saved with error | _
    · trivial
    · exact (hsaved rfl).1
  save := by
    intro ledger action state commit hready hcommit
    obtain ⟨happly, htaken, hplaced⟩ := hready.commit commit hcommit
    refine (save_ready happly htaken hplaced).mono ?_
    intro saved ledger' hsaved
    rcases saved with error | _
    · trivial
    · obtain ⟨hstands, hnewest⟩ := hsaved rfl
      cases action with
      | callTools => exact ⟨hstands, hnewest⟩
      | send | afterRound | done => exact hstands
  silent := fun hready hnone => hready.silent hnone
  answered := fun completion origin hsettled hs =>
    ready_of_quiet_grown hs (TurnState.modelFinished_grown hsettled completion origin)
  cancelled := fun partials hsettled hs =>
    ready_of_quiet_grown hs (TurnState.modelCancelled_grown hsettled partials)
  ended := fun result hsettled hs =>
    ready_of_quiet_grown hs (TurnState.ended_grown hsettled result)
  inbox := by
    intro ledger state hsettled hs
    refine ⟨hs, ?_⟩
    rintro reply _ rfl
    rcases reply with error | input
    · exact ready_of_quiet_grown hs (TurnState.fail_grown hsettled _)
    · refine ready_of_grown hs.1 (TurnState.proceed_grown hsettled input) ?_
        fun _ _ hdisplay => placed_of_no_display hdisplay
      simp [Ledger.record, Ledger.inputTaken, hs.2]
  finished := by
    intro ledger state blocks outcomes hsettled hcalling hanswers
    obtain ⟨hs, hnewest⟩ := hcalling
    rw [← hnewest] at hanswers
    have hrecorded := hanswers.imp fun _ _ h => h.1
    have htaken : ledger.taken <+: TurnState.resultBlocks outcomes := by
      rw [hs.2]
      exact List.nil_prefix
    constructor
    · exact ready_of_grown hs.1 (TurnState.toolsFinished_grown hsettled outcomes) htaken
        fun _ hblocks hdisplay => placed_outcomes hblocks hdisplay hrecorded
    · exact ready_of_grown hs.1 (TurnState.toolsCancelled_grown hsettled outcomes) htaken
        fun _ hblocks hdisplay => placed_outcomes hblocks hdisplay hrecorded

/-- The ledger of a turn that starts with `input`. -/
def Ledger.ofInput (input : List Block) : Ledger where
  saved := []
  finished := []
  taken := input

theorem run_holds_ledger (parts : TurnParts) (fuel : Nat) (start input : List Block)
    (inputTokens : Option Nat) :
    (parts.run fuel start inputTokens input).Holds (ledgerContract parts start)
      (TurnPost (fun _ _ => True) (fun _ ledger held => ledger.Stands start held))
      (Ledger.ofInput input) := by
  refine carryOut_holds (ledger_invariant parts start) fuel fuel false ?_
  have hgrown := TurnState.send_grown (TurnState.Settled.new start inputTokens) input
  refine ready_of_grown rfl hgrown ?_ fun _ _ hdisplay => placed_of_no_display hdisplay
  exact List.prefix_rfl

end

/-- The replayed ledger agrees with a turn where its run stands. A commit turns the replayed context
into the held one, and each other wait finds the whole context in saved commits. -/
def Replayed (parts : TurnParts) (start : List Block) (ledger : Ledger) :
    Driving (Except TurnError Outcome × List Block) → Prop
  | .call ⟨held, .save commit⟩ _ =>
    replay start (ledger.saved ++ [commit]) = held ∧ Placed parts ledger commit
  | .call ⟨held, .openReply request⟩ _ =>
    request.blocks = held ∧ replay start ledger.saved = held
  | .call ⟨held, _⟩ _ => replay start ledger.saved = held
  | .done (.error (.commit _), _) => True
  | .done (_, context) => replay start ledger.saved = context
  | .cut => True

/-- At each point of each run of a turn, the saved commits replay to the context of the turn. -/
theorem commits_replay (parts : TurnParts) (fuel : Nat) (start input : List Block)
    (inputTokens : Option Nat) {trace : List ((a : Await) × a.Reply)} {ledger : Ledger}
    {rest : Driving (Except TurnError Outcome × List Block)}
    (hrun : Program.Run (fun ledger a reply ledger' => ledger' = ledger.record a reply)
      (parts.run fuel start inputTokens input) (Ledger.ofInput input) trace rest ledger) :
    Replayed parts start ledger rest := by
  have hrest := (run_holds_ledger parts fuel start input inputTokens).run hrun
  cases rest with
  | cut => trivial
  | done out =>
    obtain ⟨result, context⟩ := out
    rcases result with (error | error) | outcome
    · exact hrest.1
    · trivial
    · exact hrest.1
  | call a next =>
    obtain ⟨held, wait⟩ := a
    have hallowed := hrest.1
    cases wait with
    | save commit =>
      refine ⟨?_, hallowed.2.1⟩
      rw [replay_append_singleton]
      exact hallowed.1
    | inbox => exact hallowed.1
    | _ => exact hallowed

def plainParts : TurnParts where
  model := ⟨⟨"model", { baseUrl := "https://host/v1" }, .openaiChat {}, false⟩, ⟨0⟩, none⟩
  toolset := none
  search := ⟨fun _ => .error "", fun _ => .error "", fun _ _ _ => []⟩
  system := ""
  settings := {}
  sessionId := none
  blobStore := none

def helloCompletion : Completion where
  content := [.text "hello"]
  finishReason := .stop
  rawFinishReason := "stop"
  usage := {}

def helloRun : List ((a : Await) × a.Reply) ×
    Driving (Except TurnError Outcome × List Block) × Ledger :=
  (plainParts.run 3 [] none [.userText "hi"]).follow
    (fun ledger a => (calmReply helloCompletion a, ledger.record a (calmReply helloCompletion a)))
    20 (Ledger.ofInput [.userText "hi"])

theorem commits_replay_hello :
    helloRun.2.1 = .done (.ok (.completed .stop), [.userText "hi", .assistantText "hello"]) ∧
      Replayed plainParts [] helloRun.2.2 helloRun.2.1 :=
  ⟨rfl, commits_replay plainParts 3 [] [.userText "hi"] none
    (Program.run_follow (fun _ _ => rfl) 20 _ _)⟩

end Yuke.Engine
