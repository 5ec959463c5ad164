import Yuke.Engine.DrivePairing

/-!
# What a cut turn leaves

A turn can stop after each of its commits. At most the calls of the answer at the end of the saved
context are open then, and a commit that ends the turn leaves no call open.
-/

set_option autoImplicit false

namespace Yuke.Engine

open Yuke.Ai Yuke.Shared

def AtMostOpen (context : List Block) : Prop :=
  ∃ before blocks, context = before ++ blocks ∧ Paired before ∧
    ∀ block ∈ blocks, block.role = .assistant

theorem Paired.atMostOpen {context : List Block} (h : Paired context) : AtMostOpen context :=
  ⟨context, [], (List.append_nil context).symm, h, by simp⟩

/-- A commit that a store saves leaves a context that a recovery can close, and the commit of an end
leaves a closed one. -/
structure Closable (context : List Block) (commit : Commit) : Prop where
  cut : AtMostOpen context
  ended : commit.end.isSome → Paired context

structure Chronicle where
  story : Story
  saved : List Commit

def SavedBy (saved : List Commit) (a : Await) (reply : a.Reply) (saved' : List Commit) : Prop :=
  match a, reply with
  | ⟨_, .save commit⟩, reply =>
    match reply with
    | .ok () => saved' = saved ++ [commit]
    | .error _ => saved' = saved ∨ saved' = saved ++ [commit]
  | _, _ => saved' = saved

def TakesPairs (a : Await) (reply : a.Reply) : Prop :=
  match a, reply with
  | ⟨_, .inbox⟩, reply =>
    match reply with
    | .ok input => Paired input
    | .error _ => True
  | _, _ => True

def chronicleAnswers (c : Chronicle) (a : Await) (reply : a.Reply) (c' : Chronicle) : Prop :=
  c'.story = c.story.record a reply ∧ SavedBy c.saved a reply c'.saved ∧ KeepsPairs a reply ∧
    TakesPairs a reply

def chronicleContract (start : List Block) : Contract Await Await.Reply Chronicle where
  allowed c a :=
    match a.wait with
    | .save commit => commit.apply (replay start c.saved) = a.held ∧ Closable a.held commit
    | _ => True
  answers := chronicleAnswers

namespace Chronicle

/-- The saved commits give the context of the turn, and the context tells the story. -/
structure Stands (start : List Block) (c : Chronicle) (held : List Block) : Prop where
  saved : replay start c.saved = held
  told : Told c.story held
  inputs : PairedInputs c.story

structure Hears (start blocks : List Block) (c : Chronicle) (held : List Block) : Prop where
  saved : replay start c.saved = held
  heard : Heard blocks c.story held
  inputs : PairedInputs c.story

structure Calling (start blocks : List Block) (c : Chronicle) (held : List Block) : Prop where
  saved : replay start c.saved = held
  pending : Pending blocks c.story held
  inputs : PairedInputs c.story

structure Ready (start : List Block) (out : Action × TurnState) (c : Chronicle) : Prop where
  ready : c.story.Ready out
  inputs : PairedInputs c.story
  commit : ∀ commit, out.1.commit? = some commit →
    commit.apply (replay start c.saved) = out.2.context
  silent : out.1.commit? = none → replay start c.saved = out.2.context
  going : ∀ commit, out.1 = .callTools commit → commit.end = none

end Chronicle

section

variable {start held : List Block} {c c' : Chronicle}

theorem asks_keep_chronicle {a : Await} {reply : a.Reply} (ha : a.Asks)
    (h : chronicleAnswers c a reply c') : c = c' := by
  have hstory := h.1.trans (asks_keep_story ha)
  have hsaved : c'.saved = c.saved := by
    have hby := h.2.1
    obtain ⟨held, wait⟩ := a
    cases wait with
    | save => cases ha
    | _ => exact hby
  cases c
  cases c'
  cases hstory
  cases hsaved
  rfl

theorem works_keep_chronicle {a : Await} {reply : a.Reply} (ha : a.Works)
    (h : chronicleAnswers c a reply c') : c = c' := by
  have hstory := h.1.trans (works_keep_story ha)
  have hsaved : c'.saved = c.saved := by
    have hby := h.2.1
    obtain ⟨held, wait⟩ := a
    cases wait with
    | save => cases ha
    | _ => exact hby
  cases c
  cases c'
  cases hstory
  cases hsaved
  rfl

theorem chronicle_asks (start : List Block) :
    Footing (chronicleContract start) Eq (Chronicle.Stands start) Await.Asks where
  refl := fun _ => rfl
  trans := Eq.trans
  stands := fun h hs => h ▸ hs
  same := fun ha h => asks_keep_chronicle ha h
  allowed := by
    intro c a hs ha
    obtain ⟨held, wait⟩ := a
    cases wait with
    | save => cases ha
    | _ => trivial

theorem chronicle_works (start blocks : List Block) :
    Footing (chronicleContract start) Eq (Chronicle.Calling start blocks) Await.Works where
  refl := fun _ => rfl
  trans := Eq.trans
  stands := fun h hs => h ▸ hs
  same := fun ha h => works_keep_chronicle ha h
  allowed := by
    intro c a hs ha
    obtain ⟨held, wait⟩ := a
    cases wait with
    | save => cases ha
    | _ => trivial

theorem PairedInputs.answer {story : Story} (h : PairedInputs story) (blocks : List Block) :
    PairedInputs (story ++ [.answer blocks]) := by
  intro input hmem
  apply h
  simpa using hmem

theorem chronicle_hearing (start : List Block) :
    Hearing (chronicleContract start) Eq (Chronicle.Stands start) (Chronicle.Hears start) where
  asks := chronicle_asks start
  silence := fun hs => ⟨hs.saved, ⟨by simp, .inl ⟨rfl, hs.told⟩⟩, hs.inputs⟩
  finish := by
    intro c held hs
    refine ⟨trivial, fun reply c' h => ?_⟩
    obtain ⟨hstory, hsaved, _⟩ := h
    cases reply with
    | error error =>
      cases c
      cases c'
      cases hstory
      cases hsaved
      rfl
    | ok completion =>
      refine ⟨hsaved ▸ hs.saved, ⟨intoBlocks_role completion, .inr ⟨c.story, hstory, hs.told⟩⟩, ?_⟩
      rw [hstory]
      exact hs.inputs.answer _
  cancel := by
    intro c held hs
    refine ⟨trivial, fun blocks c' h => ?_⟩
    obtain ⟨hstory, hsaved, _⟩ := h
    refine ⟨hsaved ▸ hs.saved, ⟨?_, .inr ⟨c.story, hstory, hs.told⟩⟩, ?_⟩
    · intro block hblock
      obtain ⟨kept, _, rfl⟩ := List.mem_map.mp hblock
      exact partial_role kept.content
    · rw [hstory]
      exact hs.inputs.answer _
  show_cancel := by
    intro c held blocks shown heard
    refine ⟨trivial, fun _ c' h => ?_⟩
    obtain ⟨hstory, hsaved, _⟩ := h
    cases c
    cases c'
    cases hstory
    cases hsaved
    exact heard

theorem chronicle_outcomes (start : List Block) :
    Outcomes (chronicleContract start) Eq True (fun _ _ _ => True) where
  same := fun _ _ => trivial
  record := fun _ => trivial
  keep := fun h _ => h.2.2.1

/-! ## The steps of a turn -/

theorem Chronicle.ready_of_grown {state : TurnState} {out : Action × TurnState}
    {blocks : List Block} {displays : List ResultDisplay} (hgrown : state.Grown blocks displays out)
    (hsaved : replay start c.saved = state.context) (hready : c.story.Ready out)
    (hinputs : PairedInputs c.story) (hgoing : ∀ commit, out.1 = .callTools commit → commit.end = none) :
    c.Ready start out where
  ready := hready
  inputs := hinputs
  commit := by
    intro commit hcommit
    obtain ⟨hreplaced, hblocks, _⟩ := hgrown.commit_eq commit hcommit
    rw [Commit.apply_of_not_replaced hreplaced, hblocks, hsaved, hgrown.context_eq]
  silent := by
    intro hnone
    rw [hsaved, hgrown.context_eq, hgrown.silent hnone, List.append_nil]
  going := hgoing

theorem Chronicle.ready_of_told {state : TurnState} {out : Action × TurnState}
    {blocks : List Block} {displays : List ResultDisplay} (hgrown : state.Grown blocks displays out)
    (hsaved : replay start c.saved = state.context) (hnot : ∀ commit, out.1 ≠ .callTools commit)
    (htold : Told c.story (state.context ++ blocks)) (hinputs : PairedInputs c.story) :
    c.Ready start out :=
  Chronicle.ready_of_grown hgrown hsaved (Engine.ready_of_told hgrown hnot htold) hinputs
    fun commit h => absurd h (hnot commit)

theorem proceed_not_callTools (state : TurnState) (input : List Block) (commit : Commit) :
    (state.proceed input).1 ≠ .callTools commit := by
  unfold TurnState.proceed TurnState.stop TurnState.done TurnState.send
  split
  · split
    · simp
    · simp
  · simp

theorem modelFinished_going (state : TurnState) (completion : Completion) (origin : Origin)
    (commit : Commit) (h : (state.modelFinished completion origin).1 = .callTools commit) :
    commit.end = none := by
  unfold TurnState.modelFinished at h
  by_cases hcalls : completion.toolCalls.isEmpty
  · simp [hcalls, TurnState.afterRound] at h
  · by_cases hruns : completion.finishReason = .toolCalls ∨ completion.finishReason = .stop
    · simp only [hcalls, hruns, if_true] at h
      cases h
      rfl
    · simp [hcalls, hruns, TurnState.afterRound] at h

theorem Pending.atMostOpen {story : Story} {blocks : List Block} (h : Pending blocks story held)
    (hinputs : PairedInputs story) : AtMostOpen held := by
  obtain ⟨htold, hrole⟩ := h
  refine ⟨_, blocks, rfl, htold.paired ?_, hrole⟩
  intro input hmem
  exact hinputs input (List.mem_append_left _ hmem)

@[simp] theorem journaled_end (parts : TurnParts) (commit : Commit) :
    (parts.journaled commit).end = commit.end := by
  unfold TurnParts.journaled
  split
  · rfl
  · rfl

theorem Chronicle.Ready.closable {out : Action × TurnState} (h : c.Ready start out)
    {commit : Commit} (hcommit : out.1.commit? = some commit) : Closable out.2.context commit := by
  have htold := h.ready.told
  obtain ⟨action, state⟩ := out
  cases action with
  | callTools other =>
    cases hcommit
    refine ⟨htold.atMostOpen h.inputs, fun hend => ?_⟩
    rw [h.going _ rfl] at hend
    cases hend
  | send | afterRound | done =>
    have hpaired := htold.paired h.inputs
    exact ⟨hpaired.atMostOpen, fun _ => hpaired⟩

theorem save_chronicle {parts : TurnParts} {commit : Commit}
    (happly : commit.apply (replay start c.saved) = held) (hclosable : Closable held commit) :
    (parts.save held commit).Holds (chronicleContract start)
      (fun saved c' => c'.story = (if commit.replaced.isSome then [.given held] else c.story) ∧
        (saved = .ok () → replay start c'.saved = held)) c := by
  have happly' : (parts.journaled commit).apply (replay start c.saved) = held := by
    rw [journaled_apply, happly]
  refine ⟨⟨happly', hclosable.cut, by simpa using hclosable.ended⟩, fun reply c' h => ?_⟩
  obtain ⟨hstory, hsaved, _⟩ := h
  have hrecord : c'.story = if commit.replaced.isSome then [.given held] else c.story := by
    rw [hstory, Story.record, journaled_replaced]
  cases reply with
  | error error => exact ⟨hrecord, fun h => by cases h⟩
  | ok =>
    refine ⟨hrecord, fun _ => ?_⟩
    have hsaved' : c'.saved = c.saved ++ [parts.journaled commit] := hsaved
    rw [hsaved', replay_append_singleton, happly']

theorem chronicle_invariant (parts : TurnParts) (start : List Block) :
    TurnInvariant parts (chronicleContract start) Eq (Chronicle.Stands start)
      (Chronicle.Hears start) (Chronicle.Calling start) PairedPlan True (fun _ _ _ => True)
      (fun out c => c.Ready start out) (fun _ _ => True)
      (fun _ => Chronicle.Stands start) where
  hearing := chronicle_hearing start
  works := chronicle_works start
  outcomes := chronicle_outcomes start
  settled := fun hready => hready.ready.settled
  plan_before := fun h => h.2.2.1
  plan_retry := fun h => h.2.2.1
  replace := by
    intro c state plan replaced _ hs hplan hfound
    have hpaired : Paired (state.replace replaced).2.context := hplan replaced hfound
    have happly : (state.replace replaced).1.apply (replay start c.saved) =
        (state.replace replaced).2.context := by
      rw [hs.saved]
      exact TurnState.replace_apply state replaced
    refine (save_chronicle happly ⟨hpaired.atMostOpen, fun _ => hpaired⟩).mono ?_
    intro saved c' h
    cases saved with
    | error => trivial
    | ok =>
      have hstory : c'.story = [.given (state.replace replaced).2.context] := h.1
      refine ⟨h.2 rfl, ?_, ?_⟩
      · rw [hstory]
        exact told_given hpaired
      · rw [hstory]
        intro input hmem
        simp at hmem
  save := by
    intro c action state commit hready hcommit
    have hreplaced := hready.ready.blocks commit hcommit
    refine (save_chronicle (hready.commit commit hcommit) (hready.closable hcommit)).mono ?_
    intro saved c' h
    obtain ⟨hstory, hsaved⟩ := h
    rw [hreplaced] at hstory
    have hstory' : c'.story = c.story := hstory
    have htold := hready.ready.told
    have hinputs : PairedInputs c'.story := hstory' ▸ hready.inputs
    cases saved with
    | error => trivial
    | ok =>
      cases action with
      | callTools other =>
        cases hcommit
        exact ⟨hsaved rfl, hstory' ▸ htold, hinputs⟩
      | send | afterRound | done => exact ⟨hsaved rfl, hstory' ▸ htold, hinputs⟩
  silent := by
    intro c action state hready hnone
    have htold := hready.ready.told
    cases action with
    | send => exact ⟨hready.silent hnone, htold, hready.inputs⟩
    | callTools | afterRound | done => cases hnone
  answered := by
    intro c state completion origin hsettled heard
    refine Chronicle.ready_of_grown (TurnState.modelFinished_grown hsettled completion origin)
      heard.saved (modelFinished_ready hsettled completion origin heard.heard) heard.inputs ?_
    exact modelFinished_going state completion origin
  cancelled := by
    intro c state partials hsettled heard
    refine Chronicle.ready_of_grown (TurnState.modelCancelled_grown hsettled partials)
      heard.saved (modelCancelled_ready hsettled partials heard.heard) heard.inputs ?_
    intro commit
    simp [TurnState.modelCancelled, TurnState.cancel, TurnState.done]
  ended := by
    intro c state result hsettled hs
    refine Chronicle.ready_of_told (TurnState.ended_grown hsettled result) hs.saved ?_ ?_ hs.inputs
    · intro commit
      simp [TurnState.done]
    · simpa using hs.told
  inbox := by
    intro c state hsettled hs
    refine ⟨trivial, fun reply c' h => ?_⟩
    obtain ⟨hstory, hsaved, _, htakes⟩ := h
    have hsaved' : replay start c'.saved = state.context := hsaved ▸ hs.saved
    cases reply with
    | error error =>
      have hstory' : c'.story = c.story := hstory
      refine Chronicle.ready_of_told (TurnState.fail_grown hsettled _) hsaved' ?_ ?_
        (hstory' ▸ hs.inputs)
      · intro commit
        simp [TurnState.fail, TurnState.done]
      · rw [List.append_nil, hstory']
        exact hs.told
    | ok input =>
      have hstory' : c'.story = c.story ++ [.input input] := hstory
      refine Chronicle.ready_of_told (TurnState.proceed_grown hsettled input) hsaved'
        (proceed_not_callTools state input) ?_ ?_
      · rw [hstory']
        exact .input input hs.told
      · rw [hstory']
        intro other hmem
        rcases List.mem_append.mp hmem with hmem | hmem
        · exact hs.inputs other hmem
        · cases List.mem_singleton.mp hmem
          exact htakes
  finished := by
    intro c state blocks outcomes hsettled hcalling hanswers
    have hanswers' : List.Forall₂ (fun resolved finished =>
        Answers True (fun _ _ (_ : Story) => True) resolved finished c.story)
        (parts.resolveCalls blocks) outcomes := hanswers.imp fun _ _ h => h
    have htold := hcalling.pending.told hanswers'
    constructor
    · refine Chronicle.ready_of_told (TurnState.toolsFinished_grown hsettled outcomes)
        hcalling.saved ?_ htold hcalling.inputs
      intro commit
      simp [TurnState.toolsFinished, TurnState.afterRound]
    · refine Chronicle.ready_of_told (TurnState.toolsCancelled_grown hsettled outcomes)
        hcalling.saved ?_ htold hcalling.inputs
      intro commit
      simp [TurnState.toolsCancelled, TurnState.cancel, TurnState.done]

end

def ClosableAfter (start : List Block) (saved : List Commit) : Prop :=
  ∀ front commit, front ++ [commit] <+: saved → Closable (replay start (front ++ [commit])) commit

theorem ClosableAfter.nil (start : List Block) : ClosableAfter start [] := by
  intro front commit h
  simp at h

theorem ClosableAfter.concat {start : List Block} {saved : List Commit} {commit : Commit}
    (h : ClosableAfter start saved) (hcommit : Closable (replay start (saved ++ [commit])) commit) :
    ClosableAfter start (saved ++ [commit]) := by
  intro front other hfront
  rcases List.prefix_concat_iff.mp hfront with heq | hbefore
  · obtain ⟨rfl, hother⟩ := List.append_inj' heq rfl
    cases hother
    exact hcommit
  · exact h front other hbefore

theorem closableAfter_of_saved {start : List Block} {c : Chronicle} {a : Await} {reply : a.Reply}
    {saved : List Commit} (hallowed : (chronicleContract start).allowed c a)
    (hold : ClosableAfter start c.saved) (hsaved : SavedBy c.saved a reply saved) :
    ClosableAfter start saved := by
  have hsame : saved = c.saved → ClosableAfter start saved := fun h => h ▸ hold
  obtain ⟨held, wait⟩ := a
  cases wait with
  | save commit =>
    have hnew : saved = c.saved ++ [commit] → ClosableAfter start saved := by
      intro h
      rw [h]
      apply hold.concat
      rw [replay_append_singleton, hallowed.1]
      exact hallowed.2
    cases reply with
    | error =>
      rcases hsaved with h | h
      · exact hsame h
      · exact hnew h
    | ok => exact hnew hsaved
  | _ => exact hsame hsaved

theorem run_closable {α : Type} {post : α → Chronicle → Prop} {start : List Block} {p rest : Driving α}
    {c c' : Chronicle} {trace : List ((a : Await) × a.Reply)}
    (h : p.Holds (chronicleContract start) post c) (hold : ClosableAfter start c.saved)
    (hrun : Program.Run chronicleAnswers p c trace rest c') : ClosableAfter start c'.saved := by
  induction hrun with
  | stay => exact hold
  | step hr _ ih => exact ih (h.2 _ _ hr) (closableAfter_of_saved h.1 hold hr.2.1)

theorem cut_closable (parts : TurnParts) (fuel : Nat) (start input : List Block)
    (inputTokens : Option Nat) (hstart : Paired start) (hinput : Paired input)
    {trace : List ((a : Await) × a.Reply)} {c : Chronicle}
    {rest : Driving (Except TurnError Outcome × List Block)}
    (hrun : Program.Run chronicleAnswers (parts.run fuel start inputTokens input)
      ⟨[.given start, .input input], []⟩ trace rest c) : ClosableAfter start c.saved := by
  have hgrown := TurnState.send_grown (TurnState.Settled.new start inputTokens) input
  have hready : Chronicle.Ready start ((TurnState.new start inputTokens).send input)
      ⟨[.given start, .input input], []⟩ := by
    refine Chronicle.ready_of_told hgrown rfl ?_ (.input input (told_given hstart)) ?_
    · intro commit
      simp [TurnState.send]
    · intro other hmem
      have hother : other = input := by simpa using hmem
      rw [hother]
      exact hinput
  have hturn := carryOut_holds (chronicle_invariant parts start) fuel fuel false hready
  exact run_closable hturn (.nil start) hrun

def Chronicle.record (c : Chronicle) (a : Await) (reply : a.Reply) : Chronicle where
  story := c.story.record a reply
  saved :=
    match a, reply with
    | ⟨_, .save commit⟩, .ok () => c.saved ++ [commit]
    | _, _ => c.saved

def callCompletion : Completion where
  content := [.toolCall ⟨"call_1", "read", "\x7b\x7d"⟩]
  finishReason := .toolCalls
  rawFinishReason := "tool_calls"
  usage := {}

theorem record_calmReply (completion : Completion) (c : Chronicle) (a : Await) :
    chronicleAnswers c a (calmReply completion a) (c.record a (calmReply completion a)) := by
  have hkeeps := calmReply_keepsPairs completion a
  refine ⟨rfl, ?_, hkeeps, ?_⟩
  · obtain ⟨held, wait⟩ := a
    cases wait <;> rfl
  · obtain ⟨held, wait⟩ := a
    cases wait with
    | inbox => exact paired_nil
    | _ => trivial

def callRun : List ((a : Await) × a.Reply) ×
    Driving (Except TurnError Outcome × List Block) × Chronicle :=
  (plainParts.run 4 [] none [.userText "hi"]).follow
    (fun c a => (calmReply callCompletion a, c.record a (calmReply callCompletion a)))
    9 ⟨[.given [], .input [.userText "hi"]], []⟩

end Yuke.Engine
