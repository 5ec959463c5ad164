import Yuke.Engine.DriveReplay
import Yuke.Protocol.Session

/-!
# The updates of a turn

The observer of a session sees the events of the engine and the positions of the saved events. The
answer that streams in is a draft until a commit saves it or its request fails.
-/

set_option autoImplicit false

namespace Yuke.Agent

open Yuke.Ai (Block BlockId ToolCall ToolResult)
open Yuke.Engine
open Yuke.Protocol
open Yuke.Shared (Contract Program)

structure DraftId where
  number : Nat
  deriving DecidableEq

inductive DraftDiscardReason where
  | failed
  | unconfirmed

structure BlockPosition where
  eventNumber : EventNumber
  blockIndex : Nat

inductive LiveUpdate where
  | draftStarted (draft : DraftId)
  | model (draft : DraftId) (event : Ai.Event)
  | draftDiscarded (draft : DraftId) (reason : DraftDiscardReason)
  | draftCommitted (draft : DraftId) (eventNumber : EventNumber) (blocks : List BlockId)
  | toolStarted (execution : BlockPosition) (call : ToolCall)
  | toolFinished (execution : BlockPosition) (result : ToolResult) (display : List DisplayBlock)
      (durationMs : Option Nat)
  | retryScheduled (afterMs : Nat) (error : String)
  | roundFailed (error : String)
  | turnUnconfirmed

inductive Emitted where
  | saved (event : StoredEvent)
  | live (update : LiveUpdate)

structure Draft where
  id : DraftId
  blocks : List BlockId

def callsTool (commit : Commit) : Bool := commit.blocks.any fun block => block matches .toolCall _

/-- The updates of a turn with an observer. `drafts` counts the generated ids. -/
structure Updates where
  draft : Option Draft := none
  executionEvent : Option EventNumber := none
  ended : Bool := false
  drafts : Nat := 0
  log : List Emitted := []

namespace Updates

def emit (u : Updates) (update : Emitted) : Updates := { u with log := u.log ++ [update] }

def live (u : Updates) (update : LiveUpdate) : Updates := u.emit (.live update)

def discard (u : Updates) (reason : DraftDiscardReason) : Updates :=
  match u.draft with
  | none => u
  | some draft => { u with draft := none }.live (.draftDiscarded draft.id reason)

def committed (u : Updates) (eventNumber : EventNumber) (commit : Commit)
    (consumed : List ConsumedInput) : Updates :=
  let saved := { u with
      draft := none
      executionEvent := if callsTool commit then some eventNumber else u.executionEvent
      ended := commit.end.isSome }.emit (.saved ⟨eventNumber, .commit commit consumed⟩)
  match u.draft with
  | none => saved
  | some draft => saved.live (.draftCommitted draft.id eventNumber draft.blocks)

/-- The position of a call, or `none` where the code expects a saved call. -/
def execution (u : Updates) (blockIndex : Nat) : Option BlockPosition :=
  u.executionEvent.map fun eventNumber => ⟨eventNumber, blockIndex⟩

/-- The state after an event of the engine, or `none` where an expectation fails. -/
def event (u : Updates) : TurnEvent → Option Updates
  | .responseStarted =>
    let id : DraftId := ⟨u.drafts + 1⟩
    some ({ u with draft := some ⟨id, []⟩, drafts := u.drafts + 1 }.live (.draftStarted id))
  | .responseFailed _ => some (u.discard .failed)
  | .responseCancelled blocks => u.draft.map fun draft =>
    { u with draft := some { draft with blocks := blocks.map fun block => block.block } }
  | .model event => u.draft.map fun draft =>
    let blocks := match event with
      | .blockStopped block _ => draft.blocks ++ [block]
      | .done _ _ _ => draft.blocks.mergeSort (· ≤ ·)
      | _ => draft.blocks
    { u with draft := some { draft with blocks := blocks } }.live (.model draft.id event)
  | .toolStarted blockIndex call => (u.execution blockIndex).map fun execution =>
    u.live (.toolStarted execution call)
  | .toolFinished blockIndex result display duration => (u.execution blockIndex).map fun execution =>
    u.live (.toolFinished execution result display (duration.map (min u64Max)))
  | .retryScheduled after error => some (u.live (.retryScheduled (min u64Max after) error.text))
  | .roundFailed error => some (u.live (.roundFailed (chainText error.toDynError)))

/-- The end of the updates. A dropped turn and an uncertain save leave a draft. -/
def drop (u : Updates) : Updates :=
  let left := u.discard .unconfirmed
  if left.ended then left else left.live .turnUnconfirmed

end Updates

/-- What the updates so far leave open: the draft and the last saved commit with a call. -/
structure Standing where
  draft : Option DraftId
  called : Option EventNumber

/-- The standing after an update, or `none` where the update does not fit. -/
def Standing.next (s : Standing) : Emitted → Option Standing
  | .live (.draftStarted id) => if s.draft = none then some { s with draft := some id } else none
  | .live (.model id _) => if s.draft = some id then some s else none
  | .live (.draftCommitted id _ _) | .live (.draftDiscarded id _) =>
    if s.draft = some id then some { s with draft := none } else none
  | .live (.toolStarted execution _) | .live (.toolFinished execution _ _ _) =>
    if s.called = some execution.eventNumber then some s else none
  | .saved ⟨eventNumber, .commit commit _⟩ =>
    some { s with called := if callsTool commit then some eventNumber else s.called }
  | _ => some s

namespace Updates

def standing (u : Updates) : Standing := ⟨u.draft.map Draft.id, u.executionEvent⟩

/-- In the log the drafts open and close one after another, and each tool update names the last
saved commit with a call. -/
def Good (u : Updates) : Prop := u.log.foldlM Standing.next ⟨none, none⟩ = some u.standing

variable {u v : Updates}

theorem Good.emit (h : u.Good) {update : Emitted} (hlog : v.log = u.log ++ [update])
    (hnext : u.standing.next update = some v.standing) : v.Good := by
  rw [Good] at h ⊢
  rw [hlog, List.foldlM_append, h]
  simp [hnext]

theorem Good.discard (h : u.Good) (reason : DraftDiscardReason) : (u.discard reason).Good := by
  unfold Updates.discard
  split
  · exact h
  · next draft hdraft =>
    apply h.emit rfl
    simp [Standing.next, standing, hdraft, live, Updates.emit]

theorem Good.committed (h : u.Good) (eventNumber : EventNumber) (commit : Commit)
    (consumed : List ConsumedInput) : (u.committed eventNumber commit consumed).Good := by
  unfold Updates.committed
  dsimp only
  split
  · next hdraft =>
    apply h.emit rfl
    simp [Standing.next, standing, hdraft, Updates.emit]
  · next draft hdraft =>
    -- The saved event goes out while the draft is still open.
    have hsaved : ({ u with
        executionEvent := if callsTool commit then some eventNumber else u.executionEvent }.emit
          (.saved ⟨eventNumber, .commit commit consumed⟩)).Good := h.emit rfl rfl
    apply hsaved.emit rfl
    simp [Standing.next, standing, hdraft, live, Updates.emit]

/-- What the updates expect of an event. -/
def Fits (u : Updates) : TurnEvent → Prop
  | .responseStarted => u.draft.isSome = false
  | .responseCancelled _ | .model _ => u.draft.isSome = true
  | .toolStarted _ _ | .toolFinished _ _ _ _ => u.executionEvent.isSome = true
  | .responseFailed _ | .retryScheduled _ _ | .roundFailed _ => True

def opens (drafting : Bool) : TurnEvent → Bool
  | .responseStarted => true
  | .responseFailed _ => false
  | _ => drafting

/-- The turn goes on from `u` to `v`, with a draft or without one. -/
def Goes (u v : Updates) (drafting : Bool) : Prop :=
  (u.Good → v.Good) ∧ v.ended = u.ended ∧ v.executionEvent = u.executionEvent ∧
    v.draft.isSome = drafting

theorem event_fits {event : TurnEvent} (hfits : u.Fits event) :
    ∃ v, u.event event = some v ∧ u.Goes v (opens u.draft.isSome event) := by
  cases event with
  | responseStarted =>
    have hdraft : u.draft = none := by simpa [Fits] using hfits
    refine ⟨_, rfl, fun h => h.emit rfl ?_, rfl, rfl, rfl⟩
    simp [Standing.next, standing, hdraft, live, Updates.emit]
  | responseFailed error =>
    refine ⟨_, rfl, fun h => h.discard _, ?_⟩
    unfold Updates.discard
    split
    · next hdraft => exact ⟨rfl, rfl, by simp [opens, hdraft]⟩
    · exact ⟨rfl, rfl, rfl⟩
  | responseCancelled blocks =>
    obtain ⟨draft, hdraft⟩ := Option.isSome_iff_exists.mp hfits
    refine ⟨_, by rw [Updates.event, hdraft]; rfl, ?_⟩
    refine ⟨fun h => ?_, rfl, rfl, by simp [opens, hdraft]⟩
    simpa [Good, standing, hdraft] using h
  | model event =>
    obtain ⟨draft, hdraft⟩ := Option.isSome_iff_exists.mp hfits
    refine ⟨_, by rw [Updates.event, hdraft]; rfl, ?_⟩
    refine ⟨fun h => h.emit rfl ?_, rfl, rfl, by simp [opens, hdraft, live, Updates.emit]⟩
    simp [Standing.next, standing, hdraft, live, Updates.emit]
  | toolStarted | toolFinished =>
    obtain ⟨n, hn⟩ := Option.isSome_iff_exists.mp hfits
    refine ⟨_, by rw [Updates.event, execution, hn]; rfl, ?_⟩
    refine ⟨fun h => h.emit rfl ?_, rfl, rfl, rfl⟩
    simp [Standing.next, standing, hn, live, Updates.emit]
  | retryScheduled | roundFailed => exact ⟨_, rfl, fun h => h.emit rfl rfl, rfl, rfl, rfl⟩

/-! ## The driver -/

def Going (u : Updates) (drafting : Bool) : Prop :=
  u.Good ∧ u.ended = false ∧ u.draft.isSome = drafting

theorem Going.goes {b b' : Bool} (h : u.Going b) (hgoes : u.Goes v b') : v.Going b' :=
  ⟨hgoes.1 h.1, hgoes.2.1.trans h.2.1, hgoes.2.2.2⟩

/-- How the updates of a turn follow its waits. The store gives the number of a saved commit. -/
def Observes (u : Updates) (a : Await) (reply : a.Reply) (v : Updates) : Prop :=
  match a, reply with
  | ⟨_, .event event⟩, _ => u.event event = some v
  | ⟨_, .save commit⟩, reply =>
    match reply with
    | .ok () => ∃ eventNumber consumed, v = u.committed eventNumber commit consumed
    | .error _ => v = u
  | _, _ => v = u

def updatesContract : Contract Await Await.Reply Updates where
  allowed u a := (∃ drafting, u.Going drafting) ∧
    ∀ event, a.wait = .event event → ∃ v, u.event event = some v
  answers := Observes

def quiet : Wait → Bool
  | .save _ | .event _ => false
  | _ => true

section Driver

variable {α : Type} {held : List Block} {post : α → Updates → Prop} {drafting : Bool}

theorem quiet_holds {wait : Wait} {f : wait.Reply → Driving α} (hu : u.Going drafting)
    (hquiet : quiet wait = true) (hf : ∀ reply, (f reply).Holds updatesContract post u) :
    (Engine.await held wait >>= f).Holds updatesContract post u := by
  refine ⟨⟨⟨drafting, hu⟩, ?_⟩, ?_⟩
  · intro event hevent
    cases hevent
    cases hquiet
  · intro reply v hv
    obtain rfl : v = u := by
      cases wait with
      | save | event => cases hquiet
      | _ => exact hv
    exact hf reply

theorem emit_holds {event : TurnEvent} {f : Unit → Driving α} (hu : u.Going drafting)
    (hfits : u.Fits event)
    (hf : ∀ v, v.Going (opens drafting event) → (f ()).Holds updatesContract post v) :
    (Engine.emit held event >>= f).Holds updatesContract post u := by
  obtain ⟨v, hv, hgoes⟩ := event_fits hfits
  rw [hu.2.2] at hgoes
  refine ⟨⟨⟨drafting, hu⟩, ?_⟩, ?_⟩
  · intro other hother
    cases hother
    exact ⟨v, hv⟩
  · intro _ w hw
    obtain rfl : v = w := Option.some.inj (hv.symm.trans hw)
    exact hf v (hu.goes hgoes)

/-- After a save that is not lost no draft is open, and a saved call gives the place of its tool. -/
def Saved (commit : Commit) (saved : Except TurnError Unit) (u : Updates) : Prop :=
  match saved with
  | .ok () => u.Good ∧ u.ended = commit.end.isSome ∧ u.draft.isSome = false ∧
    (callsTool commit = true → u.executionEvent.isSome = true)
  | .error error => (∃ drafting, u.Going drafting) ∧ ∃ cause, error = .commit cause

theorem save_holds {parts : TurnParts} (commit : Commit) (hu : u.Going drafting) :
    (parts.save held commit).Holds updatesContract (Saved commit) u := by
  have hend : (parts.journaled commit).end = commit.end := by
    unfold TurnParts.journaled
    split
    · rfl
    · rfl
  refine ⟨⟨⟨drafting, hu⟩, fun _ h => by cases h⟩, ?_⟩
  intro reply v hv
  rcases reply with error | _
  · obtain rfl : v = u := hv
    exact ⟨⟨drafting, hu⟩, error, rfl⟩
  · obtain ⟨eventNumber, consumed, rfl⟩ := hv
    refine ⟨hu.1.committed _ _ _, ?_⟩
    unfold Updates.committed callsTool
    dsimp only
    rw [hend, journaled_blocks]
    split
    · exact ⟨rfl, rfl, fun hcalls => by simp [Updates.emit, hcalls]⟩
    · exact ⟨rfl, rfl, fun hcalls => by simp [live, Updates.emit, hcalls]⟩

/-- A save that does not end the turn is followed by a state without a draft, or it is lost. -/
theorem saved_holds {parts : TurnParts} {commit : Commit} {f : Except TurnError Unit → Driving α}
    (h : (∃ drafting, u.Going drafting) ∧ commit.end = none)
    (hlost : ∀ v cause, (∃ drafting, v.Going drafting) →
      (f (.error (.commit cause))).Holds updatesContract post v)
    (hf : ∀ v, v.Going false → (callsTool commit = true → v.executionEvent.isSome = true) →
      (f (.ok ())).Holds updatesContract post v) :
    (parts.save held commit >>= f).Holds updatesContract post u := by
  obtain ⟨⟨drafting, hu⟩, hend⟩ := h
  apply (save_holds commit hu).bind
  intro saved v hv
  cases saved with
  | error error =>
    obtain ⟨hv, cause, rfl⟩ := hv
    exact hlost v cause hv
  | ok =>
    obtain ⟨hgood, hended, hdraft, hcalls⟩ := hv
    rw [hend] at hended
    exact hf v ⟨hgood, hended, hdraft⟩ hcalls

theorem readReply_holds (fuel : Nat) (hu : u.Going true) :
    (TurnParts.readReply held fuel).Holds updatesContract (fun _ v => v.Going true) u := by
  induction fuel generalizing u with
  | zero => trivial
  | succ fuel ih =>
    unfold TurnParts.readReply
    apply quiet_holds hu rfl
    intro reply
    rcases reply with (_ | event) | _
    · exact hu
    · apply emit_holds hu
      · exact hu.2.2
      intro v hv
      exact ih hv
    · apply quiet_holds hu rfl
      intro blocks
      apply emit_holds hu
      · exact hu.2.2
      · exact fun v hv => hv

/-- A failed request leaves no draft. -/
def SentGood (sent : Sent) (u : Updates) : Prop :=
  match sent with
  | .failed _ => u.Going false
  | _ => ∃ drafting, u.Going drafting

theorem SentGood.going {sent : Sent} (h : SentGood sent u) : ∃ drafting, u.Going drafting := by
  cases sent with
  | failed => exact ⟨_, h⟩
  | answered | cancelled => exact h

theorem send_holds (request : Ai.Request) (model : Model) (readFuel fuel number : Nat)
    (hu : u.Going false) :
    (TurnParts.send request model readFuel fuel number).Holds updatesContract SentGood u := by
  induction fuel generalizing u number with
  | zero => trivial
  | succ fuel ih =>
    unfold TurnParts.send
    apply quiet_holds hu rfl
    intro credential
    rcases credential with (error | credential) | _
    · exact hu
    · apply quiet_holds hu rfl
      intro encoded
      rcases encoded with error | _
      · exact hu
      apply emit_holds hu
      · exact hu.2.2
      intro v hv
      apply quiet_holds hv rfl
      intro opened
      rcases opened with _ | _
      · apply (readReply_holds readFuel hv).bind
        intro kept w hw
        rcases kept with _ | kept
        · apply quiet_holds hw rfl
          intro finished
          rcases finished with error | completion
          · apply emit_holds hw
            · exact trivial
            intro x hx
            apply quiet_holds hx rfl
            intro delay
            rcases delay with _ | delay
            · exact hx
            · apply emit_holds hx
              · exact trivial
              intro y hy
              apply quiet_holds hy rfl
              intro slept
              rcases slept with _ | _
              · exact ih _ hy
              · exact ⟨_, hy⟩
          · exact ⟨_, hw⟩
        · exact ⟨_, hw⟩
      · apply emit_holds hv
        · exact hv.2.2
        · exact fun w hw => ⟨_, hw⟩
    · exact ⟨_, hu⟩

def RoundGood (out : Except TurnError Sent × TurnState) (u : Updates) : Prop :=
  match out.1 with
  | .ok sent => SentGood sent u
  | .error error => (∃ drafting, u.Going drafting) ∧ ∃ cause, error = .commit cause

theorem sendPlans_holds (parts : TurnParts) (loopFuel fuel : Nat) (state : TurnState)
    (plan : RoundPlan) (hu : u.Going false) :
    (parts.sendPlans loopFuel fuel state plan).Holds updatesContract RoundGood u := by
  induction fuel generalizing u state plan with
  | zero => trivial
  | succ fuel ih =>
    unfold TurnParts.sendPlans
    have hreplace : (parts.replaceContext state plan).Holds updatesContract
        (fun out v => match out.1 with
          | .ok () => v.Going false
          | .error error => (∃ drafting, v.Going drafting) ∧ ∃ cause, error = .commit cause) u := by
      unfold TurnParts.replaceContext
      split
      · exact hu
      · next replace _ =>
        apply saved_holds ⟨⟨_, hu⟩, rfl⟩
        · exact fun v cause hv => ⟨hv, cause, rfl⟩
        · exact fun v hv _ => hv
    apply hreplace.bind
    rintro ⟨replaced, state⟩ v hv
    rcases replaced with error | _
    · exact hv
    apply (send_holds _ _ loopFuel loopFuel 1 hv).bind
    intro sent w hw
    cases sent with
    | answered | cancelled => exact hw
    | failed error =>
      apply emit_holds hw
      · exact trivial
      intro x hx
      apply quiet_holds hx rfl
      intro retry
      rcases retry with (hook | _ | plan) | _
      · exact hx
      · exact hx
      · exact ih _ plan hx
      · exact ⟨_, hx⟩

theorem sendRound_holds (parts : TurnParts) (fuel : Nat) (state : TurnState)
    (hu : u.Going false) :
    (parts.sendRound fuel state).Holds updatesContract RoundGood u := by
  unfold TurnParts.sendRound
  apply quiet_holds hu rfl
  intro reply
  rcases reply with (error | plan) | _
  · exact hu
  · exact sendPlans_holds parts fuel fuel state plan hu
  · exact ⟨_, hu⟩

theorem works_footing : Footing updatesContract (fun u v => u.Goes v u.draft.isSome)
    (fun u _ => u.Going false ∧ u.executionEvent.isSome = true) Await.Works where
  refl := fun _ => ⟨id, rfl, rfl, rfl⟩
  trans := fun h h' => ⟨h'.1 ∘ h.1, h'.2.1.trans h.2.1, h'.2.2.1.trans h.2.2.1,
    h'.2.2.2.trans h.2.2.2⟩
  stands := by
    intro u v held hgoes hu
    refine ⟨hu.1.goes ?_, by rw [hgoes.2.2.1, hu.2]⟩
    rw [← hu.1.2.2]
    exact hgoes
  allowed := by
    intro u a hu hworks
    obtain ⟨held, wait⟩ := a
    refine ⟨⟨false, hu.1⟩, ?_⟩
    rintro event rfl
    have hfits : u.Fits event := by
      cases event with
      | toolStarted | toolFinished => exact hu.2
      | _ => cases hworks
    obtain ⟨v, hv, _⟩ := event_fits hfits
    exact ⟨v, hv⟩
  same := by
    intro u a reply v hworks hv
    obtain ⟨held, wait⟩ := a
    cases wait with
    | save => cases hworks
    | event event =>
      have hv : u.event event = some v := hv
      have hfits : u.Fits event ∧ opens u.draft.isSome event = u.draft.isSome := by
        cases event with
        | toolStarted | toolFinished =>
          obtain ⟨_, hposition, _⟩ := Option.map_eq_some_iff.mp hv
          obtain ⟨n, hn, _⟩ := Option.map_eq_some_iff.mp hposition
          exact ⟨Option.isSome_iff_exists.mpr ⟨n, hn⟩, rfl⟩
        | _ => cases hworks
      obtain ⟨w, hw, hgoes⟩ := event_fits hfits.1
      obtain rfl : w = v := Option.some.inj (hw.symm.trans hv)
      rw [hfits.2] at hgoes
      exact hgoes
    | _ =>
      obtain rfl : v = u := hv
      exact ⟨id, rfl, rfl, rfl⟩

theorem callTools_holds (parts : TurnParts) (fuel : Nat) (commit : Commit) (native : Bool)
    (hu : u.Going false) (hcalls : callsTool commit = true → u.executionEvent.isSome = true) :
    (parts.callTools fuel held commit.blocks native).Holds updatesContract
      (fun _ v => v.Going false) u := by
  by_cases hany : callsTool commit = true
  · have houtcomes : Outcomes updatesContract (fun u v => u.Goes v u.draft.isSome) False
        fun _ _ _ => True :=
      { same := fun _ _ => trivial, record := fun _ => trivial, keep := fun _ h => h.elim }
    apply (Engine.callTools_holds works_footing houtcomes parts ⟨hu, hcalls hany⟩ fuel
      commit.blocks native).mono
    intro _ v hv
    have hgoes := hv.1
    rw [hu.2.2] at hgoes
    exact hu.goes hgoes
  · have hnone : parts.resolveCalls commit.blocks = [] := by
      apply List.filterMap_eq_nil_iff.mpr
      rintro ⟨block, blockIndex⟩ hmem
      cases block with
      | toolCall call =>
        have hblock := (List.mem_zipIdx hmem).2.2
        exact absurd (List.any_eq_true.mpr ⟨_, hblock ▸ List.getElem_mem _, rfl⟩) hany
      | _ => rfl
    unfold TurnParts.callTools
    rw [hnone, TurnParts.groups]
    exact hu

/-- Where the driver carries out an action. Only a request of its own needs a closed draft. -/
def Ready (u : Updates) : Action → Prop
  | .send none => u.Going false
  | .send (some commit) | .callTools commit | .afterRound _ _ commit =>
    (∃ drafting, u.Going drafting) ∧ commit.end = none
  | .done commit _ => (∃ drafting, u.Going drafting) ∧ commit.end.isSome = true

theorem ready_stop (hu : u.Going drafting) (state : TurnState) : u.Ready state.stop.1 := by
  unfold TurnState.stop
  split
  · exact ⟨⟨_, hu⟩, rfl⟩
  · exact ⟨⟨_, hu⟩, rfl⟩

theorem ready_send (hu : u.Going false) (state : TurnState) (input : List Block) :
    u.Ready (state.send input).1 := by
  unfold TurnState.send TurnState.commit
  dsimp only
  split
  · exact ⟨⟨_, hu⟩, rfl⟩
  · exact hu

theorem ready_step {sent : Sent} (hu : u.Going drafting) (state : TurnState) :
    u.Ready (sent.step state).1 := by
  cases sent with
  | failed | cancelled => exact ⟨⟨_, hu⟩, rfl⟩
  | answered completion origin native =>
    unfold Sent.step TurnState.modelFinished
    dsimp only
    split
    · exact ⟨⟨_, hu⟩, rfl⟩
    · split
      · exact ⟨⟨_, hu⟩, rfl⟩
      · exact ⟨⟨_, hu⟩, rfl⟩

def Ended (out : Except TurnError Outcome × List Block) (u : Updates) : Prop :=
  match out.1 with
  | .error (.commit _) => ∃ drafting, u.Going drafting
  | _ => u.Good ∧ u.ended = true

theorem carryOut_holds (parts : TurnParts) (loopFuel fuel : Nat) (native : Bool)
    {out : Action × TurnState} (h : u.Ready out.1) :
    (parts.carryOut loopFuel fuel native out).Holds updatesContract Ended u := by
  induction fuel generalizing u native out with
  | zero => trivial
  | succ fuel ih =>
    obtain ⟨action, state⟩ := out
    unfold TurnParts.carryOut
    cases action with
    | send commit =>
      cases commit with
      | none =>
        apply (sendRound_holds parts loopFuel state h).bind
        rintro ⟨error | sent, state⟩ w hw
        · obtain ⟨hw, cause, rfl⟩ := hw
          exact hw
        · obtain ⟨_, hw⟩ := SentGood.going hw
          exact ih _ (ready_step hw state)
      | some commit =>
        apply saved_holds h
        · exact fun v cause hv => hv
        · intro v hv _
          apply (sendRound_holds parts loopFuel state hv).bind
          rintro ⟨error | sent, state⟩ w hw
          · obtain ⟨hw, cause, rfl⟩ := hw
            exact hw
          · obtain ⟨_, hw⟩ := SentGood.going hw
            exact ih _ (ready_step hw state)
    | callTools commit =>
      apply saved_holds h
      · exact fun v cause hv => hv
      · intro v hv hcalls
        apply (callTools_holds parts loopFuel commit native hv hcalls).bind
        intro outcomes w hw
        apply quiet_holds hw rfl
        intro cancelled
        rcases cancelled with _ | _
        · exact ih native ⟨⟨_, hw⟩, rfl⟩
        · exact ih native ⟨⟨_, hw⟩, rfl⟩
    | afterRound context finishReason commit =>
      apply saved_holds h
      · exact fun v cause hv => hv
      · intro v hv _
        apply quiet_holds hv rfl
        intro decision
        rcases decision with (error | _ | _) | _
        · exact ih native ⟨⟨_, hv⟩, rfl⟩
        · apply quiet_holds hv rfl
          intro reply
          rcases reply with error | input
          · exact ih native ⟨⟨_, hv⟩, rfl⟩
          · apply ih native
            unfold TurnState.proceed
            split
            · exact ready_stop hv state
            · exact ready_send hv state input
        · exact ih native (ready_stop hv state)
        · exact ih native ⟨⟨_, hv⟩, rfl⟩
    | done commit result =>
      obtain ⟨⟨_, hu⟩, hend⟩ := h
      apply (save_holds commit hu).bind
      intro saved v hv
      cases saved with
      | error error =>
        obtain ⟨hv, cause, rfl⟩ := hv
        exact hv
      | ok =>
        have hclosed : v.Good ∧ v.ended = true := ⟨hv.1, hv.2.1.trans hend⟩
        cases result with
        | ok outcome => exact hclosed
        | error error => exact hclosed

end Driver

/-- A turn that stops here has these updates. The drop closes a draft that is open. -/
structure Closes (u : Updates) (ended : Bool) : Prop where
  good : u.Good
  ended : u.ended = ended
  dropped : u.drop.log.foldlM Standing.next ⟨none, none⟩ = some ⟨none, u.executionEvent⟩

theorem Good.closes (h : u.Good) {ended : Bool} (hended : u.ended = ended) : u.Closes ended := by
  refine ⟨h, hended, ?_⟩
  have hnone : (u.discard .unconfirmed).standing = ⟨none, u.executionEvent⟩ := by
    unfold Updates.discard
    split
    · next hdraft => simp [standing, hdraft]
    · rfl
  have hgood := h.discard .unconfirmed
  rw [Good, hnone] at hgood
  unfold drop
  dsimp only
  split
  · exact hgood
  · simp only [live, Updates.emit, List.foldlM_append, hgood]
    rfl

/-- What the updates tell where a run of a turn stands. -/
def Reconciled (u : Updates) : Driving (Except TurnError Outcome × List Block) → Prop
  | .cut => True
  | .done (.error (.commit _), _) => u.Closes false
  | .done _ => u.Closes true
  | .call a _ => u.Closes false ∧ ∀ event, a.wait = .event event → (u.event event).isSome = true

end Updates

end Yuke.Agent
