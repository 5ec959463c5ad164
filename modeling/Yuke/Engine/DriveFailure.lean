import Yuke.Engine.DriveRules

/-!
# The end of a turn whose inbox failed

After a failed read of the inbox the driver saves one commit, the end of the turn, and the turn ends
with that failure.
-/

set_option autoImplicit false

namespace Yuke.Engine

open Yuke.Ai Yuke.Shared

/-- What befell a turn: a failed read of its inbox, and a failed save. -/
structure Fate where
  refused : Option DynError := none
  lost : Bool := false

def Fate.record (fate : Fate) (a : Await) (reply : a.Reply) : Fate :=
  match a, reply with
  | ⟨_, .inbox⟩, reply =>
    match reply with
    | .ok _ => fate
    | .error error => { fate with refused := some error }
  | ⟨_, .save _⟩, reply =>
    match reply with
    | .ok () => fate
    | .error _ => { fate with lost := true }
  | _, _ => fate

def IsFailure (commit : Commit) (error : DynError) : Prop :=
  commit.replaced = none ∧ commit.blocks = [] ∧ commit.end = some (.failed (chainText error))

/-- A turn waits for nothing after a failed save, and only for the save of its end after a failed
inbox. -/
def failureContract : Contract Await Await.Reply Fate where
  allowed fate a := fate.lost = false ∧ ∀ error, fate.refused = some error →
    match a.wait with
    | .save commit => IsFailure commit error
    | _ => False
  answers fate a reply fate' := fate' = fate.record a reply

def Unrefused (fate : Fate) (_ : List Block) : Prop := fate = {}

structure FailureReady (out : Action × TurnState) (fate : Fate) : Prop where
  settled : out.2.Settled
  kept : fate.lost = false
  failure : ∀ error, fate.refused = some error → ∃ commit,
    out.1 = .done commit (.error (.inbox error)) ∧ IsFailure commit error

theorem unrefused_footing (Kind : Await → Prop) (hinbox : ∀ held, ¬ Kind ⟨held, .inbox⟩)
    (hsave : ∀ held commit, ¬ Kind ⟨held, .save commit⟩) :
    Footing failureContract (fun fate fate' => fate' = fate) Unrefused Kind where
  refl := fun _ => rfl
  trans := fun h h' => h'.trans h
  stands := fun h hs => h.trans hs
  allowed := by
    rintro _ a rfl _
    exact ⟨rfl, fun _ herror => nomatch herror⟩
  same := by
    rintro fate ⟨held, wait⟩ reply _ ha rfl
    cases wait with
    | inbox => exact absurd ha (hinbox held)
    | save commit => exact absurd ha (hsave held commit)
    | _ => rfl

theorem unrefused_await {held : List Block} {wait : Wait} {post : wait.Reply → Fate → Prop}
    (hpost : ∀ reply, post reply (Fate.record {} ⟨held, wait⟩ reply)) :
    (Engine.await held wait).Holds failureContract post {} := by
  refine ⟨⟨rfl, fun _ herror => nomatch herror⟩, ?_⟩
  rintro reply _ rfl
  exact hpost reply

theorem failureReady_of_unrefused {out : Action × TurnState} (h : out.2.Settled) :
    FailureReady out {} :=
  ⟨h, rfl, fun _ herror => nomatch herror⟩

theorem isFailure_fail {state : TurnState} (h : state.Settled) (error : DynError) :
    FailureReady (state.fail (.inbox error)) { refused := some error } where
  settled := (TurnState.fail_grown h _).settled
  kept := rfl
  failure := by
    rintro _ ⟨rfl⟩
    refine ⟨_, rfl, ?_⟩
    obtain ⟨hreplaced, hblocks, _⟩ := (TurnState.fail_grown h (.inbox error)).commit_eq _ rfl
    exact ⟨hreplaced, hblocks, rfl⟩

theorem isFailure_journaled {parts : TurnParts} {commit : Commit} {error : DynError}
    (h : IsFailure commit error) : IsFailure (parts.journaled commit) error := by
  unfold TurnParts.journaled
  split
  · exact h
  · exact h

theorem FailureReady.unrefused {out : Action × TurnState} {fate : Fate} (h : FailureReady out fate)
    (hout : ∀ commit result, out.1 ≠ .done commit result) : fate = {} := by
  obtain ⟨refused, lost⟩ := fate
  have hkept : lost = false := h.kept
  cases refused with
  | none => rw [hkept]
  | some error =>
    obtain ⟨_, haction, _⟩ := h.failure error rfl
    exact absurd haction (hout _ _)

def FailureEnded (result : Except RoundError Outcome) (fate : Fate) (_ : List Block) : Prop :=
  fate.lost = false ∧ ∀ error, fate.refused = some error → result = .error (.inbox error)

def FailureLost (fate : Fate) (_ : List Block) : Prop := fate.lost = true

theorem failure_invariant (parts : TurnParts) :
    TurnInvariant parts failureContract (fun fate fate' => fate' = fate) Unrefused
      (fun _ => Unrefused) (fun _ => Unrefused) (fun _ _ => True) False (fun _ _ _ => True)
      FailureReady FailureLost FailureEnded where
  hearing := {
    asks := unrefused_footing _ (fun _ h => h) (fun _ _ h => h)
    silence := fun hs => hs
    finish := by
      rintro _ held rfl
      refine unrefused_await fun reply => ?_
      cases reply <;> rfl
    cancel := by
      rintro _ held rfl
      exact unrefused_await fun _ => rfl
    show_cancel := by
      rintro _ held blocks shown rfl
      exact unrefused_await fun _ => rfl }
  works := fun _ => unrefused_footing _ (fun _ h => h) (fun _ _ h => h)
  outcomes := {
    same := fun _ _ => trivial
    record := fun _ => trivial
    keep := fun _ h => h.elim }
  settled := fun hready => hready.settled
  plan_before := fun _ => trivial
  plan_retry := fun _ => trivial
  replace := by
    rintro _ state plan replaced _ rfl _ _
    refine Program.holds_bind.mpr (unrefused_await fun reply => ?_)
    cases reply with
    | error error => rfl
    | ok saved => rfl
  save := by
    rintro fate action state commit hready hcommit
    refine ⟨⟨hready.kept, fun error herror => ?_⟩, ?_⟩
    · obtain ⟨ended, haction, hfailure⟩ := hready.failure error herror
      subst haction
      cases hcommit
      exact isFailure_journaled hfailure
    · rintro reply _ rfl
      rcases reply with error | _
      · rfl
      · cases action with
        | done ended result =>
          refine ⟨hready.kept, fun error herror => ?_⟩
          obtain ⟨_, haction, _⟩ := hready.failure error herror
          cases haction
          rfl
        | send | afterRound | callTools => exact hready.unrefused fun _ _ h => nomatch h
  silent := by
    intro fate action state hready hnone
    refine hready.unrefused fun commit result haction => ?_
    cases haction
    cases hnone
  answered := by
    rintro _ state completion origin hsettled rfl
    exact failureReady_of_unrefused (TurnState.modelFinished_grown hsettled completion origin).settled
  cancelled := by
    rintro _ state partials hsettled rfl
    exact failureReady_of_unrefused (TurnState.modelCancelled_grown hsettled partials).settled
  ended := by
    rintro _ state result hsettled rfl
    exact failureReady_of_unrefused (TurnState.ended_grown hsettled result).settled
  inbox := by
    rintro _ state hsettled rfl
    refine ⟨⟨rfl, fun _ herror => nomatch herror⟩, ?_⟩
    rintro reply _ rfl
    rcases reply with error | input
    · exact isFailure_fail hsettled error
    · exact failureReady_of_unrefused (TurnState.proceed_grown hsettled input).settled
  finished := by
    rintro _ state blocks outcomes hsettled rfl _
    exact ⟨failureReady_of_unrefused (TurnState.toolsFinished_grown hsettled outcomes).settled,
      failureReady_of_unrefused (TurnState.toolsCancelled_grown hsettled outcomes).settled⟩

theorem run_holds_failure (parts : TurnParts) (fuel : Nat) (start input : List Block)
    (inputTokens : Option Nat) :
    (parts.run fuel start inputTokens input).Holds failureContract
      (TurnPost FailureLost FailureEnded) {} :=
  carryOut_holds (failure_invariant parts) fuel fuel false
    (failureReady_of_unrefused
      (TurnState.send_grown (TurnState.Settled.new start inputTokens) input).settled)

end Yuke.Engine
