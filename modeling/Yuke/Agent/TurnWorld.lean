import Yuke.Agent.Account
import Yuke.Agent.Session

/-!
# The world of a turn

While a turn runs, clients accept and remove inputs of its session, and a call of the store can
fail. The world keeps the account of the inputs, and why a take of the running turn failed.
-/

set_option autoImplicit false

namespace Yuke.Agent

open Yuke.Ai (Block)
open Yuke.Engine
open Yuke.Protocol
open Yuke.Shared (Contract Program)

/-- The outcome of an operation on the state `s`, or a failure: then the operation happened or it did
not. -/
inductive Performs {α σ : Type} (s : σ) (out : Except StoreError α × σ) :
    Except StoreError α → σ → Prop where
  | done : Performs s out out.1 out.2
  | lost (error : DynError) : Performs s out (.error (.failed error)) out.2
  | failed (error : DynError) : Performs s out (.error (.failed error)) s

structure TurnWorld where
  store : MemoryStore
  accepted : List PendingInput
  removed : List InputId
  refused : Option DynError

namespace TurnWorld

def accept (w : TurnWorld) (id : SessionId) (input : Input) :
    Except StoreError InputId × TurnWorld :=
  let out := w.store.acceptInput id input
  match out.1 with
  | .ok inputId =>
    (.ok inputId, { w with store := out.2, accepted := w.accepted ++ [⟨inputId, input⟩] })
  | .error error => (.error error, w)

def remove (w : TurnWorld) (id : SessionId) (input : InputId) : Except StoreError Unit × TurnWorld :=
  let out := w.store.removeInput id input
  match out.1 with
  | .ok () => (.ok (), { w with store := out.2, removed := w.removed ++ [input] })
  | .error error => (.error error, w)

def commit (w : TurnWorld) (id : SessionId) (commit : Commit) (consumed : List ConsumedInput)
    (now : Nat) : Except StoreError EventNumber × TurnWorld :=
  let out := w.store.commit id commit consumed now
  (out.1, { w with store := out.2 })

end TurnWorld

inductive ClientStep (id : SessionId) (w : TurnWorld) : TurnWorld → Prop where
  | accept (input : Input) : ClientStep id w (w.accept id input).2
  | remove (input : InputId) : ClientStep id w (w.remove id input).2

def failureOf (call : SessionCall) (reply : call.Reply) : Option DynError :=
  match call, reply with
  | .pending checked, reply =>
    match reply, checked with
    | .error error, _ => some error.toDynError
    | .ok pending, some (input, .replace []) =>
      if pending.any fun other => other.id = input.id then
        some (InputError.toDynError .emptyModelContent)
      else none
    | .ok _, _ => none
  | .beforeInput _, reply =>
    match reply with
    | .error error => some error
    | .ok _ => none
  | .removeInput _, reply =>
    match reply with
    | .ok () | .error (.inputNotPending _) => none
    | .error error => some error.toDynError
  | _, _ => none

/-- Why a reply makes a take of the running turn fail. The future holds the lease while the turn
runs. -/
def takeFailure (a : SessionAwait) (reply : a.Reply) : Option DynError :=
  if a.held.lease.isSome then failureOf a.call reply else none

/-- How the world replies to a wait of a turn of session `id`. -/
def Replies (id : SessionId) (w : TurnWorld) (a : SessionAwait) (reply : a.Reply)
    (w' : TurnWorld) : Prop :=
  match a, reply with
  | ⟨_, .pending _⟩, reply => Performs w (w.store.pending id, w) reply w'
  | ⟨_, .removeInput input⟩, reply => Performs w (w.remove id input) reply w'
  | ⟨_, .acceptInput input⟩, reply => Performs w (w.accept id input) reply w'
  | ⟨_, .commit commit consumed⟩, reply =>
    ∃ now, Performs w (w.commit id commit consumed now) reply w'
  | _, _ => w' = w

def TurnAnswers (id : SessionId) (w : TurnWorld) (a : SessionAwait) (reply : a.Reply)
    (w' : TurnWorld) : Prop :=
  ∃ acted replied, Relation.ReflTransGen (ClientStep id) w acted ∧ Replies id acted a reply replied ∧
    w' = { replied with refused := (takeFailure a reply).or replied.refused }

/-! ## The account -/

def Account (id : SessionId) (w : TurnWorld) : Prop :=
  ∃ saved, w.store.state.sessions.lookup id = some saved ∧
    Balanced saved w.accepted w.removed w.store.state.newestInput

def FromAccepted (w : TurnWorld) (input : PendingInput) : Prop :=
  ∃ accepted ∈ w.accepted, accepted.id = input.id ∧
    (accepted = input ∨ ∃ blocks, accepted.input.withModelContent blocks = .ok input.input)

structure Onward (id : SessionId) (w w' : TurnWorld) : Prop where
  account : Account id w'
  accepted : w.accepted ⊆ w'.accepted

theorem FromAccepted.mono {w w' : TurnWorld} {input : PendingInput} (h : FromAccepted w input)
    (hsub : w.accepted ⊆ w'.accepted) : FromAccepted w' input := by
  obtain ⟨accepted, hmem, hid, hfrom⟩ := h
  exact ⟨accepted, hsub hmem, hid, hfrom⟩

namespace Account

variable {id : SessionId} {w w' : TurnWorld}

theorem refl (h : Account id w) : Onward id w w := ⟨h, List.Subset.refl _⟩

theorem get (h : Account id w) : ∃ saved, w.store.state.get id = .ok saved ∧
    w.store.state.sessions.lookup id = some saved ∧
    Balanced saved w.accepted w.removed w.store.state.newestInput := by
  obtain ⟨saved, hlookup, hbalanced⟩ := h
  exact ⟨saved, by rw [State.get, hlookup], hlookup, hbalanced⟩

theorem lookup_insert_self (state : State) (saved : Saved) :
    (state.insert id saved).sessions.lookup id = some saved := AList.lookup_insert _

theorem accept (h : Account id w) (input : Input) : Onward id w (w.accept id input).2 := by
  obtain ⟨saved, hget, _, hbalanced⟩ := h.get
  simp only [TurnWorld.accept, MemoryStore.acceptInput, hget]
  refine ⟨⟨_, lookup_insert_self _ _, ?_⟩, List.subset_append_left _ _⟩
  exact hbalanced.accept rfl rfl

theorem remove (h : Account id w) (input : InputId) : Onward id w (w.remove id input).2 := by
  obtain ⟨saved, hget, _, hbalanced⟩ := h.get
  simp only [TurnWorld.remove, MemoryStore.removeInput, hget]
  cases hposition : saved.pending.findIdx? fun pending => pending.id = input with
  | none => exact h.refl
  | some position =>
    obtain ⟨hlt, hid, _⟩ := List.findIdx?_eq_some_iff_getElem.mp hposition
    have hid' : saved.pending[position].id = input := by simpa using hid
    refine ⟨⟨_, lookup_insert_self _ _, ?_⟩, List.Subset.refl _⟩
    rw [← hid']
    exact hbalanced.remove hlt rfl rfl

theorem commit (h : Account id w) (commit : Commit) (consumed : List ConsumedInput) (now : Nat) :
    Onward id w (w.commit id commit consumed now).2 := by
  obtain ⟨saved, hget, _, hbalanced⟩ := h.get
  simp only [TurnWorld.commit, MemoryStore.commit, hget]
  cases checkConsumedBlocks commit consumed with
  | error error => exact h.refl
  | ok _ =>
    cases hnone : MemoryStore.notPending saved.pending consumed [] with
    | some input => exact h.refl
    | none =>
      refine ⟨⟨_, lookup_insert_self _ _, ?_⟩, List.Subset.refl _⟩
      refine hbalanced.commit hnone rfl (?_ : _ = saved.content ++ [.commit commit consumed])
      simp [Saved.pushEvent, Saved.content]

theorem pending (h : Account id w) {pending : List PendingInput}
    (hpending : w.store.pending id = .ok pending) : ∀ input ∈ pending, input ∈ w.accepted := by
  obtain ⟨saved, hget, _, hbalanced⟩ := h.get
  rw [MemoryStore.pending, hget] at hpending
  cases hpending
  exact hbalanced.pending

theorem clients (h : Account id w) (hclients : Relation.ReflTransGen (ClientStep id) w w') :
    Onward id w w' ∧ w'.refused = w.refused := by
  induction hclients with
  | refl => exact ⟨h.refl, rfl⟩
  | tail _ hstep ih =>
    obtain ⟨⟨haccount, hsub⟩, hrefused⟩ := ih
    cases hstep with
    | accept input =>
      have hnext := haccount.accept input
      refine ⟨⟨hnext.account, List.Subset.trans hsub hnext.accepted⟩, ?_⟩
      rw [← hrefused]
      simp only [TurnWorld.accept]
      split <;> rfl
    | remove input =>
      have hnext := haccount.remove input
      refine ⟨⟨hnext.account, List.Subset.trans hsub hnext.accepted⟩, ?_⟩
      rw [← hrefused]
      simp only [TurnWorld.remove]
      split <;> rfl

theorem performs {α : Type} {out : Except StoreError α × TurnWorld} {reply : Except StoreError α}
    (h : Account id w) (hout : Onward id w out.2) (hperforms : Performs w out reply w') :
    Onward id w w' := by
  cases hperforms with
  | done => exact hout
  | lost => exact hout
  | failed => exact h.refl

theorem answers (h : Account id w) {a : SessionAwait} {reply : a.Reply}
    (hanswers : TurnAnswers id w a reply w') :
    Onward id w w' ∧ w'.refused = (takeFailure a reply).or w.refused := by
  obtain ⟨acted, replied, hclients, hreplies, rfl⟩ := hanswers
  obtain ⟨⟨haccount, hsub⟩, hrefused⟩ := h.clients hclients
  have hreplied : Onward id acted replied ∧ replied.refused = acted.refused := by
    obtain ⟨held, call⟩ := a
    cases call with
    | pending checked =>
      have hperforms : Performs acted (acted.store.pending id, acted) reply replied := hreplies
      cases hperforms <;> exact ⟨haccount.refl, rfl⟩
    | removeInput input =>
      have hperforms : Performs acted (acted.remove id input) reply replied := hreplies
      refine ⟨haccount.performs (haccount.remove input) hperforms, ?_⟩
      have hsame : (acted.remove id input).2.refused = acted.refused := by
        unfold TurnWorld.remove
        dsimp only
        split <;> rfl
      cases hperforms <;> first | exact hsame | rfl
    | acceptInput input =>
      have hperforms : Performs acted (acted.accept id input) reply replied := hreplies
      refine ⟨haccount.performs (haccount.accept input) hperforms, ?_⟩
      have hsame : (acted.accept id input).2.refused = acted.refused := by
        unfold TurnWorld.accept
        dsimp only
        split <;> rfl
      cases hperforms <;> first | exact hsame | rfl
    | commit commit consumed =>
      obtain ⟨now, hperforms⟩ : ∃ now,
        Performs acted (acted.commit id commit consumed now) reply replied := hreplies
      refine ⟨haccount.performs (haccount.commit commit consumed now) hperforms, ?_⟩
      cases hperforms <;> rfl
    | _ =>
      have hsame : replied = acted := hreplies
      subst hsame
      exact ⟨haccount.refl, rfl⟩
  obtain ⟨⟨haccount', hsub'⟩, hrefused'⟩ := hreplied
  refine ⟨⟨haccount', List.Subset.trans hsub hsub'⟩, ?_⟩
  change (takeFailure a reply).or replied.refused = _
  rw [hrefused', hrefused]

theorem answers_pending (h : Account id w) {held : Held}
    {checked : Option (PendingInput × InputDecision)} {pending : List PendingInput}
    (hanswers : TurnAnswers id w ⟨held, .pending checked⟩ (.ok pending) w') :
    ∀ input ∈ pending, input ∈ w'.accepted := by
  obtain ⟨acted, replied, hclients, hreplies, rfl⟩ := hanswers
  have haccount := (h.clients hclients).1.account
  have hperforms : Performs acted (acted.store.pending id, acted) (.ok pending) replied := hreplies
  generalize hreply : Except.ok pending = reply at hperforms
  cases hperforms with
  | done => exact haccount.pending hreply.symm
  | lost => cases hreply
  | failed => cases hreply

end Account

end Yuke.Agent
