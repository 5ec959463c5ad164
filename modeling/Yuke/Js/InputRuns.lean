import Yuke.Agent.TurnRules
import Yuke.Js.InputBefore

/-!
# The input hook of a turn

A plugin that blocks or replaces inputs relies on its handler: no input reaches a commit of a turn
past it. A cancel or a close that cuts the handlers off breaks this, because the call then gives no
answer, and the turn takes the input as it is.
-/

set_option autoImplicit false

namespace Yuke.Js

open Yuke.Ai (Block)
open Yuke.Engine
open Yuke.Protocol
open Yuke.Agent
open Yuke.Shared (Contract Program)

def HookEvent.refuses : HookEvent → Bool
  | .answers (.error _) | .answers (.ok (some (.block _))) | .answers (.ok (some .handled)) => true
  | _ => false

def HookEvent.cuts : HookEvent → Bool
  | .closes | .cancels => true
  | _ => false

structure Consult where
  input : PendingInput
  scopes : Option (List Scope)
  events : List HookEvent
  finish : HookEnd

def Consult.Runs (c : Consult) : Prop :=
  ∃ run, c.events.foldlM HookRun.step (startInputBefore c.scopes c.input.input.modelBlocks) =
    some run ∧ run.state = .ended c.finish

def Consult.Refused (c : Consult) : Prop := ∃ event ∈ c.events, event.refuses = true

/-- The session is open and the token is not cancelled while the handlers run. -/
def Consult.Uncut (c : Consult) : Prop :=
  c.scopes.isSome ∧ ∀ event ∈ c.events, event.cuts = false

def HookState.uncut (refused : Prop) : HookState → Prop
  | .running _ _ _ closed => closed = false ∧ ¬ refused
  | .ended .removed => refused
  | .ended (.ran _) | .ended (.failed _) => ¬ refused
  | .ended (.closed _) | .ended .cancelled => False

theorem HookState.uncut_next {refused : Prop} (h : ¬ refused) (left : List String)
    (current : List InputItem) (replaced : Bool) :
    (HookState.next left current replaced).uncut refused := by
  unfold HookState.next
  split
  · exact h
  · exact ⟨rfl, h⟩

theorem step_uncut {run run' : HookRun} {refused : Prop} {event : HookEvent}
    (h : run.state.uncut refused) (hcut : event.cuts = false)
    (hstep : run.step event = some run') :
    run'.state.uncut (refused ∨ event.refuses = true) := by
  obtain ⟨state, notices⟩ := run
  cases state with
  | ended finish => cases hstep
  | running left current replaced closed =>
    obtain ⟨rfl, hgoes⟩ := h
    cases left with
    | nil => cases hstep
    | cons plugin left =>
      have hon : ¬ (refused ∨ false = true) := by simpa using hgoes
      cases event with
      | closes | cancels => cases hcut
      | fails error =>
        cases hstep
        exact hon
      | answers answer =>
        rcases answer with text | _ | answer
        · cases hstep
          exact .inr rfl
        · cases hstep
          exact HookState.uncut_next hon ..
        · cases answer with
          | block | handled =>
            cases hstep
            exact .inr rfl
          | replace blocks =>
            cases hstep
            exact HookState.uncut_next hon ..

theorem run_uncut {run run' : HookRun} {refused : Prop} {events : List HookEvent}
    (h : run.state.uncut refused) (hcut : ∀ event ∈ events, event.cuts = false)
    (hrun : events.foldlM HookRun.step run = some run') :
    run'.state.uncut (refused ∨ ∃ event ∈ events, event.refuses = true) := by
  induction events generalizing run refused with
  | nil =>
    cases hrun
    simpa using h
  | cons event events ih =>
    rw [List.foldlM_cons] at hrun
    obtain ⟨middle, hstep, hrest⟩ := Option.bind_eq_some_iff.mp hrun
    have hmiddle := step_uncut h (hcut event List.mem_cons_self) hstep
    have hlast := ih hmiddle (fun other hother => hcut other (List.mem_cons_of_mem _ hother)) hrest
    simpa [or_assoc] using hlast

theorem Consult.finish_cases {c : Consult} (hruns : c.Runs) (huncut : c.Uncut) :
    (c.finish = .removed ∧ c.Refused) ∨
    (¬ c.Refused ∧ ((∃ replaced, c.finish = .ran replaced) ∨ ∃ error, c.finish = .failed error)) := by
  obtain ⟨run, hrun, hstate⟩ := hruns
  obtain ⟨scopes, hscopes⟩ := Option.isSome_iff_exists.mp huncut.1
  have hstart : (startInputBefore c.scopes c.input.input.modelBlocks).state.uncut False := by
    rw [hscopes]
    exact HookState.uncut_next not_false ..
  have hend := run_uncut hstart huncut.2 hrun
  rw [hstate] at hend
  cases hfinish : c.finish with
  | removed =>
    rw [hfinish] at hend
    exact .inl ⟨rfl, by simpa [HookState.uncut, Consult.Refused] using hend⟩
  | ran replaced =>
    rw [hfinish] at hend
    exact .inr ⟨by simpa [HookState.uncut, Consult.Refused] using hend, .inl ⟨replaced, rfl⟩⟩
  | failed error =>
    rw [hfinish] at hend
    exact .inr ⟨by simpa [HookState.uncut, Consult.Refused] using hend, .inr ⟨error, rfl⟩⟩
  | closed | cancelled =>
    rw [hfinish] at hend
    exact hend.elim

/-! ## The world of a turn with script hooks -/

/-- The runs of the handlers up to now. `last` is the one that ended just now. -/
structure HookWorld where
  consults : List Consult := []
  last : Option Consult := none

def HookReplies (allowed : Consult → Prop) (w : HookWorld) (a : SessionAwait) (reply : a.Reply)
    (w' : HookWorld) : Prop :=
  match a, reply with
  | ⟨_, .beforeInput input⟩, reply => ∃ c host, c.input = input ∧ c.Runs ∧ allowed c ∧
      reply = beforeInput host c.finish ∧ w' = ⟨w.consults ++ [c], some c⟩
  | _, _ => w' = { w with last := none }

/-- The input as the turn took it: a note of the session, or what its handlers left after they ran
to their end. -/
def Admitted (w : HookWorld) (input : PendingInput) : Prop :=
  ours input.input.source = true ∨ ∃ c ∈ w.consults, c.input.id = input.id ∧
    ((c.finish = .ran none ∧ input = c.input) ∨
      ∃ items blocks, c.finish = .ran (some items) ∧ List.Forall₂ Places items blocks ∧
        c.input.input.withModelContent blocks = .ok input.input)

structure Obeys (w : HookWorld) (call : SessionCall) : Prop where
  /-- Only admitted inputs enter a commit. -/
  commits : ∀ commit consumed, call = .commit commit consumed → ∃ inputs,
    consumed = records inputs ∧ (∀ input ∈ inputs, Admitted w input) ∧ Brings inputs commit
  /-- The turn removes an input that a handler refused. -/
  refused : ∀ c, w.last = some c → c.Refused → call = .removeInput c.input.id
  /-- The turn removes no other input. -/
  removes : ∀ id, call = .removeInput id → ∃ c, w.last = some c ∧ c.input.id = id ∧ c.Refused

def hookContract : Contract SessionAwait SessionAwait.Reply HookWorld where
  allowed w a := Obeys w a.call
  answers := HookReplies Consult.Uncut

def Calm (w : HookWorld) : Prop := ∀ c, w.last = some c → ¬ c.Refused

def Onwards (w w' : HookWorld) : Prop := Calm w' ∧ w.consults ⊆ w'.consults

section Turn

variable {w w' : HookWorld} {held : Held} {input : PendingInput}

theorem Admitted.mono (h : Admitted w input) (hsub : w.consults ⊆ w'.consults) :
    Admitted w' input := by
  rcases h with hours | ⟨c, hc, hfrom⟩
  · exact .inl hours
  · exact .inr ⟨c, hsub hc, hfrom⟩

theorem calm_none {consults : List Consult} : Calm ⟨consults, none⟩ := fun _ h => nomatch h

theorem onwards_none : Onwards w { w with last := none } := ⟨calm_none, List.Subset.refl _⟩

theorem Onwards.trans {w'' : HookWorld} (h : Onwards w w') (h' : Onwards w' w'') :
    Onwards w w'' :=
  ⟨h'.1, List.Subset.trans h.2 h'.2⟩

theorem Calm.obeys (h : Calm w) {call : SessionCall}
    (hcommit : ∀ commit consumed, call ≠ .commit commit consumed)
    (hremove : ∀ id, call ≠ .removeInput id) : Obeys w call where
  commits := fun commit consumed heq => absurd heq (hcommit commit consumed)
  refused := fun c hlast hrefused => absurd hrefused (h c hlast)
  removes := fun id heq => absurd heq (hremove id)

theorem asks_calm (h : Calm w) {call : SessionCall} {β : Type} {f : call.Reply → Sessioning β}
    {post : β → HookWorld → Prop} (hcommit : ∀ commit consumed, call ≠ .commit commit consumed)
    (hremove : ∀ id, call ≠ .removeInput id) (hbefore : ∀ input, call ≠ .beforeInput input)
    (hf : ∀ reply, (f reply).Holds hookContract post { w with last := none }) :
    (ask held call >>= f).Holds hookContract post w := by
  refine ⟨h.obeys hcommit hremove, fun reply w' hanswers => ?_⟩
  have heq : w' = { w with last := none } := by
    cases call with
    | beforeInput input => exact absurd rfl (hbefore input)
    | _ => exact hanswers
  rw [heq]
  exact hf reply

def Checked (w : HookWorld) (out : Except TakeError (Option PendingInput)) (w' : HookWorld) :
    Prop :=
  Onwards w w' ∧ ∀ found, out = .ok (some found) → Admitted w' found

theorem gone_settle (hcalm : Calm w) {decision : InputDecision} (hdecision : decision ≠ .remove)
    (hkeep : decision = .keep → Admitted w input)
    (hreplace : ∀ blocks replaced, decision = .replace blocks →
      input.input.withModelContent blocks = .ok replaced →
        Admitted w { input with input := replaced }) :
    (gone held input decision >>= fun left =>
      match left with
      | .error error => pure (.error error)
      | .ok true => pure (.ok none)
      | .ok false => settle held input decision).Holds hookContract (Checked w) w := by
  unfold gone
  rw [if_neg hdecision]
  refine Program.holds_bind.mpr (asks_calm hcalm (by simp) (by simp) (by simp) fun reply => ?_)
  rcases reply with error | pending
  · exact ⟨onwards_none, fun _ heq => by cases heq⟩
  · simp only [Program.pure_eq_done, Program.holds_done]
    cases pending.any fun other => other.id = input.id with
    | false => exact ⟨onwards_none, fun _ heq => by cases heq⟩
    | true =>
      cases decision with
      | keep =>
        refine ⟨onwards_none, ?_⟩
        rintro _ ⟨rfl⟩
        exact (hkeep rfl).mono (List.Subset.refl _)
      | replace blocks =>
        cases hreplaced : input.input.withModelContent blocks with
        | error error =>
          simp only [Bool.not_true, settle, hreplaced]
          exact ⟨onwards_none, fun _ heq => by cases heq⟩
        | ok replaced =>
          simp only [Bool.not_true, settle, hreplaced]
          refine ⟨onwards_none, ?_⟩
          rintro _ ⟨rfl⟩
          exact (hreplace blocks replaced rfl hreplaced).mono (List.Subset.refl _)
      | remove => exact absurd rfl hdecision

theorem settle_removed {c : Consult} (hlast : w.last = some c) (hrefused : c.Refused)
    (hid : c.input.id = input.id) :
    (settle held input .remove).Holds hookContract (Checked w) w := by
  refine ⟨⟨?_, ?_, ?_⟩, fun reply w' hanswers => ?_⟩
  · exact fun _ _ heq => by cases heq
  · intro other hother _
    rw [hlast] at hother
    cases hother
    rw [hid]
  · intro id heq
    cases heq
    exact ⟨c, hlast, hid, hrefused⟩
  · obtain rfl : w' = { w with last := none } := hanswers
    rcases reply with error | _
    · cases error <;> exact ⟨onwards_none, fun _ heq => by cases heq⟩
    · refine asks_calm calm_none (by simp) (by simp) (by simp) fun _ => ?_
      exact ⟨onwards_none, fun _ heq => by cases heq⟩

theorem check_admits (hcalm : Calm w) : (check held input).Holds hookContract (Checked w) w := by
  unfold check
  refine Program.holds_bind.mpr ?_
  unfold Agent.beforeInput
  split
  · next hours =>
    exact gone_settle hcalm (by simp) (fun _ => .inl hours) fun _ _ heq => by cases heq
  refine ⟨hcalm.obeys (by simp) (by simp), fun reply w' hanswers => ?_⟩
  obtain ⟨c, host, rfl, hruns, huncut, rfl, rfl⟩ := hanswers
  have hsub : w.consults ⊆ w.consults ++ [c] := List.subset_append_left _ _
  have hmem : c ∈ w.consults ++ [c] := List.mem_append_right _ List.mem_cons_self
  obtain ⟨hfinish, hrefused⟩ | ⟨hgoes, hfinish⟩ := Consult.finish_cases hruns huncut
  · rw [hfinish]
    refine (settle_removed rfl hrefused rfl).mono fun out w'' h => ?_
    exact ⟨⟨h.1.1, List.Subset.trans hsub h.1.2⟩, h.2⟩
  · have hcalm' : Calm ⟨w.consults ++ [c], some c⟩ := by
      rintro _ ⟨rfl⟩
      exact hgoes
    have hrest : ∀ {decision : InputDecision}, decision ≠ .remove → (decision = .keep → c.finish = .ran none) →
        (∀ blocks, decision = .replace blocks → ∃ items, c.finish = .ran (some items) ∧
          List.Forall₂ Places items blocks) →
        (gone held c.input decision >>= fun left =>
          match left with
          | .error error => pure (.error error)
          | .ok true => pure (.ok none)
          | .ok false => settle held c.input decision).Holds hookContract (Checked w)
            ⟨w.consults ++ [c], some c⟩ := by
      intro decision hremove hkeep hreplace
      refine (gone_settle hcalm' hremove ?_ ?_).mono fun out w'' h => ?_
      · exact fun heq => .inr ⟨c, hmem, rfl, .inl ⟨hkeep heq, rfl⟩⟩
      · intro blocks replaced heq hreplaced
        obtain ⟨items, hitems, hplaces⟩ := hreplace blocks heq
        exact .inr ⟨c, hmem, rfl, .inr ⟨items, blocks, hitems, hplaces, hreplaced⟩⟩
      · exact ⟨⟨h.1.1, List.Subset.trans hsub h.1.2⟩, h.2⟩
    have hfailed : ∀ {error : TakeError}, (pure (.error error) :
        Sessioning (Except TakeError (Option PendingInput))).Holds hookContract (Checked w)
          ⟨w.consults ++ [c], some c⟩ :=
      ⟨⟨hcalm', hsub⟩, fun _ heq => by cases heq⟩
    obtain ⟨replaced, hran⟩ | ⟨error, hfailure⟩ := hfinish
    · cases replaced with
      | none =>
        rw [hran]
        exact hrest (by simp) (fun _ => hran) fun _ heq => by cases heq
      | some items =>
        rw [hran]
        cases hstored : stored host "input.before" items with
        | error error =>
          simp only [Js.beforeInput, HookEnd.answer, hstored]
          exact hfailed
        | ok blocks =>
          simp only [Js.beforeInput, HookEnd.answer, hstored]
          refine @hrest (.replace blocks) (by simp) (fun heq => by cases heq) ?_
          rintro _ ⟨rfl⟩
          exact ⟨items, hran, stored_places hstored⟩
    · rw [hfailure]
      exact hfailed

theorem hook_rules : TurnRules hookContract Onwards Calm (fun _ _ => True) Admitted where
  refl := fun w hcalm => ⟨hcalm, List.Subset.refl _⟩
  trans := fun _ _ _ => Onwards.trans
  onward := fun _ _ h => h.1
  source_mono := fun _ _ _ _ _ => trivial
  good_mono := fun _ _ _ h hadmitted => hadmitted.mono h.2
  pending := by
    intro held w hcalm
    refine ⟨hcalm.obeys (by simp) (by simp), fun reply w' hanswers => ?_⟩
    obtain rfl : w' = { w with last := none } := hanswers
    exact ⟨onwards_none, fun _ _ _ _ => trivial⟩
  check := fun held w input hcalm _ => check_admits hcalm
  ask := by
    intro held w call hcalm hplain
    refine ⟨hcalm.obeys ?_ ?_, fun reply w' hanswers => ?_⟩
    · rintro commit consumed rfl
      cases hplain
    · rintro id rfl
      cases hplain
    · have heq : w' = { w with last := none } := by
        cases call with
        | beforeInput input => cases hplain
        | _ => exact hanswers
      rw [heq]
      exact onwards_none
  commit := by
    intro held w commit inputs hcalm hadmitted hbrings
    refine ⟨⟨?_, ?_, ?_⟩, fun reply w' hanswers => ?_⟩
    · intro commit' consumed heq
      cases heq
      exact ⟨inputs, rfl, hadmitted, hbrings⟩
    · exact fun c hlast hrefused => absurd hrefused (hcalm c hlast)
    · exact fun id heq => by cases heq
    · obtain rfl : w' = { w with last := none } := hanswers
      exact onwards_none

/-- In each run of a turn where no cancel and no close cuts the handlers off, each commit holds only
what the handlers left, and the turn removes exactly the inputs that a handler refused. -/
theorem input_hook_not_bypassed (setup : TurnSetup) (fuel : Nat) (session : Session)
    {trace : List ((a : SessionAwait) × a.Reply)} {a : SessionAwait}
    {next : a.Reply → Sessioning (Except SessionError Outcome × Session)}
    (hrun : Program.Run (HookReplies Consult.Uncut) (session.runTurn setup fuel) {} trace
      (.call a next) w) : Obeys w a.call :=
  (hook_rules.runTurn setup fuel session calm_none).allowed_of_run hrun

end Turn

def pluginConsult (events : List HookEvent) (finish : HookEnd) (input : PendingInput) : Consult :=
  ⟨input, some [⟨"redact", false, 1⟩], events, finish⟩

def emptyHost : SessionHost where
  read := fun _ => .error "no such file"
  putMedia := fun _ => .error { text := "the store failed" }

/-- A world with one pending input, whose handlers see `events`. -/
def consultWorld (events : List HookEvent) (finish : HookEnd) (w : HookWorld) (a : SessionAwait) :
    a.Reply × HookWorld :=
  match a with
  | ⟨_, .beforeInput input⟩ =>
    let c := pluginConsult events finish input
    (beforeInput emptyHost finish, ⟨w.consults ++ [c], some c⟩)
  | ⟨_, .pending _⟩ => (Except.ok [⟨⟨1⟩, messageInput "a secret"⟩], { w with last := none })
  | ⟨_, .drive wait⟩ => (calmReply helloCompletion ⟨[], wait⟩, { w with last := none })
  | ⟨_, .commit _ _⟩ => (Except.ok ⟨1⟩, { w with last := none })
  | ⟨_, .removeInput _⟩ => (Except.ok (), { w with last := none })
  | ⟨_, .update _⟩ => ((), { w with last := none })
  | ⟨_, .acceptInput _⟩ | ⟨_, .createSession _ _ _⟩ | ⟨_, .forkSession _⟩ | ⟨_, .openSession _⟩
  | ⟨_, .setSettings _⟩ => (Except.error .notFound, { w with last := none })

def consultRun (events : List HookEvent) (finish : HookEnd) (steps : Nat) :
    List ((a : SessionAwait) × a.Reply) ×
      Sessioning (Except SessionError Outcome × Session) × HookWorld :=
  (busySession.runTurn busySetup 3).follow (consultWorld events finish) steps {}

theorem consultWorld_replies {events : List HookEvent} {finish : HookEnd}
    {allowed : Consult → Prop} (hruns : ∀ input, (pluginConsult events finish input).Runs)
    (hallowed : ∀ input, allowed (pluginConsult events finish input)) (w : HookWorld)
    (a : SessionAwait) : HookReplies allowed w a (consultWorld events finish w a).1
      (consultWorld events finish w a).2 := by
  obtain ⟨held, call⟩ := a
  cases call with
  | beforeInput input =>
    exact ⟨_, emptyHost, rfl, hruns input, hallowed input, rfl, rfl⟩
  | _ => rfl

theorem consultRun_run (allowed : Consult → Prop) (events : List HookEvent) (finish : HookEnd)
    (hruns : ∀ input, (pluginConsult events finish input).Runs)
    (hallowed : ∀ input, allowed (pluginConsult events finish input)) (steps : Nat) :
    Program.Run (HookReplies allowed) (busySession.runTurn busySetup 3) {}
      (consultRun events finish steps).1 (consultRun events finish steps).2.1
      (consultRun events finish steps).2.2 :=
  Program.run_follow (consultWorld_replies hruns hallowed) steps _ _

/-- The handler of a plugin keeps an input, and the turn commits it. -/
theorem input_hook_not_bypassed_kept :
    ∃ held commit consumed next, (consultRun [.answers (.ok none)] (.ran none) 3).2.1 =
        .call ⟨held, .commit commit consumed⟩ next ∧ consumed.length = 1 ∧
      Obeys (consultRun [.answers (.ok none)] (.ran none) 3).2.2 (.commit commit consumed) := by
  have hrun := consultRun_run Consult.Uncut [.answers (.ok none)] (.ran none)
    (fun input => ⟨_, rfl, rfl⟩) (fun _ => ⟨rfl, by simp [pluginConsult, HookEvent.cuts]⟩) 3
  exact ⟨_, _, _, _, rfl, rfl, input_hook_not_bypassed busySetup 3 busySession hrun⟩

/-- A cancel while the handler of a plugin runs: the turn commits the input as it is. -/
theorem input_hook_bypassed :
    ¬ ∀ (setup : TurnSetup) (fuel : Nat) (session : Session)
      (trace : List ((a : SessionAwait) × a.Reply)) (a : SessionAwait)
      (next : a.Reply → Sessioning (Except SessionError Outcome × Session)) (w : HookWorld),
      Program.Run (HookReplies fun _ => True) (session.runTurn setup fuel) {} trace
        (.call a next) w → Obeys w a.call := by
  intro h
  have hrun := consultRun_run (fun _ => True) [.cancels] .cancelled
    (fun input => ⟨_, rfl, rfl⟩) (fun _ => trivial) 3
  have hcommit : ∃ held commit record next, (consultRun [.cancels] .cancelled 3).2.1 =
      .call ⟨held, .commit commit [record]⟩ next ∧ record.source = .user ∧
      ∃ input, (consultRun [.cancels] .cancelled 3).2.2.consults =
        [pluginConsult [.cancels] .cancelled input] := ⟨_, _, _, _, rfl, rfl, _, rfl⟩
  obtain ⟨held, commit, record, next, hcall, hsource, input, hconsults⟩ := hcommit
  rw [hcall] at hrun
  obtain ⟨inputs, hrecords, hadmitted, -⟩ :=
    (h busySetup 3 busySession _ _ _ _ hrun).commits commit [record] rfl
  obtain ⟨taken, htaken, rfl⟩ := List.mem_map.mp (hrecords ▸ List.mem_singleton_self record)
  rcases hadmitted taken htaken with hours | ⟨c, hc, -, hfrom⟩
  · have huser : taken.input.source = .user := hsource
    rw [huser] at hours
    cases hours
  · rw [hconsults] at hc
    rw [List.mem_singleton.mp hc] at hfrom
    rcases hfrom with ⟨hran, -⟩ | ⟨items, blocks, hran, -⟩
    · cases hran
    · cases hran

end Yuke.Js
