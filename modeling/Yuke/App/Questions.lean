import Yuke.Protocol.Interaction
import Yuke.Shared.Steps

/-!
# The open questions of the sessions

An ask opens a question and waits for its answer, for the cancel of its turn, or for the close of
its session. A client answers in two steps with other work between them: the answer leaves the open
questions, and then it goes to the asker.
-/

set_option autoImplicit false

namespace Yuke.App

open Yuke.Protocol (SessionId InteractionId InteractionRequest InteractionResponse InvalidAnswer
  checkAnswer)
open Yuke.Shared (Steps outcome when)

/-- How the app runs: as a server that clients come to, or for one task with no client. -/
inductive Mode where
  | server
  | print
  deriving DecidableEq

structure Question where
  source : String
  request : InteractionRequest
  deriving DecidableEq

inductive AnswerError where
  | noInteraction (id : InteractionId)
  | invalid (reason : InvalidAnswer)
  deriving DecidableEq

/-- What the receiver of an asker finds. `closed` is the drop of the sender. -/
inductive Answered where
  | waiting
  | sent (response : InteractionResponse)
  | closed
  deriving DecidableEq

/-- An ask that waits. `cancel` is the cancellation token of its caller. -/
structure Asking where
  session : SessionId
  cancel : Nat
  answered : Answered
  deriving DecidableEq

inductive Entry where
  | notice (session : SessionId) (message : String)
  | interactionRequested (session : SessionId) (id : InteractionId) (question : Question)
  | interactionClosed (session : SessionId) (id : InteractionId)
  /-- The end of a call that answers a question. -/
  | answered (id : InteractionId) (response : InteractionResponse) (out : Except AnswerError Unit)
  /-- The end of an ask, with its question unless no client can answer. -/
  | returned (id : Option InteractionId) (response : InteractionResponse)
  /-- The caller of an ask stopped waiting. -/
  | dropped (id : InteractionId)

/-- The questions of every session. `answering` holds each answer that left its question and did not
go to the asker yet. -/
structure Questions where
  mode : Mode
  lastQuestion : Nat := 0
  opened : SessionId → InteractionId → Option Question := fun _ _ => none
  asking : InteractionId → Option Asking := fun _ => none
  answering : Nat → Option (InteractionId × InteractionResponse) := fun _ => none
  cancelled : List Nat := []
  closed : List SessionId := []
  log : List Entry := []

namespace Questions

def tell (s : Questions) (entry : Entry) : Questions := { s with log := s.log ++ [entry] }

def setOpened (s : Questions) (session : SessionId) (id : InteractionId)
    (question : Option Question) : Questions :=
  let ids := Function.update (s.opened session) id question
  { s with opened := Function.update s.opened session ids }

def setAsking (s : Questions) (id : InteractionId) (asking : Option Asking) : Questions :=
  { s with asking := Function.update s.asking id asking }

def setAnswering (s : Questions) (client : Nat)
    (answer : Option (InteractionId × InteractionResponse)) : Questions :=
  { s with answering := Function.update s.answering client answer }

/-- Open the question `request` of `source`, with an asker that waits for its answer. -/
def openQuestion (s : Questions) (session : SessionId) (source : String)
    (request : InteractionRequest) (cancel : Nat) : Questions :=
  let id : InteractionId := ⟨s.lastQuestion + 1⟩
  let counted := { s with lastQuestion := id.number }
  ((counted.setOpened session id (some ⟨source, request⟩)).setAsking id
    (some ⟨session, cancel, .waiting⟩)).tell (.interactionRequested session id ⟨source, request⟩)

/-- End the question `id` without an answer, when it is still open. Its sender goes with it. -/
def closeQuestion (s : Questions) (session : SessionId) (id : InteractionId) : Questions :=
  match s.opened session id with
  | none => s
  | some _ =>
    ((s.setOpened session id none).setAsking id ((s.asking id).map fun asking =>
      { asking with answered := .closed })).tell (.interactionClosed session id)

/-- Take the open question `id` for the answer `response` of `client`. -/
def answerQuestion (s : Questions) (client : Nat) (session : SessionId) (id : InteractionId)
    (response : InteractionResponse) : Questions :=
  match s.opened session id with
  | none => s.tell (.answered id response (.error (.noInteraction id)))
  | some question =>
    match checkAnswer question.request response with
    | .error reason => s.tell (.answered id response (.error (.invalid reason)))
    | .ok () =>
      ((s.setOpened session id none).tell (.interactionClosed session id)).setAnswering client
        (some (id, response))

/-- Send the answer that `client` took to its asker. -/
def sendAnswer (s : Questions) (client : Nat) (id : InteractionId)
    (response : InteractionResponse) : Questions :=
  let sent := s.setAnswering client none
  match s.asking id with
  | some ⟨session, cancel, .waiting⟩ =>
    (sent.setAsking id (some ⟨session, cancel, .sent response⟩)).tell
      (.answered id response (.ok ()))
  | _ => sent.tell (.answered id response (.error (.noInteraction id)))

def ask (s : Questions) (session : SessionId) (source : String) (request : InteractionRequest)
    (cancel : Nat) : Questions :=
  match s.mode, request with
  | .print, .questions questions =>
    let headers := ", ".intercalate (questions.map fun question => question.header)
    let message := "no client can answer the question of " ++ source ++ ": " ++ headers
    (s.tell (.notice session message)).tell (.returned none .canceled)
  | .server, request => s.openQuestion session source request cancel

def leave (s : Questions) (id : InteractionId) (asking : Asking) : Questions :=
  (s.setAsking id none).closeQuestion asking.session id

end Questions

inductive Branch where
  | answered
  | cancelled
  | closed
  deriving DecidableEq

/-- The response of an ask that takes the branch, or `none` while the branch is not ready. -/
def Questions.ready (s : Questions) (asking : Asking) : Branch → Option InteractionResponse
  | .answered =>
    match asking.answered with
    | .waiting => none
    | .sent response => some response
    | .closed => some .canceled
  | .cancelled => if asking.cancel ∈ s.cancelled then some .canceled else none
  | .closed => if asking.session ∈ s.closed then some .canceled else none

inductive QuestionEvent where
  | ask (session : SessionId) (source : String) (request : InteractionRequest) (cancel : Nat)
  | answer (client : Nat) (session : SessionId) (id : InteractionId)
      (response : InteractionResponse)
  | send (client : Nat)
  | cancel (token : Nat)
  | close (session : SessionId)
  | poll (id : InteractionId) (branch : Branch)
  | drop (id : InteractionId)
  deriving DecidableEq

/-- The questions after `event`, or `none` when the event cannot happen. -/
def Questions.step (s : Questions) : QuestionEvent → Option Questions
  | .ask session source request cancel => some (s.ask session source request cancel)
  | .answer client session id response =>
    if (s.answering client).isSome then none
    else some (s.answerQuestion client session id response)
  | .send client => (s.answering client).map fun answer => s.sendAnswer client answer.1 answer.2
  | .cancel token => some { s with cancelled := token :: s.cancelled }
  | .close session => some { s with closed := session :: s.closed }
  | .poll id branch =>
    (s.asking id).bind fun asking => (s.ready asking branch).map fun response =>
      (s.leave id asking).tell (.returned (some id) response)
  | .drop id => (s.asking id).map fun asking => (s.leave id asking).tell (.dropped id)

/-- The entry tells about the question `id`. A refused answer changes nothing. -/
def Entry.about (id : InteractionId) : Entry → Bool
  | .notice _ _ => false
  | .interactionRequested _ other _ => other = id
  | .interactionClosed _ other => other = id
  | .answered other _ (.ok ()) => other = id
  | .answered _ _ (.error _) => false
  | .returned other _ => other = some id
  | .dropped other => other = id

namespace Questions

/-- What the log tells about the question `id`. -/
def course (s : Questions) (id : InteractionId) : List Entry := s.log.filter (·.about id)

/-- A client took an answer to the question `id`. -/
def Taken (s : Questions) (id : InteractionId) : Prop :=
  ∃ client response, s.answering client = some (id, response)

inductive Ending (id : InteractionId) : Entry → Prop where
  | returned (response : InteractionResponse) : Ending id (.returned (some id) response)
  | dropped : Ending id (.dropped id)

/-- The entry gives the answer `response` to the asker. -/
def Gives (response : InteractionResponse) (ending : Entry) : Prop :=
  ∀ id given, ending = .returned id given → given = response

/-- Where the question `id` stands, with what the log tells about it. With `kept`, an accepted answer
reached its asker. -/
inductive Stage (kept : Prop) (s : Questions) (id : InteractionId) : List Entry → Prop where
  | fresh : id.number = 0 ∨ s.lastQuestion < id.number → s.asking id = none →
      (∀ session, s.opened session id = none) → ¬ s.Taken id → Stage kept s id []
  | asked {asking : Asking} {question : Question} : id.number ≤ s.lastQuestion →
      s.asking id = some asking → asking.answered = .waiting →
      s.opened asking.session id = some question →
      (∀ session, session ≠ asking.session → s.opened session id = none) → ¬ s.Taken id →
      Stage kept s id [.interactionRequested asking.session id question]
  | taken {asking : Asking} {question : Question} : id.number ≤ s.lastQuestion →
      s.asking id = some asking → asking.answered = .waiting →
      (∀ session, s.opened session id = none) → s.Taken id →
      Stage kept s id [.interactionRequested asking.session id question,
        .interactionClosed asking.session id]
  | answered {asking : Asking} {question : Question} {response : InteractionResponse} :
      id.number ≤ s.lastQuestion → s.asking id = some asking →
      asking.answered = .sent response → (∀ session, s.opened session id = none) →
      ¬ s.Taken id →
      Stage kept s id [.interactionRequested asking.session id question,
        .interactionClosed asking.session id, .answered id response (.ok ())]
  | left {session : SessionId} {question : Question} {ending : Entry} :
      id.number ≤ s.lastQuestion → s.asking id = none →
      (∀ session, s.opened session id = none) → Ending id ending → Gives .canceled ending →
      Stage kept s id [.interactionRequested session id question,
        .interactionClosed session id, ending]
  | ended {session : SessionId} {question : Question} {response : InteractionResponse}
      {ending : Entry} : id.number ≤ s.lastQuestion → s.asking id = none →
      (∀ session, s.opened session id = none) → ¬ s.Taken id → Ending id ending →
      (kept → Gives response ending) →
      Stage kept s id [.interactionRequested session id question,
        .interactionClosed session id, .answered id response (.ok ()), ending]

structure Inv (kept : Prop) (s : Questions) : Prop where
  single : ∀ client client' answer answer', s.answering client = some answer →
    s.answering client' = some answer' → answer.1 = answer'.1 → client = client'
  stage : ∀ id, Stage kept s id (s.course id)

section Fields

variable {s : Questions} {session : SessionId} {id other : InteractionId} {entry : Entry}
variable {asking : Option Asking} {question : Option Question} {client : Nat}
variable {answer : Option (InteractionId × InteractionResponse)}

@[simp] theorem tell_lastQuestion : (s.tell entry).lastQuestion = s.lastQuestion := rfl
@[simp] theorem tell_asking : (s.tell entry).asking = s.asking := rfl
@[simp] theorem tell_answering : (s.tell entry).answering = s.answering := rfl
@[simp] theorem tell_log : (s.tell entry).log = s.log ++ [entry] := rfl

@[simp] theorem setOpened_asking : (s.setOpened session id question).asking = s.asking := rfl
@[simp] theorem setOpened_answering :
    (s.setOpened session id question).answering = s.answering := rfl
@[simp] theorem setOpened_log : (s.setOpened session id question).log = s.log := rfl

@[simp] theorem setAsking_log : (s.setAsking id asking).log = s.log := rfl

@[simp] theorem setAnswering_log : (s.setAnswering client answer).log = s.log := rfl

@[simp] theorem setOpened_opened_self :
    (s.setOpened session id question).opened session id = question := by
  simp [setOpened]

theorem setOpened_opened_of_ne_id (h : other ≠ id) (session' : SessionId) :
    (s.setOpened session id question).opened session' other = s.opened session' other := by
  by_cases hsession : session' = session
  · subst hsession
    simp [setOpened, h]
  · simp [setOpened, hsession]

theorem setOpened_opened_of_ne_session {session' : SessionId} (h : session' ≠ session)
    (other : InteractionId) :
    (s.setOpened session id question).opened session' other = s.opened session' other := by
  simp [setOpened, h]

@[simp] theorem setAsking_asking_self : (s.setAsking id asking).asking id = asking := by
  simp [setAsking]

theorem setAsking_asking_of_ne (h : other ≠ id) :
    (s.setAsking id asking).asking other = s.asking other := by
  simp [setAsking, h]

@[simp] theorem course_setOpened : (s.setOpened session id question).course other =
    s.course other := rfl

@[simp] theorem course_setAsking : (s.setAsking id asking).course other = s.course other := rfl

@[simp] theorem course_setAnswering : (s.setAnswering client answer).course other =
    s.course other := rfl

theorem course_tell_of_about (h : entry.about id) :
    (s.tell entry).course id = s.course id ++ [entry] := by
  simp [course, h]

theorem course_tell_of_not_about (h : entry.about id = false) :
    (s.tell entry).course id = s.course id := by
  simp [course, h]

end Fields

/-- The question `id` stands in `t` where it stood in `s`. -/
structure Same (s t : Questions) (id : InteractionId) : Prop where
  counted : id.number ≤ t.lastQuestion ↔ id.number ≤ s.lastQuestion
  asking : t.asking id = s.asking id
  opened : ∀ session, t.opened session id = s.opened session id
  taken : t.Taken id ↔ s.Taken id
  course : t.course id = s.course id

theorem Stage.same {kept : Prop} {s t : Questions} {id : InteractionId}
    (h : Stage kept s id (s.course id)) (hsame : Same s t id) :
    Stage kept t id (t.course id) := by
  obtain ⟨hcounted, hasking, hopened, htaken, hcourse⟩ := hsame
  rw [hcourse]
  generalize s.course id = course at h
  have hnone : (∀ session, s.opened session id = none) → ∀ session, t.opened session id = none := by
    intro hnone session
    rw [hopened, hnone]
  cases h with
  | fresh hnumber hask hopen htake =>
    refine .fresh ?_ (hasking.trans hask) (hnone hopen) (mt htaken.mp htake)
    omega
  | asked hnumber hask hwait hopen hother htake =>
    refine .asked (hcounted.mpr hnumber) (hasking.trans hask) hwait ((hopened _).trans hopen) ?_
      (mt htaken.mp htake)
    intro session hsession
    rw [hopened, hother session hsession]
  | taken hnumber hask hwait hopen htake =>
    exact .taken (hcounted.mpr hnumber) (hasking.trans hask) hwait (hnone hopen) (htaken.mpr htake)
  | answered hnumber hask hsent hopen htake =>
    exact .answered (hcounted.mpr hnumber) (hasking.trans hask) hsent (hnone hopen)
      (mt htaken.mp htake)
  | left hnumber hask hopen hending hgives =>
    exact .left (hcounted.mpr hnumber) (hasking.trans hask) (hnone hopen) hending hgives
  | ended hnumber hask hopen htake hending hgives =>
    exact .ended (hcounted.mpr hnumber) (hasking.trans hask) (hnone hopen) (mt htaken.mp htake)
      hending hgives

theorem Inv.of_same {kept : Prop} {s t : Questions} (h : Inv kept s)
    (hanswering : t.answering = s.answering) (hsame : ∀ id, Same s t id) : Inv kept t where
  single := by
    rw [hanswering]
    exact h.single
  stage := fun id => (h.stage id).same (hsame id)

theorem same_tell {s : Questions} {entry : Entry} {id : InteractionId}
    (h : entry.about id = false) : Same s (s.tell entry) id :=
  ⟨.rfl, rfl, fun _ => rfl, .rfl, course_tell_of_not_about h⟩

end Questions

end Yuke.App
