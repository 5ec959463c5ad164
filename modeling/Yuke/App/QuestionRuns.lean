import Yuke.App.Questions

/-!
# The end of each question

In each run the questions get larger and larger ids, each question closes once, and at most one
answer to it is accepted. An ask can still miss an accepted answer, when the cancel of its caller or
the close of its session is ready at the same poll.
-/

set_option autoImplicit false

namespace Yuke.App

open Yuke.Protocol (SessionId InteractionId InteractionRequest InteractionResponse InvalidAnswer
  checkAnswer)
open Yuke.Shared (Steps outcome when)

namespace Questions

variable {kept : Prop} {s t : Questions} {session : SessionId} {id other : InteractionId}

theorem about_of_ne {entry : Entry} (h : other ≠ id) (habout : entry.about id = true) :
    entry.about other = false := by
  cases entry with
  | notice => rfl
  | interactionRequested _ at' _ =>
    simp only [Entry.about, decide_eq_true_eq, decide_eq_false_iff_not] at habout ⊢
    rw [habout]
    exact Ne.symm h
  | interactionClosed _ at' =>
    simp only [Entry.about, decide_eq_true_eq, decide_eq_false_iff_not] at habout ⊢
    rw [habout]
    exact Ne.symm h
  | answered at' _ out =>
    cases out with
    | error => rfl
    | ok =>
      simp only [Entry.about, decide_eq_true_eq, decide_eq_false_iff_not] at habout ⊢
      rw [habout]
      exact Ne.symm h
  | returned at' _ =>
    simp only [Entry.about, decide_eq_true_eq, decide_eq_false_iff_not] at habout ⊢
    rw [habout]
    simpa using Ne.symm h
  | dropped at' =>
    simp only [Entry.about, decide_eq_true_eq, decide_eq_false_iff_not] at habout ⊢
    rw [habout]
    exact Ne.symm h

theorem Inv.openQuestion (h : Inv kept s) (source : String) (request : InteractionRequest)
    (cancel : Nat) : Inv kept (s.openQuestion session source request cancel) := by
  refine ⟨h.single, fun id => ?_⟩
  by_cases hid : id = ⟨s.lastQuestion + 1⟩
  · subst hid
    have hstage := h.stage ⟨s.lastQuestion + 1⟩
    have hempty : s.course ⟨s.lastQuestion + 1⟩ = [] ∧ ¬ s.Taken ⟨s.lastQuestion + 1⟩ ∧
        ∀ session, s.opened session ⟨s.lastQuestion + 1⟩ = none := by
      generalize s.course ⟨s.lastQuestion + 1⟩ = course at hstage
      cases hstage with
      | fresh _ _ hopen htake => exact ⟨rfl, htake, hopen⟩
      | asked hnumber | taken hnumber | answered hnumber | left hnumber | ended hnumber =>
        exact absurd hnumber (by simp)
    obtain ⟨hcourse, htake, hopen⟩ := hempty
    have hnew : (s.openQuestion session source request cancel).course ⟨s.lastQuestion + 1⟩ =
        [.interactionRequested session ⟨s.lastQuestion + 1⟩ ⟨source, request⟩] := by
      refine (course_tell_of_about (by simp [Entry.about])).trans ?_
      exact congrArg (· ++ [_]) hcourse
    rw [hnew]
    refine @Stage.asked _ _ _ ⟨session, cancel, .waiting⟩ _ le_rfl ?_ rfl ?_ ?_ htake
    · exact setAsking_asking_self
    · exact setOpened_opened_self
    · intro session' hsession
      refine (setOpened_opened_of_ne_session hsession _).trans ?_
      exact hopen session'
  · refine (h.stage id).same ⟨?_, ?_, ?_, .rfl, ?_⟩
    · have hne : id.number ≠ s.lastQuestion + 1 := fun hnumber => hid (by cases id; simp_all)
      change id.number ≤ s.lastQuestion + 1 ↔ _
      omega
    · exact setAsking_asking_of_ne hid
    · intro session'
      exact setOpened_opened_of_ne_id hid session'
    · refine course_tell_of_not_about ?_
      exact about_of_ne hid (by simp [Entry.about])

theorem Inv.ask (h : Inv kept s) (source : String) (request : InteractionRequest) (cancel : Nat) :
    Inv kept (s.ask session source request cancel) := by
  unfold Questions.ask
  split
  · have hnoticed : ∀ message, Inv kept (s.tell (.notice session message)) :=
      fun message => h.of_same rfl fun id => same_tell rfl
    refine (hnoticed _).of_same rfl fun id => same_tell ?_
    simp [Entry.about]
  · exact h.openQuestion source _ cancel

theorem Inv.stage_open (h : Inv kept s) {question : Question}
    (hopen : s.opened session id = some question) : ∃ asking : Asking, asking.session = session ∧
      id.number ≤ s.lastQuestion ∧ s.asking id = some asking ∧ asking.answered = .waiting ∧
      (∀ session', session' ≠ session → s.opened session' id = none) ∧ ¬ s.Taken id ∧
      s.course id = [.interactionRequested session id question] := by
  have hstage := h.stage id
  generalize s.course id = course at hstage
  cases hstage with
  | @asked asking question' hnumber hask hwait hopen' hother htake =>
    have hsession : asking.session = session := by
      by_contra hne
      rw [hother session (Ne.symm hne)] at hopen
      cases hopen
    subst hsession
    rw [hopen] at hopen'
    cases hopen'
    exact ⟨asking, rfl, hnumber, hask, hwait, hother, htake, rfl⟩
  | fresh _ _ hnone | taken _ _ _ hnone | answered _ _ _ hnone | left _ _ hnone
    | ended _ _ hnone =>
    rw [hnone session] at hopen
    cases hopen

theorem Inv.answerQuestion (h : Inv kept s) {client : Nat} (hclient : s.answering client = none)
    (response : InteractionResponse) :
    Inv kept (s.answerQuestion client session id response) := by
  unfold Questions.answerQuestion
  cases hopen : s.opened session id with
  | none => exact h.of_same rfl fun _ => same_tell rfl
  | some question =>
    dsimp only
    cases hcheck : checkAnswer question.request response with
    | error reason => exact h.of_same rfl fun _ => same_tell rfl
    | ok =>
      dsimp only
      obtain ⟨asking, hsession, hnumber, hask, hwait, hother, htake, hcourse⟩ := h.stage_open hopen
      constructor
      · intro client₁ client₂ answer₁ answer₂ h₁ h₂ hid
        have hfree : ∀ client' answer', client' ≠ client →
            s.answering client' = some answer' → answer'.1 ≠ id := by
          rintro client' ⟨id', response'⟩ _ hanswer rfl
          exact htake ⟨client', response', hanswer⟩
        simp only [setAnswering, tell_answering, setOpened_answering] at h₁ h₂
        by_cases hc₁ : client₁ = client
        · by_cases hc₂ : client₂ = client
          · exact hc₁.trans hc₂.symm
          · rw [hc₁, Function.update_self] at h₁
            rw [Function.update_of_ne hc₂] at h₂
            cases h₁
            exact absurd hid.symm (hfree client₂ answer₂ hc₂ h₂)
        · rw [Function.update_of_ne hc₁] at h₁
          by_cases hc₂ : client₂ = client
          · rw [hc₂, Function.update_self] at h₂
            cases h₂
            exact absurd hid (hfree client₁ answer₁ hc₁ h₁)
          · rw [Function.update_of_ne hc₂] at h₂
            exact h.single client₁ client₂ answer₁ answer₂ h₁ h₂ hid
      · intro other
        by_cases hid : other = id
        · subst hid
          subst hsession
          have hnew : (((s.setOpened asking.session other none).tell
              (.interactionClosed asking.session other)).setAnswering client
                (some (other, response))).course other =
              [.interactionRequested asking.session other question,
                .interactionClosed asking.session other] := by
            rw [course_setAnswering, course_tell_of_about (by simp [Entry.about]),
              course_setOpened, hcourse]
            rfl
          rw [hnew]
          refine .taken hnumber hask hwait ?_ ⟨client, response, ?_⟩
          · intro session'
            by_cases hsession : session' = asking.session
            · subst hsession
              exact setOpened_opened_self
            · exact (setOpened_opened_of_ne_session hsession other).trans (hother _ hsession)
          · simp [setAnswering]
        · refine (h.stage other).same ⟨.rfl, rfl, ?_, ?_, ?_⟩
          · intro session'
            exact setOpened_opened_of_ne_id hid session'
          · simp only [Taken, setAnswering, tell_answering, setOpened_answering]
            refine exists_congr fun client' => exists_congr fun response' => ?_
            by_cases hc : client' = client
            · subst hc
              simp [hclient, Ne.symm hid]
            · rw [Function.update_of_ne hc]
          · rw [course_setAnswering, course_tell_of_not_about, course_setOpened]
            exact about_of_ne hid (by simp [Entry.about])

theorem Inv.not_taken_setAnswering (h : Inv kept s) {client : Nat} {response : InteractionResponse}
    (hclient : s.answering client = some (id, response)) :
    ¬ (s.setAnswering client none).Taken id := by
  rintro ⟨client', response', hanswer⟩
  simp only [setAnswering] at hanswer
  by_cases hc : client' = client
  · rw [hc, Function.update_self] at hanswer
    cases hanswer
  · rw [Function.update_of_ne hc] at hanswer
    exact hc (h.single _ _ _ _ hanswer hclient rfl)

theorem taken_setAnswering_of_ne {client : Nat} {response : InteractionResponse}
    (hclient : s.answering client = some (id, response)) (hother : other ≠ id) :
    (s.setAnswering client none).Taken other ↔ s.Taken other := by
  simp only [Taken, setAnswering]
  refine exists_congr fun client' => exists_congr fun response' => ?_
  by_cases hc : client' = client
  · subst hc
    simp [hclient, Ne.symm hother]
  · rw [Function.update_of_ne hc]

theorem Inv.sendAnswer (h : Inv kept s) {client : Nat} {response : InteractionResponse}
    (hclient : s.answering client = some (id, response)) :
    Inv kept (s.sendAnswer client id response) := by
  have hsingle : ∀ client₁ client₂ answer₁ answer₂,
      (s.setAnswering client none).answering client₁ = some answer₁ →
      (s.setAnswering client none).answering client₂ = some answer₂ →
      answer₁.1 = answer₂.1 → client₁ = client₂ := by
    intro client₁ client₂ answer₁ answer₂ h₁ h₂
    simp only [setAnswering] at h₁ h₂
    by_cases hc₁ : client₁ = client
    · rw [hc₁, Function.update_self] at h₁
      cases h₁
    · by_cases hc₂ : client₂ = client
      · rw [hc₂, Function.update_self] at h₂
        cases h₂
      · rw [Function.update_of_ne hc₁] at h₁
        rw [Function.update_of_ne hc₂] at h₂
        exact h.single client₁ client₂ answer₁ answer₂ h₁ h₂
  have hgone := h.not_taken_setAnswering hclient
  have htaken : s.Taken id := ⟨client, response, hclient⟩
  have hstage := h.stage id
  -- A taken answer finds its asker, or the asker left before.
  rcases hask : s.asking id with _ | ⟨session, cancel, answered⟩
  · unfold Questions.sendAnswer
    rw [hask]
    refine ⟨hsingle, fun other => ?_⟩
    by_cases hother : other = id
    · subst hother
      rw [course_tell_of_not_about rfl, course_setAnswering]
      generalize s.course other = course at hstage
      cases hstage with
      | fresh _ _ _ htake | asked _ _ _ _ _ htake | answered _ _ _ _ htake
        | ended _ _ _ htake => exact absurd htaken htake
      | taken _ hask' =>
        rw [hask] at hask'
        cases hask'
      | left hnumber _ hopen hending hgives => exact .left hnumber hask hopen hending hgives
    · refine (h.stage other).same ⟨.rfl, rfl, fun _ => rfl, ?_, ?_⟩
      · exact taken_setAnswering_of_ne hclient hother
      · exact course_tell_of_not_about rfl
  · have hwait : answered = .waiting ∧ (∀ session, s.opened session id = none) ∧
        id.number ≤ s.lastQuestion ∧ ∃ question, s.course id =
          [.interactionRequested session id question, .interactionClosed session id] := by
      generalize s.course id = course at hstage
      cases hstage with
      | fresh _ _ _ htake | asked _ _ _ _ _ htake | answered _ _ _ _ htake
        | ended _ _ _ htake => exact absurd htaken htake
      | left _ hask' =>
        rw [hask] at hask'
        cases hask'
      | @taken asking question hnumber hask' hwait hopen =>
        rw [hask] at hask'
        cases hask'
        exact ⟨hwait, hopen, hnumber, question, rfl⟩
    obtain ⟨rfl, hopen, hnumber, question, hcourse⟩ := hwait
    unfold Questions.sendAnswer
    rw [hask]
    refine ⟨hsingle, fun other => ?_⟩
    by_cases hother : other = id
    · subst hother
      rw [course_tell_of_about (by simp [Entry.about]), course_setAsking, course_setAnswering,
        hcourse]
      exact @Stage.answered _ _ _ ⟨session, cancel, .sent response⟩ _ _ hnumber
        setAsking_asking_self rfl hopen hgone
    · refine (h.stage other).same ⟨.rfl, setAsking_asking_of_ne hother, fun _ => rfl, ?_, ?_⟩
      · exact taken_setAnswering_of_ne hclient hother
      · rw [course_tell_of_not_about]
        · rfl
        · exact about_of_ne hother (by simp [Entry.about])

theorem Inv.end (h : Inv kept s) {asking : Asking} {ending : Entry} (hask : s.asking id = some asking)
    (hending : Ending id ending)
    (hwaiting : asking.answered = .waiting → Gives .canceled ending)
    (hsent : kept → ∀ response, asking.answered = .sent response → Gives response ending) :
    Inv kept ((s.leave id asking).tell ending) := by
  have habout : ending.about id = true := by
    cases hending <;> simp [Entry.about]
  have hstage := h.stage id
  have hsame : ∀ t : Questions, t = (s.leave id asking).tell ending → (t.answering = s.answering ∧
      ∀ other, other ≠ id → Same s t other) := by
    rintro t rfl
    unfold leave Questions.closeQuestion
    cases hopen : (s.setAsking id none).opened asking.session id with
    | none =>
      refine ⟨rfl, fun other hother => ⟨.rfl, setAsking_asking_of_ne hother, fun _ => rfl, .rfl, ?_⟩⟩
      exact course_tell_of_not_about (about_of_ne hother habout)
    | some question =>
      refine ⟨rfl, fun other hother => ⟨.rfl, ?_, ?_, .rfl, ?_⟩⟩
      · simp only [tell_asking]
        rw [setAsking_asking_of_ne hother, setOpened_asking, setAsking_asking_of_ne hother]
      · intro session'
        exact setOpened_opened_of_ne_id hother session'
      · rw [course_tell_of_not_about (about_of_ne hother habout), course_tell_of_not_about]
        · rfl
        · exact about_of_ne hother (by simp [Entry.about])
  obtain ⟨hanswering, hothers⟩ := hsame _ rfl
  refine ⟨?_, fun other => ?_⟩
  · rw [hanswering]
    exact h.single
  by_cases hother : other = id
  · subst hother
    rw [course_tell_of_about habout]
    unfold leave Questions.closeQuestion
    cases hopen : (s.setAsking other none).opened asking.session other with
    | some question =>
      obtain ⟨asking', hsession, hnumber, hask', hwait, hnone, htake, hcourse⟩ := h.stage_open hopen
      rw [hask] at hask'
      cases hask'
      have hclosed : ∀ session, ((s.setAsking other none).setOpened asking.session other
          none).opened session other = none := by
        intro session
        by_cases hsession : session = asking.session
        · subst hsession
          exact setOpened_opened_self
        · exact (setOpened_opened_of_ne_session hsession other).trans (hnone session hsession)
      dsimp only
      rw [course_tell_of_about (by simp [Entry.about]), course_setAsking, course_setOpened,
        course_setAsking, hcourse]
      refine .left hnumber ?_ hclosed hending (hwaiting hwait)
      simp
    | none =>
      have hopened : s.opened asking.session other = none := hopen
      dsimp only
      rw [course_setAsking]
      generalize s.course other = course at hstage
      cases hstage with
      | fresh _ hask' | left _ hask' | ended _ hask' =>
        rw [hask] at hask'
        cases hask'
      | asked _ hask' _ hopen' =>
        rw [hask] at hask'
        cases hask'
        rw [hopened] at hopen'
        cases hopen'
      | taken hnumber hask' hwait hclosed htake =>
        rw [hask] at hask'
        cases hask'
        exact .left hnumber setAsking_asking_self hclosed hending (hwaiting hwait)
      | answered hnumber hask' hsent' hclosed htake =>
        rw [hask] at hask'
        cases hask'
        exact .ended hnumber setAsking_asking_self hclosed htake hending
          fun hkept => hsent hkept _ hsent'
  · exact (h.stage other).same (hothers other hother)

/-- No ask is polled while its accepted answer waits and its caller or its session has cancelled
it. -/
def Calm (s : Questions) : QuestionEvent → Prop
  | .poll id _ => ∀ asking response, s.asking id = some asking →
      asking.answered = .sent response → asking.cancel ∉ s.cancelled ∧ asking.session ∉ s.closed
  | _ => True

theorem Inv.step {event : QuestionEvent} (h : Inv kept s) (hstep : s.step event = some t)
    (hcalm : kept → Calm s event) : Inv kept t := by
  cases event with
  | ask session source request cancel =>
    cases hstep
    exact h.ask source request cancel
  | answer client session id response =>
    simp only [Questions.step] at hstep
    split at hstep
    · cases hstep
    · next hclient =>
      cases hstep
      exact h.answerQuestion (by simpa using hclient) response
  | send client =>
    simp only [Questions.step, Option.map_eq_some_iff] at hstep
    obtain ⟨⟨id, response⟩, hclient, rfl⟩ := hstep
    exact h.sendAnswer hclient
  | cancel token =>
    cases hstep
    exact h.of_same rfl fun _ => ⟨.rfl, rfl, fun _ => rfl, .rfl, rfl⟩
  | close session =>
    cases hstep
    exact h.of_same rfl fun _ => ⟨.rfl, rfl, fun _ => rfl, .rfl, rfl⟩
  | drop id =>
    simp only [Questions.step, Option.map_eq_some_iff] at hstep
    obtain ⟨asking, hask, rfl⟩ := hstep
    refine h.end hask .dropped ?_ ?_
    · intro _ id' given hgiven
      cases hgiven
    · intro _ response _ id' given hgiven
      cases hgiven
  | poll id branch =>
    simp only [Questions.step, Option.bind_eq_some_iff, Option.map_eq_some_iff] at hstep
    obtain ⟨asking, hask, response, hready, rfl⟩ := hstep
    refine h.end hask (.returned response) ?_ ?_
    · intro hwait id' given hgiven
      cases hgiven
      cases branch with
      | answered => simp [ready, hwait] at hready
      | cancelled | closed =>
        simp only [ready] at hready
        split at hready
        · cases hready
          rfl
        · cases hready
    · intro hkept answer hsent id' given hgiven
      cases hgiven
      have hfree := hcalm hkept asking answer hask hsent
      cases branch with
      | answered =>
        simp only [ready, hsent, Option.some.injEq] at hready
        exact hready.symm
      | cancelled => simp [ready, hfree.1] at hready
      | closed => simp [ready, hfree.2] at hready

theorem inv_start (mode : Mode) : Inv kept { mode := mode } where
  single := by
    intro _ _ _ _ h
    cases h
  stage := by
    intro id
    refine .fresh ?_ rfl (fun _ => rfl) ?_
    · change id.number = 0 ∨ 0 < id.number
      omega
    · rintro ⟨_, _, h⟩
      cases h

theorem inv_of_run {mode : Mode} {events : List QuestionEvent}
    (hrun : Steps (outcome step) { mode := mode } events s) : Inv False s :=
  hrun.keeps (inv_start mode) fun _ _ _ h hstep => h.step hstep False.elim

theorem inv_of_calm_run {mode : Mode} {events : List QuestionEvent}
    (hrun : Steps (when Calm (outcome step)) { mode := mode } events s) : Inv True s :=
  hrun.keeps (inv_start mode) fun _ _ _ h hstep => h.step hstep.2 fun _ => hstep.1

def requested : Entry → Option Nat
  | .interactionRequested _ id _ => some id.number
  | _ => none

/-- The entry closes the question `id`. -/
def closes (id : InteractionId) : Entry → Bool
  | .interactionClosed _ other => other = id
  | _ => false

/-- The requests have the ids 1, 2, 3, and so on, and an ask that no client can answer is canceled. -/
structure Numbered (s : Questions) : Prop where
  numbers : s.log.filterMap requested = List.range' 1 s.lastQuestion
  at_once : ∀ given, .returned none given ∈ s.log → given = .canceled

theorem Numbered.tell {entry : Entry} (h : Numbered s) (hentry : requested entry = none)
    (hat : ∀ given, entry = .returned none given → given = .canceled) :
    Numbered (s.tell entry) where
  numbers := by simp [h.numbers, hentry]
  at_once := by
    intro given hgiven
    rcases List.mem_append.mp hgiven with hold | hnew
    · exact h.at_once given hold
    · exact hat given (List.mem_singleton.mp hnew).symm

theorem Numbered.of_eq (h : Numbered s) (hlast : t.lastQuestion = s.lastQuestion)
    (hlog : t.log = s.log) : Numbered t where
  numbers := by
    rw [hlast, hlog]
    exact h.numbers
  at_once := by
    rw [hlog]
    exact h.at_once

theorem Numbered.leave {asking : Asking} (h : Numbered s) : Numbered (s.leave id asking) := by
  unfold Questions.leave closeQuestion
  split
  · exact h.of_eq rfl rfl
  · exact Numbered.tell (h.of_eq rfl rfl) rfl nofun

theorem Numbered.ask {source : String} {request : InteractionRequest} {cancel : Nat}
    (h : Numbered s) : Numbered (s.ask session source request cancel) := by
  unfold Questions.ask
  split
  · have hnoticed : ∀ message, Numbered (s.tell (.notice session message)) :=
      fun _ => h.tell rfl nofun
    refine (hnoticed _).tell rfl ?_
    rintro given ⟨⟩
    rfl
  · constructor
    · change (s.log ++ [_]).filterMap requested = List.range' 1 (s.lastQuestion + 1)
      rw [List.filterMap_append, h.numbers, List.range'_concat]
      simp [requested, Nat.add_comm]
    · intro given hgiven
      rcases List.mem_append.mp hgiven with hold | hnew
      · exact h.at_once given hold
      · cases List.mem_singleton.mp hnew

theorem Numbered.step {event : QuestionEvent} (h : Numbered s) (hstep : s.step event = some t) :
    Numbered t := by
  cases event with
  | ask session source request cancel =>
    cases hstep
    exact h.ask
  | answer client session id response =>
    simp only [Questions.step] at hstep
    split at hstep
    · cases hstep
    · cases hstep
      unfold Questions.answerQuestion
      split
      · exact h.tell rfl nofun
      · split
        · exact h.tell rfl nofun
        · have hclosed : Numbered ((s.setOpened session id none).tell
              (.interactionClosed session id)) := Numbered.tell (h.of_eq rfl rfl) rfl nofun
          exact hclosed.of_eq rfl rfl
  | send client =>
    simp only [Questions.step, Option.map_eq_some_iff] at hstep
    obtain ⟨⟨id, response⟩, -, rfl⟩ := hstep
    unfold Questions.sendAnswer
    split
    · exact Numbered.tell (h.of_eq rfl rfl) rfl nofun
    · exact Numbered.tell (h.of_eq rfl rfl) rfl nofun
  | cancel token =>
    cases hstep
    exact h.of_eq rfl rfl
  | close session =>
    cases hstep
    exact h.of_eq rfl rfl
  | poll id branch =>
    simp only [Questions.step, Option.bind_eq_some_iff, Option.map_eq_some_iff] at hstep
    obtain ⟨asking, -, response, -, rfl⟩ := hstep
    exact h.leave.tell rfl nofun
  | drop id =>
    simp only [Questions.step, Option.map_eq_some_iff] at hstep
    obtain ⟨asking, -, rfl⟩ := hstep
    exact h.leave.tell rfl nofun

theorem numbered_of_run {mode : Mode} {events : List QuestionEvent}
    (hrun : Steps (outcome step) { mode := mode } events s) : Numbered s :=
  hrun.keeps ⟨rfl, nofun⟩ fun _ _ _ h hstep => h.step hstep

theorem Stage.request {course before after : List Entry} {question : Question}
    (h : Stage kept s id course)
    (hsplit : course = before ++ .interactionRequested session id question :: after) :
    before = [] ∧ after.countP (closes id) = if (s.opened session id).isSome then 0 else 1 := by
  cases before with
  | cons first before =>
    have hmem : Entry.interactionRequested session id question ∈ course.tail := by
      rw [hsplit]
      simp
    cases h with
    | fresh | asked | taken | answered => simp at hmem
    | left _ _ _ hending => cases hending <;> simp at hmem
    | ended _ _ _ _ hending => cases hending <;> simp at hmem
  | nil =>
    refine ⟨rfl, ?_⟩
    cases h with
    | fresh => cases hsplit
    | asked _ _ _ hopen =>
      cases hsplit
      simp [hopen]
    | taken _ _ _ hnone =>
      cases hsplit
      simp [hnone, closes]
    | answered _ _ _ hnone =>
      cases hsplit
      simp [hnone, closes]
    | left _ _ hnone hending =>
      cases hsplit
      cases hending <;> simp [hnone, closes]
    | ended _ _ hnone _ hending =>
      cases hsplit
      cases hending <;> simp [hnone, closes]

theorem Stage.accepted {course before after : List Entry} {response : InteractionResponse}
    (h : Stage kept s id course)
    (hsplit : course = before ++ .answered id response (.ok ()) :: after) :
    ∀ entry ∈ after, Ending id entry ∧ (kept → Gives response entry) := by
  intro entry hentry
  cases h with
  | fresh => simp at hsplit
  | asked => simp [List.cons_eq_append_iff] at hsplit
  | taken => simp [List.cons_eq_append_iff] at hsplit
  | left _ _ _ hending => cases hending <;> simp [List.cons_eq_append_iff] at hsplit
  | answered =>
    have hafter : after = [] := by
      simp [List.cons_eq_append_iff] at hsplit
      exact hsplit.2.2
    simp [hafter] at hentry
  | @ended _ _ response' ending _ _ _ _ hending hgives =>
    have hafter : response' = response ∧ after = [ending] := by
      cases hending <;> simp [List.cons_eq_append_iff] at hsplit <;> simp_all
    obtain ⟨rfl, rfl⟩ := hafter
    rw [List.mem_singleton] at hentry
    subst hentry
    exact ⟨hending, hgives⟩

theorem course_split {before after : List Entry} {entry : Entry} (id : InteractionId)
    (hlog : s.log = before ++ entry :: after) (habout : entry.about id = true) :
    s.course id = before.filter (·.about id) ++ entry :: after.filter (·.about id) := by
  simp [course, hlog, habout]

theorem countP_closes (log : List Entry) :
    log.countP (closes id) = (log.filter (·.about id)).countP (closes id) := by
  rw [List.countP_filter]
  refine List.countP_congr fun entry _ => ?_
  cases entry <;> simp [closes, Entry.about]

/-- The ask of the question `id` ended. -/
def Ended (s : Questions) (id : InteractionId) : Prop := ∃ entry ∈ s.log, Ending id entry

/-- Ids increase over all sessions, each question closes once, and an answer counts once. -/
structure OneEnd (s : Questions) : Prop where
  increasing : (s.log.filterMap requested).Pairwise (· < ·)
  closes_once : ∀ before after session id question,
    s.log = before ++ .interactionRequested session id question :: after →
      before.countP (closes id) = 0 ∧
      after.countP (closes id) = if (s.opened session id).isSome then 0 else 1
  closed_after_request : ∀ before after session id,
    s.log = before ++ .interactionClosed session id :: after →
      ∃ question, .interactionRequested session id question ∈ before
  /-- An open question has a waiting asker. -/
  waits : ∀ session id, (s.opened session id).isSome → ∃ asking, s.asking id = some asking
  /-- The question of an ask that ended is closed. -/
  closed_of_ended : ∀ session id, s.Ended id → s.opened session id = none
  refused_after : ∀ before after id response,
    s.log = before ++ .answered id response (.ok ()) :: after →
      ∀ response' out, .answered id response' out ∈ after → out ≠ .ok ()

structure AnswerCounts (s : Questions) : Prop where
  returned : ∀ id response given, .answered id response (.ok ()) ∈ s.log →
    .returned (some id) given ∈ s.log → given = response
  canceled : ∀ id given, .returned id given ∈ s.log →
    (∀ id' response, id = some id' → .answered id' response (.ok ()) ∉ s.log) → given = .canceled
  /-- An accepted answer waits for its asker until the end of the ask. -/
  arrives : ∀ id response, .answered id response (.ok ()) ∈ s.log → ¬ s.Ended id →
    ∃ asking, s.asking id = some asking ∧ asking.answered = .sent response

theorem Ending.about {entry : Entry} (h : Ending id entry) : entry.about id = true := by
  cases h <;> simp [Entry.about]

theorem ended_iff : s.Ended id ↔ ∃ entry ∈ s.course id, Ending id entry := by
  constructor
  · rintro ⟨entry, hentry, hending⟩
    exact ⟨entry, List.mem_filter.mpr ⟨hentry, hending.about⟩, hending⟩
  · rintro ⟨entry, hentry, hending⟩
    exact ⟨entry, (List.mem_filter.mp hentry).1, hending⟩

theorem Stage.not_opened {course : List Entry} {entry : Entry} (h : Stage kept s id course)
    (hentry : entry ∈ course) (hending : Ending id entry) (session : SessionId) :
    s.opened session id = none := by
  cases h with
  | fresh _ _ hnone | taken _ _ _ hnone | answered _ _ _ hnone | left _ _ hnone
    | ended _ _ hnone => exact hnone session
  | asked =>
    rw [List.mem_singleton] at hentry
    subst hentry
    cases hending

theorem Stage.closed {course before after : List Entry} (h : Stage kept s id course)
    (hsplit : course = before ++ .interactionClosed session id :: after) :
    ∃ question, .interactionRequested session id question ∈ before := by
  cases before with
  | nil => cases h <;> simp at hsplit
  | cons first before =>
    cases h with
    | fresh => simp at hsplit
    | asked => simp at hsplit
    | taken | answered =>
      simp [List.cons_eq_append_iff] at hsplit
      obtain ⟨rfl, -, rfl, -⟩ := hsplit
      exact ⟨_, List.mem_cons_self⟩
    | left _ _ _ hending | ended _ _ _ _ hending =>
      cases hending <;>
      · simp [List.cons_eq_append_iff] at hsplit
        obtain ⟨rfl, -, rfl, -⟩ := hsplit
        exact ⟨_, List.mem_cons_self⟩

theorem oneEnd_of_inv (h : Inv kept s) (hnumbered : Numbered s) : OneEnd s where
  increasing := by
    rw [hnumbered.numbers]
    exact List.pairwise_lt_range'
  closes_once := by
    intro before after session id question hlog
    have hsplit := course_split id hlog (by simp [Entry.about])
    obtain ⟨hbefore, hafter⟩ := (h.stage id).request hsplit
    rw [countP_closes before, countP_closes after, hbefore]
    exact ⟨rfl, hafter⟩
  closed_after_request := by
    intro before after session id hlog
    have hsplit := course_split id hlog (by simp [Entry.about])
    obtain ⟨question, hquestion⟩ := (h.stage id).closed hsplit
    exact ⟨question, (List.mem_filter.mp hquestion).1⟩
  waits := by
    intro session id hopen
    obtain ⟨question, hopen⟩ := Option.isSome_iff_exists.mp hopen
    obtain ⟨asking, -, -, hask, -⟩ := h.stage_open hopen
    exact ⟨asking, hask⟩
  closed_of_ended := by
    intro session id hended
    obtain ⟨entry, hentry, hending⟩ := ended_iff.mp hended
    exact (h.stage id).not_opened hentry hending session
  refused_after := by
    rintro before after id response hlog response' out hmem rfl
    have hsplit := course_split id hlog (by simp [Entry.about])
    have hafter : Entry.answered id response' (.ok ()) ∈ after.filter (·.about id) :=
      List.mem_filter.mpr ⟨hmem, by simp [Entry.about]⟩
    have hending := ((h.stage id).accepted hsplit _ hafter).1
    cases hending

theorem Stage.of_accepted {course : List Entry} {response : InteractionResponse}
    (h : Stage kept s id course) (hmem : Entry.answered id response (.ok ()) ∈ course) :
    (∀ given, Entry.returned (some id) given ∈ course → kept → given = response) ∧
      ((∃ entry ∈ course, Ending id entry) ∨
        ∃ asking, s.asking id = some asking ∧ asking.answered = .sent response) := by
  cases h with
  | fresh | asked | taken => simp at hmem
  | left _ _ _ hending => cases hending <;> simp at hmem
  | answered _ hask hsent =>
    refine ⟨by simp, .inr ⟨_, hask, ?_⟩⟩
    rw [hsent]
    simpa [eq_comm] using hmem
  | @ended _ _ response' ending _ _ _ _ hending hgives =>
    have hresponse : response = response' := by
      cases hending <;> simpa using hmem
    subst hresponse
    refine ⟨?_, .inl ⟨ending, by simp, hending⟩⟩
    intro given hgiven hkept
    have hlast : ending = .returned (some id) given := by
      simpa [eq_comm] using hgiven
    exact hgives hkept (some id) given hlast

theorem Stage.canceled {course : List Entry} {given : InteractionResponse}
    (h : Stage kept s id course) (hmem : Entry.returned (some id) given ∈ course)
    (hnone : ∀ response, Entry.answered id response (.ok ()) ∉ course) : given = .canceled := by
  cases h with
  | fresh | asked | taken | answered => simp at hmem
  | @ended _ _ response => exact absurd (by simp) (hnone response)
  | @left _ _ ending _ _ _ _ hgives =>
    have hlast : ending = .returned (some id) given := by
      simpa [eq_comm] using hmem
    exact hgives (some id) given hlast

theorem answerCounts_of_inv (h : Inv True s) (hnumbered : Numbered s) : AnswerCounts s where
  returned := by
    intro id response given hanswered hreturned
    have hanswered : Entry.answered id response (.ok ()) ∈ s.course id :=
      List.mem_filter.mpr ⟨hanswered, by simp [Entry.about]⟩
    have hreturned : Entry.returned (some id) given ∈ s.course id :=
      List.mem_filter.mpr ⟨hreturned, by simp [Entry.about]⟩
    exact ((h.stage id).of_accepted hanswered).1 given hreturned trivial
  canceled := by
    intro id given hreturned hnone
    cases id with
    | none => exact hnumbered.at_once given hreturned
    | some id =>
      have hreturned : Entry.returned (some id) given ∈ s.course id :=
        List.mem_filter.mpr ⟨hreturned, by simp [Entry.about]⟩
      refine (h.stage id).canceled hreturned fun response hanswered => ?_
      exact hnone id response rfl (List.mem_filter.mp hanswered).1
  arrives := by
    intro id response hanswered hended
    have hanswered : Entry.answered id response (.ok ()) ∈ s.course id :=
      List.mem_filter.mpr ⟨hanswered, by simp [Entry.about]⟩
    rcases ((h.stage id).of_accepted hanswered).2 with hending | hwaits
    · exact absurd (ended_iff.mpr hending) hended
    · exact hwaits

/-- The asker of `id` finds an accepted answer and a cancel at its next poll. -/
def Raced (s : Questions) (id : InteractionId) (response : InteractionResponse) : Prop :=
  ∃ asking, s.asking id = some asking ∧ asking.answered = .sent response ∧
    (asking.cancel ∈ s.cancelled ∨ asking.session ∈ s.closed)

theorem Inv.answered_of_sent (h : Inv kept s) {asking : Asking} {response : InteractionResponse}
    (hask : s.asking id = some asking) (hsent : asking.answered = .sent response) :
    .answered id response (.ok ()) ∈ s.log := by
  have hstage := h.stage id
  have hmem : Entry.answered id response (.ok ()) ∈ s.course id := by
    generalize s.course id = course at hstage
    cases hstage with
    | fresh _ hask' | left _ hask' | ended _ hask' =>
      rw [hask] at hask'
      cases hask'
    | asked _ hask' hwait | taken _ hask' hwait =>
      rw [hask] at hask'
      cases hask'
      rw [hsent] at hwait
      cases hwait
    | answered _ hask' hsent' =>
      rw [hask] at hask'
      cases hask'
      rw [hsent] at hsent'
      cases hsent'
      simp
  exact (List.mem_filter.mp hmem).1

def approval : InteractionRequest := .questions [
  ⟨"go", "Run it", "Run the command?", [⟨"Yes", none⟩, ⟨"No", none⟩], false, false, false⟩]

def approved : InteractionResponse := .questions [⟨"go", ["Yes"], none⟩]

def approvedRun : List QuestionEvent :=
  [.ask ⟨1⟩ "guard" approval 7, .answer 0 ⟨1⟩ ⟨1⟩ approved, .send 0, .poll ⟨1⟩ .answered]

def missedRun : List QuestionEvent :=
  [.ask ⟨1⟩ "guard" approval 7, .answer 0 ⟨1⟩ ⟨1⟩ approved, .send 0, .cancel 7,
    .poll ⟨1⟩ .cancelled]

/-- In each run each question has one end. In a run where no ask is polled with both its answer and
a cancel ready, each accepted answer counts, and at such a poll an accepted answer can be lost. -/
theorem question_has_one_end (mode : Mode) (events : List QuestionEvent) (s : Questions) :
    (Steps (outcome step) { mode := mode } events s → OneEnd s) ∧
      (Steps (when Calm (outcome step)) { mode := mode } events s → AnswerCounts s) ∧
      (Steps (outcome step) { mode := mode } events s → ∀ id response, Raced s id response →
        response ≠ .canceled → ∃ branch t, s.step (.poll id branch) = some t ∧
          ¬ AnswerCounts t) := by
  refine ⟨?_, ?_, ?_⟩
  · intro hrun
    exact oneEnd_of_inv (inv_of_run hrun) (numbered_of_run hrun)
  · intro hrun
    exact answerCounts_of_inv (inv_of_calm_run hrun) (numbered_of_run hrun.free)
  · rintro hrun id response ⟨asking, hask, hsent, hcancel⟩ hresponse
    have hanswered := (inv_of_run hrun).answered_of_sent hask hsent
    have hkept : ∀ entry, .answered id response (.ok ()) ∈ ((s.leave id asking).tell entry).log := by
      intro entry
      unfold leave closeQuestion
      split
      · exact List.mem_append_left _ hanswered
      · exact List.mem_append_left _ (List.mem_append_left _ hanswered)
    have hlost : ¬ AnswerCounts ((s.leave id asking).tell (.returned (some id) .canceled)) := by
      intro hcounts
      have hlast : Entry.returned (some id) .canceled ∈
          ((s.leave id asking).tell (.returned (some id) .canceled)).log := by simp
      exact hresponse (hcounts.returned id response .canceled (hkept _) hlast).symm
    rcases hcancel with hcancelled | hclosed
    · exact ⟨.cancelled, _, by simp [Questions.step, hask, ready, hcancelled], hlost⟩
    · exact ⟨.closed, _, by simp [Questions.step, hask, ready, hclosed], hlost⟩

/-- A client approves a command, and the ask reads the answer. -/
theorem question_has_one_end_approved :
    ∃ s, Steps (when Calm (outcome step)) { mode := .server } approvedRun s ∧ AnswerCounts s := by
  have hrun : ∃ s, Steps (when Calm (outcome step)) { mode := .server } approvedRun s := by
    refine ⟨_, .cons ⟨trivial, rfl⟩ (.cons ⟨trivial, rfl⟩ (.cons ⟨trivial, rfl⟩
      (.cons ⟨?_, rfl⟩ .start)))⟩
    intro asking response hask hsent
    cases hask
    exact ⟨by decide, by decide⟩
  obtain ⟨s, hrun⟩ := hrun
  exact ⟨s, hrun, (question_has_one_end .server approvedRun s).2.1 hrun⟩

/-- A client approves a command, and a cancel of the turn takes the accepted answer away. -/
theorem question_loses_answer :
    ¬ ∀ (mode : Mode) (events : List QuestionEvent) (s : Questions),
      Steps (outcome step) { mode := mode } events s → OneEnd s ∧ AnswerCounts s := by
  intro h
  have hrun : ∃ s, missedRun.foldlM step { mode := .server } = some s ∧
      .answered ⟨1⟩ approved (.ok ()) ∈ s.log ∧ .returned (some ⟨1⟩) .canceled ∈ s.log := by
    refine ⟨_, rfl, ?_, ?_⟩
    · exact .tail _ (.tail _ (.head _))
    · exact .tail _ (.tail _ (.tail _ (.head _)))
  obtain ⟨s, hrun, hanswered, hreturned⟩ := hrun
  have hlost := (h .server missedRun s (.of_foldlM hrun)).2.returned ⟨1⟩ approved .canceled
    hanswered hreturned
  cases hlost

end Questions

end Yuke.App
