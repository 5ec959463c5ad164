import Yuke.Protocol.Session

/-!
# Questions to the user

A request of one or more questions, and the answer of a client to it.
-/

set_option autoImplicit false

namespace Yuke.Protocol

/-- The id of a question. The server gives each question a larger id than the questions before it,
in each session. -/
structure InteractionId where
  number : Nat
  deriving DecidableEq

structure QuestionOption where
  label : String
  description : Option String
  deriving DecidableEq

/-- One question of a request. `multiple` lets the user choose more than one option, and `other` lets
the user type an answer. -/
structure Question where
  id : String
  header : String
  question : String
  options : List QuestionOption
  multiple : Bool
  other : Bool
  secret : Bool
  deriving DecidableEq

inductive InteractionRequest where
  | questions (questions : List Question)
  deriving DecidableEq

structure QuestionAnswer where
  id : String
  values : List String
  other : Option String
  deriving DecidableEq

/-- The response to a request. `canceled` closes the request without an answer. -/
inductive InteractionResponse where
  | questions (answers : List QuestionAnswer)
  | canceled
  deriving DecidableEq

inductive InvalidAnswer where
  | count (answers questions : Nat)
  | noSingleAnswer (id : String)
  | noOption (id value : String)
  | takesOne (id : String)
  | takesNoText (id : String)
  | empty (id : String)
  deriving DecidableEq

/-- The text of the refusal. `debug` writes a text with its quotes and escapes. -/
def InvalidAnswer.text (debug : String → String) : InvalidAnswer → String
  | .count answers questions =>
    "the answer count " ++ toString answers ++ " is not the question count " ++ toString questions
  | .noSingleAnswer id => "the question " ++ debug id ++ " has no single answer"
  | .noOption id value => "the question " ++ debug id ++ " offers no option " ++ debug value
  | .takesOne id => "the question " ++ debug id ++ " takes one option"
  | .takesNoText id => "the question " ++ debug id ++ " takes no typed text"
  | .empty id => "the answer to the question " ++ debug id ++ " is empty"

/-- Whether the question offers `value`. -/
def Question.offers (question : Question) (value : String) : Bool :=
  question.options.any fun option => option.label = value

def checkSingle (question : Question) (answer : QuestionAnswer) : Except InvalidAnswer Unit :=
  match answer.values.find? fun value => !question.offers value with
  | some value => .error (.noOption question.id value)
  | none =>
    if !question.multiple && answer.values.length > 1 then .error (.takesOne question.id)
    else if answer.other.isSome && !question.other then .error (.takesNoText question.id)
    else if answer.values.isEmpty && answer.other.isNone then .error (.empty question.id)
    else .ok ()

def checkQuestion (answers : List QuestionAnswer) (question : Question) :
    Except InvalidAnswer Unit :=
  match answers.filter fun answer => answer.id = question.id with
  | [answer] => checkSingle question answer
  | _ => .error (.noSingleAnswer question.id)

/-- Fail an answer that does not fit `request`: not one answer per question, an option that its
question does not offer, more than one option without `multiple`, a typed text without `other`, or
an answer with neither. -/
def checkAnswer : InteractionRequest → InteractionResponse → Except InvalidAnswer Unit
  | .questions _, .canceled => .ok ()
  | .questions questions, .questions answers =>
    if answers.length ≠ questions.length then .error (.count answers.length questions.length)
    else questions.forM (checkQuestion answers)

structure Fits (question : Question) (answer : QuestionAnswer) : Prop where
  offered : ∀ value ∈ answer.values, question.offers value
  one : question.multiple = false → answer.values.length ≤ 1
  typed : answer.other.isSome → question.other
  something : answer.values ≠ [] ∨ answer.other.isSome

theorem checkSingle_eq_ok_iff {question : Question} {answer : QuestionAnswer} :
    checkSingle question answer = .ok () ↔ Fits question answer := by
  unfold checkSingle
  constructor
  · intro h
    cases hfind : answer.values.find? fun value => !question.offers value with
    | some value => simp [hfind] at h
    | none =>
      have hoffered : ∀ value ∈ answer.values, question.offers value := by simpa using hfind
      simp only [hfind] at h
      split at h
      · cases h
      · split at h
        · cases h
        · split at h
          · cases h
          · next hone htyped hempty =>
            refine ⟨hoffered, ?_, ?_, ?_⟩
            · intro hmultiple
              simpa [hmultiple] using hone
            · intro hother
              simpa [hother] using htyped
            · by_cases hvalues : answer.values = []
              · right
                cases hother : answer.other <;> simp_all
              · exact .inl hvalues
  · intro h
    have hfind : answer.values.find? (fun value => !question.offers value) = none := by
      simpa using h.offered
    have hone : (!question.multiple && decide (answer.values.length > 1)) = false := by
      cases hmultiple : question.multiple with
      | true => rfl
      | false => simpa using h.one hmultiple
    have htyped : (answer.other.isSome && !question.other) = false := by
      cases hother : answer.other with
      | none => rfl
      | some text => simpa using h.typed (by simp [hother])
    have hempty : (answer.values.isEmpty && answer.other.isNone) = false := by
      rcases h.something with hvalues | hother
      · simp [hvalues]
      · cases hcase : answer.other with
        | none => simp [hcase] at hother
        | some text => simp
    simp [hfind, hone, htyped, hempty]

end Yuke.Protocol
