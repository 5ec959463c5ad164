import Yuke.Agent.TurnWorld
import Yuke.Engine.DriveReplay
import Yuke.Engine.DriveFailure

/-!
# The hand-over of the inputs to the commits

The records of the taken inputs and their model blocks go to the same commit, unless a take fails
after it kept an input.
-/

set_option autoImplicit false

namespace Yuke.Agent

open Yuke.Ai (Block)
open Yuke.Engine
open Yuke.Protocol
open Yuke.Shared (Contract Program)

def records (inputs : List PendingInput) : List ConsumedInput :=
  inputs.map fun input => input.intoConsumed.1

def modelBlocks (inputs : List PendingInput) : List Block :=
  inputs.flatMap fun input => input.intoConsumed.2

/-- The commit starts with the model blocks of the inputs that it consumes, each taken from an
accepted input. -/
def Handed (w : TurnWorld) (commit : Commit) (consumed : List ConsumedInput) : Prop :=
  ∃ inputs, consumed = records inputs ∧ modelBlocks inputs <+: commit.blocks ∧
    ∀ input ∈ inputs, FromAccepted w input

def Gentle (a : SessionAwait) (reply : a.Reply) : Prop :=
  takeFailure a reply ≠ none → a.held.taken = []

instance (a : SessionAwait) (reply : a.Reply) : Decidable (Gentle a reply) :=
  inferInstanceAs (Decidable (takeFailure a reply ≠ none → a.held.taken = []))

/-- What each commit of a turn needs: its inputs are handed over, and after a failed take it is the
end of the turn and consumes nothing. -/
def handContract (id : SessionId) : Contract SessionAwait SessionAwait.Reply TurnWorld where
  allowed w a :=
    match a.call with
    | .commit commit consumed => Handed w commit consumed ∧
        ∀ error, w.refused = some error → IsFailure commit error ∧ consumed = []
    | _ => True
  answers w a reply w' := TurnAnswers id w a reply w' ∧ Gentle a reply

theorem sum_blockCount_records (inputs : List PendingInput) :
    ((records inputs).map ConsumedInput.blockCount).sum = (modelBlocks inputs).length := by
  rw [records, modelBlocks, List.length_flatMap, List.map_map]
  rfl

theorem Handed.check {w : TurnWorld} {commit : Commit} {consumed : List ConsumedInput}
    (h : Handed w commit consumed) : checkConsumedBlocks commit consumed = .ok () := by
  obtain ⟨inputs, rfl, hleading, _⟩ := h
  rw [checkConsumedBlocks, sum_blockCount_records, if_pos hleading.length_le]

theorem modelBlocks_eq_nil {inputs : List PendingInput} (h : modelBlocks inputs = []) :
    inputs = [] := by
  cases inputs with
  | nil => rfl
  | cons input inputs =>
    rw [modelBlocks, List.flatMap_cons, List.append_eq_nil_iff] at h
    exact absurd (input.intoConsumed_blocks ▸ h.1) input.input.modelBlocks_ne

/-! ## The take -/

section Take

variable {id : SessionId} {held : Held} {w : TurnWorld}

theorem Onward.trans {w' w'' : TurnWorld} (h : Onward id w w') (h' : Onward id w' w'') :
    Onward id w w'' :=
  ⟨h'.account, List.Subset.trans h.accepted h'.accepted⟩

theorem ask_holds {call : SessionCall} {β : Type} {f : call.Reply → Sessioning β}
    {post : β → TurnWorld → Prop} (haccount : Account id w)
    (hcall : ∀ commit consumed, call ≠ .commit commit consumed)
    (hf : ∀ reply w', TurnAnswers id w ⟨held, call⟩ reply w' → Onward id w w' →
      w'.refused = (takeFailure ⟨held, call⟩ reply).or w.refused →
      (takeFailure ⟨held, call⟩ reply ≠ none → held.taken = []) →
      (f reply).Holds (handContract id) post w') :
    (ask held call >>= f).Holds (handContract id) post w := by
  refine ⟨?_, fun reply w' hreply => ?_⟩
  · cases call with
    | commit commit consumed => exact absurd rfl (hcall commit consumed)
    | _ => trivial
  · obtain ⟨hanswers, hgentle⟩ := hreply
    obtain ⟨honward, hrefused⟩ := haccount.answers hanswers
    exact hf reply w' hanswers honward hrefused hgentle

def Refused (held : Held) (error : TakeError) (w : TurnWorld) : Prop :=
  if held.lease.isSome then w.refused = some error.toDynError ∧ held.taken = []
  else w.refused = none

theorem refused_of {call : SessionCall} {reply : call.Reply} {error : TakeError}
    {w' : TurnWorld}
    (hrefused : w'.refused = (takeFailure ⟨held, call⟩ reply).or w.refused)
    (hw : w.refused = none) (hfailure : failureOf call reply = some error.toDynError)
    (hgentle : takeFailure ⟨held, call⟩ reply ≠ none → held.taken = []) :
    Refused held error w' := by
  unfold Refused
  split
  · next hlease =>
    have hsome : takeFailure ⟨held, call⟩ reply = some error.toDynError := by
      rw [takeFailure, if_pos hlease]
      exact hfailure
    rw [hsome] at hrefused hgentle
    exact ⟨hrefused, hgentle (by simp)⟩
  · next hlease =>
    have hnone : takeFailure ⟨held, call⟩ reply = none := by
      rw [takeFailure, if_neg hlease]
    rw [hrefused, hnone, hw]
    rfl

theorem takeFailure_eq_none {call : SessionCall} {reply : call.Reply}
    (hfailure : failureOf call reply = none) : takeFailure ⟨held, call⟩ reply = none := by
  rw [takeFailure]
  split
  · exact hfailure
  · rfl

theorem calm_of {call : SessionCall} {reply : call.Reply} {w' : TurnWorld}
    (hrefused : w'.refused = (takeFailure ⟨held, call⟩ reply).or w.refused)
    (hw : w.refused = none) (hfailure : failureOf call reply = none) : w'.refused = none := by
  rw [hrefused, takeFailure_eq_none hfailure, hw]
  rfl

def TakePost {α : Type} (id : SessionId) (held : Held) (w : TurnWorld)
    (post : α → TurnWorld → Prop) (out : Except TakeError α) (w' : TurnWorld) : Prop :=
  Onward id w w' ∧
    match out with
    | .ok value => w'.refused = none ∧ post value w'
    | .error error => Refused held error w'

theorem beforeInput_holds (haccount : Account id w) (hw : w.refused = none)
    (input : PendingInput) :
    (beforeInput held input).Holds (handContract id)
      (TakePost id held w fun _ _ => True) w := by
  unfold beforeInput
  split
  · exact ⟨haccount.refl, hw, trivial⟩
  · refine ask_holds haccount (fun _ _ h => nomatch h) ?_
    intro reply w' _ honward hrefused hgentle
    cases reply with
    | ok decision => exact ⟨honward, calm_of hrefused hw rfl, trivial⟩
    | error error => exact ⟨honward, refused_of hrefused hw rfl hgentle⟩

theorem settle_holds (haccount : Account id w) (hw : w.refused = none) {input : PendingInput}
    (hinput : input ∈ w.accepted) {decision : InputDecision} (hdecision : decision ≠ .replace []) :
    (settle held input decision).Holds (handContract id)
      (TakePost id held w fun taken w' => ∀ found, taken = some found →
        found.id = input.id ∧ FromAccepted w' found) w := by
  cases decision with
  | keep =>
    refine ⟨haccount.refl, hw, ?_⟩
    rintro _ ⟨rfl⟩
    exact ⟨rfl, input, hinput, rfl, .inl rfl⟩
  | replace blocks =>
    have hne : blocks ≠ [] := by
      rintro rfl
      exact hdecision rfl
    obtain ⟨replaced, hreplaced⟩ : ∃ replaced, input.input.withModelContent blocks = .ok replaced := by
      rw [Input.withModelContent, dif_neg hne]
      exact ⟨_, rfl⟩
    rw [settle, hreplaced]
    refine ⟨haccount.refl, hw, ?_⟩
    rintro _ ⟨rfl⟩
    exact ⟨rfl, input, hinput, rfl, .inr ⟨blocks, hreplaced⟩⟩
  | remove =>
    refine ask_holds haccount (fun _ _ h => nomatch h) ?_
    intro reply w' _ honward hrefused hgentle
    rcases reply with error | _
    · cases error with
      | inputNotPending => exact ⟨honward, calm_of hrefused hw rfl, fun _ h => nomatch h⟩
      | _ => exact ⟨honward, refused_of hrefused hw rfl hgentle⟩
    · have hw' := calm_of hrefused hw rfl
      refine ask_holds honward.account (fun _ _ h => nomatch h) ?_
      intro _ w'' _ honward' hrefused' _
      exact ⟨honward.trans honward', calm_of hrefused' hw' rfl, fun _ h => nomatch h⟩

theorem TakePost.after {α : Type} {w' : TurnWorld} {post : α → TurnWorld → Prop}
    {out : Except TakeError α} {w'' : TurnWorld} (h : TakePost id held w' post out w'')
    (honward : Onward id w w') : TakePost id held w post out w'' :=
  ⟨honward.trans h.1, h.2⟩

theorem check_holds (haccount : Account id w) (hw : w.refused = none) {input : PendingInput}
    (hinput : input ∈ w.accepted) :
    (check held input).Holds (handContract id)
      (TakePost id held w fun taken w' => ∀ found, taken = some found →
        found.id = input.id ∧ FromAccepted w' found) w := by
  refine (beforeInput_holds haccount hw input).bind ?_
  rintro decided w' ⟨honward, hdecided⟩
  rcases decided with error | decision
  · exact ⟨honward, hdecided⟩
  have hw' := hdecided.1
  have hinput' := honward.accepted hinput
  by_cases hremove : decision = .remove
  · simp only [gone, if_pos hremove]
    refine (settle_holds honward.account hw' hinput' ?_).mono fun _ _ h => h.after honward
    simp [hremove]
  · simp only [gone, if_neg hremove]
    refine Program.holds_bind.mpr (ask_holds honward.account (by simp) ?_)
    intro reply w'' _ honward' hrefused hgentle
    have hall := honward.trans honward'
    rcases reply with error | pending
    · exact ⟨hall, refused_of hrefused hw' rfl hgentle⟩
    by_cases hreplace : decision = .replace []
    · subst hreplace
      cases hgone : pending.any fun other => other.id = input.id with
      | false =>
        have hfailure : failureOf (.pending (some (input, .replace []))) (.ok pending) = none := by
          simp [failureOf, hgone]
        simp only [Program.pure_eq_done, Program.holds_done, hgone, Bool.not_false]
        exact ⟨hall, calm_of hrefused hw' hfailure, by simp⟩
      | true =>
        have hfailure : failureOf (.pending (some (input, .replace []))) (.ok pending) =
            some (TakeError.hook (InputError.toDynError .emptyModelContent)).toDynError := by
          simp [failureOf, hgone, TakeError.toDynError]
        simp only [Program.pure_eq_done, Program.holds_done, hgone, Bool.not_true]
        exact ⟨hall, refused_of hrefused hw' hfailure hgentle⟩
    · have hfailure : failureOf (.pending (some (input, decision))) (.ok pending) = none := by
        cases decision with
        | keep | remove => rfl
        | replace blocks =>
          cases blocks with
          | nil => exact absurd rfl hreplace
          | cons => rfl
      have hw'' := calm_of hrefused hw' hfailure
      simp only [Program.pure_eq_done, Program.holds_done]
      cases pending.any fun other => other.id = input.id with
      | false => exact ⟨hall, hw'', by simp⟩
      | true =>
        refine (settle_holds honward'.account hw'' (honward'.accepted hinput') hreplace).mono ?_
        exact fun _ _ h => h.after hall

/-- What a take leaves: the blocks of the inputs that it took behind the blocks before, or a refused
take that holds no record when the turn runs. -/
def Took (held : Held) (before : List Block)
    (out : Except TakeError (List Block) × List ConsumedInput) (w' : TurnWorld) : Prop :=
  match out.1 with
  | .ok blocks => w'.refused = none ∧ ∃ inputs, out.2 = held.taken ++ records inputs ∧
      blocks = before ++ modelBlocks inputs ∧ ∀ input ∈ inputs, FromAccepted w' input
  | .error error => Refused { held with taken := out.2 } error w'

theorem takeEach_holds (haccount : Account id w) (hw : w.refused = none) (before : List Block)
    {pending : List PendingInput} (hpending : ∀ input ∈ pending, input ∈ w.accepted) :
    (takeEach held before pending).Holds (handContract id)
      (fun out w' => Onward id w w' ∧ Took held before out w') w := by
  induction pending generalizing held before w with
  | nil => exact ⟨haccount.refl, hw, [], by simp [records], by simp [modelBlocks], by simp⟩
  | cons input rest ih =>
    have hrest : ∀ other ∈ rest, other ∈ w.accepted := fun other hother =>
      hpending other (List.mem_cons_of_mem _ hother)
    unfold takeEach
    split
    · exact ih haccount hw before hrest
    · refine (check_holds haccount hw (hpending input List.mem_cons_self)).bind ?_
      rintro checked w' ⟨honward, hchecked⟩
      have hrest' : ∀ other ∈ rest, other ∈ w'.accepted := fun other hother =>
        honward.accepted (hrest other hother)
      rcases checked with error | taken
      · exact ⟨honward, hchecked⟩
      obtain ⟨hw', htaken⟩ := hchecked
      cases taken with
      | none =>
        refine (ih honward.account hw' before hrest').mono fun out w'' h => ?_
        exact ⟨honward.trans h.1, h.2⟩
      | some found =>
        obtain ⟨_, hfrom⟩ := htaken found rfl
        refine (ih honward.account hw' _ hrest').mono ?_
        rintro ⟨result, taken⟩ w'' ⟨honward', htook⟩
        refine ⟨honward.trans honward', ?_⟩
        cases result with
        | error error => exact htook
        | ok blocks =>
          obtain ⟨hw'', inputs, hrecords, hblocks, hinputs⟩ := htook
          refine ⟨hw'', found :: inputs, ?_, ?_, ?_⟩
          · simpa [records] using hrecords
          · simpa [modelBlocks] using hblocks
          · intro other hother
            rcases List.mem_cons.mp hother with rfl | hother
            · exact hfrom.mono honward'.accepted
            · exact hinputs other hother

theorem take_holds (haccount : Account id w) (hw : w.refused = none) :
    (take held).Holds (handContract id)
      (fun out w' => Onward id w w' ∧ Took held [] out w') w := by
  refine ask_holds haccount (fun _ _ h => nomatch h) ?_
  intro reply w' hanswers honward hrefused hgentle
  rcases reply with error | pending
  · exact ⟨honward, refused_of hrefused hw rfl hgentle⟩
  · refine (takeEach_holds honward.account (calm_of hrefused hw rfl) []
      (haccount.answers_pending hanswers)).mono fun out w'' h => ?_
    exact ⟨honward.trans h.1, h.2⟩

end Take

/-! ## The journal of a turn -/

section Turn

variable {id : SessionId} {held : Held} {w w' : TurnWorld}

structure Joined (id : SessionId) (seen : Ledger × Fate) (journal : TurnJournal)
    (w : TurnWorld) : Prop where
  account : Account id w
  refused : w.refused = seen.2.refused
  inputs : ∃ inputs, journal.taken = records inputs ∧ modelBlocks inputs <+: seen.1.taken ∧
    ∀ input ∈ inputs, FromAccepted w input
  empty : seen.2.refused ≠ none → journal.taken = []
  failure : seen.2.lost = true → seen.2.refused ≠ none →
    ∃ error, journal.failure = some (.failed error)

variable {seen : Ledger × Fate} {journal : TurnJournal}

theorem failed_of_commit (haccount : Account id w) {commit : Commit} {error : StoreError}
    (hanswers : TurnAnswers id w ⟨held, .commit commit []⟩ (.error error) w') :
    ∃ failure, error = .failed failure := by
  obtain ⟨acted, replied, hclients, hreplies, rfl⟩ := hanswers
  obtain ⟨saved, hget, _, _⟩ := (haccount.clients hclients).1.account.get
  obtain ⟨now, hperforms⟩ : ∃ now,
    Performs acted (acted.commit id commit [] now) (.error error) replied := hreplies
  generalize hreply : Except.error error = reply at hperforms
  cases hperforms with
  | done =>
    simp [TurnWorld.commit, MemoryStore.commit, checkConsumedBlocks, MemoryStore.notPending,
      hget] at hreply
  | lost failure => exact ⟨failure, Except.error.inj hreply⟩
  | failed failure => exact ⟨failure, Except.error.inj hreply⟩

theorem commit_holds (h : Joined id seen journal w) {context : List Block} {commit : Commit}
    (hleading : seen.1.taken <+: commit.blocks) (hkept : seen.2.lost = false)
    (hfailure : ∀ error, seen.2.refused = some error → IsFailure commit error) :
    (journal.commit held commit).Holds (handContract id)
      (fun out w' => Joined id (seen.1.record ⟨context, .save commit⟩ out.1,
        seen.2.record ⟨context, .save commit⟩ out.1) out.2 w') w := by
  obtain ⟨inputs, htaken, hblocks, hfrom⟩ := h.inputs
  refine ⟨⟨⟨inputs, htaken, hblocks.trans hleading, hfrom⟩, fun error herror => ?_⟩, ?_⟩
  · rw [h.refused] at herror
    exact ⟨hfailure error herror, h.empty (by rw [herror]; simp)⟩
  intro reply w' hreply
  obtain ⟨honward, hrefused⟩ := h.account.answers hreply.1
  have hrefused' : w'.refused = seen.2.refused := by
    rw [hrefused, takeFailure_eq_none rfl, Option.none_or, h.refused]
  have hnothing : ∃ inputs, ([] : List ConsumedInput) = records inputs ∧
      modelBlocks inputs <+: ([] : List Block) ∧ ∀ input ∈ inputs, FromAccepted w' input :=
    ⟨[], rfl, List.prefix_rfl, by simp⟩
  rcases reply with error | number
  · refine ⟨honward.account, hrefused', ?_, fun _ => rfl, fun _ hsome => ?_⟩
    · obtain ⟨inputs, hinputs, hnone, hall⟩ := hnothing
      exact ⟨inputs, hinputs, hnone.trans List.nil_prefix, hall⟩
    · have hanswers := hreply.1
      rw [h.empty hsome] at hanswers
      obtain ⟨failure, rfl⟩ := failed_of_commit h.account hanswers
      exact ⟨failure, rfl⟩
  · refine ⟨trivial, fun _ w'' hreply' => ?_⟩
    obtain ⟨honward', hrefused''⟩ := honward.account.answers hreply'.1
    refine ⟨honward'.account, ?_, ⟨[], rfl, List.prefix_rfl, by simp⟩, fun _ => rfl, ?_⟩
    · rw [hrefused'', takeFailure_eq_none rfl, Option.none_or, hrefused']
      rfl
    · intro hlost
      exact absurd hlost (by simp [Fate.record, hkept])

theorem inbox_holds (h : Joined id seen journal w) (hlease : held.lease.isSome)
    {context : List Block} (htaken : seen.1.taken = []) (hkept : seen.2.lost = false)
    (hrefused : seen.2.refused = none) :
    (journal.inbox held).Holds (handContract id)
      (fun out w' => Joined id (seen.1.record ⟨context, .inbox⟩ out.1,
        seen.2.record ⟨context, .inbox⟩ out.1) out.2 w') w := by
  obtain ⟨inputs, hrecords, hblocks, _⟩ := h.inputs
  rw [htaken, List.prefix_nil] at hblocks
  have hempty : journal.taken = [] := by
    rw [hrecords, modelBlocks_eq_nil hblocks]
    rfl
  refine (take_holds h.account (h.refused.trans hrefused)).bind ?_
  rintro ⟨result, taken⟩ w' ⟨honward, htook⟩
  rcases result with error | blocks
  · obtain ⟨hw', hnone⟩ : w'.refused = some error.toDynError ∧ taken = [] := by
      simpa [Took, Refused, hlease] using htook
    subst hnone
    refine ⟨honward.account, hw', ⟨[], rfl, List.nil_prefix, by simp⟩, fun _ => rfl, ?_⟩
    intro hlost
    exact absurd hlost (by simp [Fate.record, hkept])
  · obtain ⟨hw', inputs', htaken', rfl, hfrom⟩ := htook
    refine ⟨honward.account, hw'.trans hrefused.symm, ⟨inputs', ?_, ?_, hfrom⟩, ?_, ?_⟩
    · have htaken'' : taken = journal.taken ++ records inputs' := htaken'
      rw [hempty] at htaken''
      exact htaken''
    · simp [Ledger.record, Ledger.inputTaken, htaken]
    · intro hsome
      exact absurd hrefused hsome
    · intro hlost
      exact absurd hlost (by simp [Fate.record, hkept])

theorem drive_holds (h : Joined id seen journal w) {context : List Block} {wait : Wait}
    (hfate : ∀ reply, seen.2.record ⟨context, wait⟩ reply = seen.2)
    (htaken : ∀ reply, (seen.1.record ⟨context, wait⟩ reply).taken = seen.1.taken) :
    (ask held (.drive wait) >>= fun reply => pure (reply, journal)).Holds (handContract id)
      (fun out w' => Joined id (seen.1.record ⟨context, wait⟩ out.1,
        seen.2.record ⟨context, wait⟩ out.1) out.2 w') w := by
  refine ⟨trivial, fun reply w' hreply => ?_⟩
  obtain ⟨honward, hrefused⟩ := h.account.answers hreply.1
  obtain ⟨inputs, hrecords, hblocks, hfrom⟩ := h.inputs
  have hfate' := hfate reply
  refine ⟨honward.account, ?_, ⟨inputs, hrecords, ?_, ?_⟩, ?_, ?_⟩
  · rw [hrefused, takeFailure_eq_none rfl, Option.none_or, h.refused, hfate']
  · exact (htaken reply).symm ▸ hblocks
  · exact fun input hinput => (hfrom input hinput).mono honward.accepted
  · rw [hfate']
    exact h.empty
  · rw [hfate']
    exact h.failure

theorem answer_holds {parts : TurnParts} {start : List Block} {session : Session}
    (hlease : session.lease.isSome) (a : Await) (h : Joined session.id seen journal w)
    (hallowed : ((ledgerContract parts start).both failureContract).allowed seen a) :
    (answer session a journal).Holds (handContract session.id)
      (fun out w' => ∃ seen', ((ledgerContract parts start).both failureContract).answers seen a
        out.1 seen' ∧ Joined session.id seen' out.2 w') w := by
  have hdone : ∀ {p : Sessioning (a.Reply × TurnJournal)},
      p.Holds (handContract session.id) (fun out w' =>
        Joined session.id (seen.1.record a out.1, seen.2.record a out.1) out.2 w') w →
      p.Holds (handContract session.id) (fun out w' => ∃ seen',
        ((ledgerContract parts start).both failureContract).answers seen a out.1 seen' ∧
          Joined session.id seen' out.2 w') w :=
    fun hp => hp.mono fun out _ hjoined =>
      ⟨(seen.1.record a out.1, seen.2.record a out.1), ⟨rfl, rfl⟩, hjoined⟩
  obtain ⟨context, wait⟩ := a
  obtain ⟨hledger, hkept, hfailure⟩ := hallowed
  cases wait with
  | save commit => exact hdone (commit_holds h hledger.2.2 hkept hfailure)
  | inbox =>
    have hrefused : seen.2.refused = none :=
      Option.eq_none_iff_forall_ne_some.mpr fun error herror => hfailure error herror
    exact hdone (inbox_holds h hlease hledger.2 hkept hrefused)
  | event event => cases event <;> exact hdone (drive_holds h (fun _ => rfl) fun _ => rfl)
  | _ => exact hdone (drive_holds h (fun _ => rfl) fun _ => rfl)

/-! ## The whole turn -/

def TurnEnded (out : Except SessionError Outcome × Session) (w : TurnWorld) : Prop :=
  ∀ error, w.refused = some error →
    out.1 = .error (.round (.inbox error)) ∧ out.2.isStale = false ∧
        out.2.newestTurn = .ended (.failed (chainText error)) ∨
      ∃ failure, out.1 = .error (.store (.failed failure))

theorem addNote_holds (haccount : Account id w) (hw : w.refused = none) (hlease : held.lease = none)
    (newestTurn : NewestTurn) (input : List Block) :
    (addNote held newestTurn input).Holds (handContract id)
      (fun out w' => Onward id w w' ∧ Took held input out w') w := by
  unfold addNote
  dsimp only
  split
  · exact ⟨haccount.refl, hw, [], by simp [records], by simp [modelBlocks], by simp⟩
  · next note _ =>
    refine ask_holds haccount (fun _ _ h => nomatch h) ?_
    intro reply w' _ honward hrefused hgentle
    have hw' := calm_of hrefused hw rfl
    rcases reply with error | number
    · refine ⟨honward, ?_⟩
      simpa [Took, Refused, hlease] using hw'
    · refine (take_holds honward.account hw').bind ?_
      rintro ⟨result, taken⟩ w'' ⟨honward', htook⟩
      have hall := honward.trans honward'
      rcases result with error | blocks
      · exact ⟨hall, htook⟩
      · obtain ⟨hw'', inputs, htaken, rfl, hfrom⟩ := htook
        exact ⟨hall, hw'', inputs, htaken, rfl, hfrom⟩

theorem drive_turn_holds {session : Session} (hlease : session.lease.isSome) (setup : TurnSetup)
    (fuel : Nat) {inputs : List PendingInput} (haccount : Account session.id w)
    (hw : w.refused = none) (hfrom : ∀ input ∈ inputs, FromAccepted w input) :
    (session.drive setup fuel (modelBlocks inputs) (records inputs)).Holds
      (handContract session.id) TurnEnded w := by
  have hjoined : Joined session.id (Ledger.ofInput (modelBlocks inputs), {})
      { taken := records inputs, inputTokens := session.inputTokens } w :=
    ⟨haccount, hw, ⟨inputs, rfl, List.prefix_rfl, hfrom⟩, fun h => absurd rfl h,
      fun h => nomatch h⟩
  have hrun := (run_holds_ledger (setup.parts session) fuel session.context (modelBlocks inputs)
    session.inputTokens).both (run_holds_failure (setup.parts session) fuel session.context
      (modelBlocks inputs) session.inputTokens)
  refine (Program.Holds.handle (fun a seen journal w h hallowed =>
    answer_holds hlease a h hallowed) hrun hjoined).bind ?_
  rintro ⟨⟨ran, context⟩, journal⟩ w' ⟨seen, ⟨_, hended⟩, hjoined'⟩ error herror
  rw [hjoined'.refused] at herror
  rcases ran with (failed | failed) | outcome
  · obtain rfl : failed = .inbox error := Except.error.inj (hended.2 error herror)
    refine .inl ⟨rfl, ?_, rfl⟩
    simpa [Session.turnEnded, Session.isStale] using hlease
  · obtain ⟨failure, hfailure⟩ := hjoined'.failure hended (by rw [herror]; simp)
    refine .inr ⟨failure, ?_⟩
    have hfailure' : journal.failure = some (.failed failure) := hfailure
    simp [Session.turnEnded, hfailure']
  · cases hended.2 error herror

theorem runTurn_holds (setup : TurnSetup) (fuel : Nat) (session : Session)
    (haccount : Account session.id w) (hw : w.refused = none) :
    (session.runTurn setup fuel).Holds (handContract session.id) TurnEnded w := by
  have hcalm : ∀ {w' : TurnWorld} {out : Except SessionError Outcome × Session},
      w'.refused = none → TurnEnded out w' := by
    intro w' out hw' error herror
    rw [hw'] at herror
    cases herror
  unfold Session.runTurn
  split
  · exact hcalm hw
  · next hstale =>
    have hlease : session.lease.isSome := by simpa [Session.isStale, ← Option.isSome_iff_ne_none] using hstale
    refine (take_holds haccount hw).bind ?_
    rintro ⟨result, taken⟩ w' ⟨honward, htook⟩
    rcases result with error | input
    · exact hcalm (by simpa [Took, Refused] using htook)
    · obtain ⟨hw', inputs, rfl, rfl, hfrom⟩ := htook
      dsimp only
      split
      · exact hcalm hw'
      · refine (addNote_holds honward.account hw' rfl session.newestTurn _).bind ?_
        rintro ⟨result, taken⟩ w'' ⟨honward', htook⟩
        rcases result with error | blocks
        · exact hcalm (by simpa [Took, Refused] using htook)
        · obtain ⟨hw'', noted, htaken, rfl, hfrom'⟩ := htook
          have hall : ∀ input ∈ inputs ++ noted, FromAccepted w'' input := by
            intro input hinput
            rcases List.mem_append.mp hinput with hinput | hinput
            · exact (hfrom input hinput).mono honward'.accepted
            · exact hfrom' input hinput
          have hrecords : taken = records (inputs ++ noted) := by
            simpa [records] using htaken
          have hblocks : ([] ++ modelBlocks inputs) ++ modelBlocks noted =
              modelBlocks (inputs ++ noted) := by
            simp [modelBlocks]
          dsimp only
          rw [hrecords, hblocks]
          exact drive_turn_holds hlease setup fuel honward'.account hw'' hall

def HandedOver (id : SessionId) (w : TurnWorld)
    (rest : Sessioning (Except SessionError Outcome × Session)) : Prop :=
  Account id w ∧
    match rest with
    | .call ⟨_, .commit commit consumed⟩ _ =>
      Handed w commit consumed ∧ checkConsumedBlocks commit consumed = .ok () ∧
        ∀ error, w.refused = some error → IsFailure commit error ∧ consumed = []
    | .done out => TurnEnded out w
    | _ => True

theorem Account.run {α : Type} {p rest : Sessioning α}
    {trace : List ((a : SessionAwait) × a.Reply)} (h : Account id w)
    (hrun : Program.Run (handContract id).answers p w trace rest w') : Account id w' := by
  induction hrun with
  | stay => exact h
  | step hr _ ih => exact ih (h.answers hr.1).1.account

/-- At each point of each run of a turn whose takes fail only before they keep an input, each commit
starts with the blocks of the inputs that it consumes. -/
theorem inputs_handed_over (setup : TurnSetup) (fuel : Nat) (session : Session)
    {trace : List ((a : SessionAwait) × a.Reply)}
    {rest : Sessioning (Except SessionError Outcome × Session)}
    (haccount : Account session.id w) (hw : w.refused = none)
    (hrun : Program.Run
      (fun w a reply w' => TurnAnswers session.id w a reply w' ∧ Gentle a reply)
      (session.runTurn setup fuel) w trace rest w') : HandedOver session.id w' rest := by
  have hrest := (runTurn_holds setup fuel session haccount hw).run hrun
  have hrun' : Program.Run (handContract session.id).answers _ _ _ _ _ := hrun
  refine ⟨haccount.run hrun', ?_⟩
  cases rest with
  | done | cut => exact hrest
  | call a next =>
    obtain ⟨held, call⟩ := a
    cases call with
    | commit commit consumed => exact ⟨hrest.1.1, hrest.1.1.check, hrest.1.2⟩
    | _ => trivial

end Turn

def messageInput (text : String) : Input where
  source := .user
  kind := .message
  content := [.userText text]
  modelContent := none
  content_ne := List.cons_ne_nil _ _
  modelContent_ne := fun h => nomatch h

def busyClients (id : SessionId) (w : TurnWorld) (a : SessionAwait) : TurnWorld :=
  match a.call with
  | .drive .finishReply =>
    ((w.accept id (messageInput "second")).2.accept id (messageInput "third")).2
  | _ => w

/-- A world where the hook fails on the input with the number `failing`. -/
def busyReply (id : SessionId) (failing : Nat) (w : TurnWorld) (a : SessionAwait) :
    a.Reply × TurnWorld :=
  match a with
  | ⟨_, .pending _⟩ => (w.store.pending id, w)
  | ⟨_, .removeInput input⟩ => w.remove id input
  | ⟨_, .acceptInput input⟩ => w.accept id input
  | ⟨_, .commit commit consumed⟩ => w.commit id commit consumed 0
  | ⟨_, .beforeInput input⟩ =>
    (if input.id.number = failing then Except.error { text := "the hook failed" } else .ok .keep, w)
  | ⟨_, .drive wait⟩ => (calmReply helloCompletion ⟨[], wait⟩, w)
  | ⟨_, .update _⟩ => ((), w)
  | ⟨_, .createSession _ _ _⟩ | ⟨_, .forkSession _⟩ | ⟨_, .openSession _⟩ | ⟨_, .setSettings _⟩ =>
    (Except.error .notFound, w)

def busyWorld (id : SessionId) (failing : Nat) (w : TurnWorld) (a : SessionAwait) :
    a.Reply × TurnWorld :=
  let out := busyReply id failing (busyClients id w a) a
  (out.1, { out.2 with refused := (takeFailure a out.1).or out.2.refused })

def busySetup : TurnSetup where
  model := plainParts.model
  toolset := none
  search := plainParts.search
  blobs := fun _ => .ok none

def busySession : Session where
  id := ⟨7⟩
  parent := none
  settings := ⟨⟨"host", "model"⟩, {}, .ofString "/work"⟩
  prompt := []
  context := []
  lease := some ⟨⟨7⟩⟩
  newestTurn := .empty
  inputTokens := none

def busyStart : TurnWorld :=
  let created := (({} : MemoryStore).createSession ⟨7⟩ busySession.settings [] none 0).2
  ((⟨created, [], [], none⟩ : TurnWorld).accept ⟨7⟩ (messageInput "first")).2

/-- A run of `steps` steps where the hook fails on the input with the number `failing`. -/
def busyRun (failing steps : Nat) :
    List ((a : SessionAwait) × a.Reply) ×
      Sessioning (Except SessionError Outcome × Session) × TurnWorld :=
  (busySession.runTurn busySetup 3).follow (busyWorld ⟨7⟩ failing) steps busyStart


theorem busyWorld_answers (id : SessionId) (failing : Nat) (w : TurnWorld) (a : SessionAwait) :
    TurnAnswers id w a (busyWorld id failing w a).1 (busyWorld id failing w a).2 := by
  refine ⟨busyClients id w a, _, ?_, ?_, rfl⟩
  · unfold busyClients
    split
    · exact .tail (.single (.accept _)) (.accept _)
    · exact .refl
  · obtain ⟨held, call⟩ := a
    cases call with
    | pending | removeInput | acceptInput => exact .done
    | commit => exact ⟨0, .done⟩
    | _ => rfl

theorem busyStart_account : Account ⟨7⟩ busyStart := by
  refine (Account.accept (w := _) ⟨_, Account.lookup_insert_self _ _, ?_⟩ _).account
  exact ⟨by simp, by simp, by simp [Saved.new], by
    simp [Saved.new, Saved.pendingIds, Saved.consumed, Saved.content, consumedOf]⟩

theorem busyRun_run (failing steps : Nat) :
    Program.Run (TurnAnswers ⟨7⟩) (busySession.runTurn busySetup 3) busyStart
      (busyRun failing steps).1 (busyRun failing steps).2.1 (busyRun failing steps).2.2 :=
  Program.run_follow (busyWorld_answers ⟨7⟩ failing) steps _ _

theorem inputs_handed_over_busy :
    (busyRun 2 20).2.2.refused = some { text := "the hook failed" } ∧
      HandedOver ⟨7⟩ (busyRun 2 20).2.2 (busyRun 2 20).2.1 :=
  ⟨rfl, inputs_handed_over busySetup 3 busySession busyStart_account rfl
    ((busyRun_run 2 20).with (by decide))⟩

/-- The hook fails on the third input after the turn took the second one. -/
theorem second_input_not_handed_over :
    Account ⟨7⟩ busyStart ∧ busyStart.refused = none ∧
      Program.Run (TurnAnswers ⟨7⟩) (busySession.runTurn busySetup 3) busyStart
        (busyRun 3 19).1 (busyRun 3 19).2.1 (busyRun 3 19).2.2 ∧
      ¬ HandedOver ⟨7⟩ (busyRun 3 19).2.2 (busyRun 3 19).2.1 := by
  refine ⟨busyStart_account, rfl, busyRun_run 3 19, ?_⟩
  rintro ⟨_, _, hcheck, _⟩
  cases hcheck

end Yuke.Agent
