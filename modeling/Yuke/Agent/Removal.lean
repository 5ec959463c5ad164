import Yuke.Agent.HandOver
import Yuke.Engine.DriveInput

/-!
# A removed input never reaches the model

Each request holds the context of the saved commits. The commit that brought an input consumed it,
and a consumed input cannot be removed.
-/

set_option autoImplicit false

namespace Yuke.Agent

open Yuke.Ai (Block)
open Yuke.Engine
open Yuke.Protocol
open Yuke.Shared (Contract Program)

/-- The saved events of session `id`. -/
def contentOf (id : SessionId) (w : TurnWorld) : Option (List SessionEvent) :=
  (w.store.state.sessions.lookup id).map Saved.content

/-- A commit holds the blocks of the inputs that it consumed and nothing else, or it consumed no
input and holds what a turn made. -/
def Attributed (w : TurnWorld) : SessionEvent → Prop
  | .settings _ => True
  | .commit commit consumed =>
    ∃ inputs, consumed = records inputs ∧ (∀ input ∈ inputs, FromAccepted w input) ∧
      if inputs = [] then ∀ block ∈ commit.blocks, Made block
      else commit.blocks = modelBlocks inputs

/-- The saved events give `context`, and each block of an input came with a commit that consumed
it. -/
def Known (id : SessionId) (context : List Block) (w : TurnWorld) : Prop :=
  ∃ content, contentOf id w = some content ∧ (Replayed.of content).context = context ∧
    ∀ event ∈ content, Attributed w event

def sentContract (id : SessionId) : Contract SessionAwait SessionAwait.Reply TurnWorld where
  allowed w a :=
    match a.call with
    | .drive (.openReply request) => a.held.taken = [] ∧ Known id request.blocks w
    | _ => True
  answers w a reply w' := TurnAnswers id w a reply w'

/-! ## The events of the store -/

section Content

variable {id : SessionId} {w w' : TurnWorld} {held : Held} {content : List SessionEvent}

theorem contentOf_accept (haccount : Account id w) (input : Input) :
    contentOf id (w.accept id input).2 = contentOf id w := by
  obtain ⟨saved, hget, hlookup, _⟩ := haccount.get
  simp only [TurnWorld.accept, MemoryStore.acceptInput, hget, contentOf]
  rw [hlookup, Account.lookup_insert_self]
  rfl

theorem contentOf_remove (haccount : Account id w) (input : InputId) :
    contentOf id (w.remove id input).2 = contentOf id w := by
  obtain ⟨saved, hget, hlookup, _⟩ := haccount.get
  simp only [TurnWorld.remove, MemoryStore.removeInput, hget]
  cases saved.pending.findIdx? fun pending => pending.id = input with
  | none => rfl
  | some position =>
    simp only [contentOf]
    rw [hlookup, Account.lookup_insert_self]
    rfl

theorem contentOf_clients (haccount : Account id w)
    (hclients : Relation.ReflTransGen (ClientStep id) w w') :
    contentOf id w' = contentOf id w := by
  induction hclients with
  | refl => rfl
  | tail hbefore hstep ih =>
    have haccount' := (haccount.clients hbefore).1.account
    cases hstep with
    | accept input => exact (contentOf_accept haccount' input).trans ih
    | remove input => exact (contentOf_remove haccount' input).trans ih

theorem contentOf_commit (haccount : Account id w) (hcontent : contentOf id w = some content)
    (commit : Commit) (consumed : List ConsumedInput) (now : Nat) :
    (∃ number, (w.commit id commit consumed now).1 = .ok number ∧
      checkConsumedBlocks commit consumed = .ok () ∧
      contentOf id (w.commit id commit consumed now).2 =
        some (content ++ [.commit commit consumed])) ∨
    (∃ error, (w.commit id commit consumed now).1 = .error error ∧
      contentOf id (w.commit id commit consumed now).2 = some content) := by
  obtain ⟨saved, hget, hlookup, _⟩ := haccount.get
  have hsaved : saved.content = content := by
    rw [contentOf, hlookup] at hcontent
    exact Option.some.inj hcontent
  simp only [TurnWorld.commit, MemoryStore.commit, hget]
  cases hcheck : checkConsumedBlocks commit consumed with
  | error error => exact .inr ⟨error, rfl, hcontent⟩
  | ok _ =>
    dsimp only
    cases MemoryStore.notPending saved.pending consumed [] with
    | some input => exact .inr ⟨_, rfl, hcontent⟩
    | none =>
      refine .inl ⟨_, rfl, rfl, ?_⟩
      simp only [contentOf]
      rw [Account.lookup_insert_self, ← hsaved]
      simp [Saved.pushEvent, Saved.content]

theorem contentOf_answers (haccount : Account id w) {call : SessionCall} {reply : call.Reply}
    (hanswers : TurnAnswers id w ⟨held, call⟩ reply w')
    (hcall : ∀ commit consumed, call ≠ .commit commit consumed) :
    contentOf id w' = contentOf id w := by
  obtain ⟨acted, replied, hclients, hreplies, rfl⟩ := hanswers
  have haccount' := (haccount.clients hclients).1.account
  rw [← contentOf_clients haccount hclients]
  change contentOf id replied = _
  cases call with
  | commit commit consumed => exact absurd rfl (hcall commit consumed)
  | pending checked =>
    have hperforms : Performs acted (acted.store.pending id, acted) reply replied := hreplies
    cases hperforms <;> rfl
  | removeInput input =>
    have hperforms : Performs acted (acted.remove id input) reply replied := hreplies
    cases hperforms with
    | done => exact contentOf_remove haccount' input
    | lost => exact contentOf_remove haccount' input
    | failed => rfl
  | acceptInput input =>
    have hperforms : Performs acted (acted.accept id input) reply replied := hreplies
    cases hperforms with
    | done => exact contentOf_accept haccount' input
    | lost => exact contentOf_accept haccount' input
    | failed => rfl
  | _ =>
    have hsame : replied = acted := hreplies
    rw [hsame]

theorem contentOf_committed (haccount : Account id w) (hcontent : contentOf id w = some content)
    {commit : Commit} {consumed : List ConsumedInput} {number : EventNumber}
    (hanswers : TurnAnswers id w ⟨held, .commit commit consumed⟩ (.ok number) w') :
    checkConsumedBlocks commit consumed = .ok () ∧
      contentOf id w' = some (content ++ [.commit commit consumed]) := by
  obtain ⟨acted, replied, hclients, hreplies, rfl⟩ := hanswers
  have haccount' := (haccount.clients hclients).1.account
  have hacted := (contentOf_clients haccount hclients).trans hcontent
  obtain ⟨now, hperforms⟩ : ∃ now,
    Performs acted (acted.commit id commit consumed now) (.ok number) replied := hreplies
  have hcommit := contentOf_commit haccount' hacted commit consumed now
  generalize hreply : Except.ok number = reply at hperforms
  cases hperforms with
  | done =>
    rcases hcommit with ⟨_, _, hcheck, hsaved⟩ | ⟨error, herror, _⟩
    · exact ⟨hcheck, hsaved⟩
    · rw [herror] at hreply
      cases hreply
  | lost => cases hreply
  | failed => cases hreply

theorem contentOf_grows (haccount : Account id w) (hcontent : contentOf id w = some content)
    {a : SessionAwait} {reply : a.Reply} (hanswers : TurnAnswers id w a reply w') :
    ∃ more, contentOf id w' = some (content ++ more) := by
  obtain ⟨held, call⟩ := a
  by_cases hcall : ∀ commit consumed, call ≠ .commit commit consumed
  · refine ⟨[], ?_⟩
    rw [contentOf_answers haccount hanswers hcall, hcontent, List.append_nil]
  · push Not at hcall
    obtain ⟨commit, consumed, rfl⟩ := hcall
    obtain ⟨acted, replied, hclients, hreplies, rfl⟩ := hanswers
    have haccount' := (haccount.clients hclients).1.account
    have hacted := (contentOf_clients haccount hclients).trans hcontent
    obtain ⟨now, hperforms⟩ : ∃ now,
      Performs acted (acted.commit id commit consumed now) reply replied := hreplies
    have hcommit : ∃ more, contentOf id (acted.commit id commit consumed now).2 =
        some (content ++ more) := by
      rcases contentOf_commit haccount' hacted commit consumed now with
        ⟨_, _, _, hsaved⟩ | ⟨_, _, hsaved⟩
      · exact ⟨_, hsaved⟩
      · exact ⟨[], by rw [hsaved, List.append_nil]⟩
    change ∃ more, contentOf id replied = some (content ++ more)
    cases hperforms with
    | done => exact hcommit
    | lost => exact hcommit
    | failed => exact ⟨[], by rw [hacted, List.append_nil]⟩

theorem Attributed.mono {event : SessionEvent} (h : Attributed w event)
    (hsub : w.accepted ⊆ w'.accepted) : Attributed w' event := by
  cases event with
  | settings => trivial
  | commit commit consumed =>
    obtain ⟨inputs, hrecords, hfrom, hblocks⟩ := h
    exact ⟨inputs, hrecords, fun input hinput => (hfrom input hinput).mono hsub, hblocks⟩

theorem Known.mono {context : List Block} (h : Known id context w)
    (hcontent : contentOf id w' = contentOf id w) (hsub : w.accepted ⊆ w'.accepted) :
    Known id context w' := by
  obtain ⟨content, hsaved, hcontext, hall⟩ := h
  exact ⟨content, hcontent.trans hsaved, hcontext, fun event hevent => (hall event hevent).mono hsub⟩

end Content

/-! ## The take -/

section Take

variable {id : SessionId} {held : Held} {w : TurnWorld}

/-- A part of a take keeps the account and saves no event. -/
structure Still (id : SessionId) (w w' : TurnWorld) : Prop where
  onward : Onward id w w'
  content : contentOf id w' = contentOf id w

theorem Still.refl (haccount : Account id w) : Still id w w := ⟨haccount.refl, rfl⟩

theorem Still.trans {w' w'' : TurnWorld} (h : Still id w w') (h' : Still id w' w'') :
    Still id w w'' :=
  ⟨h.onward.trans h'.onward, h'.content.trans h.content⟩

theorem Known.still {context : List Block} {w' : TurnWorld} (h : Known id context w)
    (hstill : Still id w w') : Known id context w' :=
  h.mono hstill.content hstill.onward.accepted

theorem ask_still {call : SessionCall} {β : Type} {f : call.Reply → Sessioning β}
    {post : β → TurnWorld → Prop} (haccount : Account id w)
    (hcall : ∀ commit consumed, call ≠ .commit commit consumed)
    (hallowed : (sentContract id).allowed w ⟨held, call⟩)
    (hf : ∀ reply w', TurnAnswers id w ⟨held, call⟩ reply w' → Still id w w' →
      (f reply).Holds (sentContract id) post w') :
    (ask held call >>= f).Holds (sentContract id) post w := by
  refine ⟨hallowed, fun reply w' hanswers => ?_⟩
  exact hf reply w' hanswers
    ⟨(haccount.answers hanswers).1, contentOf_answers haccount hanswers hcall⟩

def CheckPost (id : SessionId) (w : TurnWorld)
    (out : Except TakeError (Option PendingInput)) (w' : TurnWorld) : Prop :=
  Still id w w' ∧ ∀ found, out = .ok (some found) → FromAccepted w' found

theorem settle_still (haccount : Account id w) {input : PendingInput}
    (hinput : input ∈ w.accepted) (decision : InputDecision) :
    (settle held input decision).Holds (sentContract id) (CheckPost id w) w := by
  cases decision with
  | keep =>
    refine ⟨.refl haccount, ?_⟩
    rintro _ ⟨rfl⟩
    exact ⟨input, hinput, rfl, .inl rfl⟩
  | replace blocks =>
    cases hreplaced : input.input.withModelContent blocks with
    | error error =>
      rw [settle, hreplaced]
      exact ⟨.refl haccount, fun _ h => by cases h⟩
    | ok replaced =>
      rw [settle, hreplaced]
      refine ⟨.refl haccount, ?_⟩
      rintro _ ⟨rfl⟩
      exact ⟨input, hinput, rfl, .inr ⟨blocks, hreplaced⟩⟩
  | remove =>
    refine ask_still haccount (by simp) trivial ?_
    intro reply w' _ hstill
    rcases reply with error | _
    · cases error <;> exact ⟨hstill, fun _ h => by cases h⟩
    · refine ask_still hstill.onward.account (by simp) trivial ?_
      intro _ w'' _ hstill'
      exact ⟨hstill.trans hstill', fun _ h => by cases h⟩

theorem check_still (haccount : Account id w) {input : PendingInput}
    (hinput : input ∈ w.accepted) :
    (check held input).Holds (sentContract id) (CheckPost id w) w := by
  have hbefore : (beforeInput held input).Holds (sentContract id) (fun _ w' => Still id w w') w := by
    unfold beforeInput
    split
    · exact .refl haccount
    · refine ask_still haccount (by simp) trivial ?_
      intro reply w' _ hstill
      cases reply <;> exact hstill
  refine hbefore.bind ?_
  rintro decided w' hstill
  rcases decided with error | decision
  · exact ⟨hstill, fun _ h => by cases h⟩
  have hgone : (gone held input decision).Holds (sentContract id) (fun _ w'' => Still id w w'')
      w' := by
    unfold gone
    split
    · exact hstill
    · refine ask_still hstill.onward.account (by simp) trivial ?_
      intro reply w'' _ hstill'
      cases reply <;> exact hstill.trans hstill'
  refine hgone.bind ?_
  rintro left w'' hstill'
  rcases left with error | left
  · exact ⟨hstill', fun _ h => by cases h⟩
  cases left with
  | true => exact ⟨hstill', fun _ h => by cases h⟩
  | false =>
    refine (settle_still hstill'.onward.account (hstill'.onward.accepted hinput) decision).mono ?_
    exact fun out _ h => ⟨hstill'.trans h.1, h.2⟩

/-- A take adds the records of accepted inputs, and returns their blocks unless it fails. -/
def TookAll (taken : List ConsumedInput) (before : List Block)
    (out : Except TakeError (List Block) × List ConsumedInput) (w' : TurnWorld) : Prop :=
  ∃ inputs, out.2 = taken ++ records inputs ∧ (∀ input ∈ inputs, FromAccepted w' input) ∧
    ∀ blocks, out.1 = .ok blocks → blocks = before ++ modelBlocks inputs

theorem takeEach_still (haccount : Account id w) (before : List Block)
    {pending : List PendingInput} (hpending : ∀ input ∈ pending, input ∈ w.accepted) :
    (takeEach held before pending).Holds (sentContract id)
      (fun out w' => Still id w w' ∧ TookAll held.taken before out w') w := by
  have hnothing : ∀ {w' : TurnWorld} {result : Except TakeError (List Block)},
      (∀ blocks, result = .ok blocks → blocks = before) →
      TookAll held.taken before (result, held.taken) w' := by
    intro w' result hresult
    exact ⟨[], by simp [records], by simp, by simpa [modelBlocks] using hresult⟩
  induction pending generalizing held before w with
  | nil => exact ⟨.refl haccount, hnothing fun _ h => (Except.ok.inj h).symm⟩
  | cons input rest ih =>
    have hrest : ∀ other ∈ rest, other ∈ w.accepted := fun other hother =>
      hpending other (List.mem_cons_of_mem _ hother)
    unfold takeEach
    split
    · exact ih haccount before hrest hnothing
    · refine (check_still haccount (hpending input List.mem_cons_self)).bind ?_
      rintro checked w' ⟨hstill, hchecked⟩
      have hrest' : ∀ other ∈ rest, other ∈ w'.accepted := fun other hother =>
        hstill.onward.accepted (hrest other hother)
      rcases checked with error | taken
      · exact ⟨hstill, hnothing fun _ h => by cases h⟩
      cases taken with
      | none =>
        refine (ih hstill.onward.account before hrest' hnothing).mono fun out w'' h => ?_
        exact ⟨hstill.trans h.1, h.2⟩
      | some found =>
        refine (ih hstill.onward.account _ hrest' ?_).mono ?_
        · intro w'' result hresult
          exact ⟨[], by simp [records], by simp, by simpa [modelBlocks] using hresult⟩
        rintro ⟨result, taken⟩ w'' ⟨hstill', inputs, hrecords, hfrom, hblocks⟩
        refine ⟨hstill.trans hstill', found :: inputs, ?_, ?_, ?_⟩
        · simpa [records] using hrecords
        · intro other hother
          rcases List.mem_cons.mp hother with rfl | hother
          · exact (hchecked _ rfl).mono hstill'.onward.accepted
          · exact hfrom other hother
        · simpa [modelBlocks] using hblocks

theorem take_still (haccount : Account id w) :
    (take held).Holds (sentContract id)
      (fun out w' => Still id w w' ∧ TookAll held.taken [] out w') w := by
  refine ask_still haccount (by simp) trivial ?_
  intro reply w' hanswers hstill
  rcases reply with error | pending
  · exact ⟨hstill, [], by simp [records], by simp, fun _ h => by cases h⟩
  · refine (takeEach_still hstill.onward.account [] (haccount.answers_pending hanswers)).mono ?_
    exact fun out w'' h => ⟨hstill.trans h.1, h.2⟩

end Take

/-! ## The journal of a turn -/

section Turn

variable {id : SessionId} {held : Held} {w w' : TurnWorld}

/-- The taken inputs are the input that the driver got and did not save, and the saved events give
the context of the driver. After a failed save the turn waits for nothing more. -/
structure Traced (id : SessionId) (start : List Block) (seen : Ledger × (List Block × Fate))
    (journal : TurnJournal) (w : TurnWorld) : Prop where
  account : Account id w
  inputs : ∃ inputs, journal.taken = records inputs ∧ (∀ input ∈ inputs, FromAccepted w input) ∧
    (seen.2.2.lost = false → seen.2.2.refused = none → modelBlocks inputs = seen.2.1)
  known : seen.2.2.lost = false → Known id (replay start seen.1.saved) w

def recordAll (seen : Ledger × (List Block × Fate)) (a : Await) (reply : a.Reply) :
    Ledger × (List Block × Fate) :=
  (seen.1.record a reply, recordInput seen.2.1 a reply, seen.2.2.record a reply)

variable {start : List Block} {seen : Ledger × (List Block × Fate)} {journal : TurnJournal}

theorem attributed_of_commit {commit : Commit} {inputs : List PendingInput}
    (hcheck : checkConsumedBlocks commit (records inputs) = .ok ())
    (hfrom : ∀ input ∈ inputs, FromAccepted w input)
    (hblocks : seen.2.2.refused = none → modelBlocks inputs = seen.2.1)
    (hsourced : Sourced seen.2.1 commit)
    (hfailure : ∀ error, seen.2.2.refused = some error → IsFailure commit error) :
    Attributed w (.commit commit (records inputs)) := by
  refine ⟨inputs, rfl, hfrom, ?_⟩
  cases hrefused : seen.2.2.refused with
  | some error =>
    obtain ⟨_, hempty, _⟩ := hfailure error hrefused
    have hnone : inputs = [] := by
      rw [checkConsumedBlocks, sum_blockCount_records, hempty] at hcheck
      refine modelBlocks_eq_nil (List.eq_nil_of_length_eq_zero ?_)
      by_contra hsome
      rw [if_neg (by simpa using hsome)] at hcheck
      cases hcheck
    rw [if_pos hnone, hempty]
    exact fun block hblock => by cases hblock
  | none =>
    have hgiven := hblocks hrefused
    rw [Sourced, ← hgiven] at hsourced
    by_cases hnone : inputs = []
    · subst hnone
      have hmade : ∀ block ∈ commit.blocks, Made block := hsourced
      rw [if_pos rfl]
      exact hmade
    · rw [if_neg hnone]
      rw [if_neg fun h => hnone (modelBlocks_eq_nil h)] at hsourced
      exact hsourced

theorem commit_traced (h : Traced id start seen journal w) {context : List Block} {commit : Commit}
    (hsourced : Sourced seen.2.1 commit) (hkept : seen.2.2.lost = false)
    (hfailure : ∀ error, seen.2.2.refused = some error → IsFailure commit error) :
    (journal.commit held commit).Holds (sentContract id)
      (fun out w' => Traced id start (recordAll seen ⟨context, .save commit⟩ out.1) out.2 w') w := by
  obtain ⟨inputs, htaken, hfrom, hblocks⟩ := h.inputs
  obtain ⟨content, hsaved, hcontext, hall⟩ := h.known hkept
  refine ⟨trivial, fun reply w' hanswers => ?_⟩
  have honward := (h.account.answers hanswers).1
  rcases reply with error | number
  · refine ⟨honward.account, ⟨[], rfl, by simp, fun hlost => ?_⟩, fun hlost => ?_⟩
    · exact absurd hlost (by simp [recordAll, Fate.record])
    · exact absurd hlost (by simp [recordAll, Fate.record])
  · obtain ⟨hcheck, hsaved'⟩ := contentOf_committed h.account hsaved hanswers
    rw [htaken] at hcheck hsaved'
    have hknown : Known id (replay start (seen.1.saved ++ [commit])) w' := by
      refine ⟨_, hsaved', ?_, ?_⟩
      · rw [Replayed.of_concat, replay_append_singleton, ← hcontext]
        rfl
      · intro event hevent
        rcases List.mem_append.mp hevent with hevent | hevent
        · exact (hall event hevent).mono honward.accepted
        · rw [List.mem_singleton.mp hevent]
          exact (attributed_of_commit hcheck hfrom (hblocks hkept) hsourced hfailure).mono
            honward.accepted
    refine ⟨trivial, fun _ w'' hanswers' => ?_⟩
    have hstill : Still id w' w'' :=
      ⟨(honward.account.answers hanswers').1, contentOf_answers honward.account hanswers' (by simp)⟩
    exact ⟨hstill.onward.account, ⟨[], rfl, by simp, fun _ _ => rfl⟩, fun _ => hknown.still hstill⟩

theorem inbox_traced (h : Traced id start seen journal w) {context : List Block}
    (hgiven : seen.2.1 = []) (hkept : seen.2.2.lost = false) (hcalm : seen.2.2.refused = none) :
    (journal.inbox held).Holds (sentContract id)
      (fun out w' => Traced id start (recordAll seen ⟨context, .inbox⟩ out.1) out.2 w') w := by
  obtain ⟨inputs, htaken, _, hblocks⟩ := h.inputs
  have hempty : journal.taken = [] := by
    rw [htaken, modelBlocks_eq_nil ((hblocks hkept hcalm).trans hgiven)]
    rfl
  refine (take_still h.account).bind ?_
  rintro ⟨result, taken⟩ w' ⟨hstill, inputs', htaken', hfrom, hresult⟩
  have hknown := (h.known hkept).still hstill
  have htaken'' : taken = journal.taken ++ records inputs' := htaken'
  rw [hempty, List.nil_append] at htaken''
  rcases result with error | blocks
  · refine ⟨hstill.onward.account, ⟨inputs', htaken'', hfrom, fun _ hrefused => ?_⟩, fun _ => hknown⟩
    exact absurd hrefused (by simp [recordAll, Fate.record])
  · refine ⟨hstill.onward.account, ⟨inputs', htaken'', hfrom, fun _ _ => ?_⟩, fun _ => hknown⟩
    exact (hresult blocks rfl).symm

theorem drive_traced (h : Traced id start seen journal w) {context : List Block}
    {wait : Wait} (hallowed : (sentContract id).allowed w ⟨held, .drive wait⟩)
    (hrecord : ∀ reply, recordAll seen ⟨context, wait⟩ reply = ((seen.1.record ⟨context, wait⟩ reply), seen.2))
    (hledger : ∀ reply, (seen.1.record ⟨context, wait⟩ reply).saved = seen.1.saved) :
    (ask held (.drive wait) >>= fun reply => pure (reply, journal)).Holds (sentContract id)
      (fun out w' => Traced id start (recordAll seen ⟨context, wait⟩ out.1) out.2 w') w := by
  refine ask_still h.account (by simp) hallowed ?_
  intro reply w' _ hstill
  obtain ⟨inputs, htaken, hfrom, hblocks⟩ := h.inputs
  change Traced id start (recordAll seen ⟨context, wait⟩ reply) journal w'
  rw [hrecord reply]
  refine ⟨hstill.onward.account, ⟨inputs, htaken, ?_, hblocks⟩, fun hkept => ?_⟩
  · exact fun input hinput => (hfrom input hinput).mono hstill.onward.accepted
  · change Known id (replay start (seen.1.record ⟨context, wait⟩ reply).saved) w'
    rw [hledger reply]
    exact (h.known hkept).still hstill

theorem answer_traced {parts : TurnParts} {session : Session} (a : Await)
    (h : Traced session.id start seen journal w)
    (hallowed : ((ledgerContract parts start).both
      (inputContract.both failureContract)).allowed seen a) :
    (answer session a journal).Holds (sentContract session.id)
      (fun out w' => ∃ seen', ((ledgerContract parts start).both
        (inputContract.both failureContract)).answers seen a out.1 seen' ∧
          Traced session.id start seen' out.2 w') w := by
  have hdone : ∀ {p : Sessioning (a.Reply × TurnJournal)},
      p.Holds (sentContract session.id)
        (fun out w' => Traced session.id start (recordAll seen a out.1) out.2 w') w →
      p.Holds (sentContract session.id) (fun out w' => ∃ seen', ((ledgerContract parts start).both
        (inputContract.both failureContract)).answers seen a out.1 seen' ∧
          Traced session.id start seen' out.2 w') w :=
    fun hp => hp.mono fun out _ htraced => ⟨recordAll seen a out.1, ⟨rfl, rfl, rfl⟩, htraced⟩
  obtain ⟨context, wait⟩ := a
  obtain ⟨hledger, hinput, hkept, hfailure⟩ := hallowed
  cases wait with
  | save commit => exact hdone (commit_traced h hinput hkept hfailure)
  | inbox =>
    have hcalm : seen.2.2.refused = none :=
      Option.eq_none_iff_forall_ne_some.mpr fun error herror => hfailure error herror
    exact hdone (inbox_traced h hinput hkept hcalm)
  | openReply request =>
    refine hdone (drive_traced h ⟨?_, ?_⟩ (fun _ => rfl) fun _ => rfl)
    · have hcalm : seen.2.2.refused = none :=
        Option.eq_none_iff_forall_ne_some.mpr fun error herror => hfailure error herror
      obtain ⟨inputs, htaken, _, hblocks⟩ := h.inputs
      change journal.taken = []
      rw [htaken, modelBlocks_eq_nil ((hblocks hkept hcalm).trans hinput)]
      rfl
    · rw [hledger.1, ← hledger.2]
      exact h.known hkept
  | event event =>
    cases event <;> exact hdone (drive_traced h trivial (fun _ => rfl) fun _ => rfl)
  | _ => exact hdone (drive_traced h trivial (fun _ => rfl) fun _ => rfl)

theorem addNote_still (haccount : Account id w) (newestTurn : NewestTurn) (input : List Block) :
    (addNote held newestTurn input).Holds (sentContract id)
      (fun out w' => Still id w w' ∧ TookAll held.taken input out w') w := by
  unfold addNote
  dsimp only
  split
  · exact ⟨.refl haccount, [], by simp [records], by simp, by simp [modelBlocks]⟩
  · next note _ =>
    refine ask_still haccount (by simp) trivial ?_
    intro reply w' _ hstill
    rcases reply with error | number
    · exact ⟨hstill, [], by simp [records], by simp, fun _ h => by cases h⟩
    · refine (take_still hstill.onward.account).bind ?_
      rintro ⟨result, taken⟩ w'' ⟨hstill', inputs, htaken, hfrom, hresult⟩
      rcases result with error | blocks
      · exact ⟨hstill.trans hstill', inputs, htaken, hfrom, fun _ h => by cases h⟩
      · refine ⟨hstill.trans hstill', inputs, htaken, hfrom, ?_⟩
        rintro _ ⟨rfl⟩
        rw [hresult blocks rfl, List.nil_append]

def Left (id : SessionId) (out : Except SessionError Outcome × Session) (w : TurnWorld) : Prop :=
  Account id w ∧ (out.2.isStale = false → Known id out.2.context w)

theorem drive_turn_sent {session : Session} (setup : TurnSetup) (fuel : Nat)
    {inputs : List PendingInput} (haccount : Account session.id w)
    (hknown : Known session.id session.context w) (hfrom : ∀ input ∈ inputs, FromAccepted w input) :
    (session.drive setup fuel (modelBlocks inputs) (records inputs)).Holds
      (sentContract session.id) (Left session.id) w := by
  have hrun := (run_holds_ledger (setup.parts session) fuel session.context (modelBlocks inputs)
    session.inputTokens).both ((run_holds_input (setup.parts session) fuel session.context
      (modelBlocks inputs) session.inputTokens).both (run_holds_failure (setup.parts session) fuel
        session.context (modelBlocks inputs) session.inputTokens))
  have htraced : Traced session.id session.context
      (Ledger.ofInput (modelBlocks inputs), modelBlocks inputs, {})
      { taken := records inputs, inputTokens := session.inputTokens } w :=
    ⟨haccount, ⟨_, rfl, hfrom, fun _ _ => rfl⟩, fun _ => hknown⟩
  refine (Program.Holds.handle (fun a seen journal w h hallowed =>
    answer_traced a h hallowed) hrun htraced).bind ?_
  rintro ⟨⟨ran, context⟩, journal⟩ w' ⟨seen, ⟨hledger, _, hended⟩, htraced'⟩
  refine ⟨htraced'.account, fun hfresh => ?_⟩
  rcases ran with (failed | failed) | outcome
  · rw [← hledger.1]
    exact htraced'.known hended.1
  · cases hfresh
  · rw [← hledger.1]
    exact htraced'.known hended.1

theorem runTurn_sent (setup : TurnSetup) (fuel : Nat) (session : Session)
    (haccount : Account session.id w) (hknown : Known session.id session.context w) :
    (session.runTurn setup fuel).Holds (sentContract session.id) (Left session.id) w := by
  unfold Session.runTurn
  split
  · exact ⟨haccount, fun _ => hknown⟩
  refine (take_still haccount).bind ?_
  rintro ⟨result, taken⟩ w' ⟨hstill, inputs, htaken, hfrom, hresult⟩
  have hleft : ∀ {w' : TurnWorld} {result : Except SessionError Outcome},
      Still session.id w w' → Left session.id (result, session) w' :=
    fun hstill => ⟨hstill.onward.account, fun _ => hknown.still hstill⟩
  rcases result with error | input
  · exact hleft hstill
  dsimp only
  split
  · exact hleft hstill
  refine (addNote_still hstill.onward.account session.newestTurn input).bind ?_
  rintro ⟨result, taken'⟩ w'' ⟨hstill', noted, htaken', hfrom', hresult'⟩
  have hboth := hstill.trans hstill'
  rcases result with error | blocks
  · exact hleft hboth
  have hall : ∀ input ∈ inputs ++ noted, FromAccepted w'' input := by
    intro input hinput
    rcases List.mem_append.mp hinput with hinput | hinput
    · exact (hfrom input hinput).mono hstill'.onward.accepted
    · exact hfrom' input hinput
  have hrecords : taken' = records (inputs ++ noted) := by
    have hfirst : taken = [] ++ records inputs := htaken
    have hsecond : taken' = taken ++ records noted := htaken'
    rw [hsecond, hfirst, List.nil_append, records, records, records, List.map_append]
  have hblocks : blocks = modelBlocks (inputs ++ noted) := by
    rw [hresult' blocks rfl, hresult input rfl, List.nil_append, modelBlocks, modelBlocks,
      modelBlocks, List.flatMap_append]
  dsimp only
  rw [hrecords, hblocks]
  exact drive_turn_sent setup fuel hboth.onward.account (hknown.still hboth) hall

/-- Any turns, clients and hooks of session `id` act on the world. -/
def Later (id : SessionId) : TurnWorld → TurnWorld → Prop :=
  Relation.ReflTransGen fun w w' => ∃ a reply, TurnAnswers id w a reply w'

theorem Later.grows {content : List SessionEvent} (haccount : Account id w)
    (hcontent : contentOf id w = some content) (h : Later id w w') :
    Account id w' ∧ ∃ more, contentOf id w' = some (content ++ more) := by
  induction h with
  | refl => exact ⟨haccount, [], by rw [hcontent, List.append_nil]⟩
  | tail _ hstep ih =>
    obtain ⟨haccount', more, hmore⟩ := ih
    obtain ⟨a, reply, hanswers⟩ := hstep
    obtain ⟨more', hmore'⟩ := contentOf_grows haccount' hmore hanswers
    exact ⟨(haccount'.answers hanswers).1.account, more ++ more', by
      rw [hmore', List.append_assoc]⟩

theorem later_of_run {α : Type} {p rest : Sessioning α}
    {trace : List ((a : SessionAwait) × a.Reply)}
    (hrun : Program.Run (TurnAnswers id) p w trace rest w') : Later id w w' := by
  induction hrun with
  | stay => exact .refl
  | step hr _ ih => exact .head ⟨_, _, hr⟩ ih

theorem Account.not_removed (h : Account id w) {content : List SessionEvent}
    (hcontent : contentOf id w = some content) {event : SessionEvent} (hevent : event ∈ content)
    {input : InputId} (hinput : input ∈ consumedOf event) : input ∉ w.removed := by
  obtain ⟨saved, hlookup, hbalanced⟩ := h
  have hsaved : saved.content = content := by
    rw [contentOf, hlookup] at hcontent
    exact Option.some.inj hcontent
  have hconsumed : input ∈ saved.pendingIds ++ saved.consumed :=
    List.mem_append_right _ (List.mem_flatMap.mpr ⟨event, hsaved ▸ hevent, hinput⟩)
  have hall := hbalanced.balance.nodup_iff.mp hbalanced.nodup
  exact fun hremoved => (List.nodup_append.mp hall).2.2 _ hconsumed _ hremoved rfl

/-- The request `blocks` of the world `w` holds the saved context. Each block of an input came with
a commit that consumed it, and no such input is removed in `w'`. -/
def Unremoved (id : SessionId) (blocks : List Block) (w w' : TurnWorld) : Prop :=
  ∃ content, contentOf id w = some content ∧ (Replayed.of content).context = blocks ∧
    ∀ event ∈ content, Attributed w event ∧ ∀ input ∈ consumedOf event, input ∉ w'.removed

/-- Each request of each run of a turn holds blocks of consumed inputs only, and no run of clients
and turns after it removes one of them. -/
theorem removed_never_sent (setup : TurnSetup) (fuel : Nat) (session : Session)
    {trace : List ((a : SessionAwait) × a.Reply)} {request : Ai.Request} {w'' : TurnWorld}
    {next : (SessionCall.drive (.openReply request)).Reply →
      Sessioning (Except SessionError Outcome × Session)}
    (haccount : Account session.id w) (hknown : Known session.id session.context w)
    (hrun : Program.Run (TurnAnswers session.id) (session.runTurn setup fuel) w trace
      (.call ⟨held, .drive (.openReply request)⟩ next) w')
    (hlater : Later session.id w' w'') :
    held.taken = [] ∧ Unremoved session.id request.blocks w' w'' := by
  have hrest := (runTurn_sent setup fuel session haccount hknown).run hrun
  obtain ⟨htaken, content, hcontent, hcontext, hall⟩ := hrest.1
  obtain ⟨_, hbefore, _⟩ := hknown
  have haccount' := ((later_of_run hrun).grows haccount hbefore).1
  refine ⟨htaken, content, hcontent, hcontext, fun event hevent => ⟨hall event hevent, ?_⟩⟩
  intro input hinput
  obtain ⟨haccount'', more, hmore⟩ := hlater.grows haccount' hcontent
  exact haccount''.not_removed hmore (List.mem_append_left _ hevent) hinput

/-- A handle of session `id` and its world, after steps of clients and whole turns of the handle. -/
inductive Lived (id : SessionId) (first : Session) (start : TurnWorld) :
    Session → TurnWorld → Prop where
  | opened : Lived id first start first start
  | client {session : Session} {w w' : TurnWorld} :
    Lived id first start session w → ClientStep id w w' → Lived id first start session w'
  | turn {session : Session} {w w' : TurnWorld} {trace : List ((a : SessionAwait) × a.Reply)}
    {out : Except SessionError Outcome × Session} (setup : TurnSetup) (fuel : Nat) :
    Lived id first start session w → session.id = id →
      Program.Run (TurnAnswers id) (session.runTurn setup fuel) w trace (.done out) w' →
        Lived id first start out.2 w'

/-- After any turns a handle that is not stale has the context of the saved events, and each
accepted input is pending, consumed by one commit, or removed. -/
theorem memory_is_store {first session : Session} {start : TurnWorld}
    (haccount : Account id start) (hknown : Known id first.context start)
    (h : Lived id first start session w) :
    Account id w ∧ (session.isStale = false → Known id session.context w) := by
  induction h with
  | opened => exact ⟨haccount, fun _ => hknown⟩
  | client _ hstep ih =>
    have hclients := Relation.ReflTransGen.single hstep
    have honward := (ih.1.clients hclients).1
    exact ⟨honward.account, fun hfresh =>
      (ih.2 hfresh).mono (contentOf_clients ih.1 hclients) honward.accepted⟩
  | @turn session w w' trace out setup fuel _ hid hrun ih =>
    subst hid
    cases hstale : session.isStale with
    | true =>
      -- A stale handle refuses its turn.
      rw [Session.runTurn, if_pos hstale] at hrun
      cases hrun
      exact ih
    | false => exact (runTurn_sent setup fuel session ih.1 (ih.2 hstale)).run hrun

end Turn

def withdrawClients (id : SessionId) (w : TurnWorld) (a : SessionAwait) : TurnWorld :=
  match a.call with
  | .beforeInput input => if input.id.number = 3 then (w.remove id input.id).2 else w
  | _ => busyClients id w a

def withdrawWorld (id : SessionId) (w : TurnWorld) (a : SessionAwait) : a.Reply × TurnWorld :=
  let out := busyReply id 0 (withdrawClients id w a) a
  (out.1, { out.2 with refused := (takeFailure a out.1).or out.2.refused })

def withdrawRun : List ((a : SessionAwait) × a.Reply) ×
    Sessioning (Except SessionError Outcome × Session) × TurnWorld :=
  (busySession.runTurn busySetup 3).follow (withdrawWorld ⟨7⟩) 26 busyStart

theorem withdrawWorld_answers (id : SessionId) (w : TurnWorld) (a : SessionAwait) :
    TurnAnswers id w a (withdrawWorld id w a).1 (withdrawWorld id w a).2 := by
  refine ⟨withdrawClients id w a, _, ?_, ?_, rfl⟩
  · unfold withdrawClients
    split
    · split
      · exact .single (.remove _)
      · exact .refl
    · unfold busyClients
      split
      · exact .tail (.single (.accept _)) (.accept _)
      · exact .refl
  · obtain ⟨held, call⟩ := a
    cases call with
    | pending | removeInput | acceptInput => exact .done
    | commit => exact ⟨0, .done⟩
    | _ => rfl

theorem busyStart_known : Known ⟨7⟩ [] busyStart :=
  ⟨[.settings busySession.settings], rfl, rfl, by simp [Attributed]⟩

theorem removed_never_sent_withdrawn :
    withdrawRun.2.2.removed = [⟨3⟩] ∧ ∃ held request next,
      withdrawRun.2.1 = .call ⟨held, .drive (.openReply request)⟩ next ∧
        held.taken = [] ∧ Unremoved ⟨7⟩ request.blocks withdrawRun.2.2 withdrawRun.2.2 :=
  ⟨rfl, _, _, _, rfl, removed_never_sent busySetup 3 busySession busyStart_account busyStart_known
    (Program.run_follow (withdrawWorld_answers ⟨7⟩) 26 _ _) .refl⟩

theorem memory_is_store_busy : ∃ session w, Lived ⟨7⟩ busySession busyStart session w ∧
    Account ⟨7⟩ w ∧ (session.isStale = false → Known ⟨7⟩ session.context w) := by
  have hrun : ∃ trace out w, Program.Run (TurnAnswers ⟨7⟩) (busySession.runTurn busySetup 3)
    busyStart trace (.done out) w := ⟨_, _, _, busyRun_run 1 9⟩
  obtain ⟨trace, out, w, hrun⟩ := hrun
  have hlived : Lived ⟨7⟩ busySession busyStart out.2 w := .turn busySetup 3 .opened rfl hrun
  exact ⟨_, _, hlived, memory_is_store busyStart_account busyStart_known hlived⟩

end Yuke.Agent
