import Yuke.Chat.ComposerBlocks
import Yuke.Shared.Log
import Yuke.Tui.EditorRuns

/-!
# Runs of the composer

Each draft that a send took has one end, and each removed input is in the editor, as long as a removal
ends before the abort and the editor takes the draft that a recall or a failed send gives it.
-/

set_option autoImplicit false

namespace Yuke.Chat

open Yuke.Shared Yuke.Tui

section Reset
variable {g : Graphemes} {text : Text} {multiline : Bool}

theorem checkRange_whole {last : ℕ} (start stop : ℕ) {range : ℕ × ℕ}
    (h : checkRange text last (.whole start) (.whole stop) = .ok range) : range = (start, stop) := by
  unfold checkRange at h
  simp only at h
  split at h
  · cases h
  · exact (Except.ok.inj h).symm

theorem checkKind_toInput {span : EditorSpan} {start stop : ℕ} {kind : SpanKind}
    (h : checkKind text start stop span.toInput.kind = .ok kind) : kind = span.kind := by
  cases hkind : span.kind with
  | paste =>
    unfold EditorSpan.toInput at h
    rw [hkind] at h
    exact (Except.ok.inj h).symm
  | image media =>
    obtain ⟨input, hinput, hmedia⟩ := checkMedia_toInput hkind
    rw [hinput] at h
    unfold checkKind at h
    simp only [hmedia] at h
    split at h
    · cases h
    · exact (Except.ok.inj h).symm

theorem checkSpan_toInput {last : ℕ} {span after : EditorSpan}
    (h : checkSpan g text last (some span.toInput) = .ok after) : after = span := by
  unfold checkSpan at h
  simp only at h
  split at h
  · cases h
  next start stop hrange =>
    split at h
    · cases h
    split at h
    · cases h
    next label hlabel =>
      split at h
      · cases h
      split at h
      · cases h
      next kind hkind =>
        have hwhole := checkRange_whole span.start span.stop hrange
        have hsame := checkKind_toInput hkind
        have hlabels : span.label = label := Option.some.inj hlabel
        obtain ⟨rfl, rfl⟩ := Prod.mk.inj hwhole
        rw [← Except.ok.inj h, hsame, ← hlabels]

theorem checkSpansFrom_toInput {last : ℕ} {spans after : List EditorSpan}
    (h : checkSpansFrom g text last (spans.map fun span => some span.toInput) = .ok after) :
    after = spans := by
  induction spans generalizing last after with
  | nil => exact (Except.ok.inj h).symm
  | cons span spans ih =>
    rw [List.map_cons, checkSpansFrom] at h
    split at h
    · cases h
    next first hfirst =>
      split at h
      · cases h
      next rest hrest =>
        rw [← Except.ok.inj h, checkSpan_toInput hfirst, ih hrest]

theorem checked_toInput {draft after : EditorState}
    (h : checked g multiline draft.toInput = .ok after) :
    after.text = lineOf multiline draft.text ∧ after.spans = draft.spans := by
  unfold checked EditorState.toInput at h
  simp only at h
  split at h
  · cases h
  next spans hspans =>
    split at h
    · cases h
    split at h
    · cases h
    rw [← Except.ok.inj h]
    exact ⟨rfl, checkSpansFrom_toInput hspans⟩

theorem checked_empty (g : Graphemes) (multiline : Bool) :
    ∃ after, checked g multiline emptyDraft.toInput = .ok after := by
  cases multiline with
  | false => exact ⟨_, rfl⟩
  | true => exact ⟨_, rfl⟩

end Reset

/-- `after` has `first` above what `before` had, with each span of both. -/
structure Above (multiline : Bool) (first before after : EditorState) : Prop where
  text : after.text = lineOf multiline
    (if before.text = [] then first.text else first.text ++ lineFeed :: before.text)
  spans : after.spans = first.spans ++
    if before.text = [] then []
    else before.spans.map fun span =>
      shifted span (span.start + (first.text.length + 1)) (span.stop + (first.text.length + 1))

theorem above_joined {g : Graphemes} {multiline : Bool} {first before after : EditorState}
    (h : checked g multiline (joined first before).toInput = .ok after) :
    Above multiline first before after := by
  obtain ⟨htext, hspans⟩ := checked_toInput h
  unfold joined at htext hspans
  constructor
  · rw [htext]
    split <;> rfl
  · rw [hspans]
    split
    · exact (List.append_nil _).symm
    · rfl

namespace ComposerEntry

def ofSend : ComposerEntry → Bool
  | .removed .. => false
  | _ => true

/-- The entry ends the send that took `draft`: the session has its blocks, or the editor has it above
what was typed since. -/
inductive Ends (multiline : Bool) (draft : EditorState) : ComposerEntry → Prop where
  | accepted : Ends multiline draft (.accepted (blocksOf draft))
  | putBack {before after : EditorState} (h : Above multiline draft before after) :
      Ends multiline draft (.putBack draft before after)

end ComposerEntry

/-- The entries of the sends take turns: a send takes a draft out of the editor, and one entry ends it
before the next one. The editor has each removed input. -/
inductive Ledger (multiline : Bool) : List ComposerEntry → Option EditorState → Prop where
  | new : Ledger multiline [] none
  | took {log : List ComposerEntry} (h : Ledger multiline log none) {draft after : EditorState}
      (htext : after.text = []) (hspans : after.spans = []) :
      Ledger multiline (log ++ [.took draft after]) (some draft)
  | ended {log : List ComposerEntry} {draft : EditorState} (h : Ledger multiline log (some draft))
      {entry : ComposerEntry} (hends : entry.Ends multiline draft) :
      Ledger multiline (log ++ [entry]) none
  | recalled {log : List ComposerEntry} {flight : Option EditorState}
      (h : Ledger multiline log flight) {content : List InputBlock} {before after : EditorState}
      (habove : Above multiline (draftOf content) before after) :
      Ledger multiline (log ++ [.removed content (some (before, after))]) flight

/-- One of the entries ends the send that took `draft`, before the next entry of a send. -/
def EndedIn (multiline : Bool) (draft : EditorState) (rest : List ComposerEntry) : Prop :=
  ∃ between entry more, rest = between ++ entry :: more ∧
    (∀ other ∈ between, other.ofSend = false) ∧ entry.Ends multiline draft

structure MessagesKept (multiline : Bool) (log : List ComposerEntry) (flight : Option EditorState) :
    Prop where
  /-- A draft that a send took left the editor. Its send waits, or it has its end. -/
  took : ∀ before draft after rest, log = before ++ .took draft after :: rest →
    after.text = [] ∧ after.spans = [] ∧
      (flight = some draft ∧ (∀ entry ∈ rest, entry.ofSend = false) ∨ EndedIn multiline draft rest)
  /-- An end has the draft that a send took, with no other entry of a send between. -/
  ended : ∀ before entry rest, log = before ++ entry :: rest → entry.ofSend = true →
    (∀ draft after, entry ≠ .took draft after) →
    ∃ first draft after between, before = first ++ .took draft after :: between ∧
      (∀ other ∈ between, other.ofSend = false) ∧ entry.Ends multiline draft
  /-- Each removed input is in the editor, above the text that was there. -/
  removed : ∀ content shown, .removed content shown ∈ log →
    ∃ before after, shown = some (before, after) ∧ Above multiline (draftOf content) before after

namespace Ledger

variable {multiline : Bool} {log : List ComposerEntry} {flight : Option EditorState}

theorem endedIn_append {draft : EditorState} {rest : List ComposerEntry}
    (h : EndedIn multiline draft rest) (more : List ComposerEntry) :
    EndedIn multiline draft (rest ++ more) := by
  obtain ⟨between, entry, after, rfl, hbetween, hends⟩ := h
  exact ⟨between, entry, after ++ more, by rw [List.append_assoc, List.cons_append], hbetween, hends⟩

theorem none_concat {rest : List ComposerEntry} (h : ∀ entry ∈ rest, entry.ofSend = false)
    {last : ComposerEntry} (hlast : last.ofSend = false) :
    ∀ entry ∈ rest ++ [last], entry.ofSend = false := by
  intro entry hentry
  rcases List.mem_append.mp hentry with hentry | hentry
  · exact h entry hentry
  · rw [List.mem_singleton.mp hentry]
    exact hlast

theorem took_kept (h : Ledger multiline log flight) :
    ∀ before draft after rest, log = before ++ .took draft after :: rest →
      after.text = [] ∧ after.spans = [] ∧
        (flight = some draft ∧ (∀ entry ∈ rest, entry.ofSend = false) ∨
          EndedIn multiline draft rest) := by
  induction h with
  | new =>
    intro before draft after rest hlog
    simp at hlog
  | took _ htext hspans ih =>
    intro before draft after rest hlog
    rcases split_snoc.mp hlog with ⟨rest, rfl, hsplit⟩ | ⟨rfl, hentry, _⟩
    · obtain ⟨hnil, hnone, ⟨hflight, _⟩ | hended⟩ := ih _ _ _ _ hsplit
      · cases hflight
      · exact ⟨hnil, hnone, .inr (endedIn_append hended _)⟩
    · cases hentry
      exact ⟨htext, hspans, .inl ⟨rfl, by simp⟩⟩
  | @ended log taken _ entry hends ih =>
    intro before draft after rest hlog
    rcases split_snoc.mp hlog with ⟨rest, rfl, hsplit⟩ | ⟨_, hentry, _⟩
    · obtain ⟨hnil, hnone, ⟨hflight, hrest⟩ | hended⟩ := ih _ _ _ _ hsplit
      · rw [Option.some.inj hflight] at hends
        exact ⟨hnil, hnone, .inr ⟨rest, entry, [], rfl, hrest, hends⟩⟩
      · exact ⟨hnil, hnone, .inr (endedIn_append hended _)⟩
    · rw [hentry] at hends
      cases hends
  | recalled _ _ ih =>
    intro before draft after rest hlog
    rcases split_snoc.mp hlog with ⟨rest, rfl, hsplit⟩ | ⟨_, hentry, _⟩
    · obtain ⟨hnil, hnone, ⟨hflight, hrest⟩ | hended⟩ := ih _ _ _ _ hsplit
      · exact ⟨hnil, hnone, .inl ⟨hflight, none_concat hrest rfl⟩⟩
      · exact ⟨hnil, hnone, .inr (endedIn_append hended _)⟩
    · cases hentry

theorem flight_took (h : Ledger multiline log flight) {draft : EditorState}
    (hflight : flight = some draft) :
    ∃ first after between, log = first ++ .took draft after :: between ∧
      ∀ other ∈ between, other.ofSend = false := by
  induction h with
  | new => cases hflight
  | @took log _ _ after _ _ _ =>
    cases hflight
    exact ⟨log, after, [], rfl, by simp⟩
  | ended => cases hflight
  | @recalled log _ _ content before after' _ ih =>
    obtain ⟨first, after, between, rfl, hbetween⟩ := ih hflight
    refine ⟨first, after, between ++ [.removed content (some (before, after'))], ?_,
      none_concat hbetween rfl⟩
    rw [List.append_assoc, List.cons_append]

theorem ended_kept (h : Ledger multiline log flight) :
    ∀ before entry rest, log = before ++ entry :: rest → entry.ofSend = true →
      (∀ draft after, entry ≠ .took draft after) →
      ∃ first draft after between, before = first ++ .took draft after :: between ∧
        (∀ other ∈ between, other.ofSend = false) ∧ entry.Ends multiline draft := by
  induction h with
  | new =>
    intro before entry rest hlog
    simp at hlog
  | took _ _ _ ih =>
    intro before entry rest hlog hsend htook
    rcases split_snoc.mp hlog with ⟨rest, rfl, hsplit⟩ | ⟨_, hentry, _⟩
    · exact ih _ _ _ hsplit hsend htook
    · exact absurd hentry.symm (htook _ _)
  | ended hledger hends ih =>
    intro before entry rest hlog hsend htook
    rcases split_snoc.mp hlog with ⟨rest, rfl, hsplit⟩ | ⟨_, rfl, rfl⟩
    · exact ih _ _ _ hsplit hsend htook
    · obtain ⟨first, after, between, hbefore, hbetween⟩ := hledger.flight_took rfl
      exact ⟨first, _, after, between, hbefore, hbetween, hends⟩
  | recalled _ _ ih =>
    intro before entry rest hlog hsend htook
    rcases split_snoc.mp hlog with ⟨rest, rfl, hsplit⟩ | ⟨_, rfl, _⟩
    · exact ih _ _ _ hsplit hsend htook
    · cases hsend

theorem removed_kept (h : Ledger multiline log flight) :
    ∀ content shown, .removed content shown ∈ log →
      ∃ before after, shown = some (before, after) ∧
        Above multiline (draftOf content) before after := by
  induction h with
  | new =>
    intro content shown hmem
    cases hmem
  | took _ _ _ ih =>
    intro content shown hmem
    rcases List.mem_append.mp hmem with hmem | hmem
    · exact ih content shown hmem
    · cases List.mem_singleton.mp hmem
  | ended _ hends ih =>
    intro content shown hmem
    rcases List.mem_append.mp hmem with hmem | hmem
    · exact ih content shown hmem
    · rw [← List.mem_singleton.mp hmem] at hends
      cases hends
  | recalled _ habove ih =>
    intro content shown hmem
    rcases List.mem_append.mp hmem with hmem | hmem
    · exact ih content shown hmem
    · cases List.mem_singleton.mp hmem
      exact ⟨_, _, rfl, habove⟩

theorem kept (h : Ledger multiline log flight) : MessagesKept multiline log flight :=
  ⟨h.took_kept, h.ended_kept, h.removed_kept⟩

end Ledger

namespace Composer

variable {g : Graphemes} {s t : Composer}

def flight (s : Composer) : Option EditorState :=
  match s.send with
  | some (.message draft) => some draft
  | _ => none

/-- The editor takes `draft`. -/
def Takes (g : Graphemes) (s : Composer) (draft : EditorState) : Prop :=
  ∃ state, s.resetTo g draft = .ok state

/-- The steps that lose no message. A removal ends before the abort, and the editor takes the draft
of a recall and the draft that a failed send puts back. -/
def Allowed (g : Graphemes) (s : Composer) : ComposerEvent → Prop
  | .removal .removed => s.aborted = false ∧
      ∀ input, s.removal = some input → s.Takes g (joined (draftOf input.content) s.editor)
  | .sendEnds false => ∀ draft, s.send = some (.message draft) → s.Takes g (joined draft s.editor)
  | _ => True

structure Still (s t : Composer) : Prop where
  multiline : t.multiline = s.multiline
  send : t.send = s.send
  log : t.log = s.log

def Kept (multiline : Bool) (s : Composer) : Prop :=
  s.multiline = multiline ∧ Ledger multiline s.log s.flight

theorem Still.kept {multiline : Bool} (h : Still s t) (hs : s.Kept multiline) :
    t.Kept multiline := by
  constructor
  · rw [h.multiline, hs.1]
  · unfold flight
    rw [h.log, h.send]
    exact hs.2

theorem changed_still (call : Call) (after : EditorState) : Still s (s.changed call after) := by
  unfold changed
  simp only
  split
  · exact ⟨rfl, rfl, rfl⟩
  · cases call with
    | replace => exact ⟨rfl, rfl, rfl⟩
    | select =>
      simp only
      split
      · exact ⟨rfl, rfl, rfl⟩
      · exact ⟨rfl, rfl, rfl⟩
    | replaceAll => exact ⟨rfl, rfl, rfl⟩

theorem edit_still (call : Call) : Still s (s.edit g call) := changed_still call _

theorem paste_still (text : Text) : Still s (s.paste g text) := by
  unfold paste
  split_ifs
  · exact edit_still _
  · exact edit_still _

theorem setDraft_still (draft : EditorState) : Still s (s.setDraft g draft) := by
  unfold setDraft
  split
  · exact ⟨rfl, rfl, rfl⟩
  · exact ⟨rfl, rfl, rfl⟩

theorem browseBy_still (step : Int) (entries : List ChatEntry) :
    Still s (s.browseBy g step entries) := by
  unfold browseBy
  simp only
  split
  · split_ifs
    · exact setDraft_still _
    · exact ⟨rfl, rfl, rfl⟩
  · split
    · exact ⟨rfl, rfl, rfl⟩
    · exact ⟨rfl, rfl, rfl⟩

theorem olderMessage_still (pending : List PendingInput) (entries : List ChatEntry)
    (attached : Bool) : Still s (s.olderMessage g pending entries attached) := by
  unfold olderMessage
  split
  · exact ⟨rfl, rfl, rfl⟩
  · split
    · split
      · exact ⟨rfl, rfl, rfl⟩
      · exact ⟨rfl, rfl, rfl⟩
    · split
      · exact browseBy_still _ _
      · exact ⟨rfl, rfl, rfl⟩

theorem attachTo_still (index : ℕ) (answer : HandleAnswer) : Still s (s.attachTo index answer) := by
  unfold attachTo
  split
  · exact ⟨rfl, rfl, rfl⟩
  · exact ⟨rfl, rfl, rfl⟩
  · split_ifs
    · exact ⟨rfl, rfl, rfl⟩
    · exact ⟨rfl, rfl, rfl⟩

theorem attached_still (index : ℕ) (media : Option Media) :
    Still s (s.attached g index media) := by
  unfold attached
  split
  · exact ⟨rfl, rfl, rfl⟩
  · split_ifs
    · exact ⟨rfl, rfl, rfl⟩
    · obtain ⟨hmultiline, hsend, hlog⟩ := edit_still (g := g)
        (s := { s with attaches := s.attaches.eraseIdx index }) (.replace _ _ _ _)
      exact ⟨hmultiline, hsend, hlog⟩

theorem setDraft_empty :
    (s.setDraft g emptyDraft).editor.text = [] ∧ (s.setDraft g emptyDraft).editor.spans = [] := by
  obtain ⟨after, hafter⟩ := checked_empty g s.multiline
  obtain ⟨htext, hspans⟩ := checked_toInput hafter
  unfold setDraft resetTo
  rw [hafter]
  refine ⟨?_, hspans⟩
  rw [htext]
  cases s.multiline <;> rfl

variable {multiline : Bool}

theorem startSend_kept (hs : s.Kept multiline) : s.startSend.Kept multiline := by
  unfold startSend
  split_ifs with hbusy
  · exact hs
  · have hnone : s.send = none := by
      cases hsend : s.send with
      | none => rfl
      | some => simp [hsend] at hbusy
    refine ⟨hs.1, ?_⟩
    have hledger := hs.2
    unfold flight at hledger ⊢
    rw [hnone] at hledger
    exact hledger

theorem takeDraft_kept (hs : s.Kept multiline) (hsend : s.send = some .handle)
    (answer : HandleAnswer) : (s.takeDraft g answer).Kept multiline := by
  have hledger : Ledger multiline s.log none := by
    have := hs.2
    unfold flight at this
    rwa [hsend] at this
  unfold takeDraft
  cases answer with
  | absent => exact ⟨hs.1, hledger⟩
  | fails => exact ⟨hs.1, hledger⟩
  | target =>
    simp only
    split_ifs
    · exact ⟨hs.1, hledger⟩
    · obtain ⟨hmultiline, _, _⟩ := setDraft_still (g := g) (s := s) emptyDraft
      exact ⟨hmultiline.trans hs.1, hledger.took setDraft_empty.1 setDraft_empty.2⟩

theorem flight_ledger (hs : s.Kept multiline) {draft : EditorState}
    (hsend : s.send = some (.message draft)) : Ledger multiline s.log (some draft) := by
  have hledger := hs.2
  unfold flight at hledger
  rwa [hsend] at hledger

theorem putBack_kept (hs : s.Kept multiline) {draft : EditorState}
    (hsend : s.send = some (.message draft)) (htakes : s.Takes g (joined draft s.editor)) :
    (s.putBack g draft).Kept multiline := by
  obtain ⟨state, hstate⟩ := htakes
  obtain ⟨hmultiline, _, _⟩ := setDraft_still (g := g) (s := s) (joined draft s.editor)
  have habove : Above multiline draft s.editor state := hs.1 ▸ above_joined hstate
  unfold putBack
  rw [hstate]
  exact ⟨hmultiline.trans hs.1, (flight_ledger hs hsend).ended (.putBack habove)⟩

theorem endRecall_kept (hs : s.Kept multiline) {input : PendingInput} {answer : RemovalAnswer}
    (hremoved : answer = .removed →
      s.aborted = false ∧ s.Takes g (joined (draftOf input.content) s.editor)) :
    (s.endRecall g input answer).Kept multiline := by
  unfold endRecall
  cases answer with
  | taken => exact ⟨hs.1, hs.2⟩
  | fails => exact ⟨hs.1, hs.2⟩
  | removed =>
    obtain ⟨haborted, state, hstate⟩ := hremoved rfl
    have habove : Above multiline (draftOf input.content) s.editor state :=
      hs.1 ▸ above_joined hstate
    simp only [haborted, Bool.false_eq_true, if_false, hstate]
    exact ⟨hs.1, hs.2.recalled habove⟩

theorem step_kept (hs : s.Kept multiline) {event : ComposerEvent} (hallowed : s.Allowed g event)
    (hstep : s.step g event = some t) : t.Kept multiline := by
  cases event with
  | edit call =>
    cases hstep
    exact (edit_still call).kept hs
  | paste text =>
    cases hstep
    exact (paste_still text).kept hs
  | send =>
    cases hstep
    exact startSend_kept hs
  | sendHandle answer =>
    simp only [step] at hstep
    split_ifs at hstep with hsend
    cases hstep
    exact takeDraft_kept hs hsend answer
  | sendEnds accepted =>
    simp only [step] at hstep
    split at hstep
    · next draft hsend =>
      cases accepted with
      | true =>
        cases hstep
        exact ⟨hs.1, (flight_ledger hs hsend).ended .accepted⟩
      | false =>
        cases hstep
        exact putBack_kept hs hsend (hallowed draft hsend)
    · cases hstep
  | olderMessage pending entries attached =>
    cases hstep
    exact (olderMessage_still pending entries attached).kept hs
  | newerMessage entries =>
    cases hstep
    exact (browseBy_still 1 entries).kept hs
  | removal answer =>
    obtain ⟨input, hinput, rfl⟩ := Option.map_eq_some_iff.mp hstep
    refine endRecall_kept hs ?_
    rintro rfl
    exact ⟨hallowed.1, hallowed.2 input hinput⟩
  | attachImage =>
    cases hstep
    exact ⟨hs.1, hs.2⟩
  | attachHandle index answer =>
    simp only [step] at hstep
    split_ifs at hstep
    cases hstep
    exact (attachTo_still index answer).kept hs
  | stored index media =>
    simp only [step] at hstep
    split_ifs at hstep
    cases hstep
    exact (attached_still index media).kept hs
  | setDraft draft =>
    cases hstep
    exact (setDraft_still draft).kept hs
  | abort =>
    cases hstep
    exact ⟨hs.1, hs.2⟩

/-- In a run whose steps are allowed each message is kept: a draft of a send has one end, a removed
input is in the editor with its text and its images, and the blocks of a draft come back. -/
theorem messages_kept {state : EditorState} {events : List ComposerEvent}
    (h : Steps (when (Allowed g) (outcome (step g))) (new multiline state) events s) :
    MessagesKept multiline s.log s.flight ∧
      (∀ content, (draftOf content).text = blocksText content ∧
        spanMedia (draftOf content).spans = blocksMedia content) ∧
      ∀ draft, blocksOf (draftOf (blocksOf draft)) = blocksOf draft := by
  have hkept : s.Kept multiline := by
    apply h.keeps (P := Kept multiline) ⟨rfl, .new⟩
    intro before event after hbefore hstep
    exact step_kept hbefore hstep.1 hstep.2
  exact ⟨hkept.2.kept, fun content => ⟨(draftOf_eq content).1, spanMedia_draftOf content⟩,
    blocksOf_draftOf⟩

def retried : List ComposerEvent :=
  [.edit (EditorState.put 0 0 [0x61]), .send, .sendHandle .target,
    .edit (EditorState.put 0 0 [0x62]), .sendEnds false]

def letter (unit : UInt16) : EditorState := { text := [unit], selection := ⟨1, 1⟩, spans := [] }

def bothLetters : EditorState where
  text := [0x61, lineFeed, 0x62]
  selection := ⟨3, 3⟩
  spans := []

def retriedEnd : Composer :=
  { new true bothLetters with
    log := [.took (letter 0x61) emptyDraft, .putBack (letter 0x61) (letter 0x62) bothLetters] }

theorem messages_kept_retried : MessagesKept true retriedEnd.log retriedEnd.flight := by
  have hrun : Steps (when (Allowed marks) (outcome (step marks))) (new true emptyDraft) retried
      retriedEnd := by
    apply Steps.cons ⟨trivial, rfl⟩
    apply Steps.cons ⟨trivial, rfl⟩
    apply Steps.cons ⟨trivial, rfl⟩
    apply Steps.cons ⟨trivial, rfl⟩
    refine Steps.cons ⟨?_, rfl⟩ .start
    intro draft hdraft
    cases hdraft
    exact ⟨_, rfl⟩
  exact (messages_kept hrun).1

def picture : Media := { digest := "d", len := 1, mime := "image/png", filename := none }

/-- The recall of a waiting message whose removal ends well, with `between` in the meantime. -/
def recallOf (content : List InputBlock) (between : List ComposerEvent) : List ComposerEvent :=
  .olderMessage [{ id := 1, fromUser := true, isMessage := true, content }] [] true ::
    between ++ [.removal .removed]

def markedSend : List ComposerEvent :=
  [.attachImage, .attachHandle 0 .target, .stored 0 (some picture),
    .edit (EditorState.put 1 1 [combiningAcute]), .send, .sendHandle .target, .sendEnds false]

def marked : EditorState where
  text := imageText ++ [combiningAcute]
  selection := ⟨2, 2⟩
  spans := [{ start := 0, stop := 1, kind := .image picture, label := imageLabel 0 }]

def Loses (events : List ComposerEvent) : Prop :=
  ∃ s, Steps (outcome (step marks)) (new true emptyDraft) events s ∧
    ¬ MessagesKept true s.log s.flight

theorem loses_of_run {events : List ComposerEvent} {log : List ComposerEntry}
    {flight : Option EditorState}
    (hrun : (events.foldlM (step marks) (new true emptyDraft)).map (fun s => (s.log, s.flight)) =
      some (log, flight))
    (hlost : ¬ MessagesKept true log flight) : Loses events := by
  obtain ⟨s, hs, heq⟩ := Option.map_eq_some_iff.mp hrun
  obtain ⟨rfl, rfl⟩ := Prod.mk.inj heq
  exact ⟨s, Steps.of_foldlM hs, hlost⟩

theorem not_kept_removed (content : List InputBlock) :
    ¬ MessagesKept true [.removed content none] none := by
  intro h
  obtain ⟨_, _, hshown, _⟩ := h.removed content none List.mem_cons_self
  cases hshown

theorem not_kept_took (draft after : EditorState) :
    ¬ MessagesKept true [.took draft after] none := by
  intro h
  obtain ⟨_, _, ⟨hflight, _⟩ | ⟨between, entry, more, hnil, _⟩⟩ := h.took [] draft after [] rfl
  · cases hflight
  · simp at hnil

/-- An abort during the removal, and an editor that refuses a joined draft, lose a message: the draft
of a recall, and the draft of a failed send. -/
theorem messages_lost :
    Loses (recallOf [.userText [0x61]] [.abort]) ∧
      Loses (recallOf [.media picture, .userText [combiningAcute]] []) ∧ Loses markedSend := by
  refine ⟨?_, ?_, ?_⟩
  · exact loses_of_run (by decide +kernel) (not_kept_removed [.userText [0x61]])
  · exact loses_of_run (by decide +kernel)
      (not_kept_removed [.media picture, .userText [combiningAcute]])
  · exact loses_of_run (by decide +kernel) (not_kept_took marked ⟨[], ⟨0, 0⟩, []⟩)

end Composer

end Yuke.Chat
