import Yuke.Shared.Steps
import Yuke.Tui.EditorEdits
import Yuke.Tui.EditorWord

/-!
# Runs of the editor

An edit next to a span can join a grapheme across the edge of the span. In a run without such an
edit, each state is sound, a restore takes it as it is, and the word moves end.
-/

set_option autoImplicit false

namespace Yuke.Tui

open Yuke.Shared

section Accepts
variable {g : Graphemes} {text : Text} {spans : List EditorSpan} {span : EditorSpan}
variable {multiline : Bool} {state : EditorState}

theorem checkRange_sound {last : Nat} (hlast : last ≤ span.start) (hlt : span.start < span.stop)
    (hlength : span.stop ≤ text.length) :
    checkRange text last (.whole span.start) (.whole span.stop) = .ok (span.start, span.stop) := by
  unfold checkRange
  simp only
  rw [if_neg (by omega), Int.toNat_natCast, Int.toNat_natCast]

theorem checkMedia_toInput {media : Media} (hkind : span.kind = .image media) :
    ∃ input, span.toInput.kind = .image input ∧ checkMedia input = some media := by
  obtain ⟨digest, len, mime, filename⟩ := media
  have hlen : ¬ (len : Int) < 0 := by omega
  unfold EditorSpan.toInput
  rw [hkind]
  refine ⟨_, rfl, ?_⟩
  cases filename <;> simp [checkMedia, Field.value?, hlen]

theorem checkKind_sound (h : SpanSound g text span) :
    checkKind text span.start span.stop span.toInput.kind = .ok span.kind := by
  cases hkind : span.kind with
  | paste =>
    unfold EditorSpan.toInput
    rw [hkind]
    rfl
  | image media =>
    obtain ⟨input, hinput, hmedia⟩ := checkMedia_toInput hkind
    simp [hinput, checkKind, h.image media hkind, hmedia]

theorem checkSpan_sound {last : Nat} (hlast : last ≤ span.start) (h : SpanSound g text span) :
    checkSpan g text last (some span.toInput) = .ok span := by
  have hrange := checkRange_sound hlast h.lt (boundary_le h.stop_mem)
  have hkind := checkKind_sound h
  unfold checkSpan
  have hstart : span.toInput.start = .whole span.start := rfl
  have hstop : span.toInput.stop = .whole span.stop := rfl
  have hlabel : span.toInput.label = some span.label := rfl
  simp only [hstart, hstop, hrange, hlabel, hkind]
  rw [if_neg (by simp [h.start_mem, h.stop_mem]), if_neg (by simp [h.label_ne, h.label_line])]

theorem checkSpansFrom_sound {last : Nat} (h : SpansSound g text spans)
    (hlast : ∀ span ∈ spans, last ≤ span.start) :
    checkSpansFrom g text last (spans.map fun span => some span.toInput) = .ok spans := by
  induction spans generalizing last with
  | nil => rfl
  | cons span spans ih =>
    obtain ⟨hfirst, horder⟩ := List.pairwise_cons.mp h.order
    have hspan := checkSpan_sound (hlast span (by simp)) (h.span span (by simp))
    have hrest := ih ⟨horder, fun item hitem => h.span item (by simp [hitem])⟩ hfirst
    simp [checkSpansFrom, hspan, hrest]

theorem Stands.checkOffset {offset : Nat} (h : Stands g text spans offset) :
    checkOffset text (.whole offset) = .ok offset := by
  have hle := h.le
  simp only [Tui.checkOffset]
  rw [if_neg (by omega)]
  rfl

theorem checked_self (h : state.Sound g multiline) :
    checked g multiline state.toInput = .ok state := by
  have hspans : checkSpans g state.text state.toInput.spans = .ok state.spans :=
    checkSpansFrom_sound h.spans fun _ _ => Nat.zero_le _
  obtain ⟨text, ⟨anchor, head⟩, spans⟩ := state
  simp only [EditorState.toInput] at hspans
  simp only [checked, EditorState.toInput, h.line.lineOf, hspans, h.anchor.checkOffset,
    h.head.checkOffset, h.anchor.snap, h.head.snap]

end Accepts

namespace Editor

def Fits (g : Graphemes) (editor : Editor) (event : EditorEvent) : Prop :=
  ∀ fuel start stop text spans edit,
    editor.eventCall g fuel event = some (some (.replace start stop text spans)) →
    editor.edit g start stop text spans = .ok edit → editor.state.Fits g edit

variable {g : Graphemes} {editor later : Editor} {state : EditorState} {event : EditorEvent}

theorem edit_sound (h : editor.state.Sound g editor.multiline) {start stop : Number}
    {text : Option Text} {spans : SpansInput} {edit : TextEdit}
    (hedit : editor.edit g start stop text spans = .ok edit) :
    EditSound g editor.multiline editor.state edit := by
  unfold Editor.edit at hedit
  split at hedit
  · simp at hedit
  split at hedit
  · simp at hedit
  rename_i hstop
  split at hedit
  · simp at hedit
  rename_i hle
  split at hedit
  · simp at hedit
  simp only at hedit
  split at hedit
  · simp at hedit
  rename_i hspans
  simp only [Except.ok.injEq] at hedit
  subst hedit
  exact ⟨effective_whole h.spans (Nat.le_of_not_lt hle) (checkOffset_ok hstop),
    checkSpans_ok hspans, lineOf_oneLine⟩

theorem perform_sound (h : editor.state.Sound g editor.multiline) {call : Call}
    (hfits : ∀ start stop text spans edit, call = .replace start stop text spans →
      editor.edit g start stop text spans = .ok edit → editor.state.Fits g edit)
    (hperform : editor.perform g call = .ok state) : state.Sound g editor.multiline := by
  cases call with
  | select anchor head =>
    simp only [perform] at hperform
    split at hperform
    · simp at hperform
    rename_i hanchor
    split at hperform
    · simp at hperform
    rename_i hhead
    simp only [Except.ok.injEq] at hperform
    subst hperform
    exact ⟨h.line, h.spans, snap_stands h.spans (checkOffset_ok hanchor),
      snap_stands h.spans (checkOffset_ok hhead)⟩
  | replace start stop text spans =>
    simp only [perform] at hperform
    split at hperform
    · simp at hperform
    rename_i edit hedit
    simp only [Except.ok.injEq] at hperform
    subst hperform
    exact apply_sound (edit_sound h hedit) h.spans h.line (hfits _ _ _ _ _ rfl hedit)
  | replaceAll input => exact checked_sound hperform

theorem next_sound (h : editor.state.Sound g editor.multiline)
    (hnext : when (Fits g) (Editor.next g) editor event later) :
    later.state.Sound g later.multiline := by
  obtain ⟨hfits, fuel, hafter⟩ := hnext
  obtain ⟨call, hcall, rfl⟩ := Option.map_eq_some_iff.mp hafter
  show (editor.stateAfter g call).Sound g editor.multiline
  unfold stateAfter
  cases call with
  | none => exact h
  | some call =>
    simp only
    split
    · exact h
    · rename_i state hperform
      exact perform_sound h (fun start stop text spans edit heq hedit =>
        hfits fuel start stop text spans edit (by rw [hcall, heq]) hedit) hperform

theorem new_sound {multiline : Bool} {input : StateInput}
    (h : Editor.new g multiline input = .ok editor) : editor.state.Sound g editor.multiline := by
  unfold Editor.new at h
  split at h
  · simp at h
  rename_i hchecked
  simp only [Except.ok.injEq] at h
  subst h
  exact checked_sound hchecked

theorem run_sound {multiline : Bool} {input : StateInput} {events : List EditorEvent}
    (hnew : Editor.new g multiline input = .ok editor)
    (hrun : Steps (when (Fits g) (Editor.next g)) editor events later) :
    later.state.Sound g later.multiline :=
  hrun.keeps (P := fun editor => editor.state.Sound g editor.multiline) (new_sound hnew)
    fun _ _ _ h hnext => next_sound h hnext

end Editor

def combiningAcute : UInt16 := 0x0301

def markCut : Text → List Grapheme
  | [] => []
  | _ :: rest =>
    match markCut rest, rest with
    | first :: others, unit :: _ =>
      if unit = combiningAcute then { first with length := first.length + 1 } :: others
      else { length := 1, cells := 1 } :: first :: others
    | pieces, _ => { length := 1, cells := 1 } :: pieces

theorem markCut_nonempty (text : Text) : ∀ grapheme ∈ markCut text, 0 < grapheme.length := by
  fun_induction markCut text <;> simp_all

theorem markCut_whole (text : Text) : ((markCut text).map Grapheme.length).sum = text.length := by
  fun_induction markCut text <;> simp_all <;> omega

def marks : Graphemes where
  cut := markCut
  nonempty := markCut_nonempty
  whole := markCut_whole

def blank : Editor := { multiline := true, state := ⟨[], ⟨0, 0⟩, []⟩, drag := none }

def pasted : Call :=
  .replace (.whole 0) (.whole 0) (some [0x61, 0x62, 0x63])
    (some [some { start := .whole 0, stop := .whole 3, label := some [0x78], kind := .paste }])

def filled : Editor :=
  { blank with state := ⟨[0x61, 0x62, 0x63], ⟨3, 3⟩, [⟨0, 3, .paste, [0x78]⟩]⟩ }

def joined : Editor :=
  { blank with
    state := ⟨[0x61, 0x62, 0x63, combiningAcute], ⟨0, 0⟩, [⟨0, 3, .paste, [0x78]⟩]⟩
    drag := some 0 }

theorem filled_next : blank.next marks (.call pasted) filled := ⟨0, rfl⟩

theorem filled_fits : blank.Fits marks (.call pasted) := by
  intro fuel start stop text spans edit hcall hedit
  obtain ⟨rfl, rfl, rfl, rfl⟩ : .whole 0 = start ∧ .whole 0 = stop ∧ some [0x61, 0x62, 0x63] = text ∧
      some [some { start := .whole 0, stop := .whole 3, label := some [0x78], kind := .paste }] =
        spans := by
    simpa [Editor.eventCall, pasted] using hcall
  obtain rfl : { start := 0, stop := 0, text := [0x61, 0x62, 0x63]
                 spans := [⟨0, 3, .paste, [0x78]⟩] } = edit := Except.ok.inj hedit
  unfold EditorState.Fits
  decide

theorem joined_run :
    Steps (Editor.next marks) blank
      [.call pasted, .key (.character [combiningAcute]), .press 0] joined :=
  .cons filled_next (.cons ⟨0, rfl⟩ (.cons ⟨0, rfl⟩ .start))

theorem joined_loop (fuel : Nat) :
    joined.state.wordLoop (boundaries marks joined.state.text) .forward fuel 0 true = none ∧
      joined.state.wordLoop (boundaries marks joined.state.text) .forward fuel (-1) true = none := by
  induction fuel with
  | zero => exact ⟨rfl, rfl⟩
  | succ fuel ih => exact ⟨ih.2, ih.1⟩

namespace Editor

section Runs
variable {g : Graphemes} {first later : Editor} {multiline : Bool} {input : StateInput}
variable {events : List EditorEvent}

/-- While no edit puts a grapheme across an edge of a span, each state is sound, and a restore of it
gives the same state. -/
theorem state_stays_sound (hnew : Editor.new g multiline input = .ok first)
    (hrun : Steps (when (Fits g) (Editor.next g)) first events later) :
    later.state.Sound g later.multiline ∧
      later.perform g (.replaceAll later.state.toInput) = .ok later.state :=
  ⟨run_sound hnew hrun, checked_self (run_sound hnew hrun)⟩

/-- While no edit puts a grapheme across an edge of a span, each word move from the caret ends at a
grapheme edge outside the spans, at the caret or beyond it. -/
theorem word_move_ends (hnew : Editor.new g multiline input = .ok first)
    (hrun : Steps (when (Fits g) (Editor.next g)) first events later) (direction : Direction) :
    ∃ fuel target, later.state.word g fuel later.state.selection.head direction =
        some (some target) ∧
      Stands g later.state.text later.state.spans target ∧
      direction.Reaches later.state.selection.head target :=
  word_ends (run_sound hnew hrun).spans (run_sound hnew hrun).head direction

end Runs

theorem blank_new : Editor.new marks true emptyState = .ok blank := rfl

theorem filled_run :
    Steps (when (Fits marks) (Editor.next marks)) blank [.call pasted] filled :=
  .cons ⟨filled_fits, filled_next⟩ .start

theorem state_stays_sound_filled :
    filled.state.Sound marks filled.multiline ∧
      filled.perform marks (.replaceAll filled.state.toInput) = .ok filled.state :=
  state_stays_sound blank_new filled_run

theorem word_move_ends_filled :
    ∃ fuel target, filled.state.word marks fuel filled.state.selection.head .back =
        some (some target) ∧
      Stands marks filled.state.text filled.state.spans target ∧
      Direction.back.Reaches filled.state.selection.head target :=
  word_move_ends blank_new filled_run .back

/-- A mark that is typed behind a span leaves its end inside a grapheme, and no restore takes the
state. -/
theorem state_splits_grapheme :
    Editor.new marks true emptyState = .ok blank ∧
      Steps (Editor.next marks) blank
        [.call pasted, .key (.character [combiningAcute]), .press 0] joined ∧
      (∃ span ∈ joined.state.spans, span.stop ∉ boundaries marks joined.state.text) ∧
      joined.perform marks (.replaceAll joined.state.toInput) =
        .error ⟨.rangeError, "a span from 0 to 3 splits a grapheme"⟩ :=
  ⟨blank_new, joined_run, ⟨_, .head _, by decide⟩, rfl⟩

/-- After that mark the word move from the start does not end. -/
theorem word_move_hangs :
    Editor.new marks true emptyState = .ok blank ∧
      Steps (Editor.next marks) blank
        [.call pasted, .key (.character [combiningAcute]), .press 0] joined ∧
      ∀ fuel, joined.state.word marks fuel joined.state.selection.head .forward = none := by
  refine ⟨blank_new, joined_run, fun fuel => ?_⟩
  cases fuel with
  | zero => rfl
  | succ fuel => exact (joined_loop fuel).2

end Editor

end Yuke.Tui
