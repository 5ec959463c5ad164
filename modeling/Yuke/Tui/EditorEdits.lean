import Yuke.Tui.EditorSound

/-!
# The edits keep the invariant
-/

set_option autoImplicit false

namespace Yuke.Tui

open Yuke.Shared

variable {g : Graphemes} {text : Text} {spans : List EditorSpan} {span : EditorSpan}
variable {multiline : Bool} {state : EditorState} {edit : TextEdit} {range : Nat × Nat}

def Overlaps (range : Nat × Nat) (span : EditorSpan) : Prop :=
  span.start < range.2 ∧ range.1 < span.stop

theorem grow_fst_le : (grow range span).1 ≤ range.1 := by unfold grow; split <;> simp

theorem le_grow_snd : range.2 ≤ (grow range span).2 := by unfold grow; split <;> simp

theorem foldl_grow_le (spans : List EditorSpan) (range : Nat × Nat) :
    (spans.foldl grow range).1 ≤ range.1 ∧ range.2 ≤ (spans.foldl grow range).2 := by
  induction spans generalizing range with
  | nil => simp
  | cons span spans ih =>
    obtain ⟨hlow, hhigh⟩ := ih (grow range span)
    exact ⟨hlow.trans grow_fst_le, le_grow_snd.trans hhigh⟩

theorem overlaps_of_foldl_grow {spans : List EditorSpan} {range : Nat × Nat}
    (hpos : span.start < span.stop) (hspans : ∀ other ∈ spans, Apart other span)
    (h : Overlaps (spans.foldl grow range) span) : Overlaps range span := by
  induction spans generalizing range with
  | nil => exact h
  | cons other spans ih =>
    have hgrown := ih (fun item hitem => hspans item (by simp [hitem])) h
    have hother := hspans other (by simp)
    unfold Overlaps grow at *
    unfold Apart at hother
    split at hgrown
    · simp only at hgrown
      omega
    · exact hgrown

theorem foldl_grow_holds {spans : List EditorSpan} {range : Nat × Nat}
    (hpos : ∀ span ∈ spans, span.start < span.stop) (horder : InOrder spans) (hspan : span ∈ spans)
    (h : Overlaps (spans.foldl grow range) span) :
    (spans.foldl grow range).1 ≤ span.start ∧ span.stop ≤ (spans.foldl grow range).2 := by
  induction spans generalizing range with
  | nil => simp at hspan
  | cons first spans ih =>
    obtain ⟨hfirst, horder⟩ := List.pairwise_cons.mp horder
    have hrest := fun item hitem => hpos item (List.mem_cons_of_mem first hitem)
    rcases List.mem_cons.mp hspan with rfl | hspan
    · have hgrown := overlaps_of_foldl_grow (hpos span (by simp))
        (fun other hother => .inr (hfirst other hother)) h
      obtain ⟨hlow, hhigh⟩ := foldl_grow_le spans (grow range span)
      have hmet : Overlaps range span := by
        have hlt := hpos span (by simp)
        unfold Overlaps grow at *
        split at hgrown
        · assumption
        · exact hgrown
      have hgrow : grow range span = (min range.1 span.start, max range.2 span.stop) := if_pos hmet
      rw [List.foldl_cons]
      rw [hgrow] at hlow hhigh ⊢
      simp only at hlow hhigh
      omega
    · exact ih hrest horder hspan h

theorem foldl_grow_mem {spans : List EditorSpan} {range : Nat × Nat}
    (hspans : ∀ span ∈ spans, SpanSound g text span)
    (h : range.1 ∈ boundaries g text ∧ range.2 ∈ boundaries g text) :
    (spans.foldl grow range).1 ∈ boundaries g text ∧
      (spans.foldl grow range).2 ∈ boundaries g text := by
  induction spans generalizing range with
  | nil => exact h
  | cons span spans ih =>
    refine ih (fun item hitem => hspans item (by simp [hitem])) ?_
    have hspan := hspans span (by simp)
    unfold grow
    split
    · refine ⟨?_, ?_⟩
      · rcases min_choice range.1 span.start with hmin | hmin <;> simp only [hmin]
        · exact h.1
        · exact hspan.start_mem
      · rcases max_choice range.2 span.stop with hmax | hmax <;> simp only [hmax]
        · exact h.2
        · exact hspan.stop_mem
    · exact h

structure Whole (text : Text) (spans : List EditorSpan) (start stop : Nat) : Prop where
  le : start ≤ stop
  stop_le : stop ≤ text.length
  out : ∀ span ∈ spans, span.stop ≤ start ∨ stop ≤ span.start ∨ (start ≤ span.start ∧ span.stop ≤ stop)

theorem effective_whole (h : SpansSound g state.text state.spans) {start stop : Nat}
    (hle : start ≤ stop) (hstop : stop ≤ state.text.length) :
    Whole state.text state.spans (state.effective g start stop).1 (state.effective g start stop).2 := by
  unfold EditorState.effective
  split
  · have hstands := snap_stands h (hle.trans hstop)
    refine ⟨Nat.le_refl _, hstands.le, fun span hspan => ?_⟩
    have hout := not_holds_iff.mp (hstands.2 span hspan)
    simp only
    omega
  · have hpos := fun span hspan => (h.span span hspan).lt
    obtain ⟨hlow, hhigh⟩ := foldl_grow_le state.spans
      (previousBoundary g state.text start true, nextBoundaryOf g state.text stop)
    have hends : previousBoundary g state.text start true ∈ boundaries g state.text ∧
        nextBoundaryOf g state.text stop ∈ boundaries g state.text :=
      ⟨previousBoundary_mem, nextBoundaryOf_mem⟩
    have hmem := @foldl_grow_mem g state.text state.spans
      (previousBoundary g state.text start true, nextBoundaryOf g state.text stop) h.span hends
    have hprevious : previousBoundary g state.text start true ≤ start := previousBoundary_le
    have hnext : stop ≤ nextBoundaryOf g state.text stop := le_nextBoundaryOf hstop
    unfold EditorState.expand
    simp only at hlow hhigh
    refine ⟨by omega, boundary_le hmem.2, fun span hspan => ?_⟩
    by_cases hmeets : Overlaps (state.spans.foldl grow
        (previousBoundary g state.text start true, nextBoundaryOf g state.text stop)) span
    · exact .inr (.inr (foldl_grow_holds hpos h.order hspan hmeets))
    · unfold Overlaps at hmeets
      omega

/-! ## The text and the spans after an edit -/

structure EditSound (g : Graphemes) (multiline : Bool) (state : EditorState) (edit : TextEdit) :
    Prop where
  whole : Whole state.text state.spans edit.start edit.stop
  spans : SpansSound g edit.text edit.spans
  line : OneLine multiline edit.text

/-- No grapheme of the text after `edit` goes across an edge of a span that `edit` keeps or adds. -/
def EditorState.Fits (g : Graphemes) (state : EditorState) (edit : TextEdit) : Prop :=
  ∀ span ∈ state.kept edit ++ EditorState.added edit,
    span.start ∈ boundaries g (state.textAfter edit) ∧ span.stop ∈ boundaries g (state.textAfter edit)

structure Moved (text : Text) (span : EditorSpan) (later : Text) (moved : EditorSpan) : Prop where
  length : moved.stop - moved.start = span.stop - span.start
  kind : moved.kind = span.kind
  label : moved.label = span.label
  slice : slice later moved.start moved.stop = slice text span.start span.stop

theorem Moved.sound {later : Text} {moved : EditorSpan} (h : Moved text span later moved)
    (hspan : SpanSound g text span)
    (hedges : moved.start ∈ boundaries g later ∧ moved.stop ∈ boundaries g later) :
    SpanSound g later moved where
  lt := by
    have hlt := hspan.lt
    have hlength := h.length
    omega
  start_mem := hedges.1
  stop_mem := hedges.2
  label_ne := h.label ▸ hspan.label_ne
  label_line := h.label ▸ hspan.label_line
  image := fun media hmedia => h.slice.trans (hspan.image media (h.kind ▸ hmedia))

theorem mem_keepSpan {moved : EditorSpan} (h : moved ∈ EditorState.keepSpan edit span) :
    span.stop ≤ edit.start ∧ moved = span ∨
    edit.stop ≤ span.start ∧
      moved = shifted span (span.start - edit.stop + edit.start + edit.text.length)
        (span.stop - edit.stop + edit.start + edit.text.length) := by
  unfold EditorState.keepSpan at h
  split at h
  · exact .inl ⟨by assumption, List.mem_singleton.mp h⟩
  · split at h
    · exact .inr ⟨by assumption, List.mem_singleton.mp h⟩
    · simp at h

section Edit
variable (hedit : EditSound g multiline state edit) (hstate : SpansSound g state.text state.spans)
include hedit

theorem textAfter_head_length : (state.text.take edit.start).length = edit.start := by
  have := hedit.whole.le
  have := hedit.whole.stop_le
  simp only [List.length_take]
  omega

include hstate

theorem kept_moved {moved : EditorSpan} (h : moved ∈ state.kept edit) :
    ∃ span ∈ state.spans, Moved state.text span (state.textAfter edit) moved ∧
      (moved.stop ≤ edit.start ∨ edit.start + edit.text.length ≤ moved.start) := by
  obtain ⟨span, hspan, hmoved⟩ := List.mem_flatMap.mp h
  have hhead := textAfter_head_length hedit
  refine ⟨span, hspan, ?_⟩
  rcases mem_keepSpan hmoved with ⟨hle, rfl⟩ | ⟨hge, rfl⟩
  · refine ⟨⟨rfl, rfl, rfl, ?_⟩, .inl hle⟩
    rw [EditorState.textAfter, List.append_assoc, slice_append_left (by omega), slice_take hle]
  · have hlt := (hstate.span span hspan).lt
    refine ⟨⟨?_, rfl, rfl, ?_⟩, .inr ?_⟩
    · simp only [shifted]
      omega
    · have htail := slice_append_right (state.text.take edit.start ++ edit.text)
        (state.text.drop edit.stop) (span.start - edit.stop) (span.stop - edit.stop)
      rw [List.length_append, hhead, slice_drop, ← Nat.add_assoc, ← Nat.add_assoc,
        Nat.sub_add_cancel hge, Nat.sub_add_cancel (by omega)] at htail
      exact htail
    · simp only [shifted]
      omega

omit hstate in
theorem added_moved {moved : EditorSpan} (h : moved ∈ EditorState.added edit) :
    ∃ span ∈ edit.spans, Moved edit.text span (state.textAfter edit) moved ∧
      edit.start ≤ moved.start ∧ moved.stop ≤ edit.start + edit.text.length := by
  obtain ⟨span, hspan, rfl⟩ := List.mem_map.mp h
  have hhead := textAfter_head_length hedit
  have hle := boundary_le (hedit.spans.span span hspan).stop_mem
  refine ⟨span, hspan, ⟨?_, rfl, rfl, ?_⟩, ?_, ?_⟩
  · simp only [shifted]
    omega
  · have hmiddle := slice_append_right (state.text.take edit.start)
      (edit.text ++ state.text.drop edit.stop) span.start span.stop
    rw [hhead, slice_append_left hle, ← List.append_assoc] at hmiddle
    exact hmiddle
  · simp [shifted]
  · simp only [shifted]
    omega

theorem kept_inOrder : InOrder (state.kept edit) := by
  have hle := hedit.whole.le
  refine List.pairwise_flatMap.mpr ⟨fun span _ => ?_, ?_⟩
  · unfold EditorState.keepSpan
    split
    · exact List.pairwise_singleton _ _
    · split
      · exact List.pairwise_singleton _ _
      · exact .nil
  · refine hstate.order.imp_of_mem ?_
    intro a b ha hb hab x hx y hy
    have hapos := (hstate.span a ha).lt
    have hbpos := (hstate.span b hb).lt
    rcases mem_keepSpan hx with ⟨_, rfl⟩ | ⟨_, rfl⟩ <;>
      rcases mem_keepSpan hy with ⟨_, rfl⟩ | ⟨_, rfl⟩ <;>
        (try simp only [shifted]) <;> omega

omit hstate in
theorem added_inOrder : InOrder (EditorState.added edit) := by
  refine List.pairwise_map.mpr (hedit.spans.order.imp fun {a b} hab => ?_)
  simp only [shifted]
  omega

theorem spansAfter_sound (hfits : state.Fits g edit) :
    SpansSound g (state.textAfter edit) (state.spansAfter edit) := by
  have hspan : ∀ span ∈ state.kept edit ++ EditorState.added edit,
      SpanSound g (state.textAfter edit) span := by
    intro span hspan
    rcases List.mem_append.mp hspan with h | h
    · obtain ⟨old, hold, hmoved, _⟩ := kept_moved hedit hstate h
      exact hmoved.sound (hstate.span old hold) (hfits span hspan)
    · obtain ⟨old, hold, hmoved, _⟩ := added_moved hedit h
      exact hmoved.sound (hedit.spans.span old hold) (hfits span hspan)
  refine ⟨inOrder_sort (fun span h => (hspan span h).lt) ?_, fun span h =>
    hspan span ((List.mem_insertionSort EditorSpan.NotAfter).mp h)⟩
  refine List.pairwise_append.mpr ⟨(kept_inOrder hedit hstate).imp .inl,
    (added_inOrder hedit).imp .inl, ?_⟩
  intro a ha b hb
  obtain ⟨_, _, _, hout⟩ := kept_moved hedit hstate ha
  obtain ⟨_, _, _, hin⟩ := added_moved hedit hb
  unfold Apart
  omega

theorem apply_sound (hline : OneLine multiline state.text) (hfits : state.Fits g edit) :
    (state.apply g edit).Sound g multiline := by
  have hspans := spansAfter_sound hedit hstate hfits
  have hhead := textAfter_head_length hedit
  have hcaret : Stands g (state.textAfter edit) (state.spansAfter edit)
      (nextBoundary g (state.textAfter edit) (state.spansAfter edit)
        (edit.start + edit.text.length)) := by
    refine nextBoundary_stands hspans ?_
    simp only [EditorState.textAfter, List.length_append, hhead]
    omega
  refine ⟨fun hfalse unit hunit => ?_, hspans, hcaret, hcaret⟩
  simp only [EditorState.apply, EditorState.textAfter, List.mem_append] at hunit
  rcases hunit with (hunit | hunit) | hunit
  · exact hline hfalse unit (List.mem_of_mem_take hunit)
  · exact hedit.line hfalse unit hunit
  · exact hline hfalse unit (List.mem_of_mem_drop hunit)

end Edit

end Yuke.Tui
