import Yuke.Tui.Editor

/-!
# The invariant of the editor

The spans of a state are in order, apart and on grapheme edges, and the selection stands outside
them. An edit keeps this when no grapheme of the new text goes across the edge of a span.
-/

set_option autoImplicit false

namespace Yuke.Tui

open Yuke.Shared

structure SpanSound (g : Graphemes) (text : Text) (span : EditorSpan) : Prop where
  lt : span.start < span.stop
  start_mem : span.start ∈ boundaries g text
  stop_mem : span.stop ∈ boundaries g text
  label_ne : span.label ≠ []
  label_line : span.label.any isLineEnd = false
  image : ∀ media, span.kind = .image media → slice text span.start span.stop = imageText

def InOrder (spans : List EditorSpan) : Prop := spans.Pairwise fun a b => a.stop ≤ b.start

def Stands (g : Graphemes) (text : Text) (spans : List EditorSpan) (offset : Nat) : Prop :=
  offset ∈ boundaries g text ∧ ∀ span ∈ spans, span.holds offset = false

def OneLine (multiline : Bool) (text : Text) : Prop :=
  multiline = false → ∀ unit ∈ text, isLineEnd unit = false

structure SpansSound (g : Graphemes) (text : Text) (spans : List EditorSpan) : Prop where
  order : InOrder spans
  span : ∀ span ∈ spans, SpanSound g text span

structure EditorState.Sound (g : Graphemes) (multiline : Bool) (state : EditorState) : Prop where
  line : OneLine multiline state.text
  spans : SpansSound g state.text state.spans
  anchor : Stands g state.text state.spans state.selection.anchor
  head : Stands g state.text state.spans state.selection.head

variable {g : Graphemes} {text : Text} {spans : List EditorSpan} {span : EditorSpan}
variable {offset start stop : Nat} {multiline : Bool} {state : EditorState}

theorem not_holds_iff : span.holds offset = false ↔ offset ≤ span.start ∨ span.stop ≤ offset := by
  simp only [EditorSpan.holds, Bool.and_eq_false_iff, decide_eq_false_iff_not]
  omega

def Apart (a b : EditorSpan) : Prop := a.stop ≤ b.start ∨ b.stop ≤ a.start

instance : Std.Symm Apart := ⟨fun _ _ => Or.symm⟩

theorem SpansSound.apart (h : SpansSound g text spans) {a b : EditorSpan} (ha : a ∈ spans)
    (hb : b ∈ spans) : a = b ∨ Apart a b := by
  by_cases hab : a = b
  · exact .inl hab
  · refine .inr ?_
    have hpair : spans.Pairwise Apart := h.order.imp fun hle => .inl hle
    exact hpair.forall ha hb hab

theorem inOrder_sort (hpos : ∀ span ∈ spans, span.start < span.stop)
    (hapart : spans.Pairwise Apart) : InOrder (spans.insertionSort EditorSpan.NotAfter) := by
  have hsorted := List.pairwise_insertionSort EditorSpan.NotAfter spans
  have hperm : (spans.insertionSort EditorSpan.NotAfter).Pairwise Apart :=
    ((List.perm_insertionSort EditorSpan.NotAfter spans).pairwise_iff Or.symm).mpr hapart
  refine (hsorted.and hperm).imp_of_mem ?_
  intro a b _ hb hab
  obtain ⟨hle, hapart⟩ := hab
  have hbpos := hpos b ((List.mem_insertionSort EditorSpan.NotAfter).mp hb)
  unfold EditorSpan.NotAfter at hle
  rcases hapart with h | h
  · exact h
  · omega

theorem nextBoundary_stands (h : SpansSound g text spans) (hle : offset ≤ text.length) :
    Stands g text spans (nextBoundary g text spans offset) := by
  unfold nextBoundary
  cases hfind : spans.find? (·.holds offset) with
  | none =>
    refine ⟨nextBoundaryOf_mem, fun span hspan => ?_⟩
    have hout := not_holds_iff.mp (by simpa using List.find?_eq_none.mp hfind span hspan)
    rw [not_holds_iff]
    rcases hout with hout | hout
    · exact .inl (nextBoundaryOf_le (h.span span hspan).start_mem hout)
    · exact .inr (hout.trans (le_nextBoundaryOf hle))
  | some found =>
    have hmem := List.mem_of_find?_eq_some hfind
    simp only [nextBoundaryOf_self (h.span found hmem).stop_mem]
    refine ⟨(h.span found hmem).stop_mem, fun span hspan => not_holds_iff.mpr ?_⟩
    have hpos := (h.span found hmem).lt
    rcases h.apart hspan hmem with heq | hapart | hapart
    · exact .inr (heq ▸ Nat.le_refl _)
    · omega
    · exact .inl hapart

theorem snap_stands (h : SpansSound g text spans) (hle : offset ≤ text.length) :
    Stands g text spans (snap g text spans offset) := by
  unfold snap
  cases hfind : spans.find? (·.holds offset) with
  | none =>
    have hout : ∀ span ∈ spans, offset ≤ span.start ∨ span.stop ≤ offset := fun span hspan =>
      not_holds_iff.mp (by simpa using List.find?_eq_none.mp hfind span hspan)
    have hnext := le_nextBoundaryOf (g := g) hle
    have hprevious : previousBoundary g text offset true ≤ offset := previousBoundary_le
    simp only
    split
    · refine ⟨previousBoundary_mem, fun span hspan => not_holds_iff.mpr ?_⟩
      rcases hout span hspan with hout | hout
      · omega
      · exact .inr (le_previousBoundary (h.span span hspan).stop_mem (by simpa [isBefore] using hout))
    · refine ⟨nextBoundaryOf_mem, fun span hspan => not_holds_iff.mpr ?_⟩
      rcases hout span hspan with hout | hout
      · exact .inl (nextBoundaryOf_le (h.span span hspan).start_mem hout)
      · omega
  | some found =>
    have hmem := List.mem_of_find?_eq_some hfind
    have hfound := h.span found hmem
    have hlt := hfound.lt
    simp only
    split
    · refine ⟨hfound.start_mem, fun span hspan => not_holds_iff.mpr ?_⟩
      rcases h.apart hspan hmem with rfl | hapart | hapart <;> omega
    · refine ⟨hfound.stop_mem, fun span hspan => not_holds_iff.mpr ?_⟩
      rcases h.apart hspan hmem with rfl | hapart | hapart <;> omega

theorem Stands.snap (h : Stands g text spans offset) : snap g text spans offset = offset := by
  have hnone : spans.find? (·.holds offset) = none :=
    List.find?_eq_none.mpr fun span hspan => by simp [h.2 span hspan]
  simp [Tui.snap, hnone, nextBoundaryOf_self h.1, previousBoundary_self h.1]

theorem Stands.le (h : Stands g text spans offset) : offset ≤ text.length := boundary_le h.1

theorem checkSpan_ok {last : Nat} {input : Option SpanInput}
    (h : checkSpan g text last input = .ok span) : last ≤ span.start ∧ SpanSound g text span := by
  unfold checkSpan at h
  split at h
  · simp at h
  split at h
  · simp at h
  rename_i start stop hrange
  have hrange : last ≤ start ∧ start < stop := by
    unfold checkRange at hrange
    split at hrange
    · split at hrange
      · simp at hrange
      · simp only [Except.ok.injEq, Prod.mk.injEq] at hrange
        omega
    · simp at hrange
  split at h
  · simp at h
  rename_i hedges
  split at h
  · simp at h
  split at h
  · simp at h
  rename_i hlabel
  split at h
  · simp at h
  rename_i kind hkind
  simp only [Except.ok.injEq] at h
  subst h
  simp only [not_or, Decidable.not_not, Bool.not_eq_true] at hedges hlabel
  refine ⟨hrange.1, hrange.2, hedges.1, hedges.2, hlabel.1, hlabel.2, ?_⟩
  intro media hmedia
  simp only at hmedia
  subst hmedia
  unfold checkKind at hkind
  split at hkind
  · simp at hkind
  · simp at hkind
  · split at hkind
    · simp at hkind
    · rename_i hslice
      exact Decidable.not_not.mp hslice

theorem checkSpansFrom_ok {last : Nat} {inputs : List (Option SpanInput)}
    (h : checkSpansFrom g text last inputs = .ok spans) :
    SpansSound g text spans ∧ ∀ span ∈ spans, last ≤ span.start := by
  induction inputs generalizing last spans with
  | nil =>
    simp only [checkSpansFrom, Except.ok.injEq] at h
    subst h
    exact ⟨⟨.nil, by simp⟩, by simp⟩
  | cons input inputs ih =>
    unfold checkSpansFrom at h
    split at h
    · simp at h
    rename_i span hspan
    split at h
    · simp at h
    rename_i rest hrest
    simp only [Except.ok.injEq] at h
    subst h
    obtain ⟨hlast, hsound⟩ := checkSpan_ok hspan
    obtain ⟨hspans, hstop⟩ := ih hrest
    refine ⟨⟨.cons hstop hspans.order, ?_⟩, ?_⟩
    · exact List.forall_mem_cons.mpr ⟨hsound, hspans.span⟩
    · refine List.forall_mem_cons.mpr ⟨hlast, fun later hlater => ?_⟩
      have hle := hstop later hlater
      have hlt := hsound.lt
      omega

theorem checkSpans_ok {input : SpansInput} (h : checkSpans g text input = .ok spans) :
    SpansSound g text spans := by
  cases input with
  | none => simp [checkSpans] at h
  | some inputs => exact (checkSpansFrom_ok h).1

theorem checkOffset_ok {value : Number} (h : checkOffset text value = .ok offset) :
    offset ≤ text.length := by
  unfold checkOffset at h
  simp only at h
  split at h
  · split at h
    · simp at h
    · simp only [Except.ok.injEq] at h
      omega
  · simp at h

theorem lineOf_oneLine : OneLine multiline (lineOf multiline text) := by
  intro hfalse unit hunit
  subst hfalse
  simp only [lineOf, Bool.false_eq_true, if_false, List.mem_map] at hunit
  obtain ⟨old, _, rfl⟩ := hunit
  split
  · rfl
  · simp_all

theorem OneLine.lineOf (h : OneLine multiline text) : Tui.lineOf multiline text = text := by
  unfold Tui.lineOf
  cases multiline with
  | true => rfl
  | false =>
    rw [if_neg (by simp)]
    conv_rhs => rw [← List.map_id text]
    refine List.map_congr_left fun unit hunit => ?_
    simp [h rfl unit hunit]

theorem checked_sound {input : StateInput} (h : checked g multiline input = .ok state) :
    state.Sound g multiline := by
  unfold checked at h
  split at h
  · simp at h
  simp only at h
  split at h
  · simp at h
  rename_i hspans
  split at h
  · simp at h
  split at h
  · simp at h
  rename_i hanchor
  split at h
  · simp at h
  rename_i hhead
  simp only [Except.ok.injEq] at h
  subst h
  have hsound := checkSpans_ok hspans
  exact ⟨lineOf_oneLine, hsound, snap_stands hsound (checkOffset_ok hanchor),
    snap_stands hsound (checkOffset_ok hhead)⟩

end Yuke.Tui
