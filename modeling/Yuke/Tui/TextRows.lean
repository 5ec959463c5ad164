import Yuke.Tui.TextView

/-!
# The rows of a plain section

The rows of plain text join to the text. They stand together among the rows of their item, and each
offset has its place in one of them.
-/

set_option autoImplicit false
set_option linter.unusedSectionVars false

namespace Yuke.Tui

open Yuke.Shared

variable {g : Graphemes} {width time : Nat} {text : Text}

theorem Rows.ne_nil {offset : Nat} {ps : List Piece} {rows : List WrapRow}
    (h : Rows width offset ps rows) : rows ≠ [] := by
  cases h <;> simp

theorem Rows.first {offset : Nat} {ps : List Piece} {rows : List WrapRow}
    (h : Rows width offset ps rows) (hpos : ∀ p ∈ ps, 0 < p.text.length) :
    ∃ first rest, rows = first :: rest ∧ first.start = offset ∧ first.start ≤ first.stop ∧
      ∀ row ∈ rest, offset < row.start := by
  induction h with
  | @last offset ps _ _ =>
    refine ⟨_, [], rfl, rfl, ?_, by simp⟩
    simp
  | @soft offset ps rest p rows hne _ _ _ _ ih =>
    obtain ⟨first, others, rfl, hstart, _, hothers⟩ := ih fun q hq => hpos q (by simp_all)
    have hunits : 0 < units ps := by
      obtain ⟨q, qs, rfl⟩ := List.exists_cons_of_ne_nil hne
      have := hpos q (by simp)
      simp only [units_cons]
      omega
    refine ⟨_, _, rfl, rfl, by simp, List.forall_mem_cons.mpr ⟨by omega, fun row hrow => ?_⟩⟩
    have := hothers row hrow
    omega
  | @hard offset ps rest p rows _ _ _ _ ih =>
    obtain ⟨first, others, rfl, hstart, _, hothers⟩ := ih fun q hq => hpos q (by simp [hq])
    have hp := hpos p (by simp)
    refine ⟨_, _, rfl, rfl, by simp, List.forall_mem_cons.mpr ⟨by omega, fun row hrow => ?_⟩⟩
    have := hothers row hrow
    omega

theorem Rows.final {offset : Nat} {ps : List Piece} {rows : List WrapRow}
    (h : Rows width offset ps rows) (hpos : ∀ p ∈ ps, 0 < p.text.length) :
    ∃ init last, rows = init ++ [last] ∧ last.stop = offset + units ps ∧ last.soft = false ∧
      last.start ≤ last.stop ∧ ∀ row ∈ init, row.stop < offset + units ps := by
  induction h with
  | @last offset ps _ _ => exact ⟨[], _, rfl, rfl, rfl, by simp, by simp⟩
  | @soft offset ps rest p rows _ _ _ _ _ ih =>
    obtain ⟨init, last, rfl, hstop, hsoft, hle, hinit⟩ := ih fun q hq => hpos q (by simp_all)
    have hp := hpos p (by simp)
    simp only [units_append, units_cons] at hstop hinit ⊢
    refine ⟨_ :: init, last, rfl, by omega, hsoft, hle,
      List.forall_mem_cons.mpr ⟨by simp only; omega, fun row hrow => ?_⟩⟩
    have := hinit row hrow
    omega
  | @hard offset ps rest p rows _ _ _ _ ih =>
    obtain ⟨init, last, rfl, hstop, hsoft, hle, hinit⟩ := ih fun q hq => hpos q (by simp [hq])
    have hp := hpos p (by simp)
    simp only [units_append, units_cons] at hstop hinit ⊢
    refine ⟨_ :: init, last, rfl, by omega, hsoft, hle,
      List.forall_mem_cons.mpr ⟨by simp only; omega, fun row hrow => ?_⟩⟩
    have := hinit row hrow
    omega

def joinRows (text : Text) : List WrapRow → Text
  | [] => []
  | [row] => slice text row.start row.stop
  | row :: rows => slice text row.start row.stop ++ (if row.soft then [] else lf) ++ joinRows text rows

theorem joinRows_cons (text : Text) (row : WrapRow) {rows : List WrapRow} (h : rows ≠ []) :
    joinRows text (row :: rows) =
      slice text row.start row.stop ++ (if row.soft then [] else lf) ++ joinRows text rows := by
  cases rows with
  | nil => exact absurd rfl h
  | cons second rows => rfl

def Piece.copied (piece : Piece) : Text := if piece.endsLine then lf else piece.text

theorem slice_of_drop {offset : Nat} {x y : Text} (h : text.drop offset = x ++ y) :
    slice text offset (offset + x.length) = x := by
  unfold slice
  rw [← List.take_drop, h, List.take_left]

theorem copied_plain {ps : List Piece} (h : ∀ p ∈ ps, p.endsLine = false) :
    (ps.map Piece.copied).flatten = (ps.map Piece.text).flatten := by
  congr 1
  exact List.map_congr_left fun p hp => by simp [Piece.copied, h p hp]

theorem Rows.join {offset : Nat} {ps : List Piece} {rows : List WrapRow}
    (h : Rows width offset ps rows) (htext : text.drop offset = (ps.map Piece.text).flatten) :
    joinRows text rows = (ps.map Piece.copied).flatten := by
  induction h with
  | @last offset ps _ hlines =>
    rw [joinRows, copied_plain hlines, ← length_join]
    exact slice_of_drop (y := []) (by simpa using htext)
  | @soft offset ps rest p rows _ _ hlines _ hrows ih =>
    rw [List.map_append, List.flatten_append] at htext
    have hslice := slice_of_drop htext
    rw [length_join] at hslice
    have hrest := ih (by
      rw [← length_join, ← List.drop_drop, htext, List.drop_left])
    rw [joinRows_cons text _ hrows.ne_nil, hslice, hrest, List.map_append, List.flatten_append,
      copied_plain hlines]
    simp
  | @hard offset ps rest p rows _ hlines hend hrows ih =>
    rw [List.map_append, List.flatten_append] at htext
    have hslice := slice_of_drop htext
    rw [length_join] at hslice
    have hrest := ih (by
      rw [← length_join, ← List.drop_drop, ← List.drop_drop, htext, List.drop_left, List.map_cons,
        List.flatten_cons, List.drop_left])
    rw [joinRows_cons text _ hrows.ne_nil, hslice, hrest, List.map_append, List.flatten_append,
      copied_plain hlines]
    simp [Piece.copied, hend]

def withLf : Text → Text
  | 0x0D :: 0x0A :: rest => 0x0A :: withLf rest
  | unit :: rest => unit :: withLf rest
  | [] => []

structure LineEnds (g : Graphemes) : Prop where
  alone : ∀ text, ∀ piece ∈ pieces g text, (0x0A : UInt16) ∈ piece.text →
    piece.text = lf ∨ piece.text = crlf
  whole : ∀ text, (pieces g text).IsChain fun p q =>
    ¬ (p.text.getLast? = some 0x0D ∧ q.text.head? = some 0x0A)

theorem withLf_cons {unit : UInt16} {rest : Text}
    (h : ¬ (unit = 0x0D ∧ rest.head? = some 0x0A)) : withLf (unit :: rest) = unit :: withLf rest := by
  rw [withLf]
  rintro rest' rfl rfl
  exact h ⟨rfl, rfl⟩

theorem withLf_append {x y : Text} (hx : (0x0A : UInt16) ∉ x)
    (hy : ¬ (x.getLast? = some 0x0D ∧ y.head? = some 0x0A)) : withLf (x ++ y) = x ++ withLf y := by
  induction x with
  | nil => rfl
  | cons unit x ih =>
    obtain ⟨_, hrest⟩ := List.ne_and_not_mem_of_not_mem_cons hx
    cases x with
    | nil =>
      rw [List.cons_append, List.nil_append, withLf_cons (by simpa using hy)]
      rfl
    | cons next x =>
      have hnext : next ≠ 0x0A := by
        rintro rfl
        exact hrest (by simp)
      rw [List.cons_append, withLf_cons (by simp [hnext]), ih hrest (by simpa using hy)]
      rfl

theorem withLf_pieces {ps : List Piece}
    (halone : ∀ p ∈ ps, (0x0A : UInt16) ∈ p.text → p.text = lf ∨ p.text = crlf)
    (hwhole : ps.IsChain fun p q => ¬ (p.text.getLast? = some 0x0D ∧ q.text.head? = some 0x0A))
    (hpos : ∀ p ∈ ps, 0 < p.text.length) :
    (ps.map Piece.copied).flatten = withLf (ps.map Piece.text).flatten := by
  induction ps with
  | nil => rfl
  | cons p ps ih =>
    have hrest := ih (fun q hq => halone q (by simp [hq])) hwhole.tail fun q hq => hpos q (by simp [hq])
    rw [List.map_cons, List.flatten_cons, List.map_cons, List.flatten_cons, hrest]
    by_cases hlf : (0x0A : UInt16) ∈ p.text
    · rcases halone p (by simp) hlf with htext | htext
      · rw [htext, show p.copied = lf by simp [Piece.copied, Piece.endsLine, htext]]
        exact (withLf_cons (by simp)).symm
      · rw [htext, show p.copied = lf by simp [Piece.copied, Piece.endsLine, htext]]
        rfl
    · have hend : p.endsLine = false := by
        simp only [Piece.endsLine, Bool.or_eq_false_iff, decide_eq_false_iff_not]
        constructor
        · intro htext
          exact hlf (by simp [htext, lf])
        · intro htext
          exact hlf (by simp [htext, crlf])
      have hcopied : p.copied = p.text := by simp [Piece.copied, hend]
      rw [hcopied, withLf_append hlf]
      rintro ⟨hlast, hhead⟩
      cases ps with
      | nil => simp at hhead
      | cons q ps =>
        have hq := hpos q (by simp)
        rw [List.map_cons, List.flatten_cons] at hhead
        obtain ⟨unit, rest, hunits⟩ := List.exists_cons_of_length_pos hq
        rw [hunits, List.cons_append, List.head?_cons] at hhead
        refine hwhole.rel ⟨hlast, ?_⟩
        rw [hunits]
        exact hhead

theorem joinRows_wrap (hends : LineEnds g) (text : Text) (width : Nat) :
    joinRows text (wrap g text (some width) 0) = withLf text := by
  rw [(wrap_rows g text width).join (by rw [List.drop_zero, pieces_join]),
    withLf_pieces (hends.alone text) (hends.whole text) pieces_nonempty, pieces_join]

/-! ## The rows of a section -/

def viewRows (g : Graphemes) (key : String) (text : Text) (width : Nat) : List ViewRow :=
  (plainRows g text width).map (TextRow.inSection key)

theorem endLast_concat (rows : List ViewRow) (row : ViewRow) :
    endLast (rows ++ [row]) = rows ++ [{ row with join := lf }] := by
  induction rows with
  | nil => rfl
  | cons first rows ih =>
    cases rows with
    | nil => rfl
    | cons second rows =>
      rw [List.cons_append, List.cons_append, endLast, ← List.cons_append, ih]
      · simp
      · simp

theorem endLast_append (rows : List ViewRow) {more : List ViewRow} (hne : more ≠ []) :
    endLast (rows ++ more) = rows ++ endLast more := by
  rcases List.eq_nil_or_concat more with rfl | ⟨init, last, rfl⟩
  · exact absurd rfl hne
  · rw [List.concat_eq_append, ← List.append_assoc, endLast_concat, endLast_concat,
      List.append_assoc]

theorem mem_endLast {rows : List ViewRow} {row : ViewRow} (h : row ∈ endLast rows) :
    ∃ old ∈ rows, old.part = row.part := by
  rcases List.eq_nil_or_concat rows with rfl | ⟨init, last, rfl⟩
  · cases h
  · rw [List.concat_eq_append, endLast_concat] at h
    rcases List.mem_append.mp h with h | h
    · exact ⟨row, by simp [h], rfl⟩
    · obtain rfl := List.mem_singleton.mp h
      exact ⟨last, by simp, rfl⟩

theorem plain_final (g : Graphemes) (text : Text) (hwidth : 0 < width) :
    ∃ init last, wrap g text (wrapWidth width) 0 = init ++ [last] ∧ last.stop = text.length ∧
      last.soft = false ∧ last.start ≤ last.stop ∧ ∀ row ∈ init, row.stop < text.length := by
  have hrows := wrap_rows g text width
  have hunits : units (pieces g text) = text.length := by rw [← length_join, pieces_join]
  obtain ⟨init, last, heq, hstop, hsoft, hle, hinit⟩ := hrows.final pieces_nonempty
  rw [Nat.zero_add, hunits] at hstop hinit
  refine ⟨init, last, ?_, hstop, hsoft, hle, hinit⟩
  rw [wrapWidth, if_neg (by omega)]
  exact heq

theorem endLast_viewRows {key : String} (hwidth : 0 < width) :
    endLast (viewRows g key text width) = viewRows g key text width := by
  obtain ⟨init, last, heq, _, hsoft, _⟩ := plain_final g text hwidth
  have hview : viewRows g key text width =
      init.map (fun row => (plainRow text row).inSection key) ++
        [(plainRow text last).inSection key] := by
    simp [viewRows, plainRows, heq]
  rw [hview, endLast_concat]
  simp [TextRow.inSection, plainRow, hsoft]

theorem viewRows_ne_nil {key : String} (hwidth : 0 < width) : viewRows g key text width ≠ [] := by
  obtain ⟨init, last, heq, _⟩ := plain_final g text hwidth
  simp [viewRows, plainRows, heq]

theorem renderSections_after {key : String} {parts : List TextSection}
    {pre post found : List ViewRow} (hwidth : 0 < width)
    (hkey : ∀ part ∈ parts, part.key ≠ key) (hpost : ∀ row ∈ post, row.part ≠ key)
    (h : renderSections g time width parts (pre ++ viewRows g key text width ++ post) = some found) :
    ∃ rest, found = pre ++ viewRows g key text width ++ rest ∧ ∀ row ∈ rest, row.part ≠ key := by
  have hend : ∀ post : List ViewRow, (∀ row ∈ post, row.part ≠ key) →
      ∃ rest, endLast (pre ++ viewRows g key text width ++ post) =
        pre ++ viewRows g key text width ++ rest ∧ ∀ row ∈ rest, row.part ≠ key := by
    intro post hpost
    by_cases hnil : post = []
    · subst hnil
      refine ⟨[], ?_, by simp⟩
      rw [List.append_nil, endLast_append _ (viewRows_ne_nil hwidth), endLast_viewRows hwidth]
    · refine ⟨endLast post, endLast_append _ hnil, fun row hrow => ?_⟩
      obtain ⟨old, hold, hpart⟩ := mem_endLast hrow
      exact hpart ▸ hpost old hold
  induction parts generalizing post with
  | nil =>
    cases h
    exact hend post hpost
  | cons part parts ih =>
    obtain ⟨hne, hkeys⟩ := List.forall_mem_cons.mp hkey
    unfold renderSections at h
    split at h
    · cases h
    · rename_i own _
      split at h
      · exact ih hkeys hpost h
      · obtain ⟨rest, hrest, hrestKey⟩ := hend post hpost
        rw [hrest, List.append_assoc _ rest] at h
        refine ih hkeys ?_ h
        intro row hrow
        rcases List.mem_append.mp hrow with hrow | hrow
        · exact hrestKey row hrow
        · obtain ⟨old, _, rfl⟩ := List.mem_map.mp hrow
          exact hne

theorem renderSections_plain {part : TextSection} {parts : List TextSection}
    {rows found : List ViewRow} (hwidth : 0 < width) (hplain : part.render = none)
    (hmem : part ∈ parts) (hnodup : (parts.map TextSection.key).Nodup)
    (hrows : ∀ row ∈ rows, row.part ≠ part.key)
    (h : renderSections g time width parts rows = some found) :
    ∃ pre post, found = pre ++ viewRows g part.key part.text width ++ post ∧
      (∀ row ∈ pre, row.part ≠ part.key) ∧ ∀ row ∈ post, row.part ≠ part.key := by
  induction parts generalizing rows with
  | nil => cases hmem
  | cons first parts ih =>
    rw [List.map_cons, List.nodup_cons] at hnodup
    unfold renderSections at h
    have hendRows : ∀ row ∈ endLast rows, row.part ≠ part.key := by
      intro row hrow
      obtain ⟨old, hold, hpart⟩ := mem_endLast hrow
      exact hpart ▸ hrows old hold
    by_cases hfirst : first.key = part.key
    · have hsame : part = first := by
        rcases List.mem_cons.mp hmem with heq | hmem
        · exact heq
        · exact absurd (List.mem_map.mpr ⟨part, hmem, hfirst.symm⟩) hnodup.1
      subst hsame
      have hown : part.own g time width = some (plainRows g part.text width) := by
        simp [TextSection.own, hplain]
      have hne : (plainRows g part.text width).isEmpty = false := by
        have hrows : viewRows g part.key part.text width ≠ [] := viewRows_ne_nil hwidth
        simpa [viewRows] using hrows
      rw [hown] at h
      simp only [hne, Bool.false_eq_true, if_false] at h
      have hkeys : ∀ other ∈ parts, other.key ≠ part.key := fun other hother heq =>
        hnodup.1 (List.mem_map.mpr ⟨other, hother, heq⟩)
      have hafter : renderSections g time width parts
          (endLast rows ++ viewRows g part.key part.text width ++ []) = some found := by
        simpa [viewRows] using h
      obtain ⟨post, hpost, hpostKey⟩ := renderSections_after hwidth hkeys (by simp) hafter
      exact ⟨endLast rows, post, hpost, hendRows, hpostKey⟩
    · have hmem : part ∈ parts := by
        rcases List.mem_cons.mp hmem with rfl | hmem
        · exact absurd rfl hfirst
        · exact hmem
      split at h
      · cases h
      · split at h
        · exact ih hmem hnodup.2 hrows h
        · refine ih hmem hnodup.2 (fun row hrow => ?_) h
          rcases List.mem_append.mp hrow with hrow | hrow
          · exact hendRows row hrow
          · obtain ⟨old, _, rfl⟩ := List.mem_map.mp hrow
            exact hfirst

variable {key : String} {offset : Nat} {bias : Bias}

theorem placeRows_append (row : Nat) (xs ys : List ViewRow) (found : Found) :
    placeRows key offset bias row (xs ++ ys) found =
      placeRows key offset bias (row + xs.length) ys (placeRows key offset bias row xs found) := by
  induction xs generalizing row found with
  | nil => rfl
  | cons x xs ih =>
    rw [List.cons_append, placeRows, ih, placeRows, List.length_cons, Nat.add_assoc, Nat.add_comm 1]

theorem placeRows_other {row : Nat} {views : List ViewRow} (h : ∀ view ∈ views, view.part ≠ key)
    (found : Found) : placeRows key offset bias row views found = found := by
  induction views generalizing row with
  | nil => rfl
  | cons view views ih =>
    obtain ⟨hview, hviews⟩ := List.forall_mem_cons.mp h
    rw [placeRows, if_neg hview, ih hviews]

def rowPlaces (offset : Nat) : Nat → List WrapRow → List Place
  | _, [] => []
  | row, wrapped :: rows =>
    (if wrapped.start ≤ offset ∧ offset ≤ wrapped.stop then [⟨row, offset - wrapped.start⟩] else [])
      ++ rowPlaces offset (row + 1) rows

theorem placeRows_plain (row : Nat) (rows : List WrapRow) (found : Found) :
    (placeRows key offset bias row (rows.map fun r => (plainRow text r).inSection key) found).places =
      found.places ++ rowPlaces offset row rows := by
  induction rows generalizing row found with
  | nil => simp [placeRows, rowPlaces]
  | cons wrapped rows ih =>
    rw [List.map_cons, placeRows, ih, rowPlaces, ← List.append_assoc,
      if_pos (show ((plainRow text wrapped).inSection key).part = key from rfl)]
    congr 1
    simp only [TextRow.inSection, plainRow, placeSegments, placeSegment]
    split
    · simp
    · split
      · simp
      · split <;> simp

theorem rowPlaces_none {row : Nat} {rows : List WrapRow}
    (h : ∀ r ∈ rows, offset < r.start ∨ r.stop < offset) : rowPlaces offset row rows = [] := by
  induction rows generalizing row with
  | nil => rfl
  | cons wrapped rows ih =>
    obtain ⟨hfirst, hrest⟩ := List.forall_mem_cons.mp h
    rw [rowPlaces, if_neg (by omega), ih hrest]
    rfl

theorem rowPlaces_append (row : Nat) (xs ys : List WrapRow) :
    rowPlaces offset row (xs ++ ys) = rowPlaces offset row xs ++ rowPlaces offset (row + xs.length) ys := by
  induction xs generalizing row with
  | nil => rfl
  | cons x xs ih =>
    rw [List.cons_append, rowPlaces, ih, rowPlaces, List.append_assoc, List.length_cons,
      Nat.add_assoc, Nat.add_comm 1]

end Yuke.Tui
