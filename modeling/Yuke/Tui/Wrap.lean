import Yuke.Tui.Graphemes

/-!
# The wrap of plain text

The native `wrap` goes over the graphemes of a text and keeps the last place where the row can
break. Its rows take the text apart.
-/

set_option autoImplicit false

namespace Yuke.Tui

open Yuke.Shared

structure Piece where
  text : Text
  cells : Nat
  deriving DecidableEq

def lf : Text := [0x0A]
def crlf : Text := [0x0D, 0x0A]
def space : Text := [0x20]

def Piece.endsLine (piece : Piece) : Bool := piece.text = lf || piece.text = crlf
def Piece.isSpace (piece : Piece) : Bool := piece.text = space

def piecesFrom : Text → List Grapheme → List Piece
  | _, [] => []
  | text, grapheme :: graphemes =>
    ⟨text.take grapheme.length, grapheme.cells⟩ :: piecesFrom (text.drop grapheme.length) graphemes

def pieces (g : Graphemes) (text : Text) : List Piece := piecesFrom text (g.cut text)

def units (pieces : List Piece) : Nat := (pieces.map (·.text.length)).sum
def cells (pieces : List Piece) : Nat := (pieces.map Piece.cells).sum

/-- A row of UTF-16 offsets. A soft row ends at a break that the wrap made. -/
structure WrapRow where
  start : Nat
  stop : Nat
  soft : Bool
  deriving DecidableEq

structure WrapState where
  rows : List WrapRow
  start : Nat
  offset : Nat
  cells : Nat
  breakAt : Option Nat
  breakCells : Nat
  deriving DecidableEq

namespace WrapState

variable (s : WrapState)

def endLine (piece : Piece) : WrapState :=
  { s with
    rows := s.rows ++ [⟨s.start, s.offset, false⟩]
    start := s.offset + piece.text.length
    offset := s.offset + piece.text.length
    cells := 0
    breakAt := none }

/-- The place after the last space, when the text from there to `piece` fits. -/
def broke (width : Nat) (piece : Piece) : Option Nat :=
  s.breakAt.filter fun place =>
    s.start < place && s.cells - s.breakCells + piece.cells ≤ width

/-- The row ends before `piece`, or after its last space. -/
def softBreak (width : Nat) (piece : Piece) : WrapState :=
  let broke := s.broke width piece
  let stop := broke.getD s.offset
  { s with
    rows := s.rows ++ [⟨s.start, stop, true⟩]
    start := stop
    cells := if broke.isSome then s.cells - s.breakCells else 0
    breakAt := none }

def add (piece : Piece) : WrapState :=
  { s with
    offset := s.offset + piece.text.length
    cells := s.cells + piece.cells
    breakAt := if piece.isSpace then some (s.offset + piece.text.length) else s.breakAt
    breakCells := if piece.isSpace then s.cells + piece.cells else s.breakCells }

def overflows (width : Nat) (piece : Piece) : Bool :=
  !piece.isSpace && width < s.cells + piece.cells && s.start < s.offset

def full (head : Nat) : Bool := 0 < head && s.rows.length = head

end WrapState

def wrapLoop (width head : Nat) : List Piece → WrapState → List WrapRow
  | [], s => s.rows ++ [⟨s.start, s.offset, false⟩]
  | piece :: pieces, s =>
    if piece.endsLine then
      let s := s.endLine piece
      if s.full head then s.rows else wrapLoop width head pieces s
    else if s.overflows width piece then
      let s := s.softBreak width piece
      if s.full head then s.rows else wrapLoop width head pieces (s.add piece)
    else wrapLoop width head pieces (s.add piece)

def wrapStart : WrapState :=
  { rows := [], start := 0, offset := 0, cells := 0, breakAt := none, breakCells := 0 }

/-- The rows of a text. Without a width, the text is one row. A nonzero `head` keeps only the first
rows. -/
def wrap (g : Graphemes) (text : Text) (width : Option Nat) (head : Nat) : List WrapRow :=
  match width with
  | none => [⟨0, text.length, false⟩]
  | some width => wrapLoop width head (pieces g text) wrapStart

theorem piecesFrom_join {text : Text} {graphemes : List Grapheme}
    (h : (graphemes.map Grapheme.length).sum = text.length) :
    ((piecesFrom text graphemes).map Piece.text).flatten = text := by
  induction graphemes generalizing text with
  | nil =>
    cases text with
    | nil => rfl
    | cons => simp at h
  | cons grapheme graphemes ih =>
    rw [List.map_cons, List.sum_cons] at h
    unfold piecesFrom
    rw [List.map_cons, List.flatten_cons, ih (by rw [List.length_drop]; omega),
      List.take_append_drop]

theorem piecesFrom_nonempty {text : Text} {graphemes : List Grapheme}
    (h : (graphemes.map Grapheme.length).sum = text.length)
    (hpos : ∀ grapheme ∈ graphemes, 0 < grapheme.length) :
    ∀ piece ∈ piecesFrom text graphemes, 0 < piece.text.length := by
  induction graphemes generalizing text with
  | nil => simp [piecesFrom]
  | cons grapheme graphemes ih =>
    rw [List.map_cons, List.sum_cons] at h
    obtain ⟨hfirst, hrest⟩ := List.forall_mem_cons.mp hpos
    refine List.forall_mem_cons.mpr ⟨?_, ih (by rw [List.length_drop]; omega) hrest⟩
    rw [List.length_take]
    omega

variable {g : Graphemes} {text : Text}

theorem pieces_join : ((pieces g text).map Piece.text).flatten = text :=
  piecesFrom_join (g.whole text)

theorem pieces_nonempty : ∀ piece ∈ pieces g text, 0 < piece.text.length :=
  piecesFrom_nonempty (g.whole text) (g.nonempty text)

@[simp] theorem units_nil : units [] = 0 := rfl
@[simp] theorem units_cons (p : Piece) (ps : List Piece) :
    units (p :: ps) = p.text.length + units ps := by simp [units]
@[simp] theorem units_append (ps qs : List Piece) : units (ps ++ qs) = units ps + units qs := by
  simp [units]

@[simp] theorem cells_nil : cells [] = 0 := rfl
@[simp] theorem cells_cons (p : Piece) (ps : List Piece) : cells (p :: ps) = p.cells + cells ps := by
  simp [cells]
@[simp] theorem cells_append (ps qs : List Piece) : cells (ps ++ qs) = cells ps + cells qs := by
  simp [cells]

theorem length_join (ps : List Piece) : ((ps.map Piece.text).flatten).length = units ps := by
  simp [units, List.length_flatten, Function.comp_def]

def trimmed (ps : List Piece) : List Piece := ps.rdropWhile Piece.isSpace

def Fits (width : Nat) (ps : List Piece) : Prop :=
  cells (trimmed ps) ≤ width ∨ (trimmed ps).length ≤ 1

/-- The rows of the pieces from an offset on: each row starts where the one before ends, or just
after the line end that closed it, and no soft break comes before a space. -/
inductive Rows (width : Nat) : Nat → List Piece → List WrapRow → Prop where
  | last {offset : Nat} {ps : List Piece} : Fits width ps → (∀ p ∈ ps, p.endsLine = false) →
      Rows width offset ps [⟨offset, offset + units ps, false⟩]
  | soft {offset : Nat} {ps rest : List Piece} {p : Piece} {rows : List WrapRow} :
      ps ≠ [] → Fits width ps → (∀ p ∈ ps, p.endsLine = false) → p.isSpace = false →
      Rows width (offset + units ps) (p :: rest) rows →
      Rows width offset (ps ++ p :: rest) (⟨offset, offset + units ps, true⟩ :: rows)
  | hard {offset : Nat} {ps rest : List Piece} {p : Piece} {rows : List WrapRow} :
      Fits width ps → (∀ p ∈ ps, p.endsLine = false) → p.endsLine = true →
      Rows width (offset + units ps + p.text.length) rest rows →
      Rows width offset (ps ++ p :: rest) (⟨offset, offset + units ps, false⟩ :: rows)

variable {width : Nat} {ps qs : List Piece} {p : Piece}

theorem trimmed_space (h : p.isSpace = true) : trimmed (ps ++ [p]) = trimmed ps := by
  unfold trimmed
  rw [List.rdropWhile_concat_pos _ _ _ h]

theorem trimmed_other (h : p.isSpace = false) : trimmed (ps ++ [p]) = ps ++ [p] := by
  unfold trimmed
  rw [List.rdropWhile_concat_neg _ _ _ (by simp [h])]

theorem Fits.left (h : Fits width (ps ++ qs)) (hne : ps ≠ [])
    (hqs : ∀ q ∈ qs, q.isSpace = false) : Fits width ps := by
  rcases List.eq_nil_or_concat qs with rfl | ⟨init, last, rfl⟩
  · simpa using h
  · unfold Fits at h
    rw [List.concat_eq_append, ← List.append_assoc,
      trimmed_other (hqs last (by simp)), cells_append, cells_append] at h
    rcases h with h | h
    · have hprefix := List.rdropWhile_prefix Piece.isSpace (l := ps)
      obtain ⟨rest, hrest⟩ := hprefix
      have hcells : cells ps = cells (trimmed ps) + cells rest := by
        rw [← cells_append]
        exact congrArg cells hrest.symm
      exact .inl (by omega)
    · have := List.length_pos_iff.mpr hne
      simp only [List.length_append, List.length_singleton] at h
      omega

/-! ## The loop -/

/-- The state of the loop with the pieces `cur` in its row: the row fits, and its break is after its
last space. -/
structure WrapState.Holds (width : Nat) (s : WrapState) (cur : List Piece) : Prop where
  offset : s.offset = s.start + units cur
  cells : s.cells = Tui.cells cur
  fits : Fits width cur
  lines : ∀ p ∈ cur, p.endsLine = false
  nonempty : ∀ p ∈ cur, 0 < p.text.length
  place : (s.breakAt = none ∧ ∀ p ∈ cur, p.isSpace = false) ∨
    ∃ left right, cur = left ++ right ∧ left ≠ [] ∧ (∀ p ∈ right, p.isSpace = false) ∧
      s.breakAt = some (s.start + units left) ∧ s.breakCells = Tui.cells left

namespace WrapState

variable {s : WrapState} {cur : List Piece}

theorem Holds.add (h : s.Holds width cur) (hp : p.endsLine = false) (hpos : 0 < p.text.length)
    (hfits : p.isSpace = false → Tui.cells (cur ++ [p]) ≤ width ∨ cur = []) :
    (s.add p).Holds width (cur ++ [p]) := by
  refine ⟨?_, ?_, ?_, ?_, ?_, ?_⟩
  · simp only [WrapState.add, h.offset, units_append, units_cons, units_nil]
    omega
  · simp [WrapState.add, h.cells]
  · by_cases hspace : p.isSpace = true
    · unfold Fits
      rw [trimmed_space hspace]
      exact h.fits
    · rw [Bool.not_eq_true] at hspace
      unfold Fits
      rw [trimmed_other hspace]
      rcases hfits hspace with hle | rfl
      · exact .inl hle
      · exact .inr (by simp)
  · simp only [List.forall_mem_append, List.forall_mem_singleton]
    exact ⟨h.lines, hp⟩
  · simp only [List.forall_mem_append, List.forall_mem_singleton]
    exact ⟨h.nonempty, hpos⟩
  · by_cases hspace : p.isSpace = true
    · refine .inr ⟨cur ++ [p], [], by simp, by simp, by simp, ?_, ?_⟩
      · simp only [WrapState.add, hspace, if_true, h.offset, units_append, units_cons, units_nil]
        simp only [Nat.add_zero, Nat.add_assoc]
      · simp [WrapState.add, hspace, h.cells]
    · rw [Bool.not_eq_true] at hspace
      rcases h.place with ⟨hnone, hcur⟩ | ⟨left, right, rfl, hne, hright, hat, hcells⟩
      · refine .inl ⟨by simp [WrapState.add, hspace, hnone], ?_⟩
        simp only [List.forall_mem_append, List.forall_mem_singleton]
        exact ⟨hcur, hspace⟩
      · refine .inr ⟨left, right ++ [p], by simp, hne, ?_, ?_, ?_⟩
        · simp only [List.forall_mem_append, List.forall_mem_singleton]
          exact ⟨hright, hspace⟩
        · simp only [WrapState.add, hspace, hat]
          rfl
        · simp only [WrapState.add, hspace, hcells]
          rfl

theorem Holds.fresh {s : WrapState} (hoffset : s.offset = s.start) (hcells : s.cells = 0)
    (hnone : s.breakAt = none) : s.Holds width [] :=
  ⟨by simp [hoffset], hcells, .inl (by simp [trimmed]), by simp, by simp,
    .inl ⟨hnone, by simp⟩⟩

theorem Holds.softBreak (h : s.Holds width cur) (hover : s.overflows width p = true)
    (hp : p.endsLine = false) (hpos : 0 < p.text.length) :
    ∃ left right, cur = left ++ right ∧ left ≠ [] ∧ Fits width left ∧
      (∀ q ∈ right ++ [p], q.isSpace = false) ∧
      (s.softBreak width p).rows = s.rows ++ [⟨s.start, s.start + units left, true⟩] ∧
      (s.softBreak width p).start = s.start + units left ∧
      ((s.softBreak width p).add p).Holds width (right ++ [p]) := by
  simp only [WrapState.overflows, Bool.and_eq_true, Bool.not_eq_true', decide_eq_true_eq] at hover
  obtain ⟨⟨hspace, _⟩, hstart⟩ := hover
  have hcur : cur ≠ [] := by
    rintro rfl
    have := h.offset
    simp at this
    omega
  have hwhole : s.broke width p = none → ∃ left right, cur = left ++ right ∧ left ≠ [] ∧
      Fits width left ∧ (∀ q ∈ right ++ [p], q.isSpace = false) ∧
      (s.softBreak width p).rows = s.rows ++ [⟨s.start, s.start + units left, true⟩] ∧
      (s.softBreak width p).start = s.start + units left ∧
      ((s.softBreak width p).add p).Holds width (right ++ [p]) := by
    intro hnone
    have hstop : (s.softBreak width p).start = s.offset := by simp [WrapState.softBreak, hnone]
    refine ⟨cur, [], by simp, hcur, h.fits, by simp [hspace], ?_, ?_, ?_⟩
    · simp [WrapState.softBreak, hnone, h.offset]
    · rw [hstop, h.offset]
    · refine (Holds.fresh ?_ ?_ rfl).add hp hpos fun _ => .inr rfl
      · rw [hstop]
        rfl
      · simp [WrapState.softBreak, hnone]
  cases hbroke : s.broke width p with
  | none => exact hwhole hbroke
  | some place =>
    obtain ⟨hat, hfit⟩ := Option.filter_eq_some_iff.mp hbroke
    simp only [Bool.and_eq_true, decide_eq_true_eq] at hfit
    rcases h.place with ⟨hnone, _⟩ | ⟨left, right, rfl, hne, hright, hleft, hcells⟩
    · rw [hnone] at hat
      cases hat
    · rw [hleft] at hat
      cases hat
      have hstop : (s.softBreak width p).start = s.start + units left := by
        simp [WrapState.softBreak, hbroke]
      have hrest : (s.softBreak width p).cells = Tui.cells right := by
        simp [WrapState.softBreak, hbroke, hcells, h.cells]
      refine ⟨left, right, rfl, hne, h.fits.left hne hright, ?_, ?_, hstop, ?_⟩
      · simp only [List.forall_mem_append, List.forall_mem_singleton]
        exact ⟨hright, hspace⟩
      · simp [WrapState.softBreak, hbroke]
      · have hfits : Fits width right := by
          refine .inl ?_
          obtain ⟨rest, hsplit⟩ := List.rdropWhile_prefix Piece.isSpace (l := right)
          have hsum : Tui.cells right = Tui.cells (trimmed right) + Tui.cells rest := by
            rw [← cells_append]
            exact congrArg Tui.cells hsplit.symm
          have := h.cells
          rw [cells_append] at this
          omega
        have hholds : (s.softBreak width p).Holds width right := by
          refine ⟨?_, hrest, hfits, ?_, ?_, .inl ⟨rfl, hright⟩⟩
          · rw [hstop]
            show s.offset = _
            rw [h.offset, units_append]
            omega
          · exact fun q hq => h.lines q (by simp [hq])
          · exact fun q hq => h.nonempty q (by simp [hq])
        refine hholds.add hp hpos fun _ => .inl ?_
        have := h.cells
        rw [cells_append] at this
        simp only [cells_append, cells_cons, cells_nil]
        omega

end WrapState

theorem wrapLoop_rows {pieces : List Piece} {s : WrapState} {cur : List Piece}
    (h : s.Holds width cur) (hpieces : ∀ p ∈ pieces, 0 < p.text.length) :
    ∃ rows, wrapLoop width 0 pieces s = s.rows ++ rows ∧ rows ≠ [] ∧
      Rows width s.start (cur ++ pieces) rows := by
  induction pieces generalizing s cur with
  | nil =>
    refine ⟨_, rfl, by simp, ?_⟩
    rw [h.offset, List.append_nil]
    exact .last h.fits h.lines
  | cons p pieces ih =>
    obtain ⟨hpos, hpieces⟩ := List.forall_mem_cons.mp hpieces
    have hfull : ∀ s : WrapState, s.full 0 = false := fun _ => rfl
    unfold wrapLoop
    simp only [hfull, Bool.false_eq_true, if_false]
    split
    · rename_i hend
      have hfresh : (s.endLine p).Holds width [] := .fresh rfl rfl rfl
      obtain ⟨rows, hloop, _, hrows⟩ := ih hfresh hpieces
      refine ⟨⟨s.start, s.offset, false⟩ :: rows, ?_, by simp, ?_⟩
      · rw [hloop]
        simp [WrapState.endLine]
      · rw [h.offset]
        refine .hard h.fits h.lines hend ?_
        rw [← h.offset]
        exact hrows
    · rename_i hend
      rw [Bool.not_eq_true] at hend
      split
      · rename_i hover
        obtain ⟨left, right, rfl, hne, hfits, hright, hrowsEq, hstart, hholds⟩ :=
          h.softBreak hover hend hpos
        obtain ⟨rows, hloop, _, hrows⟩ := ih hholds hpieces
        have hstart' : ((s.softBreak width p).add p).start = s.start + units left := hstart
        have hrows' : ((s.softBreak width p).add p).rows =
          s.rows ++ [⟨s.start, s.start + units left, true⟩] := hrowsEq
        refine ⟨⟨s.start, s.start + units left, true⟩ :: rows, ?_, by simp, ?_⟩
        · rw [hloop, hrows']
          simp
        · rw [hstart'] at hrows
          rw [List.append_assoc]
          have hlines : ∀ q ∈ left, q.endsLine = false := fun q hq => h.lines q (by simp [hq])
          cases right with
          | nil => exact .soft hne hfits hlines (hright p (by simp)) (by simpa using hrows)
          | cons q right => exact .soft hne hfits hlines (hright q (by simp)) (by simpa using hrows)
      · rename_i hover
        have hadd : (s.add p).Holds width (cur ++ [p]) := by
          refine h.add hend hpos fun hspace => ?_
          by_cases hempty : cur = []
          · exact .inr hempty
          · refine .inl ?_
            have hunits : 0 < units cur := by
              obtain ⟨first, rest, rfl⟩ := List.exists_cons_of_ne_nil hempty
              have := h.nonempty first (by simp)
              simp only [units_cons]
              omega
            have hstart := h.offset
            have hcells := h.cells
            simp only [WrapState.overflows, hspace, Bool.not_false, Bool.true_and,
              Bool.and_eq_true, decide_eq_true_eq, not_and] at hover
            simp only [cells_append, cells_cons, cells_nil]
            by_contra hwide
            exact hover (by omega) (by omega)
        obtain ⟨rows, hloop, hne, hrows⟩ := ih hadd hpieces
        exact ⟨rows, hloop, hne, by simpa [WrapState.add] using hrows⟩

theorem wrap_rows (g : Graphemes) (text : Text) (width : Nat) :
    Rows width 0 (pieces g text) (wrap g text (some width) 0) := by
  obtain ⟨rows, hloop, _, hrows⟩ := wrapLoop_rows
    (WrapState.Holds.fresh (s := wrapStart) rfl rfl rfl) pieces_nonempty
  have hwrap : wrap g text (some width) 0 = rows := by
    show wrapLoop width 0 (pieces g text) wrapStart = rows
    rw [hloop]
    rfl
  rw [hwrap]
  exact hrows

theorem wrapLoop_prefix (width : Nat) (pieces : List Piece) (s : WrapState) :
    ∃ rows, wrapLoop width 0 pieces s = s.rows ++ rows ∧ rows ≠ [] := by
  have hfull : ∀ s : WrapState, s.full 0 = false := fun _ => rfl
  induction pieces generalizing s with
  | nil => exact ⟨_, rfl, by simp⟩
  | cons p pieces ih =>
    unfold wrapLoop
    simp only [hfull, Bool.false_eq_true, if_false]
    split
    · obtain ⟨rows, hloop, _⟩ := ih (s.endLine p)
      refine ⟨⟨s.start, s.offset, false⟩ :: rows, ?_, by simp⟩
      rw [hloop]
      simp [WrapState.endLine]
    · split
      · obtain ⟨rows, hloop, _⟩ := ih ((s.softBreak width p).add p)
        refine ⟨⟨s.start, (s.broke width p).getD s.offset, true⟩ :: rows, ?_, by simp⟩
        rw [hloop]
        simp [WrapState.add, WrapState.softBreak]
      · exact ih (s.add p)

theorem wrapLoop_head {head : Nat} {s : WrapState} (pieces : List Piece) (hhead : 0 < head)
    (hrows : s.rows.length < head) :
    wrapLoop width head pieces s = (wrapLoop width 0 pieces s).take head := by
  have hzero : ∀ s : WrapState, s.full 0 = false := fun _ => rfl
  have hstop : ∀ (next : WrapState) (pieces : List Piece), next.rows.length ≤ head →
      (next.rows.length < head → wrapLoop width head pieces next =
        (wrapLoop width 0 pieces next).take head) →
      (if next.full head = true then next.rows else wrapLoop width head pieces next) =
        (wrapLoop width 0 pieces next).take head := by
    intro next pieces hle hnext
    by_cases hfull : next.rows.length = head
    · obtain ⟨rows, hloop, _⟩ := wrapLoop_prefix width pieces next
      rw [if_pos (by simp [WrapState.full, hhead, hfull]), hloop, ← hfull, List.take_left]
    · rw [if_neg (by simp [WrapState.full, hfull])]
      exact hnext (by omega)
  induction pieces generalizing s with
  | nil =>
    unfold wrapLoop
    rw [List.take_of_length_le (by simp; omega)]
  | cons p pieces ih =>
    unfold wrapLoop
    simp only [hzero, Bool.false_eq_true, if_false]
    split
    · exact hstop _ _ (by simp [WrapState.endLine]; omega) fun h => ih h
    · split
      · have hsame : (if (s.softBreak width p).full head = true then (s.softBreak width p).rows
            else wrapLoop width head pieces ((s.softBreak width p).add p)) =
            (if ((s.softBreak width p).add p).full head = true then ((s.softBreak width p).add p).rows
            else wrapLoop width head pieces ((s.softBreak width p).add p)) := rfl
        rw [hsame]
        exact hstop _ _ (by simp [WrapState.add, WrapState.softBreak]; omega) fun h => ih h
      · exact ih hrows

theorem wrap_head (g : Graphemes) (text : Text) (width : Option Nat) {head : Nat}
    (hhead : 0 < head) : wrap g text width head = (wrap g text width 0).take head := by
  cases width with
  | none =>
    obtain ⟨n, rfl⟩ := Nat.exists_eq_add_one.mpr hhead
    simp [wrap]
  | some width => exact wrapLoop_head (pieces g text) hhead hhead

end Yuke.Tui
