import Yuke.Tui.ScrollReads
import Yuke.Tui.Wrap

/-!
# The text view

A read-only document of items and sections, drawn from the rows of a scroll list. The source of each
segment maps a place of a row to an offset of its section.
-/

set_option autoImplicit false

namespace Yuke.Tui

open Yuke.Shared

inductive SourceKind where
  | text
  | replacement
  deriving DecidableEq

structure Source where
  kind : SourceKind
  start : Nat
  stop : Nat
  deriving DecidableEq

structure Segment where
  text : Text
  source : Option Source
  /-- false for a segment that a copy leaves out -/
  copy : Bool
  deriving DecidableEq

structure TextRow where
  segments : List Segment
  join : Text
  deriving DecidableEq

structure ViewRow where
  segments : List Segment
  join : Text
  part : String
  deriving DecidableEq

structure SectionRender where
  rows : Nat → Nat → Option (List TextRow)
  again : ∀ {time later width found}, time ≤ later → rows time width = some found →
    rows later width = some found

structure TextSection where
  key : String
  text : Text
  render : Option SectionRender

structure TextItem where
  key : String
  sections : List TextSection

variable (g : Graphemes)

def wrapWidth (width : Nat) : Option Nat := if width = 0 then none else some width

def plainRow (text : Text) (row : WrapRow) : TextRow where
  segments := [⟨slice text row.start row.stop, some ⟨.text, row.start, row.stop⟩, true⟩]
  join := if row.soft then [] else lf

/-- The rows of plain text. A wrap joins with nothing, and a line end joins with a line end. -/
def plainRows (text : Text) (width : Nat) : List TextRow :=
  (wrap g text (wrapWidth width) 0).map (plainRow text)

def TextSection.own (part : TextSection) (time width : Nat) : Option (List TextRow) :=
  match part.render with
  | none => some (plainRows g part.text width)
  | some render => render.rows time width

def TextRow.inSection (key : String) (row : TextRow) : ViewRow := ⟨row.segments, row.join, key⟩

def endLast : List ViewRow → List ViewRow
  | [] => []
  | [row] => [{ row with join := lf }]
  | row :: rows => row :: endLast rows

def renderSections (time width : Nat) :
    List TextSection → List ViewRow → Option (List ViewRow)
  | [], rows => some (endLast rows)
  | part :: parts, rows =>
    match part.own g time width with
    | none => none
    | some own =>
      if own.isEmpty then renderSections time width parts rows
      else renderSections time width parts (endLast rows ++ own.map (TextRow.inSection part.key))

def renderItem (time : Nat) (item : TextItem) (width : Nat) : Option (List ViewRow) :=
  renderSections g time width item.sections []

theorem own_again {part : TextSection} {time later width : Nat} {rows : List TextRow}
    (hle : time ≤ later) (h : part.own g time width = some rows) :
    part.own g later width = some rows := by
  unfold TextSection.own at h ⊢
  split
  · rename_i hrender
    rw [hrender] at h
    exact h
  · rename_i render hrender
    rw [hrender] at h
    exact render.again hle h

theorem renderSections_again {parts : List TextSection} {time later width : Nat}
    {rows found : List ViewRow} (hle : time ≤ later)
    (h : renderSections g time width parts rows = some found) :
    renderSections g later width parts rows = some found := by
  induction parts generalizing rows with
  | nil => exact h
  | cons part parts ih =>
    unfold renderSections at h ⊢
    split at h
    · cases h
    · rename_i own hown
      rw [own_again g hle hown]
      simp only
      split at h
      · rename_i hempty
        rw [if_pos hempty]
        exact ih h
      · rename_i hempty
        rw [if_neg hempty]
        exact ih h

/-! ## The view -/

variable {Item : Type} [DecidableEq Item] (content : Item → TextItem)

def textOptions : ScrollOptions Item String ViewRow where
  key := fun item => (content item).key
  render := fun time item width => renderItem g time (content item) width
  again := fun hle h => renderSections_again g hle h

structure TextPosition where
  item : String
  part : String
  offset : Nat
  deriving DecidableEq

structure Place where
  row : Nat
  offset : Nat
  deriving DecidableEq

inductive Bias where
  | before
  | after
  deriving DecidableEq

/-- The places that a search met: those that hold the position, the last one before it, and the
first one after it. -/
structure Found where
  places : List Place
  before : Option Place
  after : Option Place
  deriving DecidableEq

def placeSegment (offset : Nat) (bias : Bias) (row start : Nat) (segment : Segment)
    (found : Found) : Found :=
  let stop := start + segment.text.length
  match segment.source with
  | none => found
  | some source =>
    if source.start ≤ offset ∧ offset ≤ source.stop then
      let place :=
        match source.kind with
        | .text => start + offset - source.start
        | .replacement =>
          if offset = source.start then start
          else if offset = source.stop then stop
          else
            match bias with
            | .before => start
            | .after => stop
      { found with places := found.places ++ [⟨row, place⟩] }
    else if source.stop < offset then { found with before := some ⟨row, stop⟩ }
    else if found.after.isNone ∧ offset < source.start then
      { found with after := some ⟨row, start⟩ }
    else found

def placeSegments (offset : Nat) (bias : Bias) (row : Nat) : Nat → List Segment → Found → Found
  | _, [], found => found
  | start, segment :: segments, found =>
    placeSegments offset bias row (start + segment.text.length) segments
      (placeSegment offset bias row start segment found)

def placeRows (part : String) (offset : Nat) (bias : Bias) : Nat → List ViewRow → Found → Found
  | _, [], found => found
  | row, view :: views, found =>
    placeRows part offset bias (row + 1) views
      (if view.part = part then placeSegments offset bias row 0 view.segments found else found)

/-- At a boundary of two rows, `after` takes the later row. -/
def Found.pick (found : Found) (bias : Bias) : Option Place :=
  match bias with
  | .before => found.places.head?.or (found.before.or found.after)
  | .after => found.places.getLast?.or (found.after.or found.before)

variable (time : Nat)

def place (list : ScrollList Item String ViewRow) (position : TextPosition) (bias : Bias) :
    Option (Option Place) × ScrollList Item String ViewRow :=
  match list.rowsOf (textOptions g content) time position.item with
  | (none, list) => (none, list)
  | (some none, list) => (some none, list)
  | (some (some (start, rows)), list) =>
    (some ((placeRows position.part position.offset bias start rows ⟨[], none, none⟩).pick bias),
      list)

/-- The text of a row from `lower` on, and to `upper` in the last row. -/
def cutSegments (lower : Nat) (upper : Option Nat) : Nat → List Segment → Text
  | _, [] => []
  | start, segment :: segments =>
    let stop := start + segment.text.length
    let first := max lower start
    let last := min (upper.getD stop) stop
    (if segment.copy ∧ first < last then slice segment.text (first - start) (last - start) else [])
      ++ cutSegments lower upper stop segments

/-- The text of `count` rows from `row` on, with their joins between. -/
def copyRows (start stop : Place) :
    Nat → Nat → ScrollList Item String ViewRow → Option Text × ScrollList Item String ViewRow
  | 0, _, list => (some [], list)
  | count + 1, row, list =>
    match list.rowAt (textOptions g content) time row with
    | (some (some (_, _, some view)), list) =>
      let lower := if row = start.row then start.offset else 0
      let upper := if row = stop.row then some stop.offset else none
      let text := cutSegments lower upper 0 view.segments
      match copyRows start stop count (row + 1) list with
      | (none, list) => (none, list)
      | (some rest, list) => (some (text ++ (if row < stop.row then view.join else []) ++ rest), list)
    | (_, list) => (none, list)

def sectionAt (list : ScrollList Item String ViewRow) (position : TextPosition) :
    Option (Nat × Nat × TextSection) :=
  let items := list.shown.items.map content
  (items.findIdx? (·.key = position.item)).bind fun i =>
    items[i]?.bind fun item =>
      (item.sections.findIdx? (·.key = position.part)).bind fun j =>
        item.sections[j]?.map fun part => (i, j, part)

def isAfter (first second : Nat × Nat × TextSection) (a b : TextPosition) : Bool :=
  if first.1 ≠ second.1 then second.1 < first.1
  else if first.2.1 ≠ second.2.1 then second.2.1 < first.2.1
  else b.offset < a.offset

def viewText (list : ScrollList Item String ViewRow) (one other : TextPosition) :
    Option Text × ScrollList Item String ViewRow :=
  match sectionAt content list one, sectionAt content list other with
  | some first, some second =>
    if first.2.2.text.length < one.offset ∨ second.2.2.text.length < other.offset then (none, list)
    else
      let (low, high) := if isAfter first second one other then (other, one) else (one, other)
      match place g content time list low .after with
      | (none, list) => (none, list)
      | (some start, list) =>
        match place g content time list high .before with
        | (none, list) => (none, list)
        | (some stop, list) =>
          match start, stop with
          | some start, some stop =>
            if stop.row < start.row then (some [], list)
            else copyRows g content time start stop (stop.row + 1 - start.row) start.row list
          | _, _ => (some [], list)
  | _, _ => (none, list)

end Yuke.Tui
