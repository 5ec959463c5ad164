import Yuke.Tui.Graphemes

/-!
# The text editor

A draft with spans and a selection. Each position is an offset in UTF-16 units. The layout gives the
targets of the vertical moves, of the line edges and of the mouse, so their events hold the target.
-/

set_option autoImplicit false

namespace Yuke.Tui

open Yuke.Shared

/-! ## Values from JavaScript -/

inductive ErrorClass where
  | typeError
  | rangeError
  deriving DecidableEq

structure Thrown where
  kind : ErrorClass
  message : String
  deriving DecidableEq

inductive Number where
  | whole (value : Int)
  | other (shown : String)
  deriving DecidableEq

def Number.shown : Number → String
  | .whole value => toString value
  | .other shown => shown

def Number.ofOffset : Option Nat → Number
  | some offset => .whole offset
  | none => .other "undefined"

structure Media where
  digest : String
  len : Nat
  mime : String
  filename : Option String
  deriving DecidableEq

inductive SpanKind where
  | paste
  | image (media : Media)
  deriving DecidableEq

structure EditorSpan where
  start : Nat
  stop : Nat
  kind : SpanKind
  label : Text
  deriving DecidableEq

structure Selection where
  anchor : Nat
  head : Nat
  deriving DecidableEq

structure EditorState where
  text : Text
  selection : Selection
  spans : List EditorSpan
  deriving DecidableEq

inductive Field (α : Type) where
  | missing
  | typed (value : α)
  | other
  deriving DecidableEq

def Field.value? {α : Type} : Field α → Option α
  | .typed value => some value
  | _ => none

structure BlobInput where
  digest : Field String
  len : Number
  deriving DecidableEq

structure MediaInput where
  mime : Field String
  filename : Field String
  blob : Option BlobInput
  deriving DecidableEq

inductive KindInput where
  | paste
  | image (media : Option MediaInput)
  | other
  deriving DecidableEq

/-- A span as a caller gives it. A label that is no string is `none`. -/
structure SpanInput where
  start : Number
  stop : Number
  label : Option Text
  kind : KindInput
  deriving DecidableEq

/-- The spans of a caller: `none` for what is no array, and an item `none` for what is no object. -/
abbrev SpansInput := Option (List (Option SpanInput))

structure StateInput where
  text : Option Text
  selection : Option (Number × Number)
  spans : SpansInput
  deriving DecidableEq

def EditorSpan.toInput (span : EditorSpan) : SpanInput where
  start := .whole span.start
  stop := .whole span.stop
  label := some span.label
  kind :=
    match span.kind with
    | .paste => .paste
    | .image media => .image (some
        { mime := .typed media.mime
          filename := match media.filename with
            | none => .missing
            | some filename => .typed filename
          blob := some { digest := .typed media.digest, len := .whole media.len } })

def EditorState.toInput (state : EditorState) : StateInput where
  text := some state.text
  selection := some (.whole state.selection.anchor, .whole state.selection.head)
  spans := some (state.spans.map fun span => some span.toInput)

def lineFeed : UInt16 := 0x0A
def carriageReturn : UInt16 := 0x0D

def isLineEnd (unit : UInt16) : Bool := unit == lineFeed || unit == carriageReturn

def imageText : Text := [0xFFFC]

def checkMedia (media : Option MediaInput) : Option Media :=
  match media with
  | some ⟨.typed mime, filename, some ⟨.typed digest, .whole len⟩⟩ =>
    if filename = .other ∨ len < 0 then none
    else some { digest, len := len.toNat, mime, filename := filename.value? }
  | _ => none

def checkKind (text : Text) (start stop : Nat) : KindInput → Except Thrown SpanKind
  | .paste => .ok .paste
  | .other => .error ⟨.typeError, "a span kind is paste or image"⟩
  | .image media =>
    if slice text start stop ≠ imageText then
      .error ⟨.rangeError, "an image span covers one U+FFFC"⟩
    else
      match checkMedia media with
      | some media => .ok (.image media)
      | none => .error ⟨.typeError,
          "an image span has media: a mime type and a blob with a digest and a length"⟩

/-- The range of a span that starts at `last` or later. -/
def checkRange (text : Text) (last : Nat) (start stop : Number) : Except Thrown (Nat × Nat) :=
  let outside : Thrown := ⟨.rangeError,
    "a span from " ++ start.shown ++ " to " ++ stop.shown ++ " is not in order inside the text"⟩
  match start, stop with
  | .whole start, .whole stop =>
    if start < last ∨ stop ≤ start ∨ text.length < stop then .error outside
    else .ok (start.toNat, stop.toNat)
  | _, _ => .error outside

variable (g : Graphemes)

def checkSpan (text : Text) (last : Nat) : Option SpanInput → Except Thrown EditorSpan
  | none => .error ⟨.typeError, "a span is an object"⟩
  | some span =>
    match checkRange text last span.start span.stop with
    | .error thrown => .error thrown
    | .ok (start, stop) =>
      if start ∉ boundaries g text ∨ stop ∉ boundaries g text then
        .error ⟨.rangeError,
          "a span from " ++ toString start ++ " to " ++ toString stop ++ " splits a grapheme"⟩
      else
        match span.label with
        | none => .error ⟨.typeError, "a span label is one line that is not empty"⟩
        | some label =>
          if label = [] ∨ label.any isLineEnd then
            .error ⟨.typeError, "a span label is one line that is not empty"⟩
          else
            match checkKind text start stop span.kind with
            | .error thrown => .error thrown
            | .ok kind => .ok { start, stop, kind, label }

def checkSpansFrom (text : Text) (last : Nat) :
    List (Option SpanInput) → Except Thrown (List EditorSpan)
  | [] => .ok []
  | input :: inputs =>
    match checkSpan g text last input with
    | .error thrown => .error thrown
    | .ok span =>
      match checkSpansFrom text span.stop inputs with
      | .error thrown => .error thrown
      | .ok spans => .ok (span :: spans)

/-- The spans of `text`, with each one checked: in order, apart, and on grapheme edges. -/
def checkSpans (text : Text) : SpansInput → Except Thrown (List EditorSpan)
  | none => .error ⟨.typeError, "spans are an array"⟩
  | some inputs => checkSpansFrom g text 0 inputs

def EditorSpan.holds (span : EditorSpan) (offset : Nat) : Bool :=
  span.start < offset && offset < span.stop

/-- The first boundary at or after `offset` that is outside each span. -/
def nextBoundary (text : Text) (spans : List EditorSpan) (offset : Nat) : Nat :=
  match spans.find? (·.holds offset) with
  | none => nextBoundaryOf g text offset
  | some span => nextBoundaryOf g text span.stop

/-- The boundary nearest `offset`: a grapheme edge or a span edge. A tie takes the later one. -/
def snap (text : Text) (spans : List EditorSpan) (offset : Nat) : Nat :=
  let (low, high) :=
    match spans.find? (·.holds offset) with
    | none => (previousBoundary g text offset true, nextBoundaryOf g text offset)
    | some span => (span.start, span.stop)
  if offset - low < high - offset then low else high

/-- The order of the spans in a state. A sort keeps the order of equal ones. -/
def EditorSpan.NotAfter (a b : EditorSpan) : Prop := a.start ≤ b.start

instance : DecidableRel EditorSpan.NotAfter := fun a b => Nat.decLe a.start b.start
instance : Std.Total EditorSpan.NotAfter := ⟨fun a b => Nat.le_total a.start b.start⟩
instance : IsTrans EditorSpan EditorSpan.NotAfter := ⟨fun _ _ _ => Nat.le_trans⟩

def shifted (span : EditorSpan) (start stop : Nat) : EditorSpan := { span with start, stop }

def checkOffset (text : Text) (value : Number) : Except Thrown Nat :=
  let outside : Thrown := ⟨.rangeError, "the offset " ++ value.shown ++ " is outside the text of "
    ++ toString text.length ++ " units"⟩
  match value with
  | .whole value => if value < 0 ∨ text.length < value then .error outside else .ok value.toNat
  | .other _ => .error outside

structure TextEdit where
  start : Nat
  stop : Nat
  text : Text
  spans : List EditorSpan
  deriving DecidableEq

def grow (range : Nat × Nat) (span : EditorSpan) : Nat × Nat :=
  if span.start < range.2 ∧ range.1 < span.stop then
    (min range.1 span.start, max range.2 span.stop)
  else range

namespace EditorState

variable (state : EditorState)

def expand (start stop : Nat) : Nat × Nat :=
  state.spans.foldl grow
    (previousBoundary g state.text start true, nextBoundaryOf g state.text stop)

/-- The range that an edit of `start` to `stop` takes. -/
def effective (start stop : Nat) : Nat × Nat :=
  if start = stop then
    let snapped := snap g state.text state.spans start
    (snapped, snapped)
  else state.expand g start stop

def textAfter (edit : TextEdit) : Text :=
  state.text.take edit.start ++ edit.text ++ state.text.drop edit.stop

/-- A span at its place after `edit`. The spans inside the range of the edit go. -/
def keepSpan (edit : TextEdit) (span : EditorSpan) : List EditorSpan :=
  if span.stop ≤ edit.start then [span]
  else if edit.stop ≤ span.start then
    -- the shift is down by the range and up by the text, and can be negative
    [shifted span (span.start - edit.stop + edit.start + edit.text.length)
      (span.stop - edit.stop + edit.start + edit.text.length)]
  else []

def kept (edit : TextEdit) : List EditorSpan := state.spans.flatMap (keepSpan edit)

/-- The spans that come with the text of `edit`. -/
def added (edit : TextEdit) : List EditorSpan :=
  edit.spans.map fun span => shifted span (span.start + edit.start) (span.stop + edit.start)

def spansAfter (edit : TextEdit) : List EditorSpan :=
  (state.kept edit ++ added edit).insertionSort EditorSpan.NotAfter

/-- The state after `edit`, with the caret at the next whole boundary after its text. -/
def apply (edit : TextEdit) : EditorState :=
  let text := state.textAfter edit
  let spans := state.spansAfter edit
  let caret := nextBoundary g text spans (edit.start + edit.text.length)
  { text, selection := ⟨caret, caret⟩, spans }

end EditorState

inductive Direction where
  | back
  | forward
  deriving DecidableEq

def Direction.sign : Direction → Int
  | .back => -1
  | .forward => 1

def isSpace (unit : UInt16) : Bool :=
  unit ∈ [0x09, 0x0A, 0x0B, 0x0C, 0x0D, 0x20, 0xA0, 0x1680, 0x2028, 0x2029, 0x202F, 0x205F, 0x3000,
    0xFEFF] || (0x2000 ≤ unit && unit ≤ 0x200A)

def isBlank (text : Text) : Bool := text ≠ [] && text.all isSpace

/-- The first index of `value`, or -1. -/
def indexOf (items : List Nat) (value : Nat) : Int :=
  if value ∈ items then items.idxOf value else -1

def item? (items : List Nat) (index : Int) : Option Nat :=
  if index < 0 then none else items[index.toNat]?

/-- The `slice` of JavaScript: an end that is undefined is an end of the text. -/
def sliceOf (text : Text) (start stop : Option Nat) : Text :=
  slice text (start.getD 0) (stop.getD text.length)

def EditorSpan.near (span : EditorSpan) : Direction → Nat
  | .back => span.stop
  | .forward => span.start

def EditorSpan.far (span : EditorSpan) : Direction → Nat
  | .back => span.start
  | .forward => span.stop

namespace EditorState

variable (state : EditorState)

/-- The index that one step from `index` leads to. -/
def wordNext (starts : List Nat) (direction : Direction) (index : Int) : Int :=
  match state.spans.find? (fun span => some (span.near direction) = item? starts index) with
  | none => index + direction.sign
  | some span => indexOf starts (span.far direction)

def wordPiece (starts : List Nat) (direction : Direction) (index next : Int) : Text :=
  match direction with
  | .back => sliceOf state.text (item? starts next) (item? starts index)
  | .forward => sliceOf state.text (item? starts index) (item? starts next)

/-- The loop of `word`: `none` when it has not ended within `fuel` turns, `some none` for a result
that is undefined. -/
def wordLoop (starts : List Nat) (direction : Direction) :
    Nat → Int → Bool → Option (Option Nat)
  | 0, _, _ => none
  | fuel + 1, index, inWord =>
    if 0 ≤ index + direction.sign ∧ index + direction.sign < starts.length then
      let next := state.wordNext starts direction index
      let blank := isBlank (state.wordPiece starts direction index next)
      if blank && inWord then some (item? starts index)
      else wordLoop starts direction fuel next (inWord || !blank)
    else some (item? starts index)

/-- The far edge of the word before or after `offset`. -/
def word (fuel : Nat) (offset : Nat) (direction : Direction) : Option (Option Nat) :=
  let starts := boundaries g state.text
  state.wordLoop starts direction fuel (indexOf starts offset) false

/-- The boundary one grapheme or one span from `offset`. -/
def step (offset : Nat) (direction : Direction) : Nat :=
  match state.spans.find? (fun span => span.near direction = offset) with
  | some span => span.far direction
  | none =>
    match direction with
    | .back => previousBoundary g state.text offset false
    | .forward => nextBoundaryOf g state.text (offset + 1)

def low : Nat := min state.selection.anchor state.selection.head
def high : Nat := max state.selection.anchor state.selection.head

end EditorState

/-! ## The editor -/

structure Editor where
  multiline : Bool
  state : EditorState
  drag : Option Nat
  deriving DecidableEq

def lineOf (multiline : Bool) (text : Text) : Text :=
  if multiline then text else text.map fun unit => if isLineEnd unit then 0x20 else unit

def checked (multiline : Bool) (input : StateInput) : Except Thrown EditorState :=
  match input.text with
  | none => .error ⟨.typeError, "an editor state has a text"⟩
  | some text =>
    let text := lineOf multiline text
    match checkSpans g text input.spans with
    | .error thrown => .error thrown
    | .ok spans =>
      match input.selection with
      | none => .error ⟨.typeError, "an editor state has a selection"⟩
      | some (anchor, head) =>
        match checkOffset text anchor with
        | .error thrown => .error thrown
        | .ok anchor =>
          match checkOffset text head with
          | .error thrown => .error thrown
          | .ok head =>
            .ok { text, selection := ⟨snap g text spans anchor, snap g text spans head⟩, spans }

/-- The state of a new editor without the option `state`. -/
def emptyState : StateInput := { text := some [], selection := some (.whole 0, .whole 0), spans := some [] }

def Editor.new (multiline : Bool) (input : StateInput) : Except Thrown Editor :=
  match checked g multiline input with
  | .error thrown => .error thrown
  | .ok state => .ok { multiline, state, drag := none }

/-- What the keys, the mouse, the paste and the owner ask of an editor in the end. -/
inductive Call where
  | select (anchor head : Number)
  | replace (start stop : Number) (text : Option Text) (spans : SpansInput)
  | replaceAll (state : StateInput)
  deriving DecidableEq

inductive Key where
  | step (direction : Direction) (select : Bool)
  /-- up, down, home and end, with the place that the layout gives -/
  | place (target : Nat) (select : Bool)
  | word (direction : Direction) (select : Bool)
  | deleteWord (direction : Direction)
  /-- ctrl+u, with the start of the line at the caret -/
  | deleteLine (edge : Nat)
  | backspace
  | delete
  | newline
  | character (text : Text)
  deriving DecidableEq

inductive EditorEvent where
  | key (key : Key)
  | paste (text : Text)
  /-- a press, with the place that it hits -/
  | press (hit : Nat)
  | dragTo (hit : Nat)
  | release
  | call (call : Call)
  deriving DecidableEq

namespace EditorState

variable (state : EditorState)

def moveTo (target : Number) (select : Bool) : Call :=
  .select (if select then .whole state.selection.anchor else target) target

/-- The edit that puts `text` in place of a range. -/
def put (start stop : Nat) (text : Text) : Call :=
  .replace (.whole start) (.whole stop) (some text) (some [])

/-- A deletion of a range that is not empty. A range with an undefined end compares as false. -/
def erase (start stop : Option Nat) : Option Call :=
  match start, stop with
  | some start, some stop => if start < stop then some (put start stop []) else none
  | _, _ => none

/-- The call of a key: `none` while the loop of a word move has not ended within `fuel` turns. -/
def keyCall (multiline : Bool) (fuel : Nat) : Key → Option (Option Call)
  | .step direction select =>
    let head := state.selection.head
    let target :=
      if !select && state.low ≠ state.high then
        match direction with
        | .back => state.low
        | .forward => state.high
      else state.step g head direction
    some (some (state.moveTo (.whole target) select))
  | .place target select => some (some (state.moveTo (.whole target) select))
  | .word direction select =>
    (state.word g fuel state.selection.head direction).map fun target =>
      some (state.moveTo (.ofOffset target) select)
  | .deleteWord direction =>
    let head := state.selection.head
    if state.low ≠ state.high then some (erase (some state.low) (some state.high))
    else
      (state.word g fuel head direction).map fun target =>
        match direction with
        | .back => erase target (some head)
        | .forward => erase (some head) target
  | .deleteLine edge =>
    if state.low ≠ state.high then some (erase (some state.low) (some state.high))
    else some (erase (some edge) (some state.selection.head))
  | .backspace =>
    let head := state.selection.head
    if state.low ≠ state.high then some (some (put state.low state.high []))
    else if 0 < head then some (some (put (state.step g head .back) head []))
    else some none
  | .delete =>
    let head := state.selection.head
    if state.low ≠ state.high then some (some (put state.low state.high []))
    else if head < state.text.length then some (some (put head (state.step g head .forward) []))
    else some none
  | .newline => some (if multiline then some (put state.low state.high [lineFeed]) else none)
  | .character text => some (if text = [] then none else some (put state.low state.high text))

end EditorState

namespace Editor

variable (editor : Editor)

def eventCall (fuel : Nat) : EditorEvent → Option (Option Call)
  | .key key => editor.state.keyCall g editor.multiline fuel key
  | .paste text => some (some (EditorState.put editor.state.low editor.state.high text))
  | .press hit => some (some (.select (.whole hit) (.whole hit)))
  | .dragTo hit => some (editor.drag.map fun anchor => .select (.whole anchor) (.whole hit))
  | .release => some none
  | .call call => some (some call)

def dragAfter : EditorEvent → Option Nat
  | .press hit => some hit
  | .release => none
  | _ => editor.drag

/-- The checks of `replace`, up to the edit that it makes. -/
def edit (start stop : Number) (text : Option Text) (spans : SpansInput) : Except Thrown TextEdit :=
  match checkOffset editor.state.text start with
  | .error thrown => .error thrown
  | .ok start =>
    match checkOffset editor.state.text stop with
    | .error thrown => .error thrown
    | .ok stop =>
      if stop < start then
        .error ⟨.rangeError, "a replaced range ends before it starts: " ++ toString start ++ " to "
          ++ toString stop⟩
      else
        match text with
        | none => .error ⟨.typeError, "a replacement is a string"⟩
        | some text =>
          let inserted := lineOf editor.multiline text
          match checkSpans g inserted spans with
          | .error thrown => .error thrown
          | .ok spans =>
            let (start, stop) := editor.state.effective g start stop
            .ok { start, stop, text := inserted, spans }

def perform : Call → Except Thrown EditorState
  | .select anchor head =>
    let state := editor.state
    match checkOffset state.text anchor with
    | .error thrown => .error thrown
    | .ok anchor =>
      match checkOffset state.text head with
      | .error thrown => .error thrown
      | .ok head =>
        .ok { state with
          selection := ⟨snap g state.text state.spans anchor, snap g state.text state.spans head⟩ }
  | .replace start stop text spans =>
    match editor.edit g start stop text spans with
    | .error thrown => .error thrown
    | .ok edit => .ok (editor.state.apply g edit)
  | .replaceAll input => checked g editor.multiline input

def stateAfter : Option Call → EditorState
  | none => editor.state
  | some call =>
    match editor.perform g call with
    | .error _ => editor.state
    | .ok state => state

/-- The editor after an event: `none` while a word move has not ended within `fuel` turns. -/
def after (fuel : Nat) (event : EditorEvent) : Option Editor :=
  (editor.eventCall g fuel event).map fun call =>
    { editor with state := editor.stateAfter g call, drag := editor.dragAfter event }

def next (event : EditorEvent) (later : Editor) : Prop :=
  ∃ fuel, editor.after g fuel event = some later

end Editor

end Yuke.Tui
