import Yuke.Shared.Patches
import Yuke.Shared.Splits
import Yuke.Shared.WellFormed

/-!
# The edit tool

`edit` replaces the matches of a string in a file, and shows the patch of the edit. `patchLines` reads
the patch again and gives each row its line number.
-/

set_option autoImplicit false

namespace Yuke.Js.Edit

open Yuke.Shared

abbrev Text := List UInt16

def units (characters : List Char) : Text := characters.map fun c => .ofNat c.toNat

def newline : UInt16 := 0x0a

def numberText (n : ℕ) : Text := units (Nat.toDigits 10 n)

def context : ℕ := 3

/-- The old lines from `first` and the new lines from `start`. `past` and `stop` are one after the last
line, so an empty range has `past = first`. -/
structure Change where
  first : ℕ
  past : ℕ
  start : ℕ
  stop : ℕ
  deriving DecidableEq

/-- The lines of `text`. A line break at the end starts no line, and an empty text has no line. -/
def linesOf (text : Text) : List Text :=
  if text = [] then []
  else
    let lines := text.splitOn newline
    if lines.getLast? = some [] then lines.dropLast else lines

/-- The index of the line that holds `offset` of `text`, or of the line after the text at its end. -/
def lineAt (text : Text) (offset : ℕ) : ℕ := ((text.take offset).splitOn newline).length - 1

section Changes

variable (before after oldString newString : Text)

/-- The change of the match at `offset`, after `index` other matches. -/
def changeAt (index offset : ℕ) : Change :=
  let shifted := offset + index * newString.length - index * oldString.length
  { first := lineAt before offset
    past := min (lineAt before (offset + oldString.length) + 1) (linesOf before).length
    start := lineAt after shifted
    stop := min (lineAt after (shifted + newString.length) + 1) (linesOf after).length }

def matchChanges : ℕ → ℕ → List Text → List Change
  | _, _, [] => []
  | index, offset, part :: parts =>
    changeAt before after oldString newString index (offset + part.length) ::
      matchChanges (index + 1) (offset + part.length + oldString.length) parts

def pushChange (changes : List Change) (change : Change) : List Change :=
  match changes.getLast? with
  | none => changes ++ [change]
  | some previous =>
    if change.first < previous.past then
      changes.dropLast ++ [{ previous with
        past := max previous.past change.past, stop := max previous.stop change.stop }]
    else changes ++ [change]

end Changes

def commonLength : List Text → List Text → ℕ
  | line :: lines, other :: others => if line = other then commonLength lines others + 1 else 0
  | _, _ => 0

/-- The lines of `lines` from `start` to `stop`. -/
def range (lines : List Text) (start stop : ℕ) : List Text := (lines.drop start).take (stop - start)

section Hunks

variable (oldLines newLines : List Text)

def trimStart (change : Change) : Change :=
  let equal := commonLength (range oldLines change.first change.past)
    (range newLines change.start change.stop)
  { change with first := change.first + equal, start := change.start + equal }

def trimEnd (change : Change) : Change :=
  let equal := commonLength (range oldLines change.first change.past).reverse
    (range newLines change.start change.stop).reverse
  { change with past := change.past - equal, stop := change.stop - equal }

def trim (change : Change) : Change := trimEnd oldLines newLines (trimStart oldLines newLines change)

def near (change next : Change) : Bool := next.first ≤ change.past + 2 * context

def groupsOf : List Change → List (List Change)
  | [] => []
  | [change] => [[change]]
  | change :: next :: rest =>
    if near change next then (groupsOf (next :: rest)).modifyHead (change :: ·)
    else [change] :: groupsOf (next :: rest)

/-- The rows of a hunk so far: the next old line, and the count of the kept and added lines. -/
structure Rows where
  line : ℕ
  added : ℕ
  rows : List (Row Text)

/-- Keep the old lines before `stop`. -/
def keepTo (stop : ℕ) (r : Rows) : Rows where
  line := max r.line stop
  added := r.added + (stop - r.line)
  rows := r.rows ++ (range oldLines r.line stop).map .keep

/-- Remove the old lines before `stop`. -/
def removeTo (stop : ℕ) (r : Rows) : Rows where
  line := max r.line stop
  added := r.added
  rows := r.rows ++ (range oldLines r.line stop).map .remove

/-- Add the new lines from `start` to `stop`. -/
def addLines (start stop : ℕ) (r : Rows) : Rows where
  line := r.line
  added := r.added + (stop - start)
  rows := r.rows ++ (range newLines start stop).map .add

def changeRows (r : Rows) (change : Change) : Rows :=
  addLines newLines change.start change.stop
    (removeTo oldLines change.past (keepTo oldLines change.first r))

/-- The hunk of the group `head :: more`. -/
def hunkOf (head : Change) (more : List Change) : Hunk Text :=
  let tail := (head :: more).getLast (List.cons_ne_nil _ _)
  let first := head.first - context
  let past := min oldLines.length (tail.past + context)
  let r := keepTo oldLines past ((head :: more).foldl (changeRows oldLines newLines) ⟨first, 0, []⟩)
  { oldLine := first + 1
    oldCount := past - first
    newLine := first + head.start - head.first + 1
    newCount := r.added
    rows := r.rows }

def hunksOf (changes : List Change) : List (Hunk Text) :=
  (groupsOf changes).filterMap fun
    | [] => none
    | head :: more => some (hunkOf oldLines newLines head more)

end Hunks

def rowText : Row Text → Text
  | .keep line => units [' '] ++ line
  | .remove line => units ['-'] ++ line
  | .add line => units ['+'] ++ line

def headerText (hunk : Hunk Text) : Text :=
  units ['@', '@', ' ', '-'] ++ numberText hunk.oldLine ++ units [','] ++ numberText hunk.oldCount ++
    units [' ', '+'] ++ numberText hunk.newLine ++ units [','] ++ numberText hunk.newCount ++
    units [' ', '@', '@']

def hunkText (hunk : Hunk Text) : Text :=
  headerText hunk ++ [newline] ++ [newline].intercalate (hunk.rows.map rowText) ++ [newline]

/-- The hunks of the replacement of each `oldString` between `parts` by `newString`. -/
def patchHunks (parts : List Text) (oldString newString : Text) : List (Hunk Text) :=
  let before := oldString.intercalate parts
  let after := newString.intercalate parts
  let oldLines := linesOf before
  let newLines := linesOf after
  let changes := (matchChanges before after oldString newString 0 0 parts.dropLast).foldl pushChange []
  hunksOf oldLines newLines (changes.map (trim oldLines newLines))

def patchOf (parts : List Text) (oldString newString : Text) : Text :=
  (patchHunks parts oldString newString).flatMap hunkText

structure Edited where
  /-- The text that the tool writes to the file. -/
  file : Text
  /-- The answer to the model. -/
  text : String
  patch : Text
  deriving DecidableEq

/-- Edit a file with the text `file`. -/
def edit (file oldString newString : Text) (replaceAll : Bool) : Except String Edited :=
  if oldString.length = 0 then .error "Set old_string to a nonempty string."
  else if oldString = newString then
    .error "Set new_string to a value that differs from old_string."
  else
    let parts := splitParts oldString file
    let count := parts.length - 1
    if count = 0 then
      .error "The file has no match for old_string. Read the file and copy the exact text."
    else if 1 < count ∧ replaceAll = false then
      .error ("old_string matches more than one place. Add context to old_string, " ++
        "or set replace_all to true.")
    else
      .ok {
        file := toWellFormed (newString.intercalate parts)
        text := if count = 1 then "The tool replaced 1 match."
          else "The tool replaced " ++ toString count ++ " matches."
        patch := patchOf parts oldString newString }

inductive LineStyle where
  | gutter
  | add
  | delete
  | context
  deriving DecidableEq

/-- One line of a patch, from the source offset `source` on. A `\ No newline` mark has no number. -/
structure PatchLine where
  source : ℕ
  text : Text
  style : LineStyle
  number : Option ℕ
  /-- The header of a later hunk. -/
  gap : Bool
  deriving DecidableEq

def digit (u : UInt16) : Bool := 0x30 ≤ u && u ≤ 0x39

def readNumber (text : Text) : Option (ℕ × Text) :=
  match text.takeWhile digit with
  | [] => none
  | digits =>
    some (digits.foldl (fun n u => 10 * n + (u.toNat - 0x30)) 0, text.dropWhile digit)

def readLiteral (literal text : Text) : Option Text :=
  if literal <+: text then some (text.drop literal.length) else none

def skipCount (text : Text) : Text :=
  match readLiteral (units [',']) text with
  | none => text
  | some rest =>
    match readNumber rest with
    | none => text
    | some (_, rest) => rest

def readHeader (text : Text) : Option (ℕ × ℕ) := do
  let rest ← readLiteral (units ['@', '@', ' ', '-']) text
  let (oldLine, rest) ← readNumber rest
  let rest ← readLiteral (units [' ', '+']) (skipCount rest)
  let (newLine, rest) ← readNumber rest
  let _ ← readLiteral (units [' ', '@', '@']) (skipCount rest)
  return (oldLine, newLine)

def styleOf (sign : Option UInt16) : LineStyle :=
  if sign = some 0x2b then .add else if sign = some 0x2d then .delete else .context

/-- The lines from the offset `source` on, after the header of a hunk when `oldLine` is there. -/
def patchLinesFrom : Option ℕ → ℕ → ℕ → List Text → List PatchLine
  | _, _, _, [] => []
  | oldLine, newLine, source, text :: rest =>
    match readHeader text with
    | some (old, new) =>
      (if oldLine.isSome then [⟨source, text, .gutter, none, true⟩] else []) ++
        patchLinesFrom (some old) new (source + text.length + 1) rest
    | none =>
      let sign := text.head?
      match oldLine with
      | some old =>
        if sign = some 0x5c then
          ⟨source, text, styleOf sign, none, false⟩ ::
            patchLinesFrom oldLine newLine (source + text.length + 1) rest
        else
          ⟨source, text, styleOf sign, some (if sign = some 0x2d then old else newLine), false⟩ ::
            patchLinesFrom (some (if sign = some 0x2b then old else old + 1))
              (if sign = some 0x2d then newLine else newLine + 1) (source + text.length + 1) rest
      | none =>
        ⟨source, text, styleOf sign, none, false⟩ ::
          patchLinesFrom none newLine (source + text.length + 1) rest

/-- The lines of `patch` that have a row. The first line of `patch` starts at the offset `start`. -/
def patchLines (patch : Text) (start : ℕ) : List PatchLine :=
  let whole := if patch.getLast? = some newline then patch.dropLast else patch
  patchLinesFrom none 0 start (whole.splitOn newline)

end Yuke.Js.Edit
