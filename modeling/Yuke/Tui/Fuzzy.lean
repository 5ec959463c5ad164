import Yuke.Shared.JsCase
import Yuke.Shared.Ranges
import Yuke.Tui.FuzzyAlign
import Yuke.Tui.Graphemes

/-!
# The fuzzy match

`fuzzyMatch` finds a query as a subsequence of a text, and gives the ranges of the best alignment.
The match ignores case, and each range covers whole graphemes of the text.
-/

set_option autoImplicit false

namespace Yuke.Tui

open Yuke.Shared

def matchSlash : ℚ := 9 / 10
def matchWord : ℚ := 8 / 10
def matchCapital : ℚ := 7 / 10
def matchDot : ℚ := 6 / 10

/-- A text with more points than this matches with the first points that fit, and gets the lowest
score. -/
def alignLimit : ℕ := 1024

structure LetterTables extends CaseTables where
  upper : ℕ → List UInt16
  /-- A letter or a number. -/
  word : ℕ → Bool

/-- A matched point of the text: its UTF-16 offset and length. -/
structure Span where
  start : ℕ
  length : ℕ
  deriving DecidableEq

structure FuzzyMatch where
  score : WithTop Score
  ranges : List OffsetRange

def separatorBonus (previous : ℕ) : ℚ :=
  if previous = 0x2f then matchSlash
  else if previous = 0x2d ∨ previous = 0x5f ∨ previous = 0x20 then matchWord
  else if previous = 0x2e then matchDot
  else 0

def digitCode (code : ℕ) : Bool := 0x30 ≤ code && code ≤ 0x39
def capitalCode (code : ℕ) : Bool := 0x41 ≤ code && code ≤ 0x5a
def smallCode (code : ℕ) : Bool := 0x61 ≤ code && code ≤ 0x7a

def fromCodePoint (code : ℕ) : List UInt16 :=
  if 0xffff < code then
    [.ofNat (0xd800 + (code - 0x10000) / 0x400), .ofNat (0xdc00 + (code - 0x10000) % 0x400)]
  else [.ofNat code]

/-- The bonus of a match at `code` after `previous`: a word after a separator, or a capital after a
lower letter. -/
def bonusOf (tables : LetterTables) (previous code : ℕ) : ℚ :=
  if previous < 0x80 ∧ code < 0x80 then
    if smallCode previous && capitalCode code then matchCapital
    else if digitCode code || capitalCode code || smallCode code then separatorBonus previous
    else 0
  else if fromCodePoint previous ≠ tables.upper previous ∧
      fromCodePoint code ≠ tables.lower code then matchCapital
  else if tables.word code then separatorBonus previous
  else 0

/-- The bonus of the code point at `i`, where the text starts after a slash. -/
def bonusAt (tables : LetterTables) (codes : List ℕ) (i : ℕ) : ℚ :=
  bonusOf tables (if i = 0 then 0x2f else codes.getD (i - 1) 0) (codes.getD i 0)

def isPrintable (text : Text) : Bool := text.all fun u => 0x20 ≤ u && u ≤ 0x7e

def graphemeRanges (g : Graphemes) (text : Text) : List OffsetRange :=
  rangesFrom 0 (g.lengths text)

/-- Go on to the grapheme that holds the offset `start`. -/
def advance (start : ℕ) : List OffsetRange → List OffsetRange
  | first :: second :: rest =>
    if second.start ≤ start then advance start (second :: rest) else first :: second :: rest
  | graphemes => graphemes

def piecesOf : List OffsetRange → List Span → List OffsetRange
  | _, [] => []
  | graphemes, span :: spans =>
    let left := advance span.start graphemes
    left.headD ⟨0, 0⟩ :: piecesOf left spans

/-- The UTF-16 ranges of `spans`, grown to whole graphemes and joined when they touch or overlap. -/
def rangesOf (g : Graphemes) (text : Text) (spans : List Span) : List OffsetRange :=
  joinRanges (if isPrintable text then
      spans.map fun span => ⟨span.start, span.start + span.length⟩
    else piecesOf (graphemeRanges g text) spans)

section Keys

variable {κ : Type} [DecidableEq κ]

/-- The first offset of `key` in `text`, from the offset `start` on. -/
def indexFrom (text : List κ) (key : κ) (start : ℕ) : Option ℕ :=
  ((text.drop start).findIdx? (· = key)).map (start + ·)

/-- The first points that fit the query, from the offset `start` on. -/
def greedyUnits (text : List κ) : ℕ → List κ → Option (List ℕ)
  | _, [] => some []
  | start, key :: query =>
    match indexFrom text key start with
    | none => none
    | some found => (greedyUnits text (found + 1) query).map (found :: ·)

/-- The first points that fit the wanted keys, as far as they come. `start` is the offset of the
text. -/
def greedyPoints : ℕ → List κ → List κ → List ℕ
  | _, [], _ => []
  | _, _, [] => []
  | start, key :: text, wanted :: query =>
    if key = wanted then start :: greedyPoints (start + 1) text query
    else greedyPoints (start + 1) text (wanted :: query)

end Keys

/-- The match with the keys of the text and the query, and the first points that fit. A hole in the
best alignment never comes. -/
def matchKeys {κ : Type} [DecidableEq κ] (g : Graphemes) (text : Text) (spanOf : ℕ → Option Span)
    (bonus : ℕ → ℚ) (textKeys queryKeys : List κ) (greedy : List ℕ) : FuzzyMatch :=
  if alignLimit < textKeys.length then
    { score := ((⊥ : Score) : WithTop Score), ranges := rangesOf g text (greedy.filterMap spanOf) }
  else if textKeys.length = queryKeys.length then
    { score := ⊤, ranges := rangesOf g text (greedy.filterMap spanOf) }
  else
    let (score, positions) := align bonus textKeys queryKeys
    { score := (score : WithTop Score)
      ranges := rangesOf g text (positions.reduceOption.filterMap spanOf) }

/-- The match over UTF-16 units, with the lower case texts. -/
def matchUnits (tables : LetterTables) (g : Graphemes) (lowerQuery text lowerText : Text) :
    Option FuzzyMatch :=
  (greedyUnits lowerText 0 lowerQuery).map
    (matchKeys g text (fun position => some ⟨position, 1⟩)
      (bonusAt tables (text.map UInt16.toNat)) lowerText lowerQuery)

structure FuzzyPoint where
  start : ℕ
  length : ℕ
  code : ℕ
  folded : Text

/-- The code points of a text, from the offset `start` on. -/
def pointsFrom (tables : LetterTables) (start : ℕ) : List ℕ → List FuzzyPoint
  | [] => []
  | code :: rest =>
    ⟨start, unitsOf code, code, tables.lower code⟩ :: pointsFrom tables (start + unitsOf code) rest

/-- The match over code points, for a text with surrogates or with a lower case of another length.
The folded texts stand for their numbers. -/
def matchPoints (tables : LetterTables) (g : Graphemes) (query text : Text) : Option FuzzyMatch :=
  let wanted := (codePoints query).map tables.lower
  let points := pointsFrom tables 0 (codePoints text)
  let textKeys := points.map FuzzyPoint.folded
  let greedy := greedyPoints 0 textKeys wanted
  if greedy.length < wanted.length then none
  else
    some (matchKeys g text
      (fun position => points[position]?.map fun point => ⟨point.start, point.length⟩)
      (bonusAt tables (points.map FuzzyPoint.code)) textKeys wanted greedy)

/-- Without surrogates and with a lower case of the same length, each UTF-16 unit is one point. -/
def byUnits (tables : LetterTables) (query text : Text) : Bool :=
  !query.any isSurrogate && !text.any isSurrogate &&
    (tables.toLowerCase query).length == query.length &&
    (tables.toLowerCase text).length == text.length

def fuzzyMatch (tables : LetterTables) (g : Graphemes) (query text : Text) : Option FuzzyMatch :=
  if query = [] then some ⟨((0 : ℚ) : Score), []⟩
  else if byUnits tables query text then
    matchUnits tables g (tables.toLowerCase query) text (tables.toLowerCase text)
  else matchPoints tables g query text

end Yuke.Tui
