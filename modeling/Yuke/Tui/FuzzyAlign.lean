import Yuke.Shared.Largest

/-!
# The alignment of a fuzzy match

Two tables give the best score of each start of the query at each point of the text: one for a match
at the point, one for a match at or before it. A walk back over the tables gives the points of the
query letters. The scores are exact here.
-/

set_option autoImplicit false

namespace Yuke.Tui

open Yuke.Shared (Best)

abbrev Score : Type := WithBot ℚ

def gapLeading : ℚ := -5 / 1000
def gapTrailing : ℚ := -5 / 1000
def gapInner : ℚ := -10 / 1000
def matchConsecutive : ℚ := 1

/-- The best score that ends with the letter at the point, and the best score up to the point. -/
structure Cell where
  ending : Score
  best : Score

def endingAt (row : List Cell) (i : ℕ) : Score := (row[i]?.map Cell.ending).getD ⊥

def bestAt (row : List Cell) (i : ℕ) : Score := (row[i]?.map Cell.best).getD ⊥

section Tables

variable {κ : Type} [DecidableEq κ] (bonusAt : ℕ → ℚ)

/-- The score of a match at point `i`, with the row of the letter before. -/
def matchScore (previous : Option (List Cell)) (i : ℕ) : Score :=
  match previous with
  | none => ((i * gapLeading + bonusAt i : ℚ) : Score)
  | some previous =>
    if 0 < i then
      max (bestAt previous (i - 1) + (bonusAt i : ℚ))
        (endingAt previous (i - 1) + (matchConsecutive : ℚ))
    else ⊥

/-- The cells of one letter from point `i` on. -/
def fillRow (previous : Option (List Cell)) (gap : ℚ) (key : κ) :
    List κ → ℕ → Score → List Cell
  | [], _, _ => []
  | textKey :: text, i, running =>
    let score := if textKey = key then matchScore bonusAt previous i else ⊥
    let running := if textKey = key then max score (running + gap) else running + gap
    ⟨score, running⟩ :: fillRow previous gap key text (i + 1) running

/-- The rows of the letters of the query, after the row `previous`. -/
def fillRows (text : List κ) : Option (List Cell) → List κ → List (List Cell)
  | _, [] => []
  | previous, key :: query =>
    let gap := if query = [] then gapTrailing else gapInner
    let row := fillRow bonusAt previous gap key text 0 ⊥
    row :: fillRows text (some row) query

/-- The last of the first `count` points where the letter ends its best score. After a consecutive
match, the last of them where it matches. -/
def findEnd (row : List Cell) (consecutive : Bool) : ℕ → Option ℕ
  | 0 => none
  | i + 1 =>
    if endingAt row i ≠ ⊥ ∧ (consecutive ∨ endingAt row i = bestAt row i) then some i
    else findEnd row consecutive i

/-- The match at `i` continues a match at the point before it. -/
def continues (row : List Cell) (rows : List (List Cell)) (i : ℕ) : Bool :=
  match rows with
  | [] => false
  | previous :: _ =>
    0 < i ∧ endingAt row i = endingAt previous (i - 1) + (matchConsecutive : ℚ)

/-- Walk back over the rows, last row first, from the first `count` points. A letter without a point
leaves a hole. -/
def walkBack : List (List Cell) → ℕ → Bool → List (Option ℕ) → List (Option ℕ)
  | [], _, _, positions => positions
  | row :: rows, count, consecutive, positions =>
    match findEnd row consecutive count with
    | none => walkBack rows 0 consecutive (none :: positions)
    | some i => walkBack rows i (continues row rows i) (some i :: positions)

def align (text query : List κ) : Score × List (Option ℕ) :=
  let rows := (fillRows bonusAt text none query).reverse
  (bestAt (rows.headD []) (text.length - 1), walkBack rows text.length false [])

structure Aligned (text query : List κ) (positions : List ℕ) : Prop where
  increasing : positions.Pairwise (· < ·)
  matching : List.Forall₂ (fun position key => text[position]? = some key) positions query

/-- A letter after a letter: the next point gets the better of the two bonuses, and each point
between them costs a gap. -/
def stepScore (previous position : ℕ) : ℚ :=
  if position = previous + 1 then max (bonusAt position) matchConsecutive
  else ((position - 1 - previous : ℕ) : ℚ) * gapInner + bonusAt position

def stepsScore : List ℕ → ℚ
  | previous :: position :: positions =>
    stepScore bonusAt previous position + stepsScore (position :: positions)
  | _ => 0

def lettersScore (positions : List ℕ) : ℚ :=
  (positions.headD 0 : ℚ) * gapLeading + bonusAt (positions.headD 0) + stepsScore bonusAt positions

/-- The score of an alignment over a text of `n` points. -/
def alignmentScore (n : ℕ) (positions : List ℕ) : ℚ :=
  lettersScore bonusAt positions + ((n - 1 - positions.getLastD 0 : ℕ) : ℚ) * gapTrailing

end Tables

section Scores

variable {κ : Type} {bonusAt : ℕ → ℚ}

theorem stepsScore_concat (positions : List ℕ) (previous position : ℕ) :
    stepsScore bonusAt (positions ++ [previous] ++ [position]) =
      stepsScore bonusAt (positions ++ [previous]) + stepScore bonusAt previous position := by
  induction positions with
  | nil => simp [stepsScore]
  | cons first positions ih =>
    cases positions with
    | nil =>
      simp [stepsScore]
    | cons second positions =>
      simp only [List.cons_append, stepsScore] at ih ⊢
      rw [ih, add_assoc]

theorem lettersScore_concat (positions : List ℕ) (previous position : ℕ) :
    lettersScore bonusAt (positions ++ [previous] ++ [position]) =
      lettersScore bonusAt (positions ++ [previous]) + stepScore bonusAt previous position := by
  have hhead : (positions ++ [previous] ++ [position]).headD 0 =
      (positions ++ [previous]).headD 0 := by
    cases positions <;> rfl
  rw [lettersScore, lettersScore, hhead, stepsScore_concat, ← add_assoc]

theorem lettersScore_single (position : ℕ) :
    lettersScore bonusAt [position] = position * gapLeading + bonusAt position := by
  simp [lettersScore, stepsScore]

theorem aligned_single {text : List κ} {key : κ} {position : ℕ} :
    Aligned text [key] [position] ↔ text[position]? = some key := by
  constructor
  · rintro ⟨_, hmatching⟩
    cases hmatching with
    | cons hkey _ => exact hkey
  · intro hkey
    exact ⟨List.pairwise_singleton _ _, .cons hkey .nil⟩

theorem aligned_concat {text query : List κ} {key : κ} {positions : List ℕ} {position : ℕ} :
    Aligned text (query ++ [key]) (positions ++ [position]) ↔
      Aligned text query positions ∧ (∀ p ∈ positions, p < position) ∧
        text[position]? = some key := by
  have hforall : List.Forall₂ (fun position key => text[position]? = some key)
      (positions ++ [position]) (query ++ [key]) ↔
      List.Forall₂ (fun position key => text[position]? = some key) positions query ∧
        text[position]? = some key := by
    rw [← List.forall₂_reverse_iff, List.reverse_concat, List.reverse_concat, List.forall₂_cons,
      List.forall₂_reverse_iff, and_comm]
  constructor
  · rintro ⟨hincreasing, hmatching⟩
    obtain ⟨hinit, _, hlt⟩ := List.pairwise_append.mp hincreasing
    obtain ⟨hmatch, hkey⟩ := hforall.mp hmatching
    exact ⟨⟨hinit, hmatch⟩, fun p hp => hlt p hp position (List.mem_singleton_self _), hkey⟩
  · rintro ⟨⟨hincreasing, hmatching⟩, hlt, hkey⟩
    refine ⟨List.pairwise_append.mpr ⟨hincreasing, List.pairwise_singleton _ _, ?_⟩,
      hforall.mpr ⟨hmatching, hkey⟩⟩
    intro p hp q hq
    rw [List.mem_singleton.mp hq]
    exact hlt p hp

end Scores

end Yuke.Tui
