import Mathlib

/-!
# Patches

A patch is a list of hunks. Each one has rows with kept, removed and added lines, and replaces its old
side by its new side at its line number in the old text.
-/

set_option autoImplicit false

namespace Yuke.Shared

inductive Row (α : Type) where
  | keep (line : α)
  | remove (line : α)
  | add (line : α)
  deriving DecidableEq

structure Hunk (α : Type) where
  oldLine : ℕ
  oldCount : ℕ
  newLine : ℕ
  newCount : ℕ
  rows : List (Row α)
  deriving DecidableEq

section Sides

variable {α : Type}

def oldLine? : Row α → Option α
  | .keep line => some line
  | .remove line => some line
  | .add _ => none

def newLine? : Row α → Option α
  | .keep line => some line
  | .remove _ => none
  | .add line => some line

def oldSide (rows : List (Row α)) : List α := rows.filterMap oldLine?

def newSide (rows : List (Row α)) : List α := rows.filterMap newLine?

theorem oldSide_append (rows more : List (Row α)) :
    oldSide (rows ++ more) = oldSide rows ++ oldSide more := List.filterMap_append

theorem newSide_append (rows more : List (Row α)) :
    newSide (rows ++ more) = newSide rows ++ newSide more := List.filterMap_append

theorem sides_keep (lines : List α) :
    oldSide (lines.map .keep) = lines ∧ newSide (lines.map .keep) = lines := by
  induction lines with
  | nil => exact ⟨rfl, rfl⟩
  | cons line lines ih =>
    obtain ⟨hold, hnew⟩ := ih
    exact ⟨congrArg (line :: ·) hold, congrArg (line :: ·) hnew⟩

theorem sides_remove (lines : List α) :
    oldSide (lines.map .remove) = lines ∧ newSide (lines.map .remove) = [] := by
  induction lines with
  | nil => exact ⟨rfl, rfl⟩
  | cons line lines ih =>
    obtain ⟨hold, hnew⟩ := ih
    exact ⟨congrArg (line :: ·) hold, hnew⟩

theorem sides_add (lines : List α) :
    oldSide (lines.map .add) = [] ∧ newSide (lines.map .add) = lines := by
  induction lines with
  | nil => exact ⟨rfl, rfl⟩
  | cons line lines ih =>
    obtain ⟨hold, hnew⟩ := ih
    exact ⟨hold, congrArg (line :: ·) hnew⟩

/-- Replace the old side of each hunk at its old line number by its new side. `done` lines are behind,
and `left` lines are ahead. -/
def patched [DecidableEq α] : ℕ → List α → List (Hunk α) → Option (List α)
  | _, left, [] => some left
  | done, left, hunk :: hunks =>
    let kept := hunk.oldLine - 1 - done
    let old := oldSide hunk.rows
    if done < hunk.oldLine ∧ kept ≤ left.length ∧ old <+: left.drop kept then
      (patched (done + kept + old.length) (left.drop (kept + old.length)) hunks).map
        (left.take kept ++ newSide hunk.rows ++ ·)
    else none

/-- Each row with its number: the one of its line in the new text, and of a removed line in the old
text, when `i` old and `j` new lines are behind. -/
def numberRows : ℕ → ℕ → List (Row α) → List (Row α × ℕ)
  | _, _, [] => []
  | i, j, .keep line :: rows => (.keep line, j + 1) :: numberRows (i + 1) (j + 1) rows
  | i, j, .remove line :: rows => (.remove line, i + 1) :: numberRows (i + 1) j rows
  | i, j, .add line :: rows => (.add line, j + 1) :: numberRows i (j + 1) rows

def numbered : ℕ → ℕ → List (Hunk α) → List (Row α × ℕ)
  | _, _, [] => []
  | i, j, hunk :: hunks =>
    let kept := hunk.oldLine - 1 - i
    numberRows (i + kept) (j + kept) hunk.rows ++
      numbered (i + kept + (oldSide hunk.rows).length) (j + kept + (newSide hunk.rows).length) hunks

/-- A row with the number `n` shows a line of its text. -/
def ShowsLine (old new : List α) : Row α × ℕ → Prop
  | (.keep line, n) => 0 < n ∧ new[n - 1]? = some line
  | (.remove line, n) => 0 < n ∧ old[n - 1]? = some line
  | (.add line, n) => 0 < n ∧ new[n - 1]? = some line

/-- `hunk` fits where `i` old and `j` new lines are behind: `kept` equal lines are before it, and its
sides are the lines of the texts. -/
structure HunkFits (old new : List α) (i j kept : ℕ) (hunk : Hunk α) : Prop where
  oldLine : hunk.oldLine = i + kept + 1
  newLine : hunk.newLine = j + kept + 1
  same : (old.drop i).take kept = (new.drop j).take kept
  oldLines : oldSide hunk.rows = (old.drop (i + kept)).take hunk.oldCount
  newLines : newSide hunk.rows = (new.drop (j + kept)).take hunk.newCount
  oldBound : i + kept + hunk.oldCount ≤ old.length
  newBound : j + kept + hunk.newCount ≤ new.length

/-- The hunks turn the lines of the old text into the new ones, when `i` old and `j` new lines are
behind. -/
def HunksFit (old new : List α) : ℕ → ℕ → List (Hunk α) → Prop
  | i, j, [] => old.drop i = new.drop j
  | i, j, hunk :: hunks => ∃ kept, HunkFits old new i j kept hunk ∧
      HunksFit old new (i + kept + hunk.oldCount) (j + kept + hunk.newCount) hunks

variable {old new : List α} {i j kept : ℕ} {hunk : Hunk α} {hunks : List (Hunk α)}

theorem HunkFits.oldLength (h : HunkFits old new i j kept hunk) :
    (oldSide hunk.rows).length = hunk.oldCount := by
  have := h.oldBound
  rw [h.oldLines, List.length_take, List.length_drop]
  omega

theorem HunkFits.newLength (h : HunkFits old new i j kept hunk) :
    (newSide hunk.rows).length = hunk.newCount := by
  have := h.newBound
  rw [h.newLines, List.length_take, List.length_drop]
  omega

theorem HunkFits.patched_cons [DecidableEq α] (h : HunkFits old new i j kept hunk) {rest : List α}
    (hrest : patched (i + kept + hunk.oldCount) (old.drop (i + kept + hunk.oldCount)) hunks =
      some rest) :
    patched i (old.drop i) (hunk :: hunks) =
      some ((new.drop j).take (kept + hunk.newCount) ++ rest) := by
  have hkept : hunk.oldLine - 1 - i = kept := by
    rw [h.oldLine]
    omega
  have hbound := h.oldBound
  have hside : oldSide hunk.rows <+: (old.drop i).drop kept := by
    rw [h.oldLines, List.drop_drop]
    exact List.take_prefix _ _
  rw [patched, hkept, if_pos ⟨by rw [h.oldLine]; omega, by rw [List.length_drop]; omega, hside⟩, h.oldLength,
    List.drop_drop, ← Nat.add_assoc i, hrest, Option.map_some, h.same, h.newLines, List.take_add,
    List.drop_drop]

theorem HunksFit.patched [DecidableEq α] (h : HunksFit old new i j hunks) :
    patched i (old.drop i) hunks = some (new.drop j) := by
  induction hunks generalizing i j with
  | nil => exact congrArg some h
  | cons hunk hunks ih =>
    obtain ⟨kept, hfits, hrest⟩ := h
    rw [hfits.patched_cons (ih hrest), Nat.add_assoc, ← List.drop_drop, List.take_append_drop]

theorem HunksFit.counts (h : HunksFit old new i j hunks) : ∀ hunk ∈ hunks,
    hunk.oldCount = (oldSide hunk.rows).length ∧ hunk.newCount = (newSide hunk.rows).length := by
  induction hunks generalizing i j with
  | nil => exact fun hunk hmem => absurd hmem List.not_mem_nil
  | cons hunk hunks ih =>
    obtain ⟨kept, hfits, hrest⟩ := h
    intro other hother
    rcases List.mem_cons.mp hother with rfl | hmore
    · exact ⟨hfits.oldLength.symm, hfits.newLength.symm⟩
    · exact ih hrest other hmore

theorem HunksFit.after (h : HunksFit old new i j hunks) : ∀ hunk ∈ hunks,
    i < hunk.oldLine ∧ j < hunk.newLine := by
  induction hunks generalizing i j with
  | nil => exact fun hunk hmem => absurd hmem List.not_mem_nil
  | cons hunk hunks ih =>
    obtain ⟨kept, hfits, hrest⟩ := h
    have hold := hfits.oldLine
    have hnew := hfits.newLine
    intro other hother
    rcases List.mem_cons.mp hother with rfl | hmore
    · omega
    · have := ih hrest other hmore
      omega

theorem HunksFit.ordered (h : HunksFit old new i j hunks) : hunks.Pairwise fun hunk next =>
    hunk.oldLine + hunk.oldCount ≤ next.oldLine ∧ hunk.newLine + hunk.newCount ≤ next.newLine := by
  induction hunks generalizing i j with
  | nil => exact .nil
  | cons hunk hunks ih =>
    obtain ⟨kept, hfits, hrest⟩ := h
    refine .cons ?_ (ih hrest)
    intro next hnext
    have hafter := hrest.after next hnext
    have hold := hfits.oldLine
    have hnew := hfits.newLine
    omega

theorem showsLine_numberRows {rows : List (Row α)} {m n : ℕ}
    (hold : oldSide rows = (old.drop i).take m) (hnew : newSide rows = (new.drop j).take n) :
    ∀ shown ∈ numberRows i j rows, ShowsLine old new shown := by
  have hline : ∀ {text lines : List α} {start count : ℕ} {line : α},
      line :: lines = (text.drop start).take count →
        text[start]? = some line ∧ lines = (text.drop (start + 1)).take (count - 1) := by
    intro text lines start count line heq
    cases count with
    | zero => cases heq
    | succ count =>
      rw [← List.drop_drop, Nat.add_sub_cancel]
      cases hdrop : text.drop start with
      | nil =>
        rw [hdrop, List.take_nil] at heq
        cases heq
      | cons first rest =>
        rw [hdrop, List.take_succ_cons] at heq
        cases heq
        rw [← List.head?_drop, hdrop]
        exact ⟨rfl, rfl⟩
  induction rows generalizing i j m n with
  | nil => exact fun shown hmem => absurd hmem List.not_mem_nil
  | cons row rows ih =>
    intro shown hshown
    cases row with
    | keep line =>
      obtain ⟨holdLine, holdRest⟩ := hline hold
      obtain ⟨hnewLine, hnewRest⟩ := hline hnew
      rcases List.mem_cons.mp hshown with rfl | hmore
      · exact ⟨Nat.succ_pos _, hnewLine⟩
      · exact ih holdRest hnewRest shown hmore
    | remove line =>
      obtain ⟨holdLine, holdRest⟩ := hline hold
      rcases List.mem_cons.mp hshown with rfl | hmore
      · exact ⟨Nat.succ_pos _, holdLine⟩
      · exact ih holdRest hnew shown hmore
    | add line =>
      obtain ⟨hnewLine, hnewRest⟩ := hline hnew
      rcases List.mem_cons.mp hshown with rfl | hmore
      · exact ⟨Nat.succ_pos _, hnewLine⟩
      · exact ih hold hnewRest shown hmore

theorem HunksFit.showsLine (h : HunksFit old new i j hunks) :
    ∀ shown ∈ numbered i j hunks, ShowsLine old new shown := by
  induction hunks generalizing i j with
  | nil => exact fun shown hmem => absurd hmem List.not_mem_nil
  | cons hunk hunks ih =>
    obtain ⟨kept, hfits, hrest⟩ := h
    have hkept : hunk.oldLine - 1 - i = kept := by
      rw [hfits.oldLine]
      omega
    intro shown hshown
    rw [numbered, hkept] at hshown
    rcases List.mem_append.mp hshown with hfirst | hmore
    · exact showsLine_numberRows hfits.oldLines hfits.newLines shown hfirst
    · rw [hfits.oldLength, hfits.newLength] at hmore
      exact ih hrest shown hmore

end Sides

end Yuke.Shared
