import Yuke.Shared.Edges

/-!
# Texts and their graphemes

A text is a list of UTF-16 units. The native functions cut it into graphemes with their cell widths.
-/

set_option autoImplicit false

namespace Yuke.Tui

open Yuke.Shared

abbrev Text := List UInt16

/-- The units of `text` from `start` to `stop`. -/
def slice (text : Text) (start stop : Nat) : Text := (text.take stop).drop start

theorem slice_append_left {x y : Text} {i j : Nat} (h : j ≤ x.length) :
    slice (x ++ y) i j = slice x i j := by
  rw [slice, List.take_append_of_le_length h, slice]

theorem slice_append_right (x y : Text) (i j : Nat) :
    slice (x ++ y) (i + x.length) (j + x.length) = slice y i j := by
  rw [slice, slice, Nat.add_comm j, List.take_length_add_append, Nat.add_comm i,
    List.drop_length_add_append]

theorem slice_take {x : Text} {i j n : Nat} (h : j ≤ n) : slice (x.take n) i j = slice x i j := by
  rw [slice, List.take_take, Nat.min_eq_left h, slice]

theorem slice_drop (x : Text) (i j n : Nat) : slice (x.drop n) i j = slice x (i + n) (j + n) := by
  rw [slice, slice, List.take_drop, List.drop_drop, Nat.add_comm n j, Nat.add_comm n i]

structure Grapheme where
  length : Nat
  cells : Nat
  deriving DecidableEq

/-- The native `graphemes`: it takes a text apart into pieces that are not empty. -/
structure Graphemes where
  cut : Text → List Grapheme
  nonempty : ∀ text, ∀ grapheme ∈ cut text, 0 < grapheme.length
  whole : ∀ text, ((cut text).map Grapheme.length).sum = text.length

variable (g : Graphemes)

def Graphemes.lengths (text : Text) : List Nat := (g.cut text).map Grapheme.length

/-- The grapheme starts of `text` and its length. -/
def boundaries (text : Text) : List Nat := startsFrom 0 (g.lengths text) ++ [text.length]

def isBefore (offset : Nat) (inclusive : Bool) (start : Nat) : Bool :=
  if inclusive then start ≤ offset else start < offset

/-- The last grapheme boundary before `offset`, or at it when `inclusive`. -/
def previousBoundary (text : Text) (offset : Nat) (inclusive : Bool) : Nat :=
  (findLast (isBefore offset inclusive) (boundaries g text)).getD 0

/-- The first grapheme boundary at or after `offset`. -/
def nextBoundaryOf (text : Text) (offset : Nat) : Nat :=
  ((boundaries g text).find? (offset ≤ ·)).getD text.length

variable {g} {text : Text} {offset b : Nat} {inclusive : Bool}

theorem lengths_pos : ∀ n ∈ g.lengths text, 0 < n := by
  intro n hn
  obtain ⟨grapheme, hmem, rfl⟩ := List.mem_map.mp hn
  exact g.nonempty text grapheme hmem

theorem boundaries_increasing : (boundaries g text).Pairwise (· < ·) := by
  refine List.pairwise_append.mpr ⟨startsFrom_increasing lengths_pos, List.pairwise_singleton _ _, ?_⟩
  intro a ha b hb
  obtain rfl := List.mem_singleton.mp hb
  have hrange := startsFrom_range lengths_pos a ha
  have hwhole : (g.lengths text).sum = text.length := g.whole text
  omega

theorem length_mem_boundaries : text.length ∈ boundaries g text := by simp [boundaries]

theorem boundary_le (h : b ∈ boundaries g text) : b ≤ text.length := by
  rcases List.mem_append.mp h with h | h
  · have hrange := startsFrom_range lengths_pos b h
    have hwhole : (g.lengths text).sum = text.length := g.whole text
    omega
  · simp_all

theorem zero_mem_boundaries : 0 ∈ boundaries g text := by
  have hwhole : (g.lengths text).sum = text.length := g.whole text
  cases h : g.lengths text with
  | nil =>
    rw [h, List.sum_nil] at hwhole
    simp [boundaries, ← hwhole]
  | cons length lengths => simp [boundaries, h, startsFrom]

theorem previousBoundary_mem : previousBoundary g text offset inclusive ∈ boundaries g text := by
  unfold previousBoundary
  cases h : findLast (isBefore offset inclusive) (boundaries g text) with
  | none => exact zero_mem_boundaries
  | some e => exact (findLast_mem h).1

theorem previousBoundary_le : previousBoundary g text offset inclusive ≤ offset := by
  unfold previousBoundary
  cases h : findLast (isBefore offset inclusive) (boundaries g text) with
  | none => exact Nat.zero_le _
  | some e =>
    have hbefore := (findLast_mem h).2
    unfold isBefore at hbefore
    cases inclusive <;> simp at hbefore <;> simp only [Option.getD_some] <;> omega

theorem le_previousBoundary (hb : b ∈ boundaries g text) (hbefore : isBefore offset inclusive b) :
    b ≤ previousBoundary g text offset inclusive := by
  obtain ⟨e, he⟩ := findLast_some hb hbefore
  have hle := findLast_greatest boundaries_increasing he hb hbefore
  simpa [previousBoundary, he] using hle

theorem nextBoundaryOf_mem : nextBoundaryOf g text offset ∈ boundaries g text := by
  unfold nextBoundaryOf
  cases h : (boundaries g text).find? (offset ≤ ·) with
  | none => exact length_mem_boundaries
  | some e => exact List.mem_of_find?_eq_some h

theorem le_nextBoundaryOf (hle : offset ≤ text.length) : offset ≤ nextBoundaryOf g text offset := by
  unfold nextBoundaryOf
  cases h : (boundaries g text).find? (offset ≤ ·) with
  | none => exact hle
  | some e => simpa using List.find?_some h

theorem nextBoundaryOf_le (hb : b ∈ boundaries g text) (hle : offset ≤ b) :
    nextBoundaryOf g text offset ≤ b := by
  unfold nextBoundaryOf
  cases h : (boundaries g text).find? (offset ≤ ·) with
  | none => exact absurd hle (by simpa using List.find?_eq_none.mp h b hb)
  | some e => exact find_least boundaries_increasing h hb hle

theorem nextBoundaryOf_self (hb : b ∈ boundaries g text) : nextBoundaryOf g text b = b :=
  Nat.le_antisymm (nextBoundaryOf_le hb (Nat.le_refl b)) (le_nextBoundaryOf (boundary_le hb))

theorem previousBoundary_self (hb : b ∈ boundaries g text) :
    previousBoundary g text b true = b :=
  Nat.le_antisymm previousBoundary_le (le_previousBoundary hb (by simp [isBefore]))

end Yuke.Tui
