import Mathlib

/-!
# Ranges of offsets

Ranges that come in the order of their starts join where they touch or overlap. The joined ranges are
in order, apart, and cover the same offsets.
-/

set_option autoImplicit false

namespace Yuke.Shared

structure OffsetRange where
  start : ℕ
  stop : ℕ
  deriving DecidableEq

namespace OffsetRange

def Covers (range : OffsetRange) (k : ℕ) : Prop := range.start ≤ k ∧ k < range.stop

end OffsetRange

/-- Some range covers `k`. -/
def Covered (ranges : List OffsetRange) (k : ℕ) : Prop := ∃ range ∈ ranges, range.Covers k

/-! ## Joined ranges -/

def addRange (ranges : List OffsetRange) (piece : OffsetRange) : List OffsetRange :=
  match ranges.getLast? with
  | none => ranges ++ [piece]
  | some last =>
    if piece.start ≤ last.stop then
      ranges.dropLast ++ [⟨last.start, max last.stop piece.stop⟩]
    else ranges ++ [piece]

def joinRanges (pieces : List OffsetRange) : List OffsetRange := pieces.foldl addRange []

/-- `ranges` are the joined ranges of `pieces`. -/
structure Joined (pieces ranges : List OffsetRange) : Prop where
  apart : ranges.Pairwise (·.stop < ·.start)
  proper : ∀ range ∈ ranges, range.start < range.stop
  starts : ∀ range ∈ ranges, ∃ piece ∈ pieces, piece.start = range.start
  covered : ∀ k, Covered ranges k ↔ Covered pieces k

theorem joined_nil : Joined [] [] where
  apart := .nil
  proper := nofun
  starts := nofun
  covered := fun _ => Iff.rfl

theorem covered_concat {ranges : List OffsetRange} {range : OffsetRange} {k : ℕ} :
    Covered (ranges ++ [range]) k ↔ Covered ranges k ∨ range.Covers k := by
  unfold Covered
  constructor
  · rintro ⟨other, hother, hk⟩
    rcases List.mem_append.mp hother with hbefore | hlast
    · exact .inl ⟨other, hbefore, hk⟩
    · rw [List.mem_singleton.mp hlast] at hk
      exact .inr hk
  · rintro (⟨other, hother, hk⟩ | hk)
    · exact ⟨other, List.mem_append_left _ hother, hk⟩
    · exact ⟨range, List.mem_append_right _ List.mem_cons_self, hk⟩

theorem Joined.add {pieces ranges : List OffsetRange} {piece : OffsetRange}
    (h : Joined pieces ranges) (hproper : piece.start < piece.stop)
    (hstart : ∀ other ∈ pieces, other.start ≤ piece.start) :
    Joined (pieces ++ [piece]) (addRange ranges piece) := by
  have holder : ∀ range ∈ ranges, ∃ other ∈ pieces ++ [piece], other.start = range.start := by
    intro range hrange
    obtain ⟨other, hother, heq⟩ := h.starts range hrange
    exact ⟨other, List.mem_append_left _ hother, heq⟩
  have hafter : ∀ range ∈ ranges, range.start ≤ piece.start := by
    intro range hrange
    obtain ⟨other, hother, heq⟩ := h.starts range hrange
    rw [← heq]
    exact hstart other hother
  rcases List.eq_nil_or_concat ranges with rfl | ⟨first, last, rfl⟩
  · constructor
    · exact List.pairwise_singleton _ _
    · intro range hrange
      rwa [List.mem_singleton.mp hrange]
    · intro range hrange
      rw [List.mem_singleton.mp hrange]
      exact ⟨piece, List.mem_append_right _ List.mem_cons_self, rfl⟩
    · intro k
      rw [covered_concat, ← h.covered k]
      exact covered_concat
  · rw [List.concat_eq_append] at h holder hafter ⊢
    have hlast : last ∈ first ++ [last] := List.mem_append_right _ List.mem_cons_self
    have hlastProper := h.proper last hlast
    have hlastAfter := hafter last hlast
    obtain ⟨hfirst, _, hbefore⟩ := List.pairwise_append.mp h.apart
    unfold addRange
    rw [List.getLast?_concat]
    dsimp only
    split
    · next htouch =>
      rw [List.dropLast_concat]
      constructor
      · refine List.pairwise_append.mpr ⟨hfirst, List.pairwise_singleton _ _, ?_⟩
        intro range hrange other hother
        rw [List.mem_singleton.mp hother]
        exact hbefore range hrange last List.mem_cons_self
      · intro range hrange
        rcases List.mem_append.mp hrange with hold | hnew
        · exact h.proper range (List.mem_append_left _ hold)
        · rw [List.mem_singleton.mp hnew]
          dsimp only
          omega
      · intro range hrange
        rcases List.mem_append.mp hrange with hold | hnew
        · exact holder range (List.mem_append_left _ hold)
        · rw [List.mem_singleton.mp hnew]
          exact holder last hlast
      · intro k
        rw [covered_concat, covered_concat, ← h.covered k, covered_concat, or_assoc]
        refine or_congr_right ?_
        unfold OffsetRange.Covers
        dsimp only
        omega
    · next hgap =>
      constructor
      · refine List.pairwise_append.mpr ⟨h.apart, List.pairwise_singleton _ _, ?_⟩
        intro range hrange other hother
        rw [List.mem_singleton.mp hother]
        rcases List.mem_append.mp hrange with hold | hnew
        · have := hbefore range hold last List.mem_cons_self
          omega
        · rw [List.mem_singleton.mp hnew]
          omega
      · intro range hrange
        rcases List.mem_append.mp hrange with hold | hnew
        · exact h.proper range hold
        · rwa [List.mem_singleton.mp hnew]
      · intro range hrange
        rcases List.mem_append.mp hrange with hold | hnew
        · exact holder range hold
        · rw [List.mem_singleton.mp hnew]
          exact ⟨piece, List.mem_append_right _ List.mem_cons_self, rfl⟩
      · intro k
        rw [covered_concat, h.covered k]
        exact covered_concat.symm

theorem joined_joinRanges {pieces : List OffsetRange} (hproper : ∀ piece ∈ pieces,
    piece.start < piece.stop) (hstart : pieces.Pairwise (·.start ≤ ·.start)) :
    Joined pieces (joinRanges pieces) := by
  induction pieces using List.reverseRecOn with
  | nil => exact joined_nil
  | append_singleton pieces piece ih =>
    obtain ⟨hpieces, _, hlast⟩ := List.pairwise_append.mp hstart
    have hjoined := ih (fun other hother => hproper other (List.mem_append_left _ hother)) hpieces
    rw [joinRanges, List.foldl_append]
    exact hjoined.add (hproper piece (List.mem_append_right _ List.mem_cons_self))
      fun other hother => hlast other hother piece List.mem_cons_self

/-- The ranges of consecutive lengths from `offset` on. -/
def rangesFrom (offset : ℕ) : List ℕ → List OffsetRange
  | [] => []
  | length :: lengths => ⟨offset, offset + length⟩ :: rangesFrom (offset + length) lengths

theorem start_of_mem_rangesFrom {offset : ℕ} {lengths : List ℕ} {range : OffsetRange}
    (h : range ∈ rangesFrom offset lengths) : offset ≤ range.start := by
  induction lengths generalizing offset with
  | nil => cases h
  | cons length lengths ih =>
    rcases List.mem_cons.mp h with rfl | hrest
    · exact le_rfl
    · exact (Nat.le_add_right ..).trans (ih hrest)

theorem eq_of_covers {offset : ℕ} {lengths : List ℕ} {range other : OffsetRange} {k : ℕ}
    (hrange : range ∈ rangesFrom offset lengths) (hother : other ∈ rangesFrom offset lengths)
    (hk : range.Covers k) (hk' : other.Covers k) : range = other := by
  obtain ⟨hstart, hstop⟩ := hk
  obtain ⟨hstart', hstop'⟩ := hk'
  induction lengths generalizing offset with
  | nil => cases hrange
  | cons length lengths ih =>
    rcases List.mem_cons.mp hrange with rfl | hrange
    · rcases List.mem_cons.mp hother with rfl | hother
      · rfl
      · have := start_of_mem_rangesFrom hother
        dsimp only at hstop
        omega
    · rcases List.mem_cons.mp hother with rfl | hother
      · have := start_of_mem_rangesFrom hrange
        dsimp only at hstop'
        omega
      · exact ih hrange hother

end Yuke.Shared
