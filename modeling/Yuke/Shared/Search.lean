import Mathlib

/-!
# The first place of a list in a list

A search that finds nothing can forget the start of its list: no more than the length of the needle
less one can start a place that later entries complete.
-/

set_option autoImplicit false

namespace Yuke.Shared

variable {α : Type} [DecidableEq α]

/-- The first place of the list `needle` in a list. -/
def find (needle : List α) : List α → Option Nat
  | [] => none
  | x :: xs => if needle.isPrefixOf (x :: xs) then some 0 else (find needle xs).map (· + 1)

variable {needle xs ys : List α} {n : Nat}

theorem find_eq_some (h : find needle xs = some n) :
    needle.isPrefixOf (xs.drop n) ∧ n + needle.length ≤ xs.length := by
  induction xs generalizing n with
  | nil => cases h
  | cons x xs ih =>
    unfold find at h
    split at h
    · next hhead =>
      cases h
      have hle := (List.isPrefixOf_iff_prefix.mp hhead).length_le
      exact ⟨hhead, by omega⟩
    · obtain ⟨m, hm, rfl⟩ := Option.map_eq_some_iff.mp h
      obtain ⟨hhead, hle⟩ := ih hm
      exact ⟨hhead, by simp only [List.length_cons]; omega⟩

theorem isPrefixOf_append (h : needle.length ≤ xs.length) :
    needle.isPrefixOf (xs ++ ys) = needle.isPrefixOf xs := by
  rw [Bool.eq_iff_iff, List.isPrefixOf_iff_prefix, List.isPrefixOf_iff_prefix]
  constructor
  · intro hprefix
    exact List.prefix_of_prefix_length_le hprefix (List.prefix_append xs ys) h
  · exact List.prefix_append_of_prefix

theorem find_append (h : find needle xs = some n) (ys : List α) :
    find needle (xs ++ ys) = some n := by
  induction xs generalizing n with
  | nil => cases h
  | cons x xs ih =>
    have hle := (find_eq_some h).2
    unfold find at h
    rw [List.cons_append, find, ← List.cons_append, isPrefixOf_append (by omega)]
    split at h
    · next hhead =>
      cases h
      rw [if_pos hhead]
    · next hhead =>
      obtain ⟨m, hm, rfl⟩ := Option.map_eq_some_iff.mp h
      rw [if_neg hhead, ih hm]
      rfl

theorem find_resume (h : find needle xs = none) (ys : List α) :
    find needle (xs ++ ys) =
      (find needle (xs.drop (xs.length - min xs.length (needle.length - 1)) ++ ys)).map
        (· + (xs.length - min xs.length (needle.length - 1))) := by
  induction xs with
  | nil => simp
  | cons x xs ih =>
    by_cases hshort : (x :: xs).length ≤ needle.length - 1
    · have hzero : (x :: xs).length - min (x :: xs).length (needle.length - 1) = 0 := by omega
      rw [hzero]
      simp
    · have hlong : needle.length ≤ (x :: xs).length := by omega
      unfold find at h
      split at h
      · cases h
      · next hhead =>
        have hnone : find needle xs = none := by simpa using h
        have hcut : (x :: xs).length - min (x :: xs).length (needle.length - 1) =
            xs.length - min xs.length (needle.length - 1) + 1 := by
          simp only [List.length_cons] at hlong hshort ⊢
          omega
        rw [hcut, List.drop_succ_cons, List.cons_append, find, ← List.cons_append,
          isPrefixOf_append hlong, if_neg hhead, ih hnone, Option.map_map]
        rfl

end Yuke.Shared
