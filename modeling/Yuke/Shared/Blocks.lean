import Mathlib

/-!
# Blocks of rows

Blocks stand one after the other. The sums of their heights give the first row of each block, and a
binary search in the sums gives the block of a row.
-/

set_option autoImplicit false

namespace Yuke.Shared

def sums (heights : List Nat) : List Nat := heights.scanl (· + ·) 0

/-- The last index from `low` to `high` whose sum is at most `row`. Each turn makes the range
smaller, so the length of the range is enough fuel. -/
def lastAtMost (sums : List Nat) (row : Nat) : Nat → Nat → Nat → Nat
  | 0, low, _ => low
  | fuel + 1, low, high =>
    if low < high then
      let middle := (low + high + 1) / 2
      if sums.getD middle 0 ≤ row then lastAtMost sums row fuel middle high
      else lastAtMost sums row fuel low (middle - 1)
    else low

variable {heights : List Nat} {row i j : Nat}

theorem sums_get (h : i ≤ heights.length) : (sums heights)[i]? = some (heights.take i).sum := by
  unfold sums
  rw [List.getElem?_scanl, if_pos h]
  simp [List.sum_eq_foldl]

theorem sums_getD (h : i ≤ heights.length) : (sums heights).getD i 0 = (heights.take i).sum := by
  rw [List.getD_eq_getElem?_getD, sums_get h, Option.getD_some]

theorem sums_last : (sums heights).getLast? = some heights.sum := by
  rw [List.getLast?_eq_getElem?]
  have hlength : (sums heights).length = heights.length + 1 := by simp [sums]
  rw [hlength, Nat.add_sub_cancel, sums_get (Nat.le_refl _), List.take_length]

theorem take_sum_le (h : i ≤ j) : (heights.take i).sum ≤ (heights.take j).sum := by
  obtain ⟨k, rfl⟩ := Nat.exists_eq_add_of_le h
  rw [List.take_add, List.sum_append]
  omega

theorem take_succ_sum {n : Nat} (h : heights[i]? = some n) :
    (heights.take (i + 1)).sum = (heights.take i).sum + n := by
  rw [List.take_add_one, h]
  simp

/-- The search ends at the last index of the range with a sum of at most `row`. -/
theorem lastAtMost_spec {fuel low high : Nat} (hfuel : high - low ≤ fuel) (hle : low ≤ high)
    (hhigh : high ≤ heights.length) (hlow : (heights.take low).sum ≤ row) :
    low ≤ lastAtMost (sums heights) row fuel low high ∧
      lastAtMost (sums heights) row fuel low high ≤ high ∧
      (heights.take (lastAtMost (sums heights) row fuel low high)).sum ≤ row ∧
      ∀ i, lastAtMost (sums heights) row fuel low high < i → i ≤ high →
        row < (heights.take i).sum := by
  induction fuel generalizing low high with
  | zero =>
    unfold lastAtMost
    exact ⟨Nat.le_refl _, hle, hlow, fun i hi hi' => by omega⟩
  | succ fuel ih =>
    unfold lastAtMost
    simp only
    split
    · rename_i hlt
      rw [sums_getD (by omega)]
      split
      · rename_i hmiddle
        obtain ⟨h₁, h₂, h₃, h₄⟩ :=
          ih (show high - (low + high + 1) / 2 ≤ fuel by omega) (by omega) hhigh hmiddle
        exact ⟨by omega, h₂, h₃, h₄⟩
      · rename_i hmiddle
        obtain ⟨h₁, h₂, h₃, h₄⟩ :=
          ih (show (low + high + 1) / 2 - 1 - low ≤ fuel by omega) (by omega) (by omega) hlow
        refine ⟨h₁, by omega, h₃, fun i hi hi' => ?_⟩
        by_cases hbefore : i ≤ (low + high + 1) / 2 - 1
        · exact h₄ i hi hbefore
        · have hsum : (heights.take ((low + high + 1) / 2)).sum ≤ (heights.take i).sum :=
            take_sum_le (by omega)
          omega
    · exact ⟨Nat.le_refl _, hle, hlow, fun i hi hi' => by omega⟩

theorem findIdx_of_nodup {α κ : Type} [DecidableEq κ] {items : List α} {f : α → κ} {i : Nat} {a : α}
    (hnodup : (items.map f).Nodup) (ha : items[i]? = some a) :
    items.findIdx? (f · = f a) = some i := by
  obtain ⟨hi, rfl⟩ := List.getElem?_eq_some_iff.mp ha
  rw [List.findIdx?_eq_some_iff_getElem]
  refine ⟨hi, by simp, fun j hj => ?_⟩
  have hj' : j < (items.map f).length := by
    rw [List.length_map]
    omega
  have hi' : i < (items.map f).length := by
    rw [List.length_map]
    exact hi
  have hplaces : (⟨j, hj'⟩ : Fin (items.map f).length) ≠ ⟨i, hi'⟩ := by
    intro heq
    have := congrArg Fin.val heq
    simp only at this
    omega
  have hne := (List.nodup_iff_injective_getElem.mp hnodup).ne hplaces
  simpa using hne

variable {α : Type} {blocks : List (List α)}

theorem flatten_get {block : List α} (hblock : blocks[j]? = some block) (hi : i < block.length) :
    blocks.flatten[((blocks.map List.length).take j).sum + i]? = block[i]? := by
  induction blocks generalizing j with
  | nil => simp at hblock
  | cons first blocks ih =>
    cases j with
    | zero =>
      obtain rfl : first = block := by simpa using hblock
      simp [List.getElem?_append_left hi]
    | succ j =>
      rw [List.map_cons, List.take_succ_cons, List.sum_cons, List.flatten_cons,
        List.getElem?_append_right (by omega)]
      rw [show first.length + ((blocks.map List.length).take j).sum + i - first.length =
        ((blocks.map List.length).take j).sum + i by omega]
      exact ih (by simpa using hblock)

theorem flatten_drop {block : List α} (hblock : blocks[j]? = some block) (hi : i ≤ block.length) :
    blocks.flatten.drop (((blocks.map List.length).take j).sum + i) =
      block.drop i ++ (blocks.drop (j + 1)).flatten := by
  induction blocks generalizing j with
  | nil => simp at hblock
  | cons first blocks ih =>
    cases j with
    | zero =>
      obtain rfl : first = block := by simpa using hblock
      simp [List.drop_append_of_le_length hi]
    | succ j =>
      rw [List.map_cons, List.take_succ_cons, List.sum_cons, List.flatten_cons, Nat.add_assoc,
        List.drop_length_add_append, List.drop_succ_cons]
      exact ih (by simpa using hblock)

end Yuke.Shared
