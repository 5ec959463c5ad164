import Mathlib

/-!
# The edges of consecutive pieces

The edges are an increasing list of offsets. The nearest edge on each side of an offset is found by
a search from the start or from the end.
-/

set_option autoImplicit false

namespace Yuke.Shared

/-- The last element that meets `p`. -/
def findLast {α : Type} (p : α → Bool) (items : List α) : Option α := items.reverse.find? p

/-- The start of each piece, when the first piece starts at `offset`. -/
def startsFrom (offset : Nat) : List Nat → List Nat
  | [] => []
  | length :: lengths => offset :: startsFrom (offset + length) lengths

theorem startsFrom_range {offset : Nat} {lengths : List Nat} (hpos : ∀ n ∈ lengths, 0 < n) :
    ∀ e ∈ startsFrom offset lengths, offset ≤ e ∧ e < offset + lengths.sum := by
  induction lengths generalizing offset with
  | nil => simp [startsFrom]
  | cons length lengths ih =>
    intro e he
    have hlength := hpos length (by simp)
    rw [startsFrom, List.mem_cons] at he
    rw [List.sum_cons]
    cases he with
    | inl he => omega
    | inr he =>
      have hrange := ih (fun n hn => hpos n (by simp [hn])) e he
      omega

theorem startsFrom_increasing {offset : Nat} {lengths : List Nat} (hpos : ∀ n ∈ lengths, 0 < n) :
    (startsFrom offset lengths).Pairwise (· < ·) := by
  induction lengths generalizing offset with
  | nil => exact .nil
  | cons length lengths ih =>
    have hrest : ∀ n ∈ lengths, 0 < n := fun n hn => hpos n (by simp [hn])
    refine .cons ?_ (ih hrest)
    intro e he
    have hlength := hpos length (by simp)
    have hrange := startsFrom_range hrest e he
    omega

section Search
variable {edges : List Nat} (hsorted : edges.Pairwise (· < ·))
include hsorted

/-- The first edge from `offset` on is the least one. -/
theorem find_least {offset e b : Nat} (he : edges.find? (offset ≤ ·) = some e) (hb : b ∈ edges)
    (hle : offset ≤ b) : e ≤ b := by
  obtain ⟨_, left, right, rfl, hleft⟩ := List.find?_eq_some_iff_append.mp he
  rw [List.pairwise_append, List.pairwise_cons] at hsorted
  obtain ⟨_, ⟨hright, _⟩, _⟩ := hsorted
  rcases List.mem_append.mp hb with hb | hb
  · have := hleft b hb
    simp only [Bool.not_eq_true', decide_eq_false_iff_not] at this
    omega
  · rcases List.mem_cons.mp hb with rfl | hb
    · exact Nat.le_refl b
    · exact Nat.le_of_lt (hright b hb)

/-- The last edge that meets `p` is the greatest one. -/
theorem findLast_greatest {p : Nat → Bool} {e b : Nat} (he : findLast p edges = some e)
    (hb : b ∈ edges) (hp : p b) : b ≤ e := by
  obtain ⟨_, left, right, hsplit, hleft⟩ := List.find?_eq_some_iff_append.mp he
  have hrev : edges.reverse.Pairwise (· > ·) := List.pairwise_reverse.mpr hsorted
  rw [hsplit, List.pairwise_append, List.pairwise_cons] at hrev
  obtain ⟨_, ⟨hright, _⟩, _⟩ := hrev
  have hmem : b ∈ left ++ e :: right := hsplit ▸ List.mem_reverse.mpr hb
  rcases List.mem_append.mp hmem with hb | hb
  · have := hleft b hb
    simp [hp] at this
  · rcases List.mem_cons.mp hb with rfl | hb
    · exact Nat.le_refl b
    · exact Nat.le_of_lt (hright b hb)

theorem getElem_lt_iff {i j : Nat} (hi : i < edges.length) (hj : j < edges.length) :
    edges[i] < edges[j] ↔ i < j := by
  have hstep := List.pairwise_iff_getElem.mp hsorted
  constructor
  · intro h
    by_contra hij
    rcases Nat.lt_or_eq_of_le (Nat.le_of_not_lt hij) with hij | hij
    · have := hstep j i hj hi hij
      omega
    · subst hij
      omega
  · exact hstep i j hi hj

theorem no_edge_between {i e : Nat} (hi : i + 1 < edges.length) (he : e ∈ edges)
    (hlow : edges[i] < e) : edges[i + 1] ≤ e := by
  obtain ⟨j, hj, rfl⟩ := List.getElem_of_mem he
  have hij := (getElem_lt_iff hsorted (by omega) hj).mp hlow
  rcases Nat.lt_or_eq_of_le (Nat.succ_le_of_lt hij) with h | h
  · exact Nat.le_of_lt ((getElem_lt_iff hsorted hi hj).mpr h)
  · simp only [Nat.succ_eq_add_one] at h
    subst h
    exact Nat.le_refl _

end Search

theorem findLast_mem {α : Type} {p : α → Bool} {items : List α} {a : α}
    (h : findLast p items = some a) : a ∈ items ∧ p a :=
  ⟨List.mem_reverse.mp (List.mem_of_find?_eq_some h), List.find?_some h⟩

theorem findLast_some {α : Type} {p : α → Bool} {items : List α} {a : α} (ha : a ∈ items)
    (hp : p a) : ∃ b, findLast p items = some b := by
  rw [← Option.isSome_iff_exists, findLast, List.find?_isSome]
  exact ⟨a, List.mem_reverse.mpr ha, hp⟩

end Yuke.Shared
