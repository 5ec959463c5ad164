import Yuke.Js.Edit

/-!
# The lines around a match

Two texts that share a part have the same lines inside it. A text after the last match keeps the lines
after the one where it starts.
-/

set_option autoImplicit false

namespace Yuke.Js.Edit

open Yuke.Shared

variable {text before after part rest rest' : Text}

theorem lineAt_eq (before after : Text) :
    lineAt (before ++ after) before.length = before.count newline := by
  rw [lineAt, List.take_left, length_splitOn, Nat.add_sub_cancel]

theorem getLast?_of_emptyLine (htext : text ≠ [])
    (h : (text.splitOn newline).getLast? = some []) : text.getLast? = some newline := by
  induction text with
  | nil => exact absurd rfl htext
  | cons u rest ih =>
    obtain ⟨line, lines, hlines⟩ := List.exists_cons_of_ne_nil (List.splitOn_ne_nil newline rest)
    by_cases hrest : rest = []
    · rw [hrest, List.getLast?_singleton]
      by_cases hbreak : u = newline
      · rw [hbreak]
      · rw [hrest, splitOn_cons_other hbreak, List.splitOn_nil] at h
        cases h
    · have hlast : (rest.splitOn newline).getLast? = some [] := by
        by_cases hbreak : u = newline
        · rwa [hbreak, splitOn_cons_self, hlines, List.getLast?_cons_cons, ← hlines] at h
        · rw [splitOn_cons_other hbreak, hlines, List.modifyHead_cons] at h
          cases lines with
          | nil => cases h
          | cons next lines =>
            rw [List.getLast?_cons_cons] at h
            rw [hlines, List.getLast?_cons_cons, h]
      rw [List.getLast?_cons, ih hrest hlast]
      rfl

theorem linesOf_cases (text : Text) :
    linesOf text = text.splitOn newline ∧ (text.splitOn newline).getLast? ≠ some [] ∨
      linesOf text = (text.splitOn newline).dropLast ∧
        (text.splitOn newline).getLast? = some [] := by
  unfold linesOf
  split
  · next hnil =>
    rw [hnil]
    exact .inr ⟨rfl, rfl⟩
  · dsimp only
    split
    · next hlast => exact .inr ⟨rfl, hlast⟩
    · next hlast => exact .inl ⟨rfl, hlast⟩

theorem linesOf_take (text : Text) :
    linesOf text = (text.splitOn newline).take (linesOf text).length := by
  rcases linesOf_cases text with ⟨h, _⟩ | ⟨h, _⟩
  · rw [h, List.take_length]
  · rw [h, List.length_dropLast, List.dropLast_eq_take]

theorem count_le_length_linesOf (before after : Text) :
    before.count newline ≤ (linesOf (before ++ after)).length := by
  have hlength : ((before ++ after).splitOn newline).length = _ := length_splitOn _
  have hcount : (before ++ after).count newline = _ := List.count_append
  rcases linesOf_cases (before ++ after) with ⟨h, _⟩ | ⟨h, _⟩
  · rw [h]
    omega
  · rw [h, List.length_dropLast]
    omega

theorem count_lt_length_linesOf (before : Text) (hafter : after ≠ []) :
    before.count newline < (linesOf (before ++ after)).length := by
  have hlength : ((before ++ after).splitOn newline).length = _ := length_splitOn _
  have hcount : (before ++ after).count newline = _ := List.count_append
  rcases linesOf_cases (before ++ after) with ⟨h, _⟩ | ⟨h, hlast⟩
  · rw [h]
    omega
  · -- The last line break is after the cut.
    have hbreak : newline ∈ after := by
      have hlast := getLast?_of_emptyLine (List.append_ne_nil_of_right_ne_nil before hafter) hlast
      rw [List.getLast?_append_of_ne_nil _ hafter] at hlast
      exact List.mem_of_getLast? hlast
    have hpos := List.count_pos_iff.mpr hbreak
    rw [h, List.length_dropLast]
    omega

theorem getElem?_linesOf {k : ℕ} (hk : k < (linesOf text).length) :
    (linesOf text)[k]? = (text.splitOn newline)[k]? := by
  conv_lhs => rw [linesOf_take text]
  rw [List.getElem?_take, if_pos hk]

theorem same_lines_first {k : ℕ} (hk : k < part.count newline) :
    (linesOf (part ++ rest))[k]? = (linesOf (part ++ rest'))[k]? := by
  have hline : ∀ rest : Text,
      (linesOf (part ++ rest))[k]? = ((part.splitOn newline).take (part.count newline))[k]? := by
    intro rest
    have hle := count_le_length_linesOf part rest
    rw [getElem?_linesOf (by omega), ← take_splitOn part rest, List.getElem?_take, if_pos hk]
  rw [hline rest, hline rest']

theorem same_lines_between {k : ℕ} (hk : k + 1 < part.count newline) :
    (linesOf (before ++ (part ++ rest)))[before.count newline + 1 + k]? =
      (linesOf (after ++ (part ++ rest')))[after.count newline + 1 + k]? := by
  have hline : ∀ before rest : Text,
      (linesOf (before ++ (part ++ rest)))[before.count newline + 1 + k]? =
        ((part.splitOn newline).take (part.count newline))[k + 1]? := by
    intro before rest
    have hle := count_le_length_linesOf (before ++ part) rest
    rw [List.count_append, List.append_assoc] at hle
    rw [getElem?_linesOf (by omega), ← List.getElem?_drop, drop_splitOn, List.getElem?_tail,
      ← take_splitOn part rest, List.getElem?_take, if_pos hk]
  rw [hline before rest, hline after rest']

theorem same_lines_last (before after part : Text) :
    (linesOf (before ++ part)).drop
        (min (before.count newline + 1) (linesOf (before ++ part)).length) =
      (linesOf (after ++ part)).drop
        (min (after.count newline + 1) (linesOf (after ++ part)).length) := by
  have hrest : ∀ before : Text, (linesOf (before ++ part)).drop (before.count newline + 1) =
      if (part.splitOn newline).tail.getLast? = some [] then (part.splitOn newline).tail.dropLast
      else (part.splitOn newline).tail := by
    intro before
    have hdrop : ((before ++ part).splitOn newline).drop _ = _ := drop_splitOn before part
    rw [← hdrop, List.getLast?_drop]
    rcases linesOf_cases (before ++ part) with ⟨h, hlast⟩ | ⟨h, hlast⟩
    · rw [h, if_neg]
      split
      · nofun
      · exact hlast
    · rw [h, ← List.dropLast_drop_eq_drop_dropLast]
      split
      · next hle =>
        rw [List.drop_eq_nil_of_le hle]
        rfl
      · rfl
  rw [← List.drop_eq_drop_min, ← List.drop_eq_drop_min, hrest before, hrest after]

end Yuke.Js.Edit
