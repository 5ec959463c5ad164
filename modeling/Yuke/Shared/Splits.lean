import Mathlib

/-!
# Texts in parts

A text splits at the matches of a separator, from left to right, and the joined parts give the text
with each match replaced. The lines of a text are its parts between the line ends.
-/

set_option autoImplicit false

namespace Yuke.Shared

section Parts

variable {α : Type} [DecidableEq α]

/-! ## Parts between matches -/

/-- The parts of a text between the matches of `separator`, after `skip` more units of a match. -/
def partsAfter (separator : List α) : ℕ → List α → List (List α)
  | _, [] => [[]]
  | skip + 1, _ :: rest => partsAfter separator skip rest
  | 0, u :: rest =>
    if separator <+: u :: rest then [] :: partsAfter separator (separator.length - 1) rest
    else (partsAfter separator 0 rest).modifyHead (u :: ·)

def splitParts (separator text : List α) : List (List α) := partsAfter separator 0 text

/-- `after` is `before` with its matches replaced, `count` of them: from left to right, and the next
search starts after the match. -/
inductive Replaced (separator replacement : List α) : ℕ → List α → List α → Prop
  | nil : Replaced separator replacement 0 [] []
  | keep {count : ℕ} {u : α} {rest after : List α} : ¬ separator <+: u :: rest →
      Replaced separator replacement count rest after →
      Replaced separator replacement count (u :: rest) (u :: after)
  | replace {count : ℕ} {rest after : List α} : Replaced separator replacement count rest after →
      Replaced separator replacement (count + 1) (separator ++ rest) (replacement ++ after)

variable {separator : List α}

theorem partsAfter_skip (skip : ℕ) (text : List α) :
    partsAfter separator skip text = splitParts separator (text.drop skip) := by
  induction text generalizing skip with
  | nil =>
    rw [List.drop_nil]
    cases skip with
    | zero => rfl
    | succ skip => rfl
  | cons u rest ih =>
    cases skip with
    | zero => rfl
    | succ skip => exact ih skip

theorem splitParts_match (hseparator : separator ≠ []) (rest : List α) :
    splitParts separator (separator ++ rest) = [] :: splitParts separator rest := by
  obtain ⟨u, tail, rfl⟩ := List.exists_cons_of_ne_nil hseparator
  have hprefix : u :: tail <+: u :: (tail ++ rest) := List.prefix_append (u :: tail) rest
  rw [List.cons_append, splitParts, partsAfter, if_pos hprefix, partsAfter_skip, List.length_cons,
    Nat.add_sub_cancel, List.drop_left]

theorem splitParts_keep {u : α} {rest : List α} (h : ¬ separator <+: u :: rest) :
    splitParts separator (u :: rest) = (splitParts separator rest).modifyHead (u :: ·) := by
  rw [splitParts, partsAfter, if_neg h]
  rfl

theorem splitParts_induction (hseparator : separator ≠ []) {P : List α → Prop} (nil : P [])
    (replace : ∀ rest, P rest → P (separator ++ rest))
    (keep : ∀ u rest, ¬ separator <+: u :: rest → P rest → P (u :: rest)) (text : List α) :
    P text := by
  induction hlength : text.length using Nat.strong_induction_on generalizing text with
  | _ length ih =>
    cases text with
    | nil => exact nil
    | cons u rest =>
      by_cases hmatch : separator <+: u :: rest
      · obtain ⟨left, heq⟩ := hmatch
        have hpos := List.length_pos_iff.mpr hseparator
        have hsum := congrArg List.length heq
        rw [List.length_append] at hsum
        rw [← heq]
        exact replace left (ih left.length (by omega) left rfl)
      · rw [List.length_cons] at hlength
        exact keep u rest hmatch (ih rest.length (by omega) rest rfl)

theorem splitParts_ne_nil (hseparator : separator ≠ []) (text : List α) :
    splitParts separator text ≠ [] := by
  induction text using splitParts_induction hseparator with
  | nil => exact List.cons_ne_nil _ _
  | replace rest ih =>
    rw [splitParts_match hseparator]
    exact List.cons_ne_nil _ _
  | keep u rest hmatch ih =>
    rw [splitParts_keep hmatch]
    intro hnil
    exact ih (List.modifyHead_eq_nil_iff.mp hnil)

omit [DecidableEq α] in
theorem intercalate_modifyHead {glue : List α} {parts : List (List α)} (h : parts ≠ []) (u : α) :
    glue.intercalate (parts.modifyHead (u :: ·)) = u :: glue.intercalate parts := by
  obtain ⟨part, rest, rfl⟩ := List.exists_cons_of_ne_nil h
  rw [List.modifyHead_cons]
  cases rest with
  | nil => rw [List.intercalate_singleton, List.intercalate_singleton]
  | cons next rest =>
    rw [List.intercalate_cons_cons, List.intercalate_cons_cons, List.cons_append, List.cons_append]

omit [DecidableEq α] in
theorem intercalate_append (glue : List α) {xs ys : List (List α)} (hxs : xs ≠ [])
    (hys : ys ≠ []) :
    glue.intercalate (xs ++ ys) = glue.intercalate xs ++ glue ++ glue.intercalate ys := by
  induction xs with
  | nil => exact absurd rfl hxs
  | cons x xs ih =>
    cases xs with
    | nil =>
      rw [List.singleton_append, List.intercalate_singleton, List.intercalate_cons_of_ne_nil hys]
    | cons x' xs =>
      rw [List.cons_append, List.intercalate_cons_of_ne_nil (List.append_ne_nil_of_left_ne_nil
        (List.cons_ne_nil _ _) _), ih (List.cons_ne_nil _ _), List.intercalate_cons_cons]
      simp only [List.append_assoc]

theorem replaced_intercalate (hseparator : separator ≠ []) (replacement text : List α) :
    Replaced separator replacement ((splitParts separator text).length - 1) text
      (replacement.intercalate (splitParts separator text)) := by
  induction text using splitParts_induction hseparator with
  | nil => exact .nil
  | replace rest ih =>
    have hne := splitParts_ne_nil hseparator rest
    have hpos := List.length_pos_iff.mpr hne
    rw [splitParts_match hseparator, List.intercalate_cons_of_ne_nil hne, List.length_cons,
      List.nil_append, show (splitParts separator rest).length + 1 - 1 =
        (splitParts separator rest).length - 1 + 1 by omega]
    exact .replace ih
  | keep u rest hmatch ih =>
    rw [splitParts_keep hmatch, intercalate_modifyHead (splitParts_ne_nil hseparator rest),
      List.length_modifyHead]
    exact .keep hmatch ih

theorem intercalate_splitParts (hseparator : separator ≠ []) (text : List α) :
    separator.intercalate (splitParts separator text) = text := by
  induction text using splitParts_induction hseparator with
  | nil => rfl
  | replace rest ih =>
    rw [splitParts_match hseparator, List.intercalate_cons_of_ne_nil (splitParts_ne_nil hseparator rest),
      List.nil_append, ih]
  | keep u rest hmatch ih =>
    rw [splitParts_keep hmatch, intercalate_modifyHead (splitParts_ne_nil hseparator rest), ih]

end Parts

section Lines

variable {α : Type} [DecidableEq α] {stop : α}

theorem splitOn_cons_self (rest : List α) :
    (stop :: rest).splitOn stop = [] :: rest.splitOn stop := by
  rw [List.splitOn_cons_eq_if_modifyHead, if_pos (beq_self_eq_true _)]

theorem splitOn_cons_other {u : α} (h : u ≠ stop) (rest : List α) :
    (u :: rest).splitOn stop = (rest.splitOn stop).modifyHead (u :: ·) := by
  rw [List.splitOn_cons_eq_if_modifyHead, if_neg (by simpa using h)]

theorem length_splitOn (text : List α) : (text.splitOn stop).length = text.count stop + 1 := by
  induction text with
  | nil => rfl
  | cons u rest ih =>
    by_cases h : u = stop
    · rw [h, splitOn_cons_self, List.length_cons, ih, List.count_cons_self]
    · rw [splitOn_cons_other h, List.length_modifyHead, ih, List.count_cons_of_ne h]

theorem drop_splitOn (before text : List α) :
    ((before ++ text).splitOn stop).drop (before.count stop + 1) = (text.splitOn stop).tail := by
  induction before with
  | nil => rw [List.nil_append, List.count_nil, List.drop_one]
  | cons u before ih =>
    by_cases h : u = stop
    · rw [h, List.cons_append, splitOn_cons_self, List.count_cons_self, List.drop_succ_cons, ih]
    · rw [List.cons_append, splitOn_cons_other h, List.count_cons_of_ne h, ← ih]
      cases (before ++ text).splitOn stop with
      | nil => rfl
      | cons line lines => rfl

theorem take_splitOn (text after : List α) :
    ((text ++ after).splitOn stop).take (text.count stop) =
      (text.splitOn stop).take (text.count stop) := by
  induction text with
  | nil => rw [List.count_nil, List.take_zero, List.take_zero]
  | cons u text ih =>
    by_cases h : u = stop
    · rw [h, List.cons_append, splitOn_cons_self, splitOn_cons_self, List.count_cons_self,
        List.take_succ_cons, List.take_succ_cons, ih]
    · rw [List.cons_append, splitOn_cons_other h, splitOn_cons_other h, List.count_cons_of_ne h]
      cases hcount : text.count stop with
      | zero => rw [List.take_zero, List.take_zero]
      | succ count =>
        rw [hcount] at ih
        obtain ⟨line, lines, hlines⟩ := List.exists_cons_of_ne_nil
          (List.splitOn_ne_nil stop (text ++ after))
        obtain ⟨line', lines', hlines'⟩ := List.exists_cons_of_ne_nil (List.splitOn_ne_nil stop text)
        rw [hlines, hlines', List.take_succ_cons, List.take_succ_cons, List.cons.injEq] at ih
        rw [hlines, hlines', List.modifyHead_cons, List.modifyHead_cons, List.take_succ_cons,
          List.take_succ_cons, ih.1, ih.2]

end Lines

end Yuke.Shared
