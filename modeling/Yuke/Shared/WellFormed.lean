import Yuke.Shared.JsCase

/-!
# Texts without lone surrogates

A text that a file holds has a partner for each surrogate. A write replaces each lone surrogate.
-/

set_option autoImplicit false

namespace Yuke.Shared

def toWellFormed : List UInt16 → List UInt16
  | [] => []
  | [u] => [if isSurrogate u then 0xfffd else u]
  | u :: v :: rest =>
    if isHighSurrogate u && isLowSurrogate v then u :: v :: toWellFormed rest
    else (if isSurrogate u then 0xfffd else u) :: toWellFormed (v :: rest)

inductive WellFormed : List UInt16 → Prop
  | nil : WellFormed []
  | unit {u : UInt16} {rest : List UInt16} : isSurrogate u = false → WellFormed rest →
      WellFormed (u :: rest)
  | pair {high low : UInt16} {rest : List UInt16} : isHighSurrogate high = true →
      isLowSurrogate low = true → WellFormed rest → WellFormed (high :: low :: rest)

theorem surrogate_of_high {u : UInt16} (h : isHighSurrogate u = true) :
    isSurrogate u = true ∧ isLowSurrogate u = false := by
  simp only [isHighSurrogate, isSurrogate, isLowSurrogate, Bool.and_eq_true, decide_eq_true_eq,
    Bool.and_eq_false_iff, decide_eq_false_iff_not, UInt16.le_iff_toNat_le,
    UInt16.reduceToNat] at h ⊢
  omega

theorem surrogate_of_low {u : UInt16} (h : isLowSurrogate u = true) : isSurrogate u = true := by
  simp only [isSurrogate, isLowSurrogate, Bool.and_eq_true, decide_eq_true_eq,
    UInt16.le_iff_toNat_le, UInt16.reduceToNat] at h ⊢
  omega

namespace WellFormed

variable {text before separator after : List UInt16}

theorem toWellFormed_eq (h : WellFormed text) : toWellFormed text = text := by
  induction h with
  | nil => rfl
  | @unit u rest hu _ ih =>
    have hhigh : isHighSurrogate u = false := by
      rw [← Bool.not_eq_true]
      intro hhigh
      rw [(surrogate_of_high hhigh).1] at hu
      cases hu
    cases rest with
    | nil =>
      rw [toWellFormed, hu]
      rfl
    | cons v rest =>
      rw [toWellFormed, hhigh, Bool.false_and, if_neg Bool.false_ne_true, hu,
        if_neg Bool.false_ne_true, ih]
  | pair hhigh hlow _ ih => rw [toWellFormed, hhigh, hlow, Bool.and_self, if_pos rfl, ih]

theorem append (hbefore : WellFormed before) (hafter : WellFormed after) :
    WellFormed (before ++ after) := by
  induction hbefore with
  | nil => exact hafter
  | unit hu _ ih => exact .unit hu ih
  | pair hhigh hlow _ ih => exact .pair hhigh hlow ih

theorem tail_of_unit {u : UInt16} (hu : isSurrogate u = false) (h : WellFormed (u :: text)) :
    WellFormed text := by
  cases h with
  | unit _ hrest => exact hrest
  | pair hhigh _ _ =>
    rw [(surrogate_of_high hhigh).1] at hu
    cases hu

theorem of_append (hbefore : WellFormed before) (h : WellFormed (before ++ after)) :
    WellFormed after := by
  induction hbefore with
  | nil => exact h
  | unit hu _ ih => exact ih (tail_of_unit hu h)
  | pair hhigh hlow _ ih =>
    cases h with
    | unit hu _ =>
      rw [(surrogate_of_high hhigh).1] at hu
      cases hu
    | pair _ _ hrest => exact ih hrest

theorem around (hseparator : WellFormed separator) (hne : separator ≠ [])
    (h : WellFormed (before ++ (separator ++ after))) : WellFormed before ∧ WellFormed after := by
  generalize htext : before ++ (separator ++ after) = text at h
  induction h generalizing before with
  | nil =>
    have hnil := List.append_eq_nil_iff.mp (List.append_eq_nil_iff.mp htext).2
    exact absurd hnil.1 hne
  | unit hu hrest ih =>
    cases before with
    | nil =>
      have hwhole := WellFormed.unit hu hrest
      rw [← htext] at hwhole
      exact ⟨.nil, of_append hseparator hwhole⟩
    | cons first before =>
      obtain ⟨rfl, hrest⟩ := List.cons.inj htext
      obtain ⟨hbefore, hafter⟩ := ih hrest
      exact ⟨.unit hu hbefore, hafter⟩
  | pair hhigh hlow hrest ih =>
    rcases before with _ | ⟨first, _ | ⟨second, before⟩⟩
    · have hwhole := WellFormed.pair hhigh hlow hrest
      rw [← htext] at hwhole
      exact ⟨.nil, of_append hseparator hwhole⟩
    · -- The separator would start with the low surrogate.
      obtain ⟨_, hlast⟩ := List.cons.inj htext
      cases hseparator with
      | nil => exact absurd rfl hne
      | unit hu _ =>
        obtain ⟨rfl, _⟩ := List.cons.inj hlast
        rw [surrogate_of_low hlow] at hu
        cases hu
      | pair hhigh' _ _ =>
        obtain ⟨rfl, _⟩ := List.cons.inj hlast
        rw [(surrogate_of_high hhigh').2] at hlow
        cases hlow
    · obtain ⟨rfl, hmore⟩ := List.cons.inj htext
      obtain ⟨rfl, hrest⟩ := List.cons.inj hmore
      obtain ⟨hbefore, hafter⟩ := ih hrest
      exact ⟨.pair hhigh hlow hbefore, hafter⟩

theorem intercalate (hseparator : WellFormed separator) (hne : separator ≠ [])
    {glue : List UInt16} (hglue : WellFormed glue) {parts : List (List UInt16)}
    (h : WellFormed (separator.intercalate parts)) : WellFormed (glue.intercalate parts) := by
  induction parts with
  | nil => exact .nil
  | cons part parts ih =>
    cases parts with
    | nil =>
      rw [List.intercalate_singleton] at h ⊢
      exact h
    | cons next parts =>
      rw [List.intercalate_cons_cons, List.append_assoc] at h
      obtain ⟨hpart, hrest⟩ := around hseparator hne h
      rw [List.intercalate_cons_cons, List.append_assoc]
      exact hpart.append (hglue.append (ih hrest))

end WellFormed

end Yuke.Shared
