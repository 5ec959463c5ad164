import Mathlib

/-!
# Largest values

The largest of some values, where a missing value is below every value. A search keeps the best value
of the candidates that it saw: `Best S f v` says that `v` is the greatest value of `f` on `S`, or the
bottom of an empty `S`.
-/

set_option autoImplicit false

namespace Yuke.Shared

section Values

variable {α : Type} [LinearOrder α]

def largest (xs : List (Option α)) : Option α := xs.foldr max none

@[simp] theorem largest_nil : largest ([] : List (Option α)) = none := rfl

@[simp] theorem largest_cons (x : Option α) (xs : List (Option α)) :
    largest (x :: xs) = max x (largest xs) := rfl

theorem largest_append (xs ys : List (Option α)) :
    largest (xs ++ ys) = max (largest xs) (largest ys) := by
  induction xs with
  | nil => exact (Option.max_none_left).symm
  | cons x xs ih =>
    rw [List.cons_append, largest_cons, largest_cons, ih]
    cases x with
    | none => simp
    | some a =>
      cases largest xs with
      | none => simp
      | some b =>
        cases largest ys with
        | none => simp
        | some c => simp [max_assoc]

theorem largest_eq_none {xs : List (Option α)} : largest xs = none ↔ ∀ x ∈ xs, x = none := by
  induction xs with
  | nil => simp
  | cons x xs ih =>
    rw [largest_cons, List.forall_mem_cons, ← ih]
    cases x with
    | none => simp
    | some a =>
      cases largest xs with
      | none => simp
      | some b => simp

theorem largest_eq_some {xs : List (Option α)} {a : α} :
    largest xs = some a ↔ some a ∈ xs ∧ ∀ b, some b ∈ xs → b ≤ a := by
  induction xs generalizing a with
  | nil => simp
  | cons x xs ih =>
    rw [largest_cons]
    cases x with
    | none => simp [ih]
    | some c =>
      cases hrest : largest xs with
      | none =>
        have hnone := largest_eq_none.mp hrest
        have hmem : ∀ b, some b ∉ xs := by
          intro b hb
          cases hnone _ hb
        simp only [Option.max_none_right, Option.some.injEq, List.mem_cons, hmem, or_false]
        constructor
        · intro hca
          subst hca
          exact ⟨rfl, fun b hb => le_of_eq hb⟩
        · intro hac
          exact hac.1.symm
      | some d =>
        obtain ⟨hd, hle⟩ := ih.mp hrest
        simp only [Option.max_some_some, Option.some.injEq, List.mem_cons]
        constructor
        · rintro rfl
          constructor
          · rcases max_choice c d with hc | hd'
            · exact .inl hc
            · rw [hd']
              exact .inr hd
          · intro b hb
            rcases hb with rfl | hb
            · exact le_max_left b d
            · exact le_max_of_le_right (hle b hb)
        · rintro ⟨hmem, hbound⟩
          apply le_antisymm
          · exact max_le (hbound c (.inl rfl)) (hbound d (.inr hd))
          · rcases hmem with rfl | hmem
            · exact le_max_left a d
            · exact le_max_of_le_right (hle a hmem)

theorem largest_congr {xs ys : List (Option α)} (h : ∀ a, some a ∈ xs ↔ some a ∈ ys) :
    largest xs = largest ys := by
  cases hys : largest ys with
  | none =>
    apply largest_eq_none.mpr
    intro x hx
    cases x with
    | none => rfl
    | some a => exact largest_eq_none.mp hys _ ((h a).mp hx)
  | some a =>
    obtain ⟨hmem, hbound⟩ := largest_eq_some.mp hys
    apply largest_eq_some.mpr
    exact ⟨(h a).mpr hmem, fun b hb => hbound b ((h b).mp hb)⟩

end Values

variable {α ι ι' κ : Type} [LinearOrder α]

structure Best (S : Set ι) (f : ι → α) (v : WithBot α) : Prop where
  le : ∀ a ∈ S, (f a : WithBot α) ≤ v
  reached : v = ⊥ ∨ ∃ a ∈ S, (f a : WithBot α) = v

namespace Best

variable {S : Set ι} {T : Set ι'} {U : Set κ} {f : ι → α} {g : ι' → α} {h : κ → α}
variable {v w : WithBot α}

theorem empty (hS : ∀ a, a ∉ S) : Best S f ⊥ where
  le := fun a ha => absurd ha (hS a)
  reached := .inl rfl

theorem single (a : ι) (hS : ∀ b, b ∈ S ↔ b = a) : Best S f (f a) where
  le := by
    intro b hb
    rw [(hS b).mp hb]
  reached := .inr ⟨a, (hS a).mpr rfl, rfl⟩

theorem max (hv : Best S f v) (hw : Best T g w) (hleft : ∀ a ∈ S, ∃ c ∈ U, f a ≤ h c)
    (hright : ∀ a ∈ T, ∃ c ∈ U, g a ≤ h c)
    (hfrom : ∀ c ∈ U, (∃ a ∈ S, h c ≤ f a) ∨ ∃ a ∈ T, h c ≤ g a) : Best U h (max v w) := by
  have hle : ∀ c ∈ U, (h c : WithBot α) ≤ Max.max v w := by
    intro c hc
    rcases hfrom c hc with ⟨a, ha, hca⟩ | ⟨a, ha, hca⟩
    · exact le_trans (WithBot.coe_le_coe.mpr hca) (le_max_of_le_left (hv.le a ha))
    · exact le_trans (WithBot.coe_le_coe.mpr hca) (le_max_of_le_right (hw.le a ha))
  refine ⟨hle, ?_⟩
  rcases max_choice v w with hmax | hmax
  · rw [hmax] at hle ⊢
    rcases hv.reached with hbot | ⟨a, ha, heq⟩
    · exact .inl hbot
    · obtain ⟨c, hc, hac⟩ := hleft a ha
      refine .inr ⟨c, hc, le_antisymm (hle c hc) ?_⟩
      rw [← heq]
      exact WithBot.coe_le_coe.mpr hac
  · rw [hmax] at hle ⊢
    rcases hw.reached with hbot | ⟨a, ha, heq⟩
    · exact .inl hbot
    · obtain ⟨c, hc, hac⟩ := hright a ha
      refine .inr ⟨c, hc, le_antisymm (hle c hc) ?_⟩
      rw [← heq]
      exact WithBot.coe_le_coe.mpr hac

theorem add [Add α] [AddRightMono α] (hv : Best S f v) (c : α) :
    Best S (fun a => f a + c) (v + c) where
  le := by
    intro a ha
    rw [WithBot.coe_add]
    exact add_le_add_left (hv.le a ha) _
  reached := by
    rcases hv.reached with rfl | ⟨a, ha, rfl⟩
    · exact .inl (WithBot.bot_add _)
    · exact .inr ⟨a, ha, rfl⟩

end Best

end Yuke.Shared
