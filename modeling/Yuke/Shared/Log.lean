import Mathlib

/-!
# Logs that grow at their end
-/

set_option autoImplicit false

namespace Yuke.Shared

variable {α : Type}

theorem split_snoc {log before after : List α} {entry mark : α} :
    log ++ [entry] = before ++ mark :: after ↔
      (∃ rest, after = rest ++ [entry] ∧ log = before ++ mark :: rest) ∨
        after = [] ∧ entry = mark ∧ log = before := by
  constructor
  · intro h
    rcases List.eq_nil_or_concat after with hnil | ⟨rest, last, hrest⟩
    · subst hnil
      obtain ⟨hlog, hentry⟩ := List.append_inj' h rfl
      exact .inr ⟨rfl, by simpa using hentry, hlog⟩
    · rw [List.concat_eq_append] at hrest
      subst hrest
      rw [← List.cons_append, ← List.append_assoc] at h
      obtain ⟨hlog, hentry⟩ := List.append_inj' h rfl
      cases hentry
      exact .inl ⟨rest, rfl, hlog⟩
  · rintro (⟨rest, hrest, hlog⟩ | ⟨hafter, hentry, hlog⟩)
    · rw [hrest, hlog]
      simp
    · rw [hafter, hentry, hlog]

theorem getElem?_snoc {log : List α} {entry other : α} {i : ℕ} :
    (log ++ [entry])[i]? = some other ↔ log[i]? = some other ∨ i = log.length ∧ entry = other := by
  rcases Nat.lt_trichotomy i log.length with hlt | rfl | hgt
  · rw [List.getElem?_append_left hlt]
    constructor
    · exact .inl
    · rintro (hold | ⟨hno, -⟩)
      · exact hold
      · omega
  · simp
  · rw [List.getElem?_eq_none (by simp; omega), List.getElem?_eq_none (by omega)]
    simp
    omega

def Since (starts ends : α → Prop) (log : List α) : Prop :=
  ∃ before mark after, log = before ++ mark :: after ∧ starts mark ∧ ∀ entry ∈ after, ¬ ends entry

variable {starts ends : α → Prop} {log : List α} {entry : α}

theorem not_since_nil : ¬ Since starts ends [] := by
  rintro ⟨before, mark, after, hlog, _⟩
  simp at hlog

theorem since_snoc :
    Since starts ends (log ++ [entry]) ↔ starts entry ∨ Since starts ends log ∧ ¬ ends entry := by
  constructor
  · rintro ⟨before, mark, after, hlog, hstarts, hnone⟩
    rcases split_snoc.mp hlog with ⟨rest, hrest, hsplit⟩ | ⟨_, hentry, _⟩
    · subst hrest
      refine .inr ⟨⟨before, mark, rest, hsplit, hstarts, fun other hother => ?_⟩, ?_⟩
      · exact hnone other (List.mem_append_left _ hother)
      · exact hnone entry (by simp)
    · rw [hentry]
      exact .inl hstarts
  · rintro (hstarts | ⟨⟨before, mark, after, hlog, hstarts, hnone⟩, hend⟩)
    · exact ⟨log, entry, [], rfl, hstarts, by simp⟩
    · refine ⟨before, mark, after ++ [entry], by simp [hlog], hstarts, fun other hother => ?_⟩
      rcases List.mem_append.mp hother with hold | hnew
      · exact hnone other hold
      · rw [List.mem_singleton.mp hnew]
        exact hend

end Yuke.Shared
