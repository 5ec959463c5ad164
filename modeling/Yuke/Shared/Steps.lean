import Mathlib

/-!
# Runs of a system that moves step by step

`next s e t` says that the event `e` can take the state `s` to the state `t`. A condition on the
steps of a run narrows `next`.
-/

set_option autoImplicit false

namespace Yuke.Shared

variable {σ ε : Type}

/-- The runs of `next` from a state, with their events in order. -/
inductive Steps (next : σ → ε → σ → Prop) (s : σ) : List ε → σ → Prop where
  | start : Steps next s [] s
  | step {events : List ε} {e : ε} {t u : σ} :
      Steps next s events t → next t e u → Steps next s (events ++ [e]) u

def outcome (step : σ → ε → Option σ) (s : σ) (e : ε) (t : σ) : Prop := step s e = some t

/-- The steps of `next` that meet `allowed`. -/
def when (allowed : σ → ε → Prop) (next : σ → ε → σ → Prop) (s : σ) (e : ε) (t : σ) : Prop :=
  allowed s e ∧ next s e t

def guarded (allowed : σ → ε → Prop) [∀ s e, Decidable (allowed s e)] (step : σ → ε → Option σ)
    (s : σ) (e : ε) : Option σ :=
  if allowed s e then step s e else none

namespace Steps

variable {next next' : σ → ε → σ → Prop} {s t u : σ} {events more : List ε}

theorem keeps {P : σ → Prop} (h : Steps next s events t) (hs : P s)
    (hstep : ∀ t e u, P t → next t e u → P u) : P t := by
  induction h with
  | start => exact hs
  | step _ hnext ih => exact hstep _ _ _ ih hnext

theorem mono (h : Steps next s events t) (hsub : ∀ s e t, next s e t → next' s e t) :
    Steps next' s events t := by
  induction h with
  | start => exact .start
  | step _ hnext ih => exact .step ih (hsub _ _ _ hnext)

theorem trans (h : Steps next s events t) (h' : Steps next t more u) :
    Steps next s (events ++ more) u := by
  induction h' with
  | start => simpa using h
  | step _ hnext ih =>
    rw [← List.append_assoc]
    exact .step ih hnext

theorem cons {e : ε} (hnext : next s e t) (h : Steps next t events u) :
    Steps next s (e :: events) u :=
  (Steps.step .start hnext).trans h

theorem free {allowed : σ → ε → Prop} (h : Steps (when allowed next) s events t) :
    Steps next s events t :=
  h.mono fun _ _ _ hnext => hnext.2

theorem of_foldlM {step : σ → ε → Option σ} (h : events.foldlM step s = some t) :
    Steps (outcome step) s events t := by
  induction events generalizing s with
  | nil =>
    cases h
    exact .start
  | cons e events ih =>
    rw [List.foldlM_cons] at h
    obtain ⟨middle, hstep, hrest⟩ := Option.bind_eq_some_iff.mp h
    exact cons hstep (ih hrest)

theorem of_guarded {step : σ → ε → Option σ} {allowed : σ → ε → Prop}
    [∀ s e, Decidable (allowed s e)] (h : events.foldlM (guarded allowed step) s = some t) :
    Steps (when allowed (outcome step)) s events t := by
  refine (of_foldlM h).mono fun s e t hnext => ?_
  unfold outcome guarded at hnext
  split_ifs at hnext with hallowed
  exact ⟨hallowed, hnext⟩

end Steps

/-- The lock names its holder, and no other party holds it. -/
def Exclusive {α : Type} (holds : α → Prop) (lock : Option α) : Prop := ∀ a, holds a ↔ lock = some a

namespace Exclusive

variable {α : Type} {holds holds' : α → Prop} {lock : Option α} {a b : α}

theorem unique (h : Exclusive holds lock) (ha : holds a) (hb : holds b) : a = b := by
  have hlock := (h a).mp ha
  rw [(h b).mp hb] at hlock
  exact (Option.some.inj hlock).symm

theorem keep (h : Exclusive holds lock) (hsame : ∀ a, holds' a ↔ holds a) :
    Exclusive holds' lock := fun a => (hsame a).trans (h a)

theorem acquire (h : Exclusive holds none) (hnew : holds' a)
    (hother : ∀ b, b ≠ a → (holds' b ↔ holds b)) : Exclusive holds' (some a) := by
  intro b
  by_cases hb : b = a
  · subst hb
    exact iff_of_true hnew rfl
  · rw [hother b hb, h b]
    simp [Ne.symm hb]

theorem release (h : Exclusive holds (some a)) (hgone : ¬ holds' a)
    (hother : ∀ b, b ≠ a → (holds' b ↔ holds b)) : Exclusive holds' none := by
  intro b
  by_cases hb : b = a
  · subst hb
    exact iff_of_false hgone (by simp)
  · rw [hother b hb, h b]
    simp [Ne.symm hb]

end Exclusive

end Yuke.Shared
