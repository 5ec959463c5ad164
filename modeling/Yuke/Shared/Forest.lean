import Mathlib

/-!
# A forest whose members name their parents

`child c p` says that `c` names `p` as its parent. A member can leave the forest, and what it named
stays known. A rank that grows from a parent to its children rules out circles.
-/

set_option autoImplicit false

namespace Yuke.Shared

variable {α : Type} {child : α → α → Prop} {root : α → Prop} {members : Set α}

inductive Reached (root : α → Prop) (child : α → α → Prop) (members : Set α) : α → Prop where
  | root {a : α} : root a → a ∈ members → Reached root child members a
  | child {c p : α} : Reached root child members p → child c p → c ∈ members →
      Reached root child members c

theorem reached_of_rank (rank : α → Nat) (hrank : ∀ c p, child c p → rank p < rank c)
    (hclosed : ∀ c ∈ members, root c ∨ ∃ p ∈ members, child c p) :
    ∀ c ∈ members, Reached root child members c := by
  intro c hc
  induction hn : rank c using Nat.strongRecOn generalizing c with
  | ind n ih =>
    rcases hclosed c hc with hroot | ⟨p, hp, hchild⟩
    · exact .root hroot hc
    · have hlt := hrank c p hchild
      exact .child (ih (rank p) (by omega) p hp rfl) hchild hc

theorem mem_of_chain (hclosed : ∀ c ∈ members, ∀ p, child c p → p ∈ members) {c p : α}
    (h : Relation.TransGen child c p) (hc : c ∈ members) : p ∈ members := by
  induction h with
  | single hchild => exact hclosed _ hc _ hchild
  | tail _ hchild ih => exact hclosed _ ih _ hchild

def Layered (child : α → α → Prop) (tree : List α) : Prop :=
  ∀ before c after, tree = before ++ c :: after → before = [] ∨ ∃ p ∈ before, child c p

variable {tree page : List α} {p : α}

theorem layered_singleton (a : α) : Layered child [a] := by
  intro before c after h
  cases before with
  | nil => exact .inl rfl
  | cons first before => simp at h

theorem Layered.append (h : Layered child tree) (hp : p ∈ tree) (hpage : ∀ c ∈ page, child c p) :
    Layered child (tree ++ page) := by
  intro before c after heq
  rcases List.append_eq_append_iff.mp heq with ⟨extra, hbefore, hafter⟩ | ⟨extra, htree, hrest⟩
  · right
    refine ⟨p, ?_, hpage c ?_⟩
    · rw [hbefore]
      exact List.mem_append_left extra hp
    · rw [hafter]
      simp
  · cases extra with
    | nil =>
      right
      rw [List.append_nil] at htree
      rw [List.nil_append] at hrest
      refine ⟨p, htree ▸ hp, hpage c ?_⟩
      rw [← hrest]
      simp
    | cons first extra =>
      rw [List.cons_append] at hrest
      cases hrest
      exact h before c extra htree

theorem Layered.chain {a : α} {rest : List α} (h : Layered child (a :: rest)) :
    ∀ c ∈ a :: rest, c = a ∨ Relation.TransGen child c a := by
  have hall : ∀ n, ∀ c ∈ (a :: rest).take n, c = a ∨ Relation.TransGen child c a := by
    intro n
    induction n with
    | zero => simp
    | succ n ih =>
      intro c hc
      rw [List.take_add_one, List.mem_append] at hc
      rcases hc with hc | hc
      · exact ih c hc
      · have hget : (a :: rest)[n]? = some c := by simpa using hc
        obtain ⟨hn, hc⟩ := List.getElem?_eq_some_iff.mp hget
        have hsplit : a :: rest = (a :: rest).take n ++ c :: (a :: rest).drop (n + 1) := by
          rw [← hc, ← List.drop_eq_getElem_cons hn, List.take_append_drop]
        rcases h _ _ _ hsplit with hfirst | ⟨p, hp, hchild⟩
        · rcases List.take_eq_nil_iff.mp hfirst with hzero | hnil
          · subst hzero
            cases hget
            exact .inl rfl
          · cases hnil
        · right
          rcases ih p hp with rfl | hchain
          · exact .single hchild
          · exact .head hchild hchain
  intro c hc
  exact hall (a :: rest).length c (by rwa [List.take_length])

theorem rank_lt_of_chain {rank : α → Nat} (hrank : ∀ c p, child c p → rank p < rank c) {c p : α}
    (h : Relation.TransGen child c p) : rank p < rank c := by
  induction h with
  | single hchild => exact hrank _ _ hchild
  | tail _ hchild ih =>
    have := hrank _ _ hchild
    omega

theorem Layered.le {rank : α → Nat} (hrank : ∀ c p, child c p → rank p < rank c) {a : α}
    {rest : List α} (h : Layered child (a :: rest)) : ∀ c ∈ a :: rest, rank a ≤ rank c := by
  intro c hc
  rcases h.chain c hc with rfl | hchain
  · exact Nat.le_refl _
  · exact Nat.le_of_lt (rank_lt_of_chain hrank hchain)

theorem Layered.mono {child' : α → α → Prop} (h : Layered child tree)
    (hsub : ∀ c p, child c p → child' c p) : Layered child' tree := by
  intro before c after heq
  rcases h before c after heq with hfirst | ⟨p, hp, hchild⟩
  · exact .inl hfirst
  · exact .inr ⟨p, hp, hsub c p hchild⟩

end Yuke.Shared
