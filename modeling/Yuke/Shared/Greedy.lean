import Mathlib

/-!
# A greedy order

`needs a b` says that `a` must stand after `b`. A list of things that need each other has an order
that respects the needs if and only if no chain of needs leads back to its start, and then the order
that always takes the first thing that is ready is one.
-/

set_option autoImplicit false

namespace Yuke.Shared

variable {α : Type}

def Acyclic (needs : α → α → Prop) : Prop := ∀ a, ¬ Relation.TransGen needs a a

def NeedsFirst (needs : α → α → Prop) (order : List α) : Prop :=
  ∀ i a, order[i]? = some a → ∀ b, needs a b → b ∈ order.take i

section Cycles

variable {needs : α → α → Prop}

theorem Acyclic.exists_free (h : Acyclic needs) {left : List α} (hleft : left ≠ []) :
    ∃ a ∈ left, ∀ b ∈ left, ¬ needs a b := by
  classical
  let chain (a b : {a // a ∈ left}) : Prop := Relation.TransGen needs b.1 a.1
  have htrans : IsTrans _ chain := ⟨fun _ _ _ hab hbc => hbc.trans hab⟩
  have hirrefl : Std.Irrefl chain := ⟨fun a => h a.1⟩
  have hwf : WellFounded chain := Finite.wellFounded_of_trans_of_irrefl chain
  obtain ⟨first, hfirst⟩ := List.exists_mem_of_ne_nil left hleft
  obtain ⟨least, _, hleast⟩ := hwf.has_min Set.univ ⟨⟨first, hfirst⟩, trivial⟩
  refine ⟨least.1, least.2, ?_⟩
  intro b hb hneeds
  exact hleast ⟨b, hb⟩ trivial (.single hneeds)

variable [DecidableEq α]

theorem NeedsFirst.idxOf_lt {order : List α} (h : NeedsFirst needs order) {a b : α}
    (ha : a ∈ order) (hneeds : needs a b) : b ∈ order ∧ order.idxOf b < order.idxOf a := by
  have hat : order[order.idxOf a]? = some a := List.getElem?_idxOf ha
  have hb := h _ a hat b hneeds
  have hmem := List.mem_of_mem_take hb
  exact ⟨hmem, (List.mem_take_iff_idxOf_lt hmem).mp hb⟩

theorem NeedsFirst.acyclic {order : List α} (h : NeedsFirst needs order)
    (hall : ∀ a b, needs a b → a ∈ order) : Acyclic needs := by
  have hlt : ∀ a b, Relation.TransGen needs a b → order.idxOf b < order.idxOf a := by
    intro a b hchain
    induction hchain with
    | single hneeds => exact (h.idxOf_lt (hall _ _ hneeds) hneeds).2
    | tail _ hneeds ih => exact ((h.idxOf_lt (hall _ _ hneeds) hneeds).2).trans ih
  intro a hchain
  exact absurd (hlt a a hchain) (lt_irrefl _)

omit [DecidableEq α] in
theorem NeedsFirst.concat {order : List α} (h : NeedsFirst needs order) {a : α}
    (ha : ∀ b, needs a b → b ∈ order) : NeedsFirst needs (order ++ [a]) := by
  intro i c hc b hneeds
  rcases Nat.lt_trichotomy i order.length with hi | hi | hi
  · rw [List.getElem?_append_left hi] at hc
    rw [List.take_append_of_le_length (by omega)]
    exact h i c hc b hneeds
  · subst hi
    rw [List.getElem?_concat_length, Option.some.injEq] at hc
    subst hc
    rw [List.take_left]
    exact ha b hneeds
  · rw [List.getElem?_eq_none (by simp; omega)] at hc
    cases hc

end Cycles

section First

variable [DecidableEq α] {ready : List α → α → Bool} {all order : List α}

/-- Each place of the order holds the first one of `all` that does not stand before it and is
ready there. -/
def FirstReady (ready : List α → α → Bool) (all order : List α) : Prop :=
  ∀ i, i < order.length →
    (all.filter (· ∉ order.take i)).find? (ready (order.take i)) = order[i]?

theorem FirstReady.concat (h : FirstReady ready all order) {a : α}
    (ha : (all.filter (· ∉ order)).find? (ready order) = some a) :
    FirstReady ready all (order ++ [a]) := by
  intro i hi
  rw [List.length_append, List.length_singleton] at hi
  rcases Nat.lt_or_ge i order.length with hlt | hge
  · rw [List.take_append_of_le_length (by omega), List.getElem?_append_left hlt]
    exact h i hlt
  · obtain rfl : i = order.length := by omega
    rw [List.take_left, List.getElem?_concat_length]
    exact ha

theorem eraseP_left (hnodup : all.Nodup) {p : α → Bool} {a : α}
    (ha : (all.filter (· ∉ order)).find? p = some a) :
    (all.filter (· ∉ order)).eraseP p = all.filter (· ∉ order ++ [a]) := by
  obtain ⟨hp, before, after, hsplit, hbefore⟩ := List.find?_eq_some_iff_append.mp ha
  have hleft : (before ++ a :: after).Nodup := hsplit ▸ hnodup.filter _
  have hnot : ∀ b ∈ before, ¬ p b = true := by
    intro b hb
    simpa using hbefore b hb
  rw [hsplit, List.eraseP_append_right _ hnot, List.eraseP_cons_of_pos hp]
  have hmore : all.filter (· ∉ order ++ [a]) = (all.filter (· ∉ order)).filter (· ≠ a) := by
    rw [List.filter_filter]
    apply List.filter_congr
    intro b _
    simp [and_comm]
  rw [hmore, hsplit]
  have happart := List.nodup_append.mp hleft
  have hcons := List.nodup_cons.mp happart.2.1
  rw [List.filter_append, List.filter_cons_of_neg (by simp)]
  congr 1
  · symm
    apply List.filter_eq_self.mpr
    intro b hb
    simpa using happart.2.2 b hb a List.mem_cons_self
  · symm
    apply List.filter_eq_self.mpr
    intro b hb
    have hne : b ≠ a := fun heq => hcons.1 (heq ▸ hb)
    simpa using hne

end First

end Yuke.Shared
