import Mathlib

/-!
# Rows with increasing keys

A table is a list of rows in insertion order. When the keys of the rows increase, an order by the
key is the list itself, and the bounds of a query cut the list.
-/

set_option autoImplicit false

namespace Yuke.Shared

variable {α β : Type} {key : α → Nat}

def orderBy (key : α → Nat) (rows : List α) : List α :=
  rows.mergeSort fun a b => key a ≤ key b

def orderByDesc (key : α → Nat) (rows : List α) : List α :=
  rows.mergeSort fun a b => key b ≤ key a

def Increasing (key : α → Nat) (rows : List α) : Prop :=
  rows.Pairwise fun a b => key a < key b

namespace Increasing

theorem sublist {rows few : List α} (h : Increasing key rows) (hsub : few.Sublist rows) :
    Increasing key few :=
  List.Pairwise.sublist hsub h

theorem filter {rows : List α} (h : Increasing key rows) (p : α → Bool) :
    Increasing key (rows.filter p) :=
  h.sublist List.filter_sublist

theorem append {rows more : List α} (h : Increasing key rows) (hmore : Increasing key more)
    (hlt : ∀ a ∈ rows, ∀ b ∈ more, key a < key b) : Increasing key (rows ++ more) :=
  List.pairwise_append.mpr ⟨h, hmore, hlt⟩

theorem concat {rows : List α} {row : α} (h : Increasing key rows)
    (hlt : ∀ a ∈ rows, key a < key row) : Increasing key (rows ++ [row]) := by
  refine h.append (List.pairwise_singleton _ _) fun a ha b hb => ?_
  rw [List.mem_singleton.mp hb]
  exact hlt a ha

theorem orderBy_eq {rows : List α} (h : Increasing key rows) : orderBy key rows = rows := by
  refine List.mergeSort_of_pairwise (h.imp ?_)
  intro a b hab
  simpa using hab.le

theorem eq_of_key {rows : List α} (h : Increasing key rows) {a b : α} (ha : a ∈ rows)
    (hb : b ∈ rows) (hkey : key a = key b) : a = b := by
  obtain ⟨i, hi, rfl⟩ := List.mem_iff_getElem.mp ha
  obtain ⟨j, hj, rfl⟩ := List.mem_iff_getElem.mp hb
  rcases Nat.lt_trichotomy i j with hij | rfl | hij
  · have := List.pairwise_iff_getElem.mp h i j hi hj hij
    omega
  · rfl
  · have := List.pairwise_iff_getElem.mp h j i hj hi hij
    omega

theorem orderByDesc_eq {rows : List α} (h : Increasing key rows) :
    orderByDesc key rows = rows.reverse := by
  have hperm : (orderByDesc key rows).Perm rows.reverse :=
    (List.mergeSort_perm rows _).trans (List.reverse_perm rows).symm
  have hsorted : (orderByDesc key rows).Pairwise fun a b => decide (key b ≤ key a) :=
    List.pairwise_mergeSort (fun a b c hab hbc => by simp at *; omega)
      (fun a b => by simp; omega) rows
  have hreverse : rows.reverse.Pairwise fun a b => decide (key b ≤ key a) :=
    List.pairwise_reverse.mpr (h.imp fun hab => by simpa using hab.le)
  refine hperm.eq_of_pairwise (fun a b ha hb hab hba => ?_) hsorted hreverse
  refine h.eq_of_key (hperm.mem_iff.mp ha |> List.mem_reverse.mp) (List.mem_reverse.mp hb) ?_
  simp only [decide_eq_true_eq] at hab hba
  omega

theorem head?_orderByDesc {rows : List α} (h : Increasing key rows) :
    (orderByDesc key rows).head? = rows.getLast? := by
  rw [h.orderByDesc_eq, List.head?_reverse]

theorem filter_lt {older newer : List α} {row : α} (h : Increasing key (older ++ row :: newer)) :
    (older ++ row :: newer).filter (key · < key row) = older := by
  obtain ⟨_, hnewer, hlt⟩ := List.pairwise_append.mp h
  have holder : older.filter (key · < key row) = older :=
    List.filter_eq_self.mpr fun a ha => by simpa using hlt a ha row List.mem_cons_self
  have hempty : newer.filter (key · < key row) = [] :=
    List.filter_eq_nil_iff.mpr fun a ha => by
      simpa using (List.rel_of_pairwise_cons hnewer ha).le
  rw [List.filter_append, holder, List.filter_cons_of_neg (by simp), hempty, List.append_nil]

theorem filter_ge {older newer : List α} {row : α} (h : Increasing key (older ++ row :: newer)) :
    (older ++ row :: newer).filter (key row ≤ key ·) = row :: newer := by
  obtain ⟨_, hnewer, hlt⟩ := List.pairwise_append.mp h
  have hempty : older.filter (key row ≤ key ·) = [] :=
    List.filter_eq_nil_iff.mpr fun a ha => by simpa using hlt a ha row List.mem_cons_self
  have hall : newer.filter (key row ≤ key ·) = newer :=
    List.filter_eq_self.mpr fun a ha => by
      simpa using (List.rel_of_pairwise_cons hnewer ha).le
  rw [List.filter_append, hempty, List.filter_cons_of_pos (by simp), hall, List.nil_append]

end Increasing

theorem exists_split_of_getLast?_filter {rows : List α} {p : α → Bool} {row : α}
    (h : (rows.filter p).getLast? = some row) :
    ∃ older newer, rows = older ++ row :: newer ∧ p row ∧ ∀ a ∈ newer, p a = false := by
  induction rows using List.reverseRecOn with
  | nil => simp at h
  | append_singleton rows last ih =>
    rw [List.filter_append] at h
    by_cases hlast : p last
    · have hrow : last = row := by simpa [hlast] using h
      subst hrow
      exact ⟨rows, [], rfl, hlast, by simp⟩
    · have hrest : (rows.filter p).getLast? = some row := by simpa [hlast] using h
      obtain ⟨older, newer, hsplit, hrow, hnewer⟩ := ih hrest
      refine ⟨older, newer ++ [last], by simp [hsplit], hrow, ?_⟩
      intro a ha
      rcases List.mem_append.mp ha with ha | ha
      · exact hnewer a ha
      · rw [List.mem_singleton.mp ha]
        simpa using hlast

end Yuke.Shared
