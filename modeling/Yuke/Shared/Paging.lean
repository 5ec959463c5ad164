import Yuke.Shared.Table

/-!
# Pages of ordered rows

A page gives the first rows after a position, and the position after which the next page starts. A
walk over the pages gives each row once.
-/

set_option autoImplicit false

namespace Yuke.Shared

variable {α β π : Type}

/-- The items of the pages from `start` on, up to the page without a next one. -/
inductive PageWalk (page : π → Option (List β × Option π)) : π → List (List β) → Prop where
  | last {start : π} {items : List β} : page start = some (items, none) → PageWalk page start [items]
  | more {start next : π} {items : List β} {rest : List (List β)} :
    page start = some (items, some next) → PageWalk page next rest → PageWalk page start (items :: rest)

def Descending (key : α → Nat) (rows : List α) : Prop :=
  rows.Pairwise fun a b => key b < key a

namespace Descending

variable {key : α → Nat} {rows : List α}

theorem of_orderByDesc (h : (rows.map key).Nodup) : Descending key (orderByDesc key rows) := by
  have hperm : (orderByDesc key rows).Perm rows := List.mergeSort_perm rows _
  have hsorted : (orderByDesc key rows).Pairwise fun a b => decide (key b ≤ key a) :=
    List.pairwise_mergeSort (fun a b c hab hbc => by simp at *; omega)
      (fun a b => by simp; omega) rows
  have hne : ((orderByDesc key rows).map key).Nodup := (hperm.map key).nodup_iff.mpr h
  have hboth := hsorted.and (List.pairwise_map.mp hne)
  apply hboth.imp
  intro a b hab
  have hle := of_decide_eq_true hab.1
  have hdiff := hab.2
  omega

theorem eq_of_perm {others : List α} (h : Descending key rows) (hothers : Descending key others)
    (hperm : rows.Perm others) : rows = others := by
  apply hperm.eq_of_pairwise _ h hothers
  intro a b _ _ hab hba
  omega

theorem orderByDesc_filter (h : (rows.map key).Nodup) (p : α → Bool) :
    orderByDesc key (rows.filter p) = (orderByDesc key rows).filter p := by
  have hfew : ((rows.filter p).map key).Nodup := h.sublist (List.Sublist.map key List.filter_sublist)
  apply (of_orderByDesc hfew).eq_of_perm
  · exact List.Pairwise.sublist List.filter_sublist (of_orderByDesc h)
  · have hrows : (orderByDesc key rows).Perm rows := List.mergeSort_perm rows _
    have hfiltered : (orderByDesc key (rows.filter p)).Perm (rows.filter p) :=
      List.mergeSort_perm _ _
    exact hfiltered.trans (hrows.filter p).symm

theorem reverse (h : Increasing key rows) : Descending key rows.reverse :=
  List.pairwise_reverse.mpr h

theorem filter (h : Descending key rows) (p : α → Bool) : Descending key (rows.filter p) :=
  List.Pairwise.sublist List.filter_sublist h

theorem filter_lt {front rest : List α} {row : α} (h : Descending key (front ++ row :: rest)) :
    (front ++ row :: rest).filter (key · < key row) = rest := by
  obtain ⟨_, hrest, hfront⟩ := List.pairwise_append.mp h
  have hnone : front.filter (key · < key row) = [] := by
    apply List.filter_eq_nil_iff.mpr
    intro a ha hlt
    have hgt := hfront a ha row List.mem_cons_self
    have hlt := of_decide_eq_true hlt
    omega
  have hall : rest.filter (key · < key row) = rest := by
    apply List.filter_eq_self.mpr
    intro a ha
    exact decide_eq_true (List.rel_of_pairwise_cons hrest ha)
  rw [List.filter_append, hnone, List.nil_append, List.filter_cons_of_neg (by simp), hall]

end Descending

theorem Increasing.orderBy_reverse {key : α → Nat} {rows : List α} (h : Increasing key rows) :
    orderBy key rows.reverse = rows := by
  have hperm : (orderBy key rows.reverse).Perm rows :=
    (List.mergeSort_perm _ _).trans (List.reverse_perm rows)
  have hsorted : (orderBy key rows.reverse).Pairwise fun a b => decide (key a ≤ key b) :=
    List.pairwise_mergeSort (fun a b c hab hbc => by simp at *; omega)
      (fun a b => by simp; omega) rows.reverse
  have hrows : rows.Pairwise fun a b => decide (key a ≤ key b) := h.imp fun hab => by
    simpa using hab.le
  apply hperm.eq_of_pairwise _ hsorted hrows
  intro a b ha hb hab hba
  have hle := of_decide_eq_true hab
  have hge := of_decide_eq_true hba
  exact h.eq_of_key (hperm.mem_iff.mp ha) hb (by omega)

theorem mapM_of_forall₂ {ε : Type} {f : α → Except ε β} {rows : List α} {items : List β}
    (h : List.Forall₂ (fun row item => f row = .ok item) rows items) : rows.mapM f = .ok items := by
  induction h with
  | nil => rfl
  | cons hrow _ ih =>
    rw [List.mapM_cons, hrow, ih]
    rfl

/-- Pages of the rows after a position, in descending order of their keys. A page gives `render` of at
most `limit` rows. The next page starts at the key of the last one, and no rows are left when there
is no next page. -/
structure Keyset (page : π → Option (List β × Option π)) (rows : List α) (key : α → Nat)
    (after : π → Nat → Bool) (position : Nat → π) (limit : Nat) (render : List α → List β) :
    Prop where
  descending : Descending key rows
  page : ∀ start, ∃ next,
    page start = some (render ((rows.filter fun row => after start (key row)).take limit), next) ∧
    (next = none → (rows.filter fun row => after start (key row)).length ≤ limit) ∧
    ∀ following, next = some following → ∃ last,
      ((rows.filter fun row => after start (key row)).take limit).getLast? = some last ∧
        following = position (key last)
  next : ∀ last ∈ rows, ∀ row ∈ rows,
    after (position (key last)) (key row) = decide (key row < key last)
  lower : ∀ start, ∀ last ∈ rows, ∀ row ∈ rows, key row < key last →
    after start (key last) = true → after start (key row) = true

namespace Keyset

variable {page : π → Option (List β × Option π)} {rows : List α} {key : α → Nat}
  {after : π → Nat → Bool} {position : Nat → π} {limit : Nat} {render : List α → List β}

theorem filter_next (h : Keyset page rows key after position limit render) {start : π} {last : α}
    (hlast : ((rows.filter fun row => after start (key row)).take limit).getLast? = some last) :
    rows.filter (fun row => after (position (key last)) (key row)) =
      (rows.filter fun row => after start (key row)).drop limit := by
  obtain ⟨front, hfront⟩ := List.getLast?_eq_some_iff.mp hlast
  have hmem : last ∈ rows.filter fun row => after start (key row) := by
    apply List.mem_of_mem_take
    rw [hfront]
    exact List.mem_concat_self
  obtain ⟨hrow, hstart⟩ := List.mem_filter.mp hmem
  have hsplit : rows.filter (fun row => after start (key row)) =
      front ++ last :: (rows.filter fun row => after start (key row)).drop limit := by
    conv_lhs => rw [← List.take_append_drop limit (rows.filter fun row => after start (key row)),
      hfront, List.append_assoc, List.singleton_append]
  have hdescending := h.descending.filter fun row => after start (key row)
  rw [hsplit] at hdescending
  have hbound := hdescending.filter_lt
  rw [← hsplit, List.filter_filter] at hbound
  rw [← hbound]
  apply List.filter_congr
  intro row hmem
  rw [h.next last hrow row hmem]
  by_cases hlt : key row < key last
  · simp [hlt, h.lower start last hrow row hmem hlt hstart]
  · simp [hlt]

theorem walk (h : Keyset page rows key after position limit render) (start : π) :
    ∃ chunks : List (List α), PageWalk page start (chunks.map render) ∧
      chunks.flatten = rows.filter fun row => after start (key row) := by
  generalize hcount : (rows.filter fun row => after start (key row)).length = count
  induction count using Nat.strong_induction_on generalizing start with
  | _ count ih =>
    obtain ⟨next, hpage, hnone, hsome⟩ := h.page start
    cases next with
    | none =>
      refine ⟨[(rows.filter fun row => after start (key row)).take limit], .last hpage, ?_⟩
      rw [List.flatten_singleton]
      exact List.take_of_length_le (hnone rfl)
    | some following =>
      obtain ⟨last, hlast, rfl⟩ := hsome following rfl
      have hrest := h.filter_next hlast
      have hfew : ((rows.filter fun row => after start (key row)).drop limit).length < count := by
        have hne : ((rows.filter fun row => after start (key row)).take limit).length ≠ 0 := by
          intro hzero
          rw [List.length_eq_zero_iff.mp hzero] at hlast
          cases hlast
        rw [List.length_take] at hne
        rw [List.length_drop]
        omega
      obtain ⟨chunks, hwalk, hflat⟩ := ih _ hfew (position (key last)) (by rw [hrest])
      refine ⟨(rows.filter fun row => after start (key row)).take limit :: chunks,
        .more hpage hwalk, ?_⟩
      rw [List.flatten_cons, hflat, hrest, List.take_append_drop]

end Keyset

end Yuke.Shared
