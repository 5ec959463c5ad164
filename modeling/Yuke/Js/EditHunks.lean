import Yuke.Js.EditChanges

/-!
# The hunks of an edit

The hunk of a group of changes has three lines of context on each side. The hunks of changes that fit
turn the old lines into the new ones.
-/

set_option autoImplicit false

namespace Yuke.Js.Edit

open Yuke.Shared

theorem range_append (lines : List Text) {start middle stop : ℕ} (hmiddle : start ≤ middle)
    (hstop : middle ≤ stop) :
    range lines start middle ++ range lines middle stop = range lines start stop := by
  rw [range, range, range, show stop - start = (middle - start) + (stop - middle) by omega,
    List.take_add, List.drop_drop, show start + (middle - start) = middle by omega]

theorem range_self (lines : List Text) (start : ℕ) : range lines start start = [] := by
  rw [range, Nat.sub_self, List.take_zero]

theorem range_same {old new : List Text} {i j count : ℕ}
    (hsame : ∀ k < count, old[i + k]? = new[j + k]?) :
    range old i (i + count) = range new j (j + count) := by
  rw [range, range, Nat.add_sub_cancel_left, Nat.add_sub_cancel_left]
  apply List.ext_getElem?
  intro k
  rw [List.getElem?_take, List.getElem?_take]
  split
  · next hk => rw [List.getElem?_drop, List.getElem?_drop, hsame k hk]
  · rfl

/-- The rows so far show the old lines from `i` to `l` and the new lines from `j` to `m`. -/
structure RowsFit (old new : List Text) (i j l m : ℕ) (r : Rows) : Prop where
  line : r.line = l
  oldLines : oldSide r.rows = range old i l
  newLines : newSide r.rows = range new j m
  added : r.added = m - j
  oldFrom : i ≤ l
  newFrom : j ≤ m

section Rows

variable {old new : List Text} {i j l m : ℕ} {r : Rows}

theorem rowsFit_nil (old new : List Text) (i j : ℕ) : RowsFit old new i j i j ⟨i, 0, []⟩ where
  line := rfl
  oldLines := (range_self old i).symm
  newLines := (range_self new j).symm
  added := (Nat.sub_self j).symm
  oldFrom := le_rfl
  newFrom := le_rfl

theorem RowsFit.keepTo (h : RowsFit old new i j l m r) {count : ℕ}
    (hsame : ∀ k < count, old[l + k]? = new[m + k]?) :
    RowsFit old new i j (l + count) (m + count) (keepTo old (l + count) r) := by
  have hold := h.oldFrom
  have hnew := h.newFrom
  constructor
  · rw [Edit.keepTo, h.line]
    exact max_eq_right (Nat.le_add_right l count)
  · rw [Edit.keepTo, oldSide_append, (sides_keep _).1, h.oldLines, h.line, range_append old hold
      (Nat.le_add_right l count)]
  · rw [Edit.keepTo, newSide_append, (sides_keep _).2, h.newLines, h.line, range_same hsame,
      range_append new hnew (Nat.le_add_right m count)]
  · rw [Edit.keepTo, h.line, h.added]
    dsimp only
    omega
  · omega
  · omega

theorem RowsFit.removeTo (h : RowsFit old new i j l m r) {stop : ℕ} (hstop : l ≤ stop) :
    RowsFit old new i j stop m (removeTo old stop r) := by
  constructor
  · rw [Edit.removeTo, h.line]
    exact max_eq_right hstop
  · rw [Edit.removeTo, oldSide_append, (sides_remove _).1, h.oldLines, h.line,
      range_append old h.oldFrom hstop]
  · rw [Edit.removeTo, newSide_append, (sides_remove _).2, h.newLines, List.append_nil]
  · exact h.added
  · exact h.oldFrom.trans hstop
  · exact h.newFrom

theorem RowsFit.addLines (h : RowsFit old new i j l m r) {stop : ℕ} (hstop : m ≤ stop) :
    RowsFit old new i j l stop (addLines new m stop r) := by
  have hnew := h.newFrom
  constructor
  · exact h.line
  · rw [Edit.addLines, oldSide_append, (sides_add _).1, h.oldLines, List.append_nil]
  · rw [Edit.addLines, newSide_append, (sides_add _).2, h.newLines, range_append new hnew hstop]
  · rw [Edit.addLines, h.added]
    dsimp only
    omega
  · exact h.oldFrom
  · omega

theorem RowsFit.changeRows (h : RowsFit old new i j l m r) {change : Change}
    (hfits : ChangeFits old new l m change) :
    RowsFit old new i j change.past change.stop (changeRows old new r change) := by
  have hafter := hfits.after
  have hshift := hfits.shift
  have hkeep := h.keepTo hfits.same
  rw [show l + (change.first - l) = change.first by omega,
    show m + (change.first - l) = change.start by omega] at hkeep
  exact (hkeep.removeTo hfits.oldRange).addLines hfits.newRange

theorem RowsFit.group {head : Change} {more rest : List Change} (h : RowsFit old new i j l m r)
    (hfits : ChangesFit old new l m (head :: (more ++ rest))) (tail : Change)
    (htail : (head :: more).getLast? = some tail) :
    RowsFit old new i j tail.past tail.stop ((head :: more).foldl (Edit.changeRows old new) r) ∧
      ChangesFit old new tail.past tail.stop rest ∧ tail.past ≤ old.length ∧
        tail.stop ≤ new.length ∧ head.first ≤ tail.past := by
  induction more generalizing l m r head with
  | nil =>
    cases htail
    obtain ⟨hhead, hrest⟩ := hfits
    exact ⟨h.changeRows hhead, hrest, hhead.oldBound, hhead.newBound, hhead.oldRange⟩
  | cons next more ih =>
    obtain ⟨hhead, hrest⟩ := hfits
    rw [List.getLast?_cons_cons] at htail
    obtain ⟨hrows, hchanges, hbound, hbound', hle⟩ := ih (h.changeRows hhead) hrest htail
    have hafter := hrest.1.after
    have hrange := hhead.oldRange
    exact ⟨hrows, hchanges, hbound, hbound', by omega⟩

end Rows

section Next

variable {old new : List Text} {i j : ℕ} {changes : List Change}

theorem ChangesFit.advance (h : ChangesFit old new i j changes) (count : ℕ)
    (hbound : i + count ≤ old.length) (hj : j ≤ new.length) (hnext : ∀ next ∈ changes.head?, i + count ≤ next.first) :
    (∀ k < count, old[i + k]? = new[j + k]?) ∧ j + count ≤ new.length ∧
      ChangesFit old new (i + count) (j + count) changes := by
  cases changes with
  | nil =>
    have hdrop : old.drop i = new.drop j := h
    have hlength := congrArg List.length hdrop
    rw [List.length_drop, List.length_drop] at hlength
    refine ⟨?_, ?_, ?_⟩
    · intro k _
      have hline := congrArg (·[k]?) hdrop
      rwa [List.getElem?_drop, List.getElem?_drop] at hline
    · omega
    · rw [ChangesFit, ← List.drop_drop, ← List.drop_drop, hdrop]
  | cons next rest =>
    obtain ⟨hfits, hrest⟩ := h
    have hle := hnext next rfl
    have hshift := hfits.shift
    have hnewRange := hfits.newRange
    have hnewBound := hfits.newBound
    refine ⟨?_, by omega, ?_, hrest⟩
    · intro k hk
      exact hfits.same k (by omega)
    · refine { hfits with after := hle, shift := by omega, same := ?_ }
      intro k hk
      rw [Nat.add_assoc, Nat.add_assoc]
      exact hfits.same (count + k) (by omega)

end Next

/-! ## Groups -/

theorem groupsOf_cons (head : Change) (changes : List Change) : ∃ more rest tail,
    changes = more ++ rest ∧ groupsOf (head :: changes) = (head :: more) :: groupsOf rest ∧
      (head :: more).getLast? = some tail ∧ ∀ next ∈ rest.head?, near tail next = false := by
  induction changes generalizing head with
  | nil => exact ⟨[], [], head, rfl, rfl, rfl, nofun⟩
  | cons next changes ih =>
    rw [groupsOf]
    split
    · obtain ⟨more, rest, tail, rfl, hgroups, htail, hfar⟩ := ih next
      refine ⟨next :: more, rest, tail, rfl, ?_, ?_, hfar⟩
      · rw [hgroups, List.modifyHead_cons]
      · rw [List.getLast?_cons_cons, htail]
    · next hfar =>
      refine ⟨[], next :: changes, head, rfl, rfl, rfl, ?_⟩
      intro other hother
      cases hother
      exact Bool.not_eq_true _ ▸ hfar

section Hunks

variable {old new : List Text} {i j : ℕ}

theorem hunksFit_hunksOf {changes : List Change} (h : ChangesFit old new i j changes)
    (hold : 0 < old.length)
    (hfirst : ∀ head ∈ changes.head?, i = 0 ∨ i + context ≤ head.first) :
    HunksFit old new i j (hunksOf old new changes) ∧
      ∀ hunk ∈ hunksOf old new changes, 0 < hunk.oldCount := by
  induction hlength : changes.length using Nat.strong_induction_on generalizing changes i j with
  | _ length ih =>
    cases changes with
    | nil => exact ⟨h, fun hunk hmem => absurd hmem List.not_mem_nil⟩
    | cons head changes =>
      obtain ⟨more, rest, tail, rfl, hgroups, htail, hfar⟩ := groupsOf_cons head changes
      have hlast : (head :: more).getLast (List.cons_ne_nil _ _) = tail := by
        rw [List.getLast?_eq_some_getLast (List.cons_ne_nil _ _)] at htail
        exact Option.some.inj htail
      have hcontext : context = 3 := rfl
      have hhead := hfirst head rfl
      have hshift := h.1.shift
      have hafter := h.1.after
      have hrange := h.1.oldRange
      have hbound := h.1.oldBound
      have hnewRange := h.1.newRange
      have hnewBound := h.1.newBound
      obtain ⟨kept, hkept⟩ : ∃ kept, head.first - context = i + kept :=
        ⟨head.first - context - i, by omega⟩
      -- The context before the group.
      obtain ⟨hsame, hnew, hgroup⟩ := h.advance kept (by omega) (by omega) (by
        intro next hnext
        cases hnext
        omega)
      obtain ⟨hrows, hrest, htailBound, htailBound', htailRange⟩ :=
        (rowsFit_nil old new (i + kept) (j + kept)).group hgroup tail htail
      -- The context after the group.
      obtain ⟨count, hcount⟩ : ∃ count, min old.length (tail.past + context) = tail.past + count :=
        ⟨min old.length (tail.past + context) - tail.past, by omega⟩
      have hgap : ∀ next ∈ rest.head?, tail.past + 2 * context < next.first := by
        intro next hnext
        have hnear := hfar next hnext
        rw [near, decide_eq_false_iff_not] at hnear
        omega
      obtain ⟨hsameAfter, hnewAfter, hmore⟩ := hrest.advance count (by omega) htailBound' (by
        intro next hnext
        have := hgap next hnext
        omega)
      have hall := hrows.keepTo hsameAfter
      have hnewFrom := hall.newFrom
      have hnext : ∀ next ∈ rest.head?, tail.past + count = 0 ∨
          tail.past + count + context ≤ next.first := by
        intro next hnext
        have := hgap next hnext
        omega
      obtain ⟨hhunks, hpositive⟩ := ih rest.length (by
        rw [← hlength, List.length_cons, List.length_append]
        omega) hmore hnext rfl
      have hhunk : hunkOf old new head more =
          { oldLine := i + kept + 1
            oldCount := tail.past + count - (i + kept)
            newLine := i + kept + head.start - head.first + 1
            newCount := tail.stop + count - (j + kept)
            rows := (keepTo old (tail.past + count)
              ((head :: more).foldl (changeRows old new) ⟨i + kept, 0, []⟩)).rows } := by
        unfold hunkOf
        dsimp only
        rw [hlast, hkept, hcount, hall.added]
      rw [hunksOf, hgroups, List.filterMap_cons]
      dsimp only
      rw [← hunksOf, hhunk]
      refine ⟨⟨kept, ?_, ?_⟩, ?_⟩
      · constructor
        · rfl
        · dsimp only
          omega
        · have hrange := range_same hsame
          rwa [range, range, Nat.add_sub_cancel_left, Nat.add_sub_cancel_left] at hrange
        · exact hall.oldLines
        · exact hall.newLines
        · dsimp only
          omega
        · dsimp only
          omega
      · dsimp only
        rw [show i + kept + (tail.past + count - (i + kept)) = tail.past + count by omega,
          show j + kept + (tail.stop + count - (j + kept)) = tail.stop + count by omega]
        exact hhunks
      · intro hunk hmem
        rcases List.mem_cons.mp hmem with rfl | hmem
        · dsimp only
          omega
        · exact hpositive hunk hmem

theorem hunksFit_patchHunks {parts : List Text} {oldString newString : Text}
    (hold : oldString ≠ []) (hcount : 1 < parts.length) :
    HunksFit (linesOf (oldString.intercalate parts)) (linesOf (newString.intercalate parts)) 0 0
        (patchHunks parts oldString newString) ∧
      ∀ hunk ∈ patchHunks parts oldString newString, 0 < hunk.oldCount := by
  have hbefore : oldString.intercalate parts ≠ [] := by
    obtain ⟨part, next, more, rfl⟩ := two_parts hcount
    rw [List.intercalate_cons_cons, List.append_assoc]
    exact List.append_ne_nil_of_right_ne_nil _ (List.append_ne_nil_of_left_ne_nil hold _)
  have hlines := count_lt_length_linesOf [] hbefore
  have hchanges : ChangesFit _ (linesOf (newString.intercalate parts)) 0 0 _ :=
    changesFit_matchChanges hold rfl rfl hcount
  have htrim := hchanges.trim (Nat.zero_le 0) (Nat.zero_le 0) fun k hk => absurd hk (Nat.not_lt_zero k)
  exact hunksFit_hunksOf htrim hlines fun head _ => .inl rfl

theorem patchHunks_ne_nil {parts : List Text} {oldString newString : Text}
    (hcount : 1 < parts.length) : patchHunks parts oldString newString ≠ [] := by
  obtain ⟨part, next, more, rfl⟩ := two_parts hcount
  unfold patchHunks
  dsimp only
  rw [List.dropLast_cons_cons, matchChanges, List.foldl_cons]
  change hunksOf _ _ ((List.foldl pushChange ([] ++ [_]) _).map _) ≠ []
  rw [foldl_pushChange, List.nil_append]
  obtain ⟨head, changes, hchanges⟩ := List.exists_cons_of_ne_nil (merged_ne_nil _ _)
  rw [hchanges, List.map_cons, hunksOf]
  obtain ⟨group, rest, tail, _, hgroups, _⟩ := groupsOf_cons (trim _ _ head) (changes.map (trim _ _))
  rw [hgroups]
  exact List.cons_ne_nil _ _

end Hunks

end Yuke.Js.Edit
