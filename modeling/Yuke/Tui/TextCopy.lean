import Yuke.Tui.TextRows

/-!
# A copy of a plain section
-/

set_option autoImplicit false
set_option linter.unusedSectionVars false

namespace Yuke.Tui

open Yuke.Shared

variable {g : Graphemes} {Item : Type} [DecidableEq Item] {content : Item → TextItem}
variable {time : Nat} {list : ScrollList Item String ViewRow} {text : Text} {key : String}
variable {start stop : Place}

theorem cutSegments_plain (row : WrapRow) (upper : Option Nat)
    (hupper : ∀ n, upper = some n → n = (slice text row.start row.stop).length) :
    cutSegments 0 upper 0 (plainRow text row).segments = slice text row.start row.stop := by
  simp only [plainRow, cutSegments, Nat.zero_add, Nat.sub_zero, Nat.max_self, List.append_nil]
  have hlast : min (upper.getD (slice text row.start row.stop).length)
      (slice text row.start row.stop).length = (slice text row.start row.stop).length := by
    cases upper with
    | none => simp
    | some n => simp [hupper n rfl]
  rw [hlast]
  split
  · simp [slice]
  · rename_i hempty
    simp only [true_and, Nat.not_lt, Nat.le_zero, List.length_eq_zero_iff] at hempty
    exact hempty.symm

theorem copyRows_plain (h : list.Sound (textOptions g content) time) {rows : List WrapRow} {row : Nat}
    (hrows : ∀ i r, rows[i]? = some r →
      (list.shown.allRows (textOptions g content) time)[row + i]? =
        some ((plainRow text r).inSection key))
    (hstart : start.offset = 0) (hstop : stop.row + 1 = row + rows.length)
    (hlast : ∀ r, rows.getLast? = some r → stop.offset = (slice text r.start r.stop).length) :
    (copyRows g content time start stop rows.length row list).1 = some (joinRows text rows) := by
  induction rows generalizing row list with
  | nil => rfl
  | cons first rows ih =>
    have hfirst := hrows 0 first rfl
    rw [Nat.add_zero] at hfirst
    have hrow : row < list.shown.total := by
      rw [← h.shown.length_allRows]
      exact (List.getElem?_eq_some_iff.mp hfirst).1
    obtain ⟨item, place, view, hview, hget⟩ := h.shown.rowAt_text hrow
    obtain rfl : (plainRow text first).inSection key = view := by
      rw [hfirst] at hget
      exact Option.some.inj hget
    obtain ⟨hread, hshown, hsound⟩ := rowAt_sound h row
    rw [hview] at hread
    rw [List.length_cons, copyRows]
    generalize list.rowAt (textOptions g content) time row = result at hread hshown hsound ⊢
    obtain ⟨found, next⟩ := result
    simp only at hread hshown hsound
    subst hread
    simp only
    have hupper : ∀ n, (if row = stop.row then some stop.offset else none) = some n →
        n = (slice text first.start first.stop).length := by
      intro n hn
      split at hn
      · rename_i hlastRow
        have hnil : rows = [] := by
          rw [List.length_cons] at hstop
          exact List.length_eq_zero_iff.mp (by omega)
        subst hnil
        cases hn
        exact hlast first rfl
      · cases hn
    have hlower : (if row = start.row then start.offset else 0) = 0 := by
      split
      · exact hstart
      · rfl
    have hcut : cutSegments 0 (if row = stop.row then some stop.offset else none) 0
        ((plainRow text first).inSection key).segments = slice text first.start first.stop :=
      cutSegments_plain first _ hupper
    rw [hlower, hcut]
    cases rows with
    | nil =>
      have hend : ¬ row < stop.row := by
        simp only [List.length_singleton] at hstop
        omega
      simp [copyRows, hend, joinRows]
    | cons second rows =>
      have hrest : ∀ i r, (second :: rows)[i]? = some r →
          (next.shown.allRows (textOptions g content) time)[row + 1 + i]? =
            some ((plainRow text r).inSection key) := by
        intro i r hr
        have := hrows (i + 1) r hr
        rw [hshown, show row + 1 + i = row + (i + 1) by omega]
        exact this
      have hnext := ih hsound hrest
        (by simp only [List.length_cons] at hstop ⊢; omega)
        (fun r hr => hlast r (by rw [List.getLast?_cons_cons]; exact hr))
      have hmore : row < stop.row := by
        simp only [List.length_cons] at hstop
        omega
      generalize copyRows g content time start stop (second :: rows).length (row + 1) next = rest
        at hnext ⊢
      obtain ⟨rest, last⟩ := rest
      simp only at hnext
      subst hnext
      simp only [if_pos hmore]
      rw [joinRows_cons text first (by simp)]
      rfl

theorem items_nodup (h : list.Sound (textOptions g content) time) :
    ((list.shown.items.map content).map TextItem.key).Nodup := by
  have hkeys : (list.shown.items.map content).map TextItem.key =
      list.shown.entries.map Entry.key := by
    rw [Shown.items, List.map_map, List.map_map]
    exact List.map_congr_left fun entry hentry => (h.shown.key entry hentry).symm
  rw [hkeys]
  exact h.shown.nodup

variable {item : Item} {part : TextSection}

theorem sectionAt_mem (h : list.Sound (textOptions g content) time) (hitem : item ∈ list.shown.items)
    (hpart : part ∈ (content item).sections)
    (hkeys : ((content item).sections.map TextSection.key).Nodup) (offset : Nat) :
    ∃ i j, sectionAt content list ⟨(content item).key, part.key, offset⟩ = some (i, j, part) := by
  obtain ⟨i, hi⟩ := List.mem_iff_getElem?.mp (List.mem_map_of_mem (f := content) hitem)
  obtain ⟨j, hj⟩ := List.mem_iff_getElem?.mp hpart
  refine ⟨i, j, ?_⟩
  simp only [sectionAt, findIdx_of_nodup (items_nodup h) hi, Option.bind_some, hi,
    findIdx_of_nodup hkeys hj, hj, Option.map_some]

theorem section_rows (h : list.Sound (textOptions g content) time)
    (hwidth : 0 < list.shown.size.width) (hitem : item ∈ list.shown.items)
    (hpart : part ∈ (content item).sections) (hplain : part.render = none)
    (hkeys : ((content item).sections.map TextSection.key).Nodup) :
    ∃ before pre post,
      list.shown.rowsOf (textOptions g content) time (content item).key =
        some (before, pre ++ viewRows g part.key part.text list.shown.size.width ++ post) ∧
      (∀ row ∈ pre, row.part ≠ part.key) ∧ (∀ row ∈ post, row.part ≠ part.key) ∧
      ∀ (i : Nat) view, (viewRows g part.key part.text list.shown.size.width)[i]? = some view →
        (list.shown.allRows (textOptions g content) time)[before + pre.length + i]? = some view := by
  obtain ⟨entry, hentry, rfl⟩ := List.mem_map.mp hitem
  obtain ⟨e, he⟩ := List.mem_iff_getElem?.mp hentry
  have hlt := (List.getElem?_eq_some_iff.mp he).1
  have hkey : entry.key = (content entry.item).key := h.shown.key entry hentry
  obtain ⟨hrowsOf, _⟩ := h.shown.sums he
  have hmeasure := h.shown.height entry hentry
  unfold measure at hmeasure
  rw [if_neg (by omega)] at hmeasure
  obtain ⟨rows, hrender, heq⟩ := Option.map_eq_some_iff.mp hmeasure
  have hheight : rows.length = entry.height := congrArg Entry.height heq
  obtain ⟨pre, post, hsplit, hpre, hpost⟩ := renderSections_plain hwidth hplain hpart
    hkeys (by simp) hrender
  have hne : entry.height ≠ 0 := by
    have hview : viewRows g part.key part.text list.shown.size.width ≠ [] := viewRows_ne_nil hwidth
    have := List.length_pos_iff.mpr hview
    rw [← hheight, hsplit]
    simp only [List.length_append]
    omega
  have hrows : list.shown.rows (textOptions g content) time entry = rows := by
    unfold Shown.rows
    rw [if_neg hne, hrender]
    rfl
  rw [hrows, hsplit, hkey] at hrowsOf
  refine ⟨_, pre, post, hrowsOf, hpre, hpost, fun i view hview => ?_⟩
  have hinside : (pre ++ viewRows g part.key part.text list.shown.size.width ++ post)[pre.length + i]? =
      some view := by
    have hi := (List.getElem?_eq_some_iff.mp hview).1
    rw [List.append_assoc, List.getElem?_append_right (by omega), Nat.add_sub_cancel_left,
      List.getElem?_append_left hi, hview]
  have hplace := (List.getElem?_eq_some_iff.mp hinside).1
  have hblock : (list.shown.entries.map (list.shown.rows (textOptions g content) time))[e]? =
      some rows := by
    rw [List.getElem?_map, he, ← hrows]
    rfl
  have hget := flatten_get hblock (hsplit ▸ hplace)
  rw [h.shown.rows_lengths, ← h.shown.rowsBefore (Nat.le_of_lt hlt), hsplit, hinside,
    ← Nat.add_assoc] at hget
  exact hget

theorem place_plain (h : list.Sound (textOptions g content) time)
    {before : Nat} {pre post : List ViewRow}
    (hrowsOf : list.shown.rowsOf (textOptions g content) time (content item).key =
      some (before, pre ++ viewRows g part.key part.text list.shown.size.width ++ post))
    (hpre : ∀ row ∈ pre, row.part ≠ part.key) (hpost : ∀ row ∈ post, row.part ≠ part.key)
    (offset : Nat) (bias : Bias) :
    ∃ found, (place g content time list ⟨(content item).key, part.key, offset⟩ bias).1 =
        some (Found.pick found bias) ∧
      found.places = rowPlaces offset (before + pre.length)
        (wrap g part.text (wrapWidth list.shown.size.width) 0) ∧
      (place g content time list ⟨(content item).key, part.key, offset⟩ bias).2.shown = list.shown ∧
      (place g content time list ⟨(content item).key, part.key, offset⟩ bias).2.Sound
        (textOptions g content) time := by
  obtain ⟨hread, hshown, hsound⟩ := rowsOf_sound h (content item).key
  rw [hrowsOf] at hread
  unfold place
  simp only
  generalize list.rowsOf (textOptions g content) time (content item).key = result
    at hread hshown hsound ⊢
  obtain ⟨found, next⟩ := result
  simp only at hread hshown hsound
  subst hread
  refine ⟨_, rfl, ?_, hshown, hsound⟩
  rw [placeRows_append, placeRows_append, placeRows_other hpre, placeRows_other hpost, viewRows,
    plainRows, List.map_map]
  exact placeRows_plain _ _ _

theorem viewText_plain (hends : LineEnds g) (h : list.Sound (textOptions g content) time)
    (hwidth : 0 < list.shown.size.width) (hitem : item ∈ list.shown.items)
    (hpart : part ∈ (content item).sections) (hplain : part.render = none)
    (hkeys : ((content item).sections.map TextSection.key).Nodup) :
    (viewText g content time list ⟨(content item).key, part.key, 0⟩
      ⟨(content item).key, part.key, part.text.length⟩).1 = some (withLf part.text) := by
  obtain ⟨before, pre, post, hrowsOf, hpre, hpost, hall⟩ :=
    section_rows h hwidth hitem hpart hplain hkeys
  have hwrap : wrapWidth list.shown.size.width = some list.shown.size.width :=
    if_neg (Nat.ne_of_gt hwidth)
  have hrows := wrap_rows g part.text list.shown.size.width
  obtain ⟨init, last, hinit, hstop, _, hle, hbefore⟩ := plain_final g part.text hwidth
  -- the first place is at the start of the first row, and the last one at the end of the last row
  obtain ⟨first, rest, hfirst, hstart, _, hafter⟩ := hrows.first pieces_nonempty
  have hplaces : rowPlaces 0 (before + pre.length) (wrap g part.text
      (wrapWidth list.shown.size.width) 0) = [⟨before + pre.length, 0⟩] := by
    rw [hwrap, hfirst, rowPlaces, if_pos (by omega), rowPlaces_none fun r hr => .inl (hafter r hr)]
    simp
  have hplaces' : rowPlaces part.text.length (before + pre.length) (wrap g part.text
      (wrapWidth list.shown.size.width) 0) =
        [⟨before + pre.length + init.length, part.text.length - last.start⟩] := by
    rw [hinit, rowPlaces_append, rowPlaces_none fun r hr => .inr (hbefore r hr), rowPlaces,
      if_pos (by omega)]
    simp [rowPlaces]
  obtain ⟨i, j, hsection⟩ := sectionAt_mem h hitem hpart hkeys 0
  obtain ⟨i', j', hsection'⟩ := sectionAt_mem h hitem hpart hkeys part.text.length
  have hsame : (i, j, part) = (i', j', part) := by
    rw [← Option.some.injEq, ← hsection, ← hsection']
    rfl
  cases hsame
  obtain ⟨found, hplace, hfound, hshown, hsound⟩ :=
    place_plain h hrowsOf hpre hpost 0 .after
  unfold viewText
  simp only [hsection, hsection']
  rw [if_neg (by simp), if_neg (by simp [isAfter])]
  simp only
  generalize place g content time list ⟨(content item).key, part.key, 0⟩ .after = result
    at hplace hshown hsound ⊢
  obtain ⟨start, next⟩ := result
  simp only at hplace hshown hsound
  have hpick : found.pick .after = some ⟨before + pre.length, 0⟩ := by
    simp [Found.pick, hfound, hplaces]
  rw [hpick] at hplace
  subst hplace
  rw [← hshown] at hrowsOf hwidth hinit hplaces' hall
  obtain ⟨found', hplace', hfound', hshown', hsound'⟩ :=
    place_plain hsound hrowsOf hpre hpost part.text.length .before
  simp only
  generalize place g content time next ⟨(content item).key, part.key, part.text.length⟩ .before =
    result at hplace' hshown' hsound' ⊢
  obtain ⟨stop, last'⟩ := result
  simp only at hplace' hshown' hsound'
  have hpick' : found'.pick .before =
      some ⟨before + pre.length + init.length, part.text.length - last.start⟩ := by
    simp [Found.pick, hfound', hplaces']
  rw [hpick'] at hplace'
  subst hplace'
  simp only
  rw [if_neg (by omega)]
  have hcount : before + pre.length + init.length + 1 - (before + pre.length) =
      (wrap g part.text (wrapWidth next.shown.size.width) 0).length := by
    rw [hinit, List.length_append, List.length_singleton]
    omega
  rw [hcount, ← joinRows_wrap hends part.text list.shown.size.width]
  rw [hshown] at hinit hall hcount
  rw [hshown, ← hwrap]
  have hrow : ∀ i r, (wrap g part.text (wrapWidth list.shown.size.width) 0)[i]? = some r →
      (last'.shown.allRows (textOptions g content) time)[before + pre.length + i]? =
        some ((plainRow part.text r).inSection part.key) := by
    intro i r hr
    rw [hshown', hshown]
    refine hall i _ ?_
    rw [viewRows, plainRows, List.map_map, List.getElem?_map, hr]
    rfl
  refine copyRows_plain hsound' hrow rfl ?_ fun r hr => ?_
  · simp only
    omega
  · rw [hinit, List.getLast?_concat] at hr
    cases hr
    simp only [slice, List.length_drop, List.length_take]
    omega

end Yuke.Tui
