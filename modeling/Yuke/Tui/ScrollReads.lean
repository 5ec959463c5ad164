import Yuke.Tui.ScrollSound

/-!
# The rows that a scroll list gives and draws
-/

set_option autoImplicit false
set_option linter.unusedSectionVars false

namespace Yuke.Tui

open Yuke.Shared

variable {Item Key Row : Type} [DecidableEq Item] [DecidableEq Key]

namespace Shown

variable (o : ScrollOptions Item Key Row) (time : Nat) (shown : Shown Item Key)

def allRows : List Row := (shown.entries.map (shown.rows o time)).flatten

def rowAt (row : Int) : Option (Item × Nat × Option Row) :=
  if row < 0 ∨ shown.total ≤ row then none
  else
    ((shown.entryAt row.toNat).bind fun i => shown.entries[i]?.map fun e => (i, e)).map
      fun (i, entry) =>
        let place := row.toNat - shown.rowsBefore i
        (entry.item, place, (shown.rows o time entry)[place]?)

def rowsOf (key : Key) : Option (Nat × List Row) :=
  ((shown.index key).bind fun i => shown.entries[i]?.map fun e => (i, e)).map
    fun (i, entry) => (shown.rowsBefore i, shown.rows o time entry)

def drawn (height : Nat) : List Row := ((shown.allRows o time).drop shown.top).take height

end Shown

variable {o : ScrollOptions Item Key Row} {time : Nat} {shown : Shown Item Key}
variable {list : ScrollList Item Key Row} {entry : Entry Item Key} {i row lines : Nat}

namespace Shown

theorem Sound.rows_lengths (h : shown.Sound o time) :
    (shown.entries.map (shown.rows o time)).map List.length = shown.entries.map Entry.height := by
  rw [List.map_map]
  exact List.map_congr_left fun entry hentry => h.rows_length hentry

theorem Sound.length_allRows (h : shown.Sound o time) :
    (shown.allRows o time).length = shown.total := by
  rw [h.total, ← h.rows_lengths, allRows, List.length_flatten]

theorem Sound.entryAt (h : shown.Sound o time) (hrow : row ≤ shown.total)
    (htotal : 0 < shown.total) :
    ∃ i entry, shown.entryAt row = some i ∧ shown.entries[i]? = some entry ∧
      shown.rowsBefore i ≤ row ∧ row ≤ shown.rowsBefore i + entry.height ∧
      (row < shown.total → row < shown.rowsBefore i + entry.height) := by
  have hne : 0 < shown.entries.length := by
    rw [h.total] at htotal
    cases hentries : shown.entries with
    | nil => simp [hentries] at htotal
    | cons => simp
  unfold Shown.entryAt
  rw [if_neg (by omega), h.before]
  have hwhole : shown.entries.length - 1 - 0 ≤ shown.entries.length := by omega
  have hend : shown.entries.length - 1 ≤ (shown.entries.map Entry.height).length := by simp
  have hstart : ((shown.entries.map Entry.height).take 0).sum ≤ row := by simp
  obtain ⟨hlow, hhigh, hsum, hnext⟩ := lastAtMost_spec hwhole (Nat.zero_le _) hend hstart
  generalize lastAtMost (sums (shown.entries.map Entry.height)) row shown.entries.length 0
    (shown.entries.length - 1) = i at hlow hhigh hsum hnext ⊢
  have hi : i < shown.entries.length := by omega
  have hentry := List.getElem?_eq_getElem hi
  have hheight : (shown.entries.map Entry.height)[i]? = some shown.entries[i].height := by
    rw [List.getElem?_map, hentry]
    rfl
  have hsucc := take_succ_sum hheight
  refine ⟨i, shown.entries[i], rfl, hentry, ?_, ?_, ?_⟩
  · rw [h.rowsBefore (Nat.le_of_lt hi)]
    exact hsum
  all_goals
    rw [h.rowsBefore (Nat.le_of_lt hi), ← hsucc]
    by_cases hlast : i + 1 ≤ shown.entries.length - 1
    · have := hnext (i + 1) (Nat.lt_succ_self i) hlast
      omega
    · have hall : ((shown.entries.map Entry.height).take (i + 1)).sum = shown.total := by
        rw [h.total, List.take_of_length_le (by simp; omega)]
      omega

theorem Sound.rowAt_text (h : shown.Sound o time) (hrow : row < shown.total) :
    ∃ item place text, shown.rowAt o time row = some (item, place, some text) ∧
      (shown.allRows o time)[row]? = some text := by
  obtain ⟨i, entry, hat, hentry, hlow, _, hhigh⟩ := h.entryAt (Nat.le_of_lt hrow) (by omega)
  have hmem := List.mem_of_getElem? hentry
  have hi := (List.getElem?_eq_some_iff.mp hentry).1
  have hplace : row - shown.rowsBefore i < (shown.rows o time entry).length := by
    rw [h.rows_length hmem]
    have := hhigh hrow
    omega
  have hblock : (shown.entries.map (shown.rows o time))[i]? = some (shown.rows o time entry) := by
    rw [List.getElem?_map, hentry]
    rfl
  have hget := flatten_get hblock hplace
  rw [h.rows_lengths, ← h.rowsBefore (Nat.le_of_lt hi), Nat.add_sub_cancel' hlow,
    List.getElem?_eq_getElem hplace] at hget
  refine ⟨entry.item, row - shown.rowsBefore i, _, ?_, hget⟩
  unfold Shown.rowAt
  rw [if_neg (by omega), Int.toNat_natCast, hat, Option.bind_some, hentry, Option.map_some,
    Option.map_some]
  simp only
  rw [List.getElem?_eq_getElem hplace]

theorem Sound.sums (h : shown.Sound o time) (hentry : shown.entries[i]? = some entry) :
    shown.rowsOf o time entry.key = some (shown.rowsBefore i, shown.rows o time entry) ∧
      shown.rowsBefore (i + 1) = shown.rowsBefore i + (shown.rows o time entry).length := by
  have hi := (List.getElem?_eq_some_iff.mp hentry).1
  refine ⟨?_, ?_⟩
  · unfold Shown.rowsOf
    rw [index_of_nodup h.nodup hentry, Option.bind_some, hentry]
    rfl
  · rw [h.rowsBefore hi, h.rowsBefore (Nat.le_of_lt hi), h.rows_length (List.mem_of_getElem? hentry)]
    exact take_succ_sum (by rw [List.getElem?_map, hentry]; rfl)

end Shown

/-! ## The reads of the list -/

theorem rowAt_sound (h : list.Sound o time) (row : Int) :
    (list.rowAt o time row).1 = some (list.shown.rowAt o time row) ∧
      (list.rowAt o time row).2.shown = list.shown ∧ (list.rowAt o time row).2.Sound o time := by
  unfold ScrollList.rowAt Shown.rowAt
  split
  · exact ⟨rfl, rfl, h⟩
  · cases hfound : (list.shown.entryAt row.toNat).bind
        fun i => list.shown.entries[i]?.map fun e => (i, e) with
    | none => exact ⟨rfl, rfl, h⟩
    | some found =>
      obtain ⟨i, entry⟩ := found
      obtain ⟨j, _, hmap⟩ := Option.bind_eq_some_iff.mp hfound
      obtain ⟨e, hentry, heq⟩ := Option.map_eq_some_iff.mp hmap
      cases heq
      obtain ⟨hrows, hshown, hsound⟩ := entryRows_sound h (List.mem_of_getElem? hentry)
      simp only
      generalize list.entryRows o time entry = result at hrows hshown hsound ⊢
      obtain ⟨rows, next⟩ := result
      simp only at hrows
      subst hrows
      exact ⟨rfl, hshown, hsound⟩

theorem rowsOf_sound (h : list.Sound o time) (key : Key) :
    (list.rowsOf o time key).1 = some (list.shown.rowsOf o time key) ∧
      (list.rowsOf o time key).2.shown = list.shown ∧
      (list.rowsOf o time key).2.Sound o time := by
  unfold ScrollList.rowsOf Shown.rowsOf
  cases hfound : (list.shown.index key).bind
      fun i => list.shown.entries[i]?.map fun e => (i, e) with
  | none => exact ⟨rfl, rfl, h⟩
  | some found =>
    obtain ⟨i, entry⟩ := found
    obtain ⟨j, _, hmap⟩ := Option.bind_eq_some_iff.mp hfound
    obtain ⟨e, hentry, heq⟩ := Option.map_eq_some_iff.mp hmap
    cases heq
    obtain ⟨hrows, hshown, hsound⟩ := entryRows_sound h (List.mem_of_getElem? hentry)
    simp only
    generalize list.entryRows o time entry = result at hrows hshown hsound ⊢
    obtain ⟨rows, next⟩ := result
    simp only at hrows
    subst hrows
    exact ⟨rfl, hshown, hsound⟩

theorem drawFrom_sound {fuel : Nat} (h : list.Sound o time)
    (hfuel : lines + (list.shown.entries.length - i) ≤ fuel)
    (hrow : ∀ entry, list.shown.entries[i]? = some entry →
      row ≤ (list.shown.rows o time entry).length) :
    (ScrollList.drawFrom o time fuel list i row lines).1 =
        some ((((list.shown.entries.drop i).map (list.shown.rows o time)).flatten.drop row).take
          lines) ∧
      (ScrollList.drawFrom o time fuel list i row lines).2.shown = list.shown ∧
      (ScrollList.drawFrom o time fuel list i row lines).2.Sound o time := by
  induction fuel generalizing list i row lines with
  | zero =>
    obtain rfl : lines = 0 := by omega
    exact ⟨by simp [ScrollList.drawFrom], rfl, h⟩
  | succ fuel ih =>
    unfold ScrollList.drawFrom
    cases lines with
    | zero => exact ⟨by simp, rfl, h⟩
    | succ lines =>
      cases hentry : list.shown.entries[i]? with
      | none =>
        have hdrop : list.shown.entries.drop i = [] :=
          List.drop_eq_nil_of_le (List.getElem?_eq_none_iff.mp hentry)
        exact ⟨by simp [hdrop], rfl, h⟩
      | some entry =>
        obtain ⟨hi, heq⟩ := List.getElem?_eq_some_iff.mp hentry
        have hdrop : list.shown.entries.drop i = entry :: list.shown.entries.drop (i + 1) := by
          rw [← heq]
          exact List.drop_eq_getElem_cons hi
        obtain ⟨hrows, hshown, hsound⟩ := entryRows_sound h (List.mem_of_getElem? hentry)
        have hplace := hrow entry hentry
        simp only
        generalize list.entryRows o time entry = result at hrows hshown hsound ⊢
        obtain ⟨rows, next⟩ := result
        simp only at hrows hshown hsound
        subst hrows
        simp only
        cases htext : (list.shown.rows o time entry)[row]? with
        | none =>
          have hend : row = (list.shown.rows o time entry).length := by
            have := List.getElem?_eq_none_iff.mp htext
            omega
          have hless : lines + 1 + (next.shown.entries.length - (i + 1)) ≤ fuel := by
            rw [hshown]
            omega
          have hnext := ih hsound hless (fun _ _ => Nat.zero_le _)
          rw [hshown] at hnext
          rw [hdrop, List.map_cons, List.flatten_cons, hend, List.drop_left]
          exact hnext
        | some text =>
          obtain ⟨hlt, htext⟩ := List.getElem?_eq_some_iff.mp htext
          have hless : lines + (next.shown.entries.length - i) ≤ fuel := by
            rw [hshown]
            omega
          have hinside : ∀ other, next.shown.entries[i]? = some other →
              row + 1 ≤ (next.shown.rows o time other).length := by
            intro other hother
            rw [hshown, hentry] at hother
            cases hother
            rw [hshown]
            omega
          have hnext := ih hsound hless hinside
          rw [hshown] at hnext
          have hcut : (((list.shown.entries.drop i).map (list.shown.rows o time)).flatten.drop row) =
              text :: (((list.shown.entries.drop i).map (list.shown.rows o time)).flatten.drop
                (row + 1)) := by
            rw [hdrop, List.map_cons, List.flatten_cons, List.drop_append_of_le_length (by omega),
              List.drop_append_of_le_length (by omega), List.drop_eq_getElem_cons hlt, htext]
            rfl
          rw [hcut, List.take_succ_cons]
          simp only
          generalize ScrollList.drawFrom o time fuel next i (row + 1) lines = drawn at hnext ⊢
          obtain ⟨texts, last⟩ := drawn
          obtain ⟨htexts, hlast⟩ := hnext
          simp only at htexts
          subst htexts
          exact ⟨rfl, hlast⟩

theorem draw_sound (h : list.Sound o time) (height : Nat) :
    (list.draw o time height).1 = some (list.shown.drawn o time height) ∧
      (list.draw o time height).2.shown = list.shown ∧
      (list.draw o time height).2.Sound o time := by
  unfold ScrollList.draw Shown.drawn
  by_cases htotal : list.shown.total = 0
  · have hrows : list.shown.allRows o time = [] := by
      rw [← List.length_eq_zero_iff, h.shown.length_allRows, htotal]
    have hnone : list.shown.entryAt list.shown.top = none := if_pos htotal
    rw [hnone, hrows]
    exact ⟨by simp, rfl, h⟩
  · have htop : list.shown.top ≤ list.shown.total := h.shown.top.trans (Nat.sub_le _ _)
    obtain ⟨i, entry, hat, hentry, hlow, hhigh, _⟩ := h.shown.entryAt htop (by omega)
    have hi := (List.getElem?_eq_some_iff.mp hentry).1
    have hlength := h.shown.rows_length (List.mem_of_getElem? hentry)
    simp only [hat]
    have hplace : ∀ other, list.shown.entries[i]? = some other →
        list.shown.top - list.shown.rowsBefore i ≤ (list.shown.rows o time other).length := by
      intro other hother
      rw [hentry] at hother
      cases hother
      omega
    have hfuel : height + (list.shown.entries.length - i) ≤ height + list.shown.entries.length :=
      Nat.add_le_add_left (Nat.sub_le _ i) height
    have hdraw := drawFrom_sound h hfuel hplace
    have hblock : (list.shown.entries.map (list.shown.rows o time))[i]? =
        some (list.shown.rows o time entry) := by
      rw [List.getElem?_map, hentry]
      rfl
    have hinside : list.shown.top - list.shown.rowsBefore i ≤
        (list.shown.rows o time entry).length := by omega
    have hdrop := flatten_drop hblock hinside
    rw [h.shown.rows_lengths, ← h.shown.rowsBefore (Nat.le_of_lt hi),
      Nat.add_sub_cancel' hlow] at hdrop
    have hsame : (((list.shown.entries.drop i).map (list.shown.rows o time)).flatten.drop
        (list.shown.top - list.shown.rowsBefore i)) =
          (list.shown.allRows o time).drop list.shown.top := by
      rw [Shown.allRows, hdrop, List.drop_eq_getElem_cons hi, List.map_cons, List.flatten_cons,
        List.drop_append_of_le_length (by rw [(List.getElem?_eq_some_iff.mp hentry).2]; omega),
        (List.getElem?_eq_some_iff.mp hentry).2, List.map_drop]
    rw [hsame] at hdraw
    exact hdraw

end Yuke.Tui
