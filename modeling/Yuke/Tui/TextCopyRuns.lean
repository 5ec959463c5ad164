import Yuke.Tui.ScrollRuns
import Yuke.Tui.TextCopy

/-!
# Runs of a text view

A layout that throws can leave the rows of another width among those of the list. In a run without
such a layout, a copy over a plain section gives its text at every width.
-/

set_option autoImplicit false

namespace Yuke.Tui

open Yuke.Shared

/-- The rows of a wrap take the text apart, a head gives the first of them, and, while no layout
throws after a render changed the rows of an entry, a copy over a plain section does not depend on
the width. -/
theorem wrap_partition_copy (g : Graphemes) :
    (∀ text width, Rows width 0 (pieces g text) (wrap g text (some width) 0) ∧
      ∀ head, 0 < head →
        wrap g text (some width) head = (wrap g text (some width) 0).take head) ∧
    (LineEnds g → ∀ {Item : Type} [DecidableEq Item] (content : Item → TextItem)
      (followTail : Bool) (events : List (ScrollEvent Item String × Nat))
      (s : Timed Item String ViewRow) (time : Nat) (item : Item) (part : TextSection),
      Steps (when (Timed.Unmixed (textOptions g content)) (Timed.next (textOptions g content)))
        (.new followTail) events s → s.time ≤ time → 0 < s.list.shown.size.width →
      item ∈ s.list.shown.items → part ∈ (content item).sections → part.render = none →
      ((content item).sections.map TextSection.key).Nodup →
      (viewText g content time s.list ⟨(content item).key, part.key, 0⟩
        ⟨(content item).key, part.key, part.text.length⟩).1 = some (withLf part.text)) :=
  ⟨fun text width => ⟨wrap_rows g text width, fun _ hhead => wrap_head g text (some width) hhead⟩,
    fun hends _ _ _ _ _ _ _ _ _ hrun hle hwidth hitem hpart hplain hkeys =>
      viewText_plain hends ((Timed.run_sound hrun).later hle) hwidth hitem hpart hplain hkeys⟩

def lineCut : Text → List Grapheme
  | 0x0D :: 0x0A :: rest => ⟨2, 0⟩ :: lineCut rest
  | _ :: rest => ⟨1, 1⟩ :: lineCut rest
  | [] => []

theorem lineCut_nonempty (text : Text) : ∀ grapheme ∈ lineCut text, 0 < grapheme.length := by
  fun_induction lineCut text <;> simp_all

theorem lineCut_whole (text : Text) : ((lineCut text).map Grapheme.length).sum = text.length := by
  fun_induction lineCut text <;> simp_all <;> omega

def unitGraphemes : Graphemes where
  cut := lineCut
  nonempty := lineCut_nonempty
  whole := lineCut_whole

theorem piecesFrom_lineCut (text : Text) :
    (∀ piece ∈ piecesFrom text (lineCut text), piece.text = crlf ∨ ∃ unit, piece.text = [unit]) ∧
      (piecesFrom text (lineCut text)).IsChain (fun p q =>
        ¬ (p.text.getLast? = some 0x0D ∧ q.text.head? = some 0x0A)) ∧
      ∀ piece, (piecesFrom text (lineCut text)).head? = some piece →
        piece.text.head? = text.head? := by
  fun_induction lineCut text with
  | case1 rest ih =>
    obtain ⟨halone, hwhole, hhead⟩ := ih
    simp only [piecesFrom, List.take_succ_cons, List.take_zero, List.drop_succ_cons, List.drop_zero]
    refine ⟨List.forall_mem_cons.mpr ⟨.inl rfl, halone⟩, ?_, by simp⟩
    exact hwhole.cons fun q _ => by simp
  | case2 unit rest hne ih =>
    obtain ⟨halone, hwhole, hhead⟩ := ih
    simp only [piecesFrom, List.take_succ_cons, List.take_zero, List.drop_succ_cons, List.drop_zero]
    refine ⟨List.forall_mem_cons.mpr ⟨.inr ⟨unit, rfl⟩, halone⟩, ?_, by simp⟩
    refine hwhole.cons fun q hq => ?_
    rintro ⟨hlast, hq'⟩
    rw [hhead q hq] at hq'
    simp only [List.getLast?_singleton, Option.some.injEq] at hlast
    obtain ⟨rest', rfl⟩ := List.head?_eq_some_iff.mp hq'
    exact hne rest' hlast rfl
  | case3 => exact ⟨by simp [piecesFrom], by simp [piecesFrom], by simp [piecesFrom]⟩

theorem unitGraphemes_lineEnds : LineEnds unitGraphemes where
  alone := by
    intro text piece hpiece hlf
    rcases (piecesFrom_lineCut text).1 piece hpiece with h | ⟨unit, h⟩
    · exact .inr h
    · rw [h, List.mem_singleton] at hlf
      exact .inl (by rw [h, ← hlf, lf])
  whole := fun text => (piecesFrom_lineCut text).2.1

def abcd : TextSection := { key := "text", text := [0x61, 0x62, 0x63, 0x64], render := none }

def wideOnly : TextSection where
  key := "wide"
  text := []
  render := some
    { rows := fun _ width =>
        if width < 10 then none else some [⟨[⟨[0x78, 0x79, 0x7A], none, true⟩], lf⟩]
      again := fun _ h => h }

def twoItems (item : Bool) : TextItem :=
  if item then { key := "wide", sections := [wideOnly] } else { key := "plain", sections := [abcd] }

def viewOptions : ScrollOptions Bool String ViewRow := textOptions unitGraphemes twoItems

def viewEvents : List (ScrollEvent Bool String × Nat) :=
  [(.setItems [false, true], 0), (.layout ⟨80, 10⟩, 0)]

def viewListed : Timed Bool String ViewRow :=
  ⟨((Timed.new false).list.call viewOptions 0 (.setItems [false, true])).2, 0⟩

/-- The view of both items at width 80. -/
def viewWide : Timed Bool String ViewRow :=
  ⟨(viewListed.list.call viewOptions 0 (.layout ⟨80, 10⟩)).2, 0⟩

theorem viewListed_next : when (Timed.Unmixed viewOptions) (Timed.next viewOptions) (.new false)
    (.setItems [false, true], 0) viewListed :=
  ⟨trivial, Nat.le_refl 0, rfl⟩

theorem viewWide_next : when (Timed.Unmixed viewOptions) (Timed.next viewOptions) viewListed
    (.layout ⟨80, 10⟩, 0) viewWide :=
  ⟨fun _ h => (nomatch h), Nat.le_refl 0, rfl⟩

theorem viewWide_run :
    Steps (when (Timed.Unmixed viewOptions) (Timed.next viewOptions)) (.new false) viewEvents
      viewWide :=
  .cons viewListed_next (.cons viewWide_next .start)

theorem wrap_partition_copy_wide :
    (viewText unitGraphemes twoItems 0 viewWide.list ⟨"plain", "text", 0⟩ ⟨"plain", "text", 4⟩).1 =
      some [0x61, 0x62, 0x63, 0x64] :=
  (wrap_partition_copy unitGraphemes).2 unitGraphemes_lineEnds twoItems false viewEvents viewWide 0
    false abcd viewWide_run (Nat.le_refl 0) (by decide) (by decide) (.head _) rfl (by decide)

/-- After the layout at two cells threw, a copy of the plain section takes a row of the other item. -/
theorem copy_takes_other_row :
    Steps (Timed.next viewOptions) (.new false) viewEvents viewWide ∧
      (viewWide.list.call viewOptions 0 (.layout ⟨2, 10⟩)).1 = .threw ∧
      (viewText unitGraphemes twoItems 0 (viewWide.list.call viewOptions 0 (.layout ⟨2, 10⟩)).2
        ⟨"plain", "text", 0⟩ ⟨"plain", "text", 4⟩).1 = some [0x61, 0x62, 0x78, 0x79] :=
  ⟨viewWide_run.free, rfl, rfl⟩

end Yuke.Tui
