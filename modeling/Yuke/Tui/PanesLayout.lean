import Yuke.Tui.Panes

/-!
# The rects of the panes

A split with a cell along its direction gives its rect away without an overlap: to the first part, to
the divider and to the second part. So the rects of the leaves and of the dividers lie apart.
-/

set_option autoImplicit false

namespace Yuke.Tui

/-- `inner` lies inside `outer`. -/
structure Rect.Within (inner outer : Rect) : Prop where
  left : outer.column ≤ inner.column
  right : inner.column + inner.width ≤ outer.column + outer.width
  top : outer.row ≤ inner.row
  bottom : inner.row + inner.height ≤ outer.row + outer.height

def Rect.Apart (a b : Rect) : Prop := ∀ point, a.inside point = true → b.inside point = false

namespace Rect

variable {a b c d : Rect}

theorem inside_iff {rect : Rect} {point : Point} :
    rect.inside point = true ↔
      (rect.column ≤ point.column ∧ point.column < rect.column + rect.width) ∧
        rect.row ≤ point.row ∧ point.row < rect.row + rect.height := by
  unfold inside
  rw [Bool.and_eq_true, Bool.and_eq_true, Bool.and_eq_true, decide_eq_true_eq, decide_eq_true_eq,
    decide_eq_true_eq, decide_eq_true_eq]
  tauto

theorem Within.refl (rect : Rect) : rect.Within rect := ⟨le_rfl, le_rfl, le_rfl, le_rfl⟩

theorem Within.trans (h : a.Within b) (h' : b.Within c) : a.Within c :=
  ⟨h'.left.trans h.left, h.right.trans h'.right, h'.top.trans h.top, h.bottom.trans h'.bottom⟩

theorem Within.inside (h : a.Within b) {point : Point} (hin : a.inside point = true) :
    b.inside point = true := by
  obtain ⟨⟨hleft, hright⟩, htop, hbottom⟩ := inside_iff.mp hin
  apply inside_iff.mpr
  obtain ⟨hl, hr, ht, hb⟩ := h
  refine ⟨⟨?_, ?_⟩, ?_, ?_⟩ <;> omega

theorem Apart.symm (h : a.Apart b) : b.Apart a := by
  intro point hin
  rw [Bool.eq_false_iff]
  intro hother
  rw [h point hother] at hin
  cases hin

theorem Apart.within (h : c.Apart d) (ha : a.Within c) (hb : b.Within d) : a.Apart b := by
  intro point hin
  rw [Bool.eq_false_iff]
  intro hother
  have hnot := h point (ha.inside hin)
  rw [hb.inside hother] at hnot
  cases hnot

theorem Apart.of_columns (h : a.column + a.width ≤ b.column) : a.Apart b := by
  intro point hin
  rw [Bool.eq_false_iff]
  intro hother
  obtain ⟨⟨_, hright⟩, _⟩ := inside_iff.mp hin
  obtain ⟨⟨hleft, _⟩, _⟩ := inside_iff.mp hother
  omega

theorem Apart.of_rows (h : a.row + a.height ≤ b.row) : a.Apart b := by
  intro point hin
  rw [Bool.eq_false_iff]
  intro hother
  obtain ⟨_, _, hbottom⟩ := inside_iff.mp hin
  obtain ⟨_, htop, _⟩ := inside_iff.mp hother
  omega

end Rect

theorem mathRound_half (total : ℤ) : mathRound ((total : ℚ) / 2) = (total + 1) / 2 := by
  have hsum : (total : ℚ) / 2 + 1 / 2 = ((total + 1 : ℤ) : ℚ) / ((2 : ℕ) : ℚ) := by
    push_cast
    ring
  rw [mathRound, hsum, Rat.floor_intCast_div_natCast]
  rfl

namespace PaneNode

theorem firstPart_eq {total : ℤ} (h : 0 ≤ total) :
    firstPart total = (total + 1) / 2 ∧ secondPart total = total / 2 := by
  unfold secondPart firstPart
  rw [mathRound_half]
  omega

/-- The cells of `rect` along `direction`. -/
def along (direction : SplitDirection) (rect : Rect) : ℤ :=
  match direction with
  | .row => rect.width
  | .column => rect.height

def HasRoom : PaneNode → Rect → Prop
  | .leaf _, _ => True
  | .split direction first second, rect =>
    1 ≤ along direction rect ∧ first.HasRoom (parts direction rect).1 ∧
      second.HasRoom (parts direction rect).2.2

def rects (node : PaneNode) (rect : Rect) : List Rect :=
  (node.leafRects rect).map Prod.snd ++ (node.dividers rect).map Prod.snd

/-- Three rects inside `rect`, each apart from the others. -/
structure Parts (a b c rect : Rect) : Prop where
  first : a.Within rect
  divider : b.Within rect
  second : c.Within rect
  firstDivider : a.Apart b
  dividerSecond : b.Apart c
  firstSecond : a.Apart c

theorem parts_spec {direction : SplitDirection} {rect : Rect} (h : 1 ≤ along direction rect) :
    Parts (parts direction rect).1 (parts direction rect).2.1 (parts direction rect).2.2 rect := by
  have hroom : 0 ≤ along direction rect - 1 := by omega
  obtain ⟨hfirst, hsecond⟩ := firstPart_eq hroom
  cases direction with
  | row =>
    simp only [along] at h hfirst hsecond
    constructor
    · constructor <;> simp only [parts, hfirst] <;> omega
    · constructor <;> simp only [parts, hfirst] <;> omega
    · constructor <;> simp only [parts, hfirst, hsecond] <;> omega
    · apply Rect.Apart.of_columns
      exact le_rfl
    · apply Rect.Apart.of_columns
      exact le_rfl
    · apply Rect.Apart.of_columns
      simp only [parts]
      omega
  | column =>
    simp only [along] at h hfirst hsecond
    constructor
    · constructor <;> simp only [parts, hfirst] <;> omega
    · constructor <;> simp only [parts, hfirst] <;> omega
    · constructor <;> simp only [parts, hfirst, hsecond] <;> omega
    · apply Rect.Apart.of_rows
      exact le_rfl
    · apply Rect.Apart.of_rows
      exact le_rfl
    · apply Rect.Apart.of_rows
      simp only [parts]
      omega

theorem rects_split (direction : SplitDirection) (first second : PaneNode) (rect : Rect) :
    ((PaneNode.split direction first second).rects rect).Perm
      (first.rects (parts direction rect).1 ++
        (parts direction rect).2.1 :: second.rects (parts direction rect).2.2) := by
  simp only [rects, leafRects, dividers, List.map_append, List.map_cons, List.append_assoc]
  refine List.Perm.append_left _ ?_
  rw [← List.append_assoc]
  refine (List.perm_append_comm.append_right _).trans ?_
  rw [List.append_assoc]
  refine List.Perm.append_left _ ?_
  exact List.perm_middle

theorem rects_spec (node : PaneNode) {rect : Rect} (h : node.HasRoom rect) :
    (∀ a ∈ node.rects rect, a.Within rect) ∧ (node.rects rect).Pairwise Rect.Apart := by
  induction node generalizing rect with
  | leaf here =>
    constructor
    · intro a ha
      obtain rfl : a = rect := by simpa [rects, leafRects, dividers] using ha
      exact .refl a
    · exact List.pairwise_singleton _ _
  | split direction first second ihFirst ihSecond =>
    obtain ⟨hroom, hfirst, hsecond⟩ := h
    obtain ⟨hinFirst, hapartFirst⟩ := ihFirst hfirst
    obtain ⟨hinSecond, hapartSecond⟩ := ihSecond hsecond
    have hparts := parts_spec hroom
    have hperm := rects_split direction first second rect
    constructor
    · intro a ha
      rcases List.mem_append.mp (hperm.mem_iff.mp ha) with hleft | hrest
      · exact (hinFirst a hleft).trans hparts.first
      · rcases List.mem_cons.mp hrest with rfl | hright
        · exact hparts.divider
        · exact (hinSecond a hright).trans hparts.second
    · rw [hperm.pairwise_iff Rect.Apart.symm, List.pairwise_append, List.pairwise_cons]
      refine ⟨hapartFirst, ⟨?_, hapartSecond⟩, ?_⟩
      · intro b hb
        exact hparts.dividerSecond.within (.refl _) (hinSecond b hb)
      · intro a ha b hb
        rcases List.mem_cons.mp hb with rfl | hright
        · exact hparts.firstDivider.within (hinFirst a ha) (.refl _)
        · exact hparts.firstSecond.within (hinFirst a ha) (hinSecond b hright)

end PaneNode

end Yuke.Tui
