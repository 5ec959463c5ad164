import Yuke.Js.EditLines

/-!
# The changes of an edit

The changes turn the lines of the old text into the lines of the new one: the lines between two
changes are equal. A trim keeps that.
-/

set_option autoImplicit false

namespace Yuke.Js.Edit

open Yuke.Shared

/-- `change` fits where `i` old and `j` new lines are behind: the lines before it are equal. -/
structure ChangeFits (old new : List Text) (i j : ℕ) (change : Change) : Prop where
  after : i ≤ change.first
  shift : change.first + j = change.start + i
  same : ∀ k < change.first - i, old[i + k]? = new[j + k]?
  oldRange : change.first ≤ change.past
  oldBound : change.past ≤ old.length
  newRange : change.start ≤ change.stop
  newBound : change.stop ≤ new.length

/-- The changes turn the old lines into the new ones, when `i` old and `j` new lines are behind. -/
def ChangesFit (old new : List Text) : ℕ → ℕ → List Change → Prop
  | i, j, [] => old.drop i = new.drop j
  | i, j, change :: changes =>
    ChangeFits old new i j change ∧ ChangesFit old new change.past change.stop changes

/-! ## Merged changes -/

/-- The changes from `previous` on, with the changes of one line as one. -/
def merged : Change → List Change → List Change
  | previous, [] => [previous]
  | previous, change :: changes =>
    if change.first < previous.past then
      merged { previous with
        past := max previous.past change.past, stop := max previous.stop change.stop } changes
    else previous :: merged change changes

theorem foldl_pushChange (done : List Change) (previous : Change) (changes : List Change) :
    changes.foldl pushChange (done ++ [previous]) = done ++ merged previous changes := by
  induction changes generalizing done previous with
  | nil => rfl
  | cons change changes ih =>
    rw [List.foldl_cons, pushChange, List.getLast?_concat]
    dsimp only
    rw [merged]
    split
    · rw [List.dropLast_concat, ih]
    · rw [ih, List.append_assoc, List.singleton_append]

theorem merged_ne_nil (previous : Change) (changes : List Change) : merged previous changes ≠ [] := by
  induction changes generalizing previous with
  | nil => exact List.cons_ne_nil _ _
  | cons change changes ih =>
    rw [merged]
    split
    · exact ih _
    · exact List.cons_ne_nil _ _

section Matches

variable {before after oldString newString : Text}

theorem changeAt_eq {x x' rest rest' : Text} (index offset : ℕ)
    (hbefore : before = x ++ (oldString ++ rest)) (hafter : after = x' ++ (newString ++ rest'))
    (hoffset : x.length = offset)
    (hshifted : x'.length = offset + index * newString.length - index * oldString.length) :
    changeAt before after oldString newString index offset =
      { first := x.count newline
        past := min ((x ++ oldString).count newline + 1) (linesOf before).length
        start := x'.count newline
        stop := min ((x' ++ newString).count newline + 1) (linesOf after).length } := by
  have hold : offset + oldString.length = (x ++ oldString).length := by
    rw [List.length_append, hoffset]
  have hnew : x'.length + newString.length = (x' ++ newString).length := List.length_append.symm
  have hbefore' : before = (x ++ oldString) ++ rest := by rw [hbefore, List.append_assoc]
  have hafter' : after = (x' ++ newString) ++ rest' := by rw [hafter, List.append_assoc]
  unfold changeAt
  dsimp only
  rw [← hshifted, hold, hnew]
  congr 1
  · rw [hbefore, ← hoffset, lineAt_eq]
  · conv_lhs => rw [hbefore', lineAt_eq, ← hbefore']
  · rw [hafter, lineAt_eq]
  · conv_lhs => rw [hafter', lineAt_eq, ← hafter']

theorem changesFit_merged {parts : List Text} (hparts : parts ≠ []) (hold : oldString ≠ [])
    {x x' : Text} {index offset i j : ℕ} {previous : Change}
    (hbefore : before = x ++ oldString.intercalate parts)
    (hafter : after = x' ++ newString.intercalate parts) (hoffset : x.length = offset)
    (hshifted : x'.length + index * oldString.length = offset + index * newString.length)
    (hprevious : ChangeFits (linesOf before) (linesOf after) i j previous)
    (hpast : previous.past = min (x.count newline + 1) (linesOf before).length)
    (hstop : previous.stop = min (x'.count newline + 1) (linesOf after).length) :
    ChangesFit (linesOf before) (linesOf after) i j
      (merged previous (matchChanges before after oldString newString index offset parts.dropLast)) := by
  induction parts generalizing x x' index offset i j previous with
  | nil => exact absurd rfl hparts
  | cons part parts ih =>
    cases parts with
    | nil =>
      rw [List.intercalate_singleton] at hbefore hafter
      refine ⟨hprevious, ?_⟩
      rw [ChangesFit, hpast, hstop, hbefore, hafter]
      exact same_lines_last x x' part
    | cons next parts =>
      rw [List.intercalate_cons_cons, List.append_assoc] at hbefore hafter
      have hbefore' : before = (x ++ part) ++ (oldString ++ oldString.intercalate (next :: parts)) := by
        rw [hbefore, List.append_assoc]
      have hafter' : after = (x' ++ part) ++ (newString ++ newString.intercalate (next :: parts)) := by
        rw [hafter, List.append_assoc]
      have hchange := changeAt_eq index (offset + part.length) hbefore' hafter'
        (by rw [List.length_append, hoffset]) (by rw [List.length_append]; omega)
      have hlt : (x ++ part).count newline < (linesOf before).length := by
        rw [hbefore']
        exact count_lt_length_linesOf _ (List.append_ne_nil_of_left_ne_nil hold _)
      have hle : (x' ++ part).count newline ≤ (linesOf after).length := by
        rw [hafter']
        exact count_le_length_linesOf _ _
      have hpart : (x ++ part).count newline = x.count newline + part.count newline :=
        List.count_append
      have hpart' : (x' ++ part).count newline = x'.count newline + part.count newline :=
        List.count_append
      have hmatch : (x ++ part ++ oldString).count newline =
          (x ++ part).count newline + oldString.count newline := List.count_append
      have hmatch' : (x' ++ part ++ newString).count newline =
          (x' ++ part).count newline + newString.count newline := List.count_append
      have hnext : ∀ {i j : ℕ} {change : Change},
          ChangeFits (linesOf before) (linesOf after) i j change →
          change.past = min ((x ++ part ++ oldString).count newline + 1) (linesOf before).length →
          change.stop = min ((x' ++ part ++ newString).count newline + 1) (linesOf after).length →
          ChangesFit (linesOf before) (linesOf after) i j (merged change
            (matchChanges before after oldString newString (index + 1)
              (offset + part.length + oldString.length) (next :: parts).dropLast)) := by
        intro i j change hfits hpast hstop
        refine ih (List.cons_ne_nil _ _) ?_ ?_ ?_ ?_ hfits hpast hstop
        · rw [hbefore', List.append_assoc (x ++ part)]
        · rw [hafter', List.append_assoc (x' ++ part)]
        · rw [List.length_append, List.length_append, hoffset]
        · rw [List.length_append, List.length_append, Nat.add_mul, Nat.add_mul]
          omega
      rw [List.dropLast_cons_cons, matchChanges, hchange, merged]
      dsimp only
      split
      · next hone =>
        -- The match starts on the last line of the previous change.
        apply hnext
        · exact {
            after := hprevious.after
            shift := hprevious.shift
            same := hprevious.same
            oldRange := hprevious.oldRange.trans (le_max_left _ _)
            oldBound := max_le hprevious.oldBound (min_le_right _ _)
            newRange := hprevious.newRange.trans (le_max_left _ _)
            newBound := max_le hprevious.newBound (min_le_right _ _) }
        · dsimp only
          omega
        · dsimp only
          omega
      · next hother =>
        refine ⟨hprevious, hnext ?_ rfl rfl⟩
        constructor
        · exact not_lt.mp hother
        · dsimp only
          omega
        · dsimp only
          intro k hk
          rw [show previous.past = x.count newline + 1 by omega,
            show previous.stop = x'.count newline + 1 by omega]
          conv_lhs => rw [hbefore]
          conv_rhs => rw [hafter]
          exact same_lines_between (by omega)
        · dsimp only
          omega
        · exact min_le_right _ _
        · dsimp only
          omega
        · exact min_le_right _ _

theorem two_parts {parts : List Text} (hcount : 1 < parts.length) :
    ∃ part next more, parts = part :: next :: more := by
  rcases parts with _ | ⟨part, _ | ⟨next, more⟩⟩
  · cases hcount
  · exact absurd hcount (lt_irrefl 1)
  · exact ⟨part, next, more, rfl⟩

theorem changesFit_matchChanges {parts : List Text} (hold : oldString ≠ [])
    (hbefore : before = oldString.intercalate parts) (hafter : after = newString.intercalate parts)
    (hcount : 1 < parts.length) :
    ChangesFit (linesOf before) (linesOf after) 0 0
      ((matchChanges before after oldString newString 0 0 parts.dropLast).foldl pushChange []) := by
  obtain ⟨part, next, parts, rfl⟩ := two_parts hcount
  rw [List.intercalate_cons_cons, List.append_assoc] at hbefore hafter
  have hchange := changeAt_eq 0 part.length hbefore hafter rfl (by omega)
  have hlt : part.count newline < (linesOf before).length := by
    rw [hbefore]
    exact count_lt_length_linesOf _ (List.append_ne_nil_of_left_ne_nil hold _)
  have hle : part.count newline ≤ (linesOf after).length := by
    rw [hafter]
    exact count_le_length_linesOf _ _
  have hmatch : (part ++ oldString).count newline =
      part.count newline + oldString.count newline := List.count_append
  have hmatch' : (part ++ newString).count newline =
      part.count newline + newString.count newline := List.count_append
  rw [List.dropLast_cons_cons, matchChanges, Nat.zero_add, List.foldl_cons, hchange]
  change ChangesFit _ _ 0 0 (List.foldl pushChange ([] ++ [_]) _)
  rw [foldl_pushChange, List.nil_append]
  have hbefore' : before = (part ++ oldString) ++ oldString.intercalate (next :: parts) := by
    rw [hbefore, List.append_assoc]
  have hafter' : after = (part ++ newString) ++ newString.intercalate (next :: parts) := by
    rw [hafter, List.append_assoc]
  refine changesFit_merged (List.cons_ne_nil _ _) hold hbefore' hafter' ?_ ?_ ?_ rfl rfl
  · rw [List.length_append]
  · rw [List.length_append]
    omega
  · constructor
    · exact Nat.zero_le _
    · rfl
    · dsimp only
      intro k hk
      rw [Nat.zero_add, hbefore, hafter]
      exact same_lines_first hk
    · dsimp only
      omega
    · exact min_le_right _ _
    · dsimp only
      omega
    · exact min_le_right _ _

end Matches

/-! ## Trimmed changes -/

theorem commonLength_spec (xs ys : List Text) :
    commonLength xs ys ≤ xs.length ∧ commonLength xs ys ≤ ys.length ∧
      ∀ k < commonLength xs ys, xs[k]? = ys[k]? := by
  induction xs generalizing ys with
  | nil =>
    rw [commonLength]
    · exact ⟨le_rfl, Nat.zero_le _, fun k hk => absurd hk (Nat.not_lt_zero k)⟩
    · nofun
  | cons x xs ih =>
    cases ys with
    | nil =>
      rw [commonLength]
      · exact ⟨Nat.zero_le _, le_rfl, fun k hk => absurd hk (Nat.not_lt_zero k)⟩
      · nofun
    | cons y ys =>
      rw [commonLength]
      split
      · next heq =>
        obtain ⟨hx, hy, hsame⟩ := ih ys
        refine ⟨Nat.succ_le_succ hx, Nat.succ_le_succ hy, ?_⟩
        intro k hk
        cases k with
        | zero => rw [List.getElem?_cons_zero, List.getElem?_cons_zero, heq]
        | succ k =>
          rw [List.getElem?_cons_succ, List.getElem?_cons_succ]
          exact hsame k (by omega)
      · exact ⟨Nat.zero_le _, Nat.zero_le _, fun k hk => absurd hk (Nat.not_lt_zero k)⟩

theorem length_range {lines : List Text} {start stop : ℕ} (hstop : stop ≤ lines.length) :
    (range lines start stop).length = stop - start := by
  rw [range, List.length_take, List.length_drop]
  omega

theorem getElem?_range (lines : List Text) {start stop k : ℕ} (hk : k < stop - start) :
    (range lines start stop)[k]? = lines[start + k]? := by
  rw [range, List.getElem?_take, if_pos hk, List.getElem?_drop]

section Trim

variable {old new : List Text} {i j : ℕ} {change : Change}

theorem ChangeFits.trimStart (h : ChangeFits old new i j change) :
    ChangeFits old new i j (trimStart old new change) := by
  obtain ⟨hold, hnew, hsame⟩ := commonLength_spec (range old change.first change.past)
    (range new change.start change.stop)
  rw [length_range h.oldBound] at hold
  rw [length_range h.newBound] at hnew
  unfold Edit.trimStart
  dsimp only
  generalize commonLength _ _ = equal at hold hnew hsame ⊢
  have hafter := h.after
  have hshift := h.shift
  have holdRange := h.oldRange
  have hnewRange := h.newRange
  constructor
  · dsimp only
    omega
  · dsimp only
    omega
  · dsimp only
    intro k hk
    by_cases hbefore : k < change.first - i
    · exact h.same k hbefore
    · have hline := hsame (k - (change.first - i)) (by omega)
      rw [getElem?_range old (by omega), getElem?_range new (by omega)] at hline
      rw [show i + k = change.first + (k - (change.first - i)) by omega,
        show j + k = change.start + (k - (change.first - i)) by omega]
      exact hline
  · dsimp only
    omega
  · exact h.oldBound
  · dsimp only
    omega
  · exact h.newBound

theorem ChangeFits.trimEnd (h : ChangeFits old new i j change) : ∃ equal,
    trimEnd old new change =
        { change with past := change.past - equal, stop := change.stop - equal } ∧
      change.first + equal ≤ change.past ∧ change.start + equal ≤ change.stop ∧
      ∀ k < equal, old[change.past - equal + k]? = new[change.stop - equal + k]? := by
  obtain ⟨hold, hnew, hsame⟩ := commonLength_spec (range old change.first change.past).reverse
    (range new change.start change.stop).reverse
  have holdRange := h.oldRange
  have hnewRange := h.newRange
  refine ⟨_, rfl, ?_⟩
  generalize commonLength _ _ = equal at hold hnew hsame ⊢
  rw [List.length_reverse, length_range h.oldBound] at hold
  rw [List.length_reverse, length_range h.newBound] at hnew
  refine ⟨by omega, by omega, ?_⟩
  intro k hk
  have hline := hsame (equal - 1 - k) (by omega)
  rw [List.getElem?_reverse (by rw [length_range h.oldBound]; omega),
    List.getElem?_reverse (by rw [length_range h.newBound]; omega), length_range h.oldBound,
    length_range h.newBound, getElem?_range old (by omega), getElem?_range new (by omega)] at hline
  rw [show change.past - equal + k =
      change.first + (change.past - change.first - 1 - (equal - 1 - k)) by omega,
    show change.stop - equal + k =
      change.start + (change.stop - change.start - 1 - (equal - 1 - k)) by omega]
  exact hline

theorem ChangeFits.earlier (h : ChangeFits old new i j change) {equal : ℕ} (hi : equal ≤ i)
    (hj : equal ≤ j) (hsame : ∀ k < equal, old[i - equal + k]? = new[j - equal + k]?) :
    ChangeFits old new (i - equal) (j - equal) change := by
  have hafter := h.after
  have hshift := h.shift
  refine { h with after := by omega, shift := by omega, same := ?_ }
  intro k hk
  by_cases hbefore : k < equal
  · exact hsame k hbefore
  · rw [show i - equal + k = i + (k - equal) by omega, show j - equal + k = j + (k - equal) by omega]
    exact h.same (k - equal) (by omega)

theorem drop_earlier {equal : ℕ} (h : old.drop i = new.drop j) (hi : equal ≤ i) (hj : equal ≤ j)
    (hsame : ∀ k < equal, old[i - equal + k]? = new[j - equal + k]?) :
    old.drop (i - equal) = new.drop (j - equal) := by
  apply List.ext_getElem?
  intro k
  rw [List.getElem?_drop, List.getElem?_drop]
  by_cases hbefore : k < equal
  · exact hsame k hbefore
  · have hline := congrArg (·[k - equal]?) h
    rw [List.getElem?_drop, List.getElem?_drop] at hline
    rw [show i - equal + k = i + (k - equal) by omega, show j - equal + k = j + (k - equal) by omega]
    exact hline

theorem ChangesFit.trim {changes : List Change} (h : ChangesFit old new i j changes) {equal : ℕ}
    (hi : equal ≤ i) (hj : equal ≤ j)
    (hsame : ∀ k < equal, old[i - equal + k]? = new[j - equal + k]?) :
    ChangesFit old new (i - equal) (j - equal) (changes.map (trim old new)) := by
  induction changes generalizing i j equal with
  | nil => exact drop_earlier h hi hj hsame
  | cons change changes ih =>
    obtain ⟨hfits, hrest⟩ := h
    have hstart := (hfits.earlier hi hj hsame).trimStart
    obtain ⟨fewer, htrim, hold, hnew, hend⟩ := hstart.trimEnd
    have holdBound := hstart.oldBound
    have hnewBound := hstart.newBound
    rw [List.map_cons, Edit.trim, htrim]
    refine ⟨?_, ?_⟩
    · refine { hstart with oldRange := ?_, oldBound := ?_, newRange := ?_, newBound := ?_ }
      · dsimp only
        omega
      · dsimp only
        omega
      · dsimp only
        omega
      · dsimp only
        omega
    · have hpast : (trimStart old new change).past = change.past := rfl
      have hstop : (trimStart old new change).stop = change.stop := rfl
      rw [hpast, hstop] at hend
      dsimp only
      rw [hpast, hstop]
      exact ih hrest (by omega) (by omega) hend

end Trim

end Yuke.Js.Edit
