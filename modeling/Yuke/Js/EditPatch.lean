import Yuke.Js.EditHunks

/-!
# The patch of an edit

The patch text reads back as its hunks, with the line number of each row. The edit writes the old text
with its matches replaced.
-/

set_option autoImplicit false

namespace Yuke.Js.Edit

open Yuke.Shared

theorem toNat_of_isDigit {c : Char} (h : c.isDigit = true) :
    (UInt16.ofNat c.toNat).toNat = c.toNat ∧ 0x30 ≤ c.toNat ∧ c.toNat ≤ 0x39 := by
  rw [Char.isDigit, Bool.and_eq_true, decide_eq_true_eq, decide_eq_true_eq] at h
  have hlow : 0x30 ≤ c.toNat := h.1
  have hhigh : c.toNat ≤ 0x39 := h.2
  refine ⟨?_, hlow, hhigh⟩
  rw [UInt16.toNat_ofNat']
  omega

theorem digit_of_isDigit {c : Char} (h : c.isDigit = true) :
    digit (UInt16.ofNat c.toNat) = true := by
  obtain ⟨heq, hlow, hhigh⟩ := toNat_of_isDigit h
  rw [digit, Bool.and_eq_true, decide_eq_true_eq, decide_eq_true_eq, UInt16.le_iff_toNat_le,
    UInt16.le_iff_toNat_le, heq]
  exact ⟨hlow, hhigh⟩

theorem isDigit_of_mem {n : ℕ} {c : Char} (h : c ∈ Nat.toDigits 10 n) : c.isDigit = true :=
  Nat.isDigit_of_mem_toDigits (by decide) (by decide) h

theorem digit_numberText (n : ℕ) : ∀ u ∈ numberText n, digit u = true := by
  intro u hu
  obtain ⟨c, hc, rfl⟩ := List.mem_map.mp hu
  exact digit_of_isDigit (isDigit_of_mem hc)

theorem numberText_ne_nil (n : ℕ) : numberText n ≠ [] := by
  intro hnil
  have hlength := congrArg List.length hnil
  rw [numberText, units, List.length_map] at hlength
  have := Nat.length_toDigits_pos (b := 10) (n := n)
  rw [List.length_nil] at hlength
  omega

theorem value_digits {characters : List Char} (h : ∀ c ∈ characters, c.isDigit = true) (n : ℕ) :
    (units characters).foldl (fun n u => 10 * n + (u.toNat - 0x30)) n =
      Nat.ofDigitChars 10 characters n := by
  induction characters generalizing n with
  | nil => rfl
  | cons c characters ih =>
    rw [units, List.map_cons, List.foldl_cons, ← units,
      ih (fun other hother => h other (List.mem_cons_of_mem _ hother)), Nat.ofDigitChars_cons,
      (toNat_of_isDigit (h c List.mem_cons_self)).1]
    rfl

theorem readNumber_numberText (n : ℕ) {rest : Text} (hrest : ∀ u ∈ rest.head?, digit u = false) :
    readNumber (numberText n ++ rest) = some (n, rest) := by
  have htake : rest.takeWhile digit = [] ∧ rest.dropWhile digit = rest := by
    cases rest with
    | nil => exact ⟨rfl, rfl⟩
    | cons u rest =>
      have hu := hrest u rfl
      rw [List.takeWhile_cons, List.dropWhile_cons, hu]
      exact ⟨rfl, rfl⟩
  have hdigits : (numberText n ++ rest).takeWhile digit = numberText n := by
    rw [List.takeWhile_append_of_pos (digit_numberText n), htake.1, List.append_nil]
  have hleft : (numberText n ++ rest).dropWhile digit = rest := by
    rw [List.dropWhile_append_of_pos (digit_numberText n), htake.2]
  have hvalue : (numberText n).foldl (fun n u => 10 * n + (u.toNat - 0x30)) 0 = n := by
    rw [numberText, value_digits fun c hc => isDigit_of_mem hc]
    exact Nat.ofDigitChars_toDigits (by decide) (by decide)
  unfold readNumber
  rw [hdigits, hleft]
  split
  · next hnil => exact absurd hnil (numberText_ne_nil n)
  · rw [hvalue]

theorem readLiteral_append (literal rest : Text) :
    readLiteral literal (literal ++ rest) = some rest := by
  rw [readLiteral, if_pos (List.prefix_append _ _), List.drop_left]

theorem skipCount_numberText (n : ℕ) {rest : Text} (hrest : ∀ u ∈ rest.head?, digit u = false) :
    skipCount (units [','] ++ numberText n ++ rest) = rest := by
  rw [List.append_assoc, skipCount, readLiteral_append]
  dsimp only
  rw [readNumber_numberText n hrest]

theorem readHeader_headerText (hunk : Hunk Text) :
    readHeader (headerText hunk) = some (hunk.oldLine, hunk.newLine) := by
  have hheader : headerText hunk = units ['@', '@', ' ', '-'] ++ (numberText hunk.oldLine ++
      (units [','] ++ numberText hunk.oldCount ++ (units [' ', '+'] ++ (numberText hunk.newLine ++
        (units [','] ++ numberText hunk.newCount ++ units [' ', '@', '@']))))) := by
    rw [headerText]
    simp only [List.append_assoc]
  have hcomma : ∀ (n : ℕ) (rest : Text), ∀ u ∈ (units [','] ++ numberText n ++ rest).head?,
      digit u = false := by
    intro n rest u hu
    cases hu
    rfl
  rw [hheader, readHeader, readLiteral_append]
  dsimp only [Option.bind_eq_bind, Option.bind_some]
  rw [readNumber_numberText _ (hcomma _ _)]
  dsimp only [Option.bind_some]
  rw [skipCount_numberText _ (by intro u hu; cases hu; rfl), readLiteral_append]
  dsimp only [Option.bind_some]
  rw [readNumber_numberText _ (hcomma _ _)]
  dsimp only [Option.bind_some]
  rw [skipCount_numberText _ (by intro u hu; cases hu; rfl)]
  rfl

theorem readHeader_rowText (row : Row Text) : readHeader (rowText row) = none := by
  have hsign : ∀ {sign : UInt16} {line : Text}, sign ≠ 0x40 → readHeader (sign :: line) = none := by
    intro sign line hne
    have hnot : ¬ units ['@', '@', ' ', '-'] <+: sign :: line := by
      rintro ⟨rest, heq⟩
      exact hne (List.cons.inj heq).1.symm
    rw [readHeader, readLiteral, if_neg hnot]
    rfl
  cases row with
  | keep line => exact hsign (by decide)
  | remove line => exact hsign (by decide)
  | add line => exact hsign (by decide)

theorem newline_notMem_splitOn {text line : Text} (h : line ∈ text.splitOn newline) :
    newline ∉ line := by
  induction text generalizing line with
  | nil =>
    rw [List.mem_singleton.mp h]
    exact List.not_mem_nil
  | cons u rest ih =>
    by_cases hbreak : u = newline
    · rw [hbreak, splitOn_cons_self] at h
      rcases List.mem_cons.mp h with rfl | hrest
      · exact List.not_mem_nil
      · exact ih hrest
    · obtain ⟨first, lines, hlines⟩ := List.exists_cons_of_ne_nil (List.splitOn_ne_nil newline rest)
      rw [splitOn_cons_other hbreak, hlines, List.modifyHead_cons] at h
      rw [hlines] at ih
      rcases List.mem_cons.mp h with rfl | hmore
      · intro hmem
        rcases List.mem_cons.mp hmem with heq | hmem
        · exact hbreak heq.symm
        · exact ih List.mem_cons_self hmem
      · exact ih (List.mem_cons_of_mem _ hmore)

theorem newline_notMem_linesOf {text line : Text} (h : line ∈ linesOf text) : newline ∉ line := by
  rw [linesOf_take] at h
  exact newline_notMem_splitOn (List.mem_of_mem_take h)

theorem newline_notMem_headerText (hunk : Hunk Text) : newline ∉ headerText hunk := by
  have hnumber : ∀ n, newline ∉ numberText n := by
    intro n hmem
    have hdigit := digit_numberText n newline hmem
    cases hdigit
  rw [headerText]
  simp only [List.mem_append, not_or]
  exact ⟨⟨⟨⟨⟨⟨⟨⟨by decide, hnumber _⟩, by decide⟩, hnumber _⟩, by decide⟩, hnumber _⟩, by decide⟩,
    hnumber _⟩, by decide⟩

def lineOf : Row Text → Text
  | .keep line => line
  | .remove line => line
  | .add line => line

theorem newline_notMem_rowText {row : Row Text} (h : newline ∉ lineOf row) :
    newline ∉ rowText row := by
  have hsign : ∀ {sign : UInt16} {line : Text}, newline ∉ line → newline ≠ sign →
      newline ∉ sign :: line := by
    intro sign line hline hne hmem
    rcases List.mem_cons.mp hmem with heq | hmem
    · exact hne heq
    · exact hline hmem
  cases row with
  | keep line => exact hsign h (by decide)
  | remove line => exact hsign h (by decide)
  | add line => exact hsign h (by decide)

theorem lineOf_mem {rows : List (Row Text)} {row : Row Text} (h : row ∈ rows) :
    lineOf row ∈ oldSide rows ∨ lineOf row ∈ newSide rows := by
  cases row with
  | keep line => exact .inl (List.mem_filterMap.mpr ⟨_, h, rfl⟩)
  | remove line => exact .inl (List.mem_filterMap.mpr ⟨_, h, rfl⟩)
  | add line => exact .inr (List.mem_filterMap.mpr ⟨_, h, rfl⟩)

theorem newline_notMem_row {old new : List Text} (hold : ∀ line ∈ old, newline ∉ line)
    (hnew : ∀ line ∈ new, newline ∉ line) {i j : ℕ} {hunks : List (Hunk Text)}
    (h : HunksFit old new i j hunks) :
    ∀ hunk ∈ hunks, ∀ row ∈ hunk.rows, newline ∉ rowText row := by
  induction hunks generalizing i j with
  | nil => exact fun hunk hmem => absurd hmem List.not_mem_nil
  | cons hunk hunks ih =>
    obtain ⟨kept, hfits, hrest⟩ := h
    intro other hother row hrow
    rcases List.mem_cons.mp hother with rfl | hmore
    · apply newline_notMem_rowText
      rcases lineOf_mem hrow with hmem | hmem
      · rw [hfits.oldLines] at hmem
        exact hold _ (List.mem_of_mem_drop (List.mem_of_mem_take hmem))
      · rw [hfits.newLines] at hmem
        exact hnew _ (List.mem_of_mem_drop (List.mem_of_mem_take hmem))
    · exact ih hrest other hmore row hrow

def hunkLines (hunk : Hunk Text) : List Text := headerText hunk :: hunk.rows.map rowText

theorem hunkText_eq {hunk : Hunk Text} (h : hunk.rows ≠ []) :
    hunkText hunk = [newline].intercalate (hunkLines hunk) ++ [newline] := by
  rw [hunkText, hunkLines, List.intercalate_cons_of_ne_nil]
  exact fun hnil => h (List.map_eq_nil_iff.mp hnil)

theorem flatMap_hunkText {hunks : List (Hunk Text)} (hne : hunks ≠ [])
    (hrows : ∀ hunk ∈ hunks, hunk.rows ≠ []) :
    hunks.flatMap hunkText = [newline].intercalate (hunks.flatMap hunkLines) ++ [newline] := by
  induction hunks with
  | nil => exact absurd rfl hne
  | cons hunk hunks ih =>
    rw [List.flatMap_cons, List.flatMap_cons, hunkText_eq (hrows hunk List.mem_cons_self)]
    cases hunks with
    | nil => rw [List.flatMap_nil, List.flatMap_nil, List.append_nil, List.append_nil]
    | cons next hunks =>
      have hlines : hunkLines hunk ≠ [] := List.cons_ne_nil _ _
      have hmore : (next :: hunks).flatMap hunkLines ≠ [] := List.cons_ne_nil _ _
      rw [ih (List.cons_ne_nil _ _) fun other hother => hrows other (List.mem_cons_of_mem _ hother),
        intercalate_append [newline] hlines hmore]
      simp only [List.append_assoc]

def shownLines (lines : List PatchLine) : List (Text × Option ℕ) :=
  (lines.filter fun line => !line.gap).map fun line => (line.text, line.number)

def shownRow (shown : Row Text × ℕ) : Text × Option ℕ := (rowText shown.1, some shown.2)

theorem shownLines_rows (rows : List (Row Text)) (rest : List Text) (i j source : ℕ) :
    ∃ after, shownLines (patchLinesFrom (some (i + 1)) (j + 1) source (rows.map rowText ++ rest)) =
      (numberRows i j rows).map shownRow ++
        shownLines (patchLinesFrom (some (i + (oldSide rows).length + 1))
          (j + (newSide rows).length + 1) after rest) := by
  induction rows generalizing i j source with
  | nil => exact ⟨source, rfl⟩
  | cons row rows ih =>
    rw [List.map_cons, List.cons_append, patchLinesFrom, readHeader_rowText]
    cases row with
    | keep line =>
      obtain ⟨after, hafter⟩ := ih (i + 1) (j + 1) (source + (rowText (.keep line)).length + 1)
      refine ⟨after, ?_⟩
      change _ :: shownLines _ = shownRow (.keep line, j + 1) :: (_ ++ _)
      rw [show i + (oldSide (Row.keep line :: rows)).length + 1 =
          i + 1 + (oldSide rows).length + 1 from by
            change i + ((oldSide rows).length + 1) + 1 = _
            omega,
        show j + (newSide (Row.keep line :: rows)).length + 1 =
          j + 1 + (newSide rows).length + 1 from by
            change j + ((newSide rows).length + 1) + 1 = _
            omega, ← hafter]
      rfl
    | remove line =>
      obtain ⟨after, hafter⟩ := ih (i + 1) j (source + (rowText (.remove line)).length + 1)
      refine ⟨after, ?_⟩
      change _ :: shownLines _ = shownRow (.remove line, i + 1) :: (_ ++ _)
      rw [show i + (oldSide (Row.remove line :: rows)).length + 1 =
          i + 1 + (oldSide rows).length + 1 from by
            change i + ((oldSide rows).length + 1) + 1 = _
            omega,
        show newSide (Row.remove line :: rows) = newSide rows from rfl, ← hafter]
      rfl
    | add line =>
      obtain ⟨after, hafter⟩ := ih i (j + 1) (source + (rowText (.add line)).length + 1)
      refine ⟨after, ?_⟩
      change _ :: shownLines _ = shownRow (.add line, j + 1) :: (_ ++ _)
      rw [show oldSide (Row.add line :: rows) = oldSide rows from rfl,
        show j + (newSide (Row.add line :: rows)).length + 1 =
          j + 1 + (newSide rows).length + 1 from by
            change j + ((newSide rows).length + 1) + 1 = _
            omega, ← hafter]
      rfl

theorem shownLines_hunks {old new : List Text} {i j : ℕ} {hunks : List (Hunk Text)}
    (h : HunksFit old new i j hunks) (oldLine : Option ℕ) (newLine source : ℕ) :
    shownLines (patchLinesFrom oldLine newLine source (hunks.flatMap hunkLines)) =
      (numbered i j hunks).map shownRow := by
  induction hunks generalizing i j oldLine newLine source with
  | nil => rfl
  | cons hunk hunks ih =>
    obtain ⟨kept, hfits, hrest⟩ := h
    have hkept : hunk.oldLine - 1 - i = kept := by
      rw [hfits.oldLine]
      omega
    have hgap : ∀ (gap : Bool) (header : PatchLine) (lines : List PatchLine), header.gap = true →
        shownLines ((if gap then [header] else []) ++ lines) = shownLines lines := by
      intro gap header lines hheader
      cases gap with
      | false => rfl
      | true =>
        rw [if_pos rfl, List.singleton_append, shownLines, List.filter_cons, hheader]
        rfl
    rw [List.flatMap_cons, hunkLines, List.cons_append, patchLinesFrom, readHeader_headerText]
    dsimp only
    rw [hgap _ _ _ rfl, hfits.oldLine, hfits.newLine]
    obtain ⟨after, hafter⟩ := shownLines_rows hunk.rows (hunks.flatMap hunkLines) (i + kept) (j + kept)
      (source + (headerText hunk).length + 1)
    rw [hafter, numbered, hkept, List.map_append, hfits.oldLength, hfits.newLength, ih hrest]

theorem shownLines_patchLines {old new : List Text} {hunks : List (Hunk Text)}
    (h : HunksFit old new 0 0 hunks) (hne : hunks ≠ []) (hrows : ∀ hunk ∈ hunks, hunk.rows ≠ [])
    (hold : ∀ line ∈ old, newline ∉ line) (hnew : ∀ line ∈ new, newline ∉ line) (start : ℕ) :
    shownLines (patchLines (hunks.flatMap hunkText) start) = (numbered 0 0 hunks).map shownRow := by
  have hlines : ∀ line ∈ hunks.flatMap hunkLines, newline ∉ line := by
    intro line hline
    obtain ⟨hunk, hhunk, hmem⟩ := List.mem_flatMap.mp hline
    rcases List.mem_cons.mp hmem with rfl | hrow
    · exact newline_notMem_headerText hunk
    · obtain ⟨row, hmemRow, rfl⟩ := List.mem_map.mp hrow
      exact newline_notMem_row hold hnew h hunk hhunk row hmemRow
  have hsome : hunks.flatMap hunkLines ≠ [] := by
    obtain ⟨hunk, more, rfl⟩ := List.exists_cons_of_ne_nil hne
    exact List.cons_ne_nil _ _
  rw [patchLines, flatMap_hunkText hne hrows, List.getLast?_concat, List.dropLast_concat,
    if_pos rfl, List.splitOn_intercalate newline hlines hsome]
  exact shownLines_hunks h none 0 start

/-- What the edit of `file` does, with `count` matches and the new text `after`. -/
structure EditOk (file oldString newString : Text) (replaceAll : Bool) (edited : Edited) (count : ℕ)
    (after : Text) (hunks : List (Hunk Text)) : Prop where
  replaced : Replaced oldString newString count file after
  accepted : if replaceAll then 0 < count else count = 1
  written : edited.file = toWellFormed after
  exact : WellFormed file → WellFormed oldString → WellFormed newString → edited.file = after
  patch : edited.patch = hunks.flatMap hunkText
  patched : patched 0 (linesOf file) hunks = some (linesOf after)
  ordered : hunks.Pairwise fun hunk next =>
    hunk.oldLine + hunk.oldCount ≤ next.oldLine ∧ hunk.newLine + hunk.newCount ≤ next.newLine
  counts : ∀ hunk ∈ hunks,
    hunk.oldCount = (oldSide hunk.rows).length ∧ hunk.newCount = (newSide hunk.rows).length
  numbers : ∀ start, shownLines (patchLines edited.patch start) = (numbered 0 0 hunks).map shownRow
  lines : ∀ shown ∈ numbered 0 0 hunks, ShowsLine (linesOf file) (linesOf after) shown

theorem editOk_of_parts {file oldString newString : Text} {replaceAll : Bool} {edited : Edited}
    (hold : oldString ≠ []) (hcount : 1 < (splitParts oldString file).length)
    (haccepted : if replaceAll then 0 < (splitParts oldString file).length - 1
      else (splitParts oldString file).length - 1 = 1)
    (hfile : edited.file = toWellFormed (newString.intercalate (splitParts oldString file)))
    (hpatch : edited.patch = patchOf (splitParts oldString file) oldString newString) :
    EditOk file oldString newString replaceAll edited ((splitParts oldString file).length - 1)
      (newString.intercalate (splitParts oldString file))
      (patchHunks (splitParts oldString file) oldString newString) := by
  have hne : patchHunks _ oldString newString ≠ [] := patchHunks_ne_nil hcount
  have hsame := intercalate_splitParts hold file
  obtain ⟨hhunks, hpositive⟩ : HunksFit _ (linesOf (newString.intercalate _)) 0 0 _ ∧ _ :=
    hunksFit_patchHunks hold hcount
  have hrows : ∀ hunk ∈ patchHunks (splitParts oldString file) oldString newString,
      hunk.rows ≠ [] := by
    intro hunk hhunk hnil
    have hlength := (hhunks.counts hunk hhunk).1
    have hpos := hpositive hunk hhunk
    rw [hnil] at hlength
    change hunk.oldCount = 0 at hlength
    omega
  rw [hsame] at hhunks
  constructor
  · exact replaced_intercalate hold newString file
  · exact haccepted
  · exact hfile
  · intro hwell hwellOld hwellNew
    rw [← hsame] at hwell
    rw [hfile]
    exact (hwellOld.intercalate hold hwellNew hwell).toWellFormed_eq
  · exact hpatch
  · exact hhunks.patched
  · exact hhunks.ordered
  · exact hhunks.counts
  · intro start
    rw [hpatch]
    exact shownLines_patchLines hhunks hne hrows (fun line => newline_notMem_linesOf)
      (fun line => newline_notMem_linesOf) start
  · exact hhunks.showsLine

end Yuke.Js.Edit
