import Yuke.Js.Lines

/-!
# The pages of a file

Each page holds whole lines in order, or the start of one line that is over the limit alone. The
`next` of a page is the first line that it left out, so the pages from line 1 on show each line once.
The line numbers are `u32` values, so this needs a file with fewer lines.
-/

set_option autoImplicit false

namespace Yuke.Js

open Yuke.Shared

def fileLines (bytes : List UInt8) : List (List UInt8) := linesOf newline bytes

/-- The numbered lines from line `i` on. `number` gives the number of each line. -/
def entries (number : ℕ → ℕ) : ℕ → List (List UInt8) → List UInt8
  | _, [] => []
  | i, line :: lines => entryOf (number i) line ++ entries number (i + 1) lines

/-- The page of `lines`, the lines from line `offset` on, and the number of lines that it shows. -/
inductive Page (number : ℕ → ℕ) (offset limit maxBytes : ℕ) (lines : List (List UInt8)) :
    Lines → ℕ → Prop where
  /-- Whole lines, up to the limits or the end. -/
  | whole {count : ℕ} (hcount : count ≤ lines.length) (hlimit : count ≤ limit)
      (hfits : (entries number offset (lines.take count)).length ≤ maxBytes)
      (hstop : count = limit ∨ count = lines.length ∨ 0 < count ∧
        ∃ line, lines[count]? = some line ∧ maxBytes <
          (entries number offset (lines.take count)).length +
            (entryOf (number (offset + count)) line).length) :
      Page number offset limit maxBytes lines
        (.text (entries number offset (lines.take count))
          (if count < lines.length then some (number (offset + count)) else none) none) count
  /-- The start of a line that is over the limit alone. -/
  | cut {line : List UInt8} {rest : List (List UInt8)} {part : List Char}
      (hlines : lines = line :: rest)
      (hover : maxBytes < (entryOf (number offset) line).length)
      (hpart : encode part <+: entryOf (number offset) line)
      (hfits : (encode part).length ≤ maxBytes) :
      Page number offset limit maxBytes lines
        (.text (encode part) (if rest = [] then none else some (number (offset + 1)))
          (some (number offset))) 1

theorem linesOf_ne_nil {byte : UInt8} {bytes : List UInt8} (h : bytes ≠ []) :
    linesOf byte bytes = lineOf byte bytes :: linesOf byte (afterLine byte bytes) := by
  rw [linesOf, dif_neg h]

@[simp] theorem linesOf_nil (byte : UInt8) : linesOf byte [] = [] := by
  rw [linesOf, dif_pos rfl]

theorem newline_not_mem {bytes : List UInt8} {c : Char} (h : Shape bytes c) (hc : c ≠ '\n') :
    ∀ b ∈ bytes, b ≠ newline := by
  rintro b hb rfl
  obtain ⟨first, rest, rfl, _, hrest⟩ := h.cons
  rcases List.mem_cons.mp hb with rfl | hmem
  · have hsmall : ∀ b : UInt8, ¬ isSecond newline b = true := by
      intro b hsecond
      have hle := (isSecond_iff.mp hsecond).1
      revert hle
      decide
    cases h with
    | one _ => exact hc rfl
    | two hsecond _ | three hsecond _ _ _ | four hsecond _ _ _ => exact hsmall _ hsecond
  · have htrailing := hrest _ hmem
    revert htrailing
    decide

theorem split_encode (letters : List Char) :
    lineOf newline (encode letters) = encode (letters.takeWhile (· ≠ '\n')) ∧
      afterLine newline (encode letters) = encode ((letters.dropWhile (· ≠ '\n')).drop 1) := by
  induction letters with
  | nil => exact ⟨rfl, rfl⟩
  | cons c letters ih =>
    by_cases hc : c = '\n'
    · subst hc
      have hline : encode ('\n' :: letters) = [] ++ newline :: encode letters := rfl
      rw [hline, lineOf_end (by simp), afterLine_end (by simp)]
      exact ⟨rfl, rfl⟩
    · have hnot := newline_not_mem (shape_encode c) hc
      rw [encode_cons, lineOf_append hnot, afterLine_append hnot, ih.1, ih.2]
      simp [hc]

theorem three_le_length (number : ℕ) (content : List UInt8) :
    content.length + 4 ≤ (entryOf number content).length := by
  have hdigits : (toString number).toList ≠ [] := by
    simp
  have hpos : 0 < (encode (toString number).toList).length := by
    cases h : (toString number).toList with
    | nil => exact absurd h hdigits
    | cons c rest =>
      obtain ⟨first, more, heq, _⟩ := (shape_encode c).cons
      rw [encode_cons, heq]
      exact Nat.succ_pos _
  simp only [entryOf, List.length_append, List.length_cons, List.length_nil]
  omega

theorem entryOf_ne_nil (number : ℕ) (content : List UInt8) : entryOf number content ≠ [] := by
  have := three_le_length number content
  rw [← List.length_pos_iff]
  omega

theorem entryOf_encode (number : ℕ) (letters : List Char) : ∃ entry,
    entryOf number (encode letters) = encode entry :=
  ⟨(toString number).toList ++ ([':', ' '] ++ letters ++ ['\n']), by
    rw [encode_append, encode_append, encode_append]
    rfl⟩

theorem floorCharBoundary_le (bytes : List UInt8) {index : ℕ} (h : index < bytes.length) :
    floorCharBoundary bytes index ≤ index := by
  induction index with
  | zero => exact le_rfl
  | succ index ih =>
    rw [floorCharBoundary, List.getElem?_eq_getElem h]
    dsimp only
    split
    · exact Nat.le_succ_of_le (ih (by omega))
    · exact le_rfl

theorem floorCharBoundary_encode (letters : List Char) {index : ℕ}
    (h : index < (encode letters).length) : ∃ left,
      (encode letters).take (floorCharBoundary (encode letters) index) = encode left := by
  have hboundary : floorCharBoundary (encode letters) index = 0 ∨
      ∃ b, (encode letters)[floorCharBoundary (encode letters) index]? = some b ∧
        isTrailing b = false := by
    induction index with
    | zero => exact .inl rfl
    | succ index ih =>
      rw [floorCharBoundary, List.getElem?_eq_getElem h]
      dsimp only
      split
      · exact ih (by omega)
      · next hb => exact .inr ⟨_, List.getElem?_eq_getElem h, by simpa using hb⟩
  have hle := floorCharBoundary_le (encode letters) h
  have hcut : floorCharBoundary (encode letters) index ≤ (encode letters).length := by omega
  rcases cut_encode letters hcut with
    ⟨left, _, _, htake, _⟩ | ⟨left, c, right, _, hcross⟩
  · exact ⟨left, htake⟩
  · -- A character over the cut leaves a trailing byte after it.
    have hbefore := hcross.before_lt
    obtain ⟨rest, hdrop, hne, htrailing⟩ := hcross.drop
    rcases hboundary with hzero | ⟨b, hb, hfalse⟩
    · omega
    · cases rest with
      | nil => exact absurd rfl hne
      | cons first rest =>
        rw [← List.head?_drop, hdrop] at hb
        cases hb
        rw [htrailing _ List.mem_cons_self] at hfalse
        cases hfalse

theorem contentOf_whole (letters : List Char) :
    contentOf true (encode letters) = some (encode letters) := by
  have hvalid := fromUtf8_encode_append letters []
  rw [List.append_nil] at hvalid
  rw [contentOf, hvalid]
  rfl

theorem contentOf_start (letters : List Char) {count : ℕ} (h : count ≤ (encode letters).length) :
    ∃ left, contentOf false ((encode letters).take count) = some (encode left) ∧
      encode left <+: encode letters ∧ count ≤ (encode left).length + 3 := by
  rcases cut_encode letters h with ⟨left, right, _, htake, _⟩ | ⟨left, c, right, _, hcross⟩
  · refine ⟨left, ?_, ⟨(encode letters).drop count, ?_⟩, ?_⟩
    · have hvalid := fromUtf8_encode_append left []
      rw [List.append_nil] at hvalid
      rw [htake, contentOf, hvalid]
      rfl
    · rw [← htake, List.take_append_drop]
    · rw [← htake, List.length_take]
      omega
  · obtain ⟨part, htake, hpart⟩ := hcross.take
    have hlen : part.length ≤ 3 := by
      cases hpart <;> simp
    refine ⟨left, ?_, ⟨String.utf8EncodeChar c ++ encode right, hcross.eq.symm⟩, ?_⟩
    · have hcheck := fromUtf8_encode_append left part
      rw [fromUtf8_start hpart] at hcheck
      rw [htake, contentOf, hcheck]
      exact congrArg some List.take_left
    · have hcount := congrArg List.length htake
      rw [List.length_take, List.length_append] at hcount
      omega

/-- The number that line `i` shows. A `u32` keeps its greatest value. -/
def shownNumber (i : ℕ) : ℕ := min i u32Max

theorem nextNumber_shown (i : ℕ) : nextNumber (shownNumber i) = shownNumber (i + 1) := by
  unfold nextNumber shownNumber
  omega

theorem entries_concat (number : ℕ → ℕ) (i : ℕ) (lines : List (List UInt8)) (line : List UInt8) :
    entries number i (lines ++ [line]) =
      entries number i lines ++ entryOf (number (i + lines.length)) line := by
  induction lines generalizing i with
  | nil => simp [entries]
  | cons first lines ih =>
    have hindex : i + 1 + lines.length = i + (first :: lines).length := by
      rw [List.length_cons]
      omega
    rw [List.cons_append, entries, entries, ih, hindex, List.append_assoc]

theorem entries_eq_nil {number : ℕ → ℕ} {i : ℕ} {lines : List (List UInt8)}
    (h : entries number i lines = []) : lines = [] := by
  cases lines with
  | nil => rfl
  | cons line lines =>
    rw [entries, List.append_eq_nil_iff] at h
    exact absurd h.1 (entryOf_ne_nil _ _)

theorem Page.stop {number : ℕ → ℕ} {offset limit maxBytes : ℕ} {done rest : List (List UInt8)}
    {out : Lines} (hlimit : done.length ≤ limit)
    (hfits : (entries number offset done).length ≤ maxBytes)
    (hstop : done.length = limit ∨ rest = [] ∨ done ≠ [] ∧ ∃ line more, rest = line :: more ∧
      maxBytes < (entries number offset done).length +
        (entryOf (number (offset + done.length)) line).length)
    (hout : out = .text (entries number offset done)
      (if rest = [] then none else some (number (offset + done.length))) none) :
    Page number offset limit maxBytes (done ++ rest) out done.length := by
  have htake : (done ++ rest).take done.length = done := List.take_left
  have hcount : done.length ≤ (done ++ rest).length := by
    rw [List.length_append]
    omega
  have hpage : Page number offset limit maxBytes (done ++ rest) _ done.length :=
    Page.whole hcount hlimit (by rwa [htake]) ?_
  · rw [htake] at hpage
    rw [hout]
    cases rest with
    | nil => simpa using hpage
    | cons line more => simpa using hpage
  · rw [htake]
    rcases hstop with hfull | hend | ⟨hne, line, more, hrest, hover⟩
    · exact .inl hfull
    · exact .inr (.inl (by simp [hend]))
    · refine .inr (.inr ⟨List.length_pos_iff.mpr hne, line, ?_, hover⟩)
      rw [hrest]
      simp

theorem Page.start {number : ℕ → ℕ} {offset maxBytes : ℕ} (limit : ℕ)
    (rest : List (List UInt8)) {letters content : List Char} (hcontent : encode content <+: encode letters)
    (hlong : content = letters ∨ maxBytes < (encode content).length + 3)
    (hover : maxBytes < (entryOf (number offset) (encode letters)).length) :
    Page number offset limit maxBytes (encode letters :: rest)
      (.text ((entryOf (number offset) (encode content)).take
          (floorCharBoundary (entryOf (number offset) (encode content)) maxBytes))
        (if rest = [] then none else some (number (offset + 1))) (some (number offset))) 1 := by
  obtain ⟨entry, hentry⟩ := entryOf_encode (number offset) content
  have hlt : maxBytes < (encode entry).length := by
    rw [← hentry]
    rcases hlong with rfl | hlong
    · exact hover
    · have := three_le_length (number offset) (encode content)
      omega
  obtain ⟨left, hleft⟩ := floorCharBoundary_encode entry hlt
  have hle := floorCharBoundary_le (encode entry) hlt
  have hlen : (encode left).length ≤ maxBytes := by
    rw [← hleft, List.length_take]
    omega
  rw [hentry, hleft]
  refine .cut rfl hover ?_ hlen
  -- The part stops before the line feed of the entry, so it is a part of the whole line.
  have hpart : encode left <+: entryOf (number offset) (encode content) := by
    rw [hentry, ← hleft]
    exact List.take_prefix ..
  rcases hlong with rfl | hlong
  · exact hpart
  · have hbefore : encode left <+:
        encode (toString (number offset)).toList ++ ([0x3a, 0x20] ++ encode content) := by
      have hend : encode (toString (number offset)).toList ++ ([0x3a, 0x20] ++ encode content) <+:
          entryOf (number offset) (encode content) := ⟨[newline], by rw [entryOf]; simp⟩
      refine List.prefix_of_prefix_length_le hpart hend ?_
      have := three_le_length (number offset) (encode content)
      have hsum : (entryOf (number offset) (encode content)).length =
          (encode (toString (number offset)).toList ++
            ([0x3a, 0x20] ++ encode content)).length + 1 := by
        rw [entryOf]
        simp only [List.length_append, List.length_cons, List.length_nil]
        omega
      omega
    obtain ⟨more, hmore⟩ := hcontent
    refine hbefore.trans ⟨more ++ [newline], ?_⟩
    rw [entryOf, ← hmore]
    simp

theorem readLine_content {maxBytes : ℕ} {reader after : BufReader IoError} {letters : List Char}
    {whole : Bool} {line : List UInt8} (hrest : reader.rest = encode letters)
    (h : readLine maxBytes [] reader = .ok (whole, line, after)) :
    ∃ text content, lineOf newline reader.rest = encode text ∧
      contentOf whole line = some (encode content) ∧ encode content <+: encode text ∧
      (whole = true ∧ content = text ∧ after.rest = afterLine newline reader.rest ∨
        whole = false ∧ maxBytes < (encode content).length + 3 ∧
          afterLine newline after.rest = afterLine newline reader.rest) := by
  obtain ⟨hline, _⟩ := split_encode letters
  rw [← hrest] at hline
  refine ⟨letters.takeWhile (· ≠ '\n'), ?_⟩
  obtain ⟨_, ⟨_, rfl, rfl, hafter⟩ | ⟨hlong, rfl, rfl, hafter⟩⟩ := readLine_spec h (by simp)
  · refine ⟨_, hline, ?_, List.prefix_rfl, .inl ⟨rfl, rfl, hafter⟩⟩
    rw [List.nil_append, hline]
    exact contentOf_whole _
  · rw [List.nil_append] at hlong ⊢
    rw [hline] at hlong ⊢
    obtain ⟨left, hcontent, hleft, hcount⟩ := contentOf_start _ hlong.le
    refine ⟨left, rfl, hcontent, hleft, .inr ⟨rfl, by omega, ?_⟩⟩
    have hsplit : reader.rest = (encode (letters.takeWhile (· ≠ '\n'))).take (maxBytes + 1) ++
        reader.rest.drop (maxBytes + 1) := by
      conv_lhs => rw [← List.take_append_drop (maxBytes + 1) reader.rest]
      congr 1
      rw [← hline] at hlong ⊢
      obtain ⟨more, hmore⟩ : lineOf newline reader.rest <+: reader.rest :=
        List.takeWhile_prefix _
      conv_lhs => rw [← hmore]
      rw [List.take_append_of_le_length hlong.le]
    rw [hafter, List.length_nil, Nat.sub_zero]
    conv_rhs => rw [hsplit]
    rw [afterLine_append]
    intro b hb
    have hmem := List.mem_of_mem_take hb
    rw [← hline] at hmem
    exact not_mem_lineOf newline reader.rest b hmem

theorem steady_of_fills {reader after : BufReader IoError} (h : reader.Steady)
    (hfills : after.fills = reader.fills) : after.Steady := by
  intro i
  rw [hfills]
  exact h i

theorem linesFrom_take (path : String) {offset : ℕ} (limit maxBytes : ℕ) (hpos : 0 < offset)
    (hoffset : offset ≤ u32Max) (done : List (List UInt8)) (hdone : done.length ≤ limit)
    (hfits : (entries shownNumber offset done).length ≤ maxBytes) {reader : BufReader IoError}
    (hsteady : reader.Steady) {letters : List Char} (hletters : reader.rest = encode letters) :
    ∃ out count, linesFrom path offset limit maxBytes (entries shownNumber offset done) done.length
        (shownNumber (offset - 1 + done.length)) reader = .ok out ∧
      Page shownNumber offset limit maxBytes (done ++ fileLines reader.rest) out count := by
  induction hlen : reader.rest.length using Nat.strong_induction_on
    generalizing reader done letters with
  | _ length ih =>
    have hnumber : nextNumber (shownNumber (offset - 1 + done.length)) =
        shownNumber (offset + done.length) := by
      rw [nextNumber_shown]
      congr 1
      omega
    obtain ⟨buffer, filled, hfill⟩ := hsteady.fillBuf
    have hfilled := BufReader.filled_of_fillBuf hfill
    unfold linesFrom
    split
    · next error herror =>
      rw [hfill] at herror
      cases herror
    · next buffer' filled' heq =>
      rw [hfill] at heq
      cases heq
      split
      · next hnil =>
        have hend : fileLines reader.rest = [] := by
          rw [hfilled.nil hnil]
          exact linesOf_nil _
        refine ⟨_, done.length, rfl, Page.stop hdone hfits (.inr (.inl hend)) ?_⟩
        rw [if_pos hend]
      · next hne =>
        have hrest := Filled.rest_ne_nil hfilled hne
        rw [hfilled.rest] at hrest
        have hsplit : fileLines reader.rest =
            lineOf newline reader.rest :: fileLines (afterLine newline reader.rest) :=
          linesOf_ne_nil hrest
        dsimp only
        rw [hnumber]
        have hnot : ¬ shownNumber (offset + done.length) < offset := by
          unfold shownNumber
          omega
        rw [if_neg hnot]
        split
        · next hfull =>
          refine ⟨_, done.length, rfl, Page.stop hdone hfits (.inl hfull) ?_⟩
          rw [hsplit, if_neg (List.cons_ne_nil _ _)]
        · next hroom =>
          have hfilledSteady := hfilled.steady hsteady
          obtain ⟨result, hresult⟩ := readLine_ok maxBytes [] hfilledSteady
          split
          · next error herror =>
            rw [hresult] at herror
            cases herror
          · next whole line after hread =>
            have hlettersFilled : filled.rest = encode letters := hfilled.rest.trans hletters
            obtain ⟨text, content, hline, hcontent, hprefix, hafter⟩ :=
              readLine_content hlettersFilled hread
            have hafterSteady := steady_of_fills hfilledSteady (readLine_spec hread (by simp)).1
            rw [hfilled.rest] at hline hafter
            rw [hcontent, hsplit, hline]
            dsimp only
            have hmono : (entryOf (shownNumber (offset + done.length)) (encode content)).length ≤
                (entryOf (shownNumber (offset + done.length)) (encode text)).length := by
              have := hprefix.length_le
              simp only [entryOf, List.length_append]
              omega
            split
            · next hover =>
              split
              · next htext =>
                have hne : done ≠ [] := by
                  rintro rfl
                  exact htext rfl
                refine ⟨_, done.length, rfl, Page.stop hdone hfits
                  (.inr (.inr ⟨hne, _, _, rfl, by omega⟩)) ?_⟩
                rw [if_neg (List.cons_ne_nil _ _)]
              · next htext =>
                have hnil : done = [] := entries_eq_nil (not_not.mp htext)
                subst hnil
                simp only [entries, List.length_nil, Nat.zero_add, Nat.add_zero] at hover hmono
                simp only [List.length_nil, Nat.add_zero, List.nil_append]
                -- The read skips the rest of the line.
                have hskip : ∃ next, (if whole then (.ok after : Except IoError _)
                    else after.skipUntil newline) = .ok next ∧ next.Steady ∧
                    next.rest = afterLine newline reader.rest := by
                  rcases hafter with ⟨rfl, _, hrest'⟩ | ⟨rfl, _, hrest'⟩
                  · exact ⟨after, rfl, hafterSteady, hrest'⟩
                  · obtain ⟨next, hnext⟩ := hafterSteady.skipUntil newline
                    obtain ⟨hnextRest, hnextFills⟩ := BufReader.skipUntil_rest hnext
                    exact ⟨next, hnext, steady_of_fills hafterSteady hnextFills,
                      hnextRest.trans hrest'⟩
                obtain ⟨next, hnext, hnextSteady, hnextRest⟩ := hskip
                obtain ⟨more, last, hlast⟩ := hnextSteady.fillBuf
                have hlastFilled := BufReader.filled_of_fillBuf hlast
                rw [hnext]
                dsimp only
                rw [hlast]
                dsimp only
                have hempty : (more = []) ↔ fileLines (afterLine newline reader.rest) = [] := by
                  rw [← hnextRest]
                  constructor
                  · intro hmore
                    rw [hlastFilled.nil hmore]
                    exact linesOf_nil _
                  · intro hlines
                    by_contra hmore
                    obtain ⟨others, hothers⟩ := hlastFilled.start
                    have hnextNe : next.rest ≠ [] := by
                      rw [hothers]
                      exact List.append_ne_nil_of_left_ne_nil hmore _
                    rw [fileLines, linesOf_ne_nil hnextNe] at hlines
                    cases hlines
                refine ⟨_, 1, rfl, ?_⟩
                have hlong : content = text ∨ maxBytes < (encode content).length + 3 := by
                  rcases hafter with ⟨_, rfl, _⟩ | ⟨_, hlong, _⟩
                  · exact .inl rfl
                  · exact .inr hlong
                have hpage : Page shownNumber offset limit maxBytes _ _ 1 :=
                  Page.start limit (fileLines (afterLine newline reader.rest)) hprefix hlong
                    (hover.trans_le hmono)
                simp only [hempty, nextNumber_shown]
                exact hpage
            · next hunder =>
              have hwhole : whole = true ∧ content = text ∧
                  after.rest = afterLine newline reader.rest := by
                rcases hafter with hwhole | ⟨_, hlong, _⟩
                · exact hwhole
                · have := three_le_length (shownNumber (offset + done.length)) (encode content)
                  omega
              obtain ⟨_, rfl, hafterRest⟩ := hwhole
              have hshorter : after.rest.length < length := by
                rw [hafterRest, ← hlen]
                exact length_afterLine_lt hrest
              have hmore := ih _ hshorter (done ++ [encode content])
                (by
                  rw [List.length_append, List.length_singleton]
                  omega)
                (by
                  rw [entries_concat, List.length_append]
                  omega)
                hafterSteady (hafterRest.trans (by rw [hletters]; exact (split_encode letters).2))
                rfl
              rw [entries_concat, List.length_append, List.length_singleton, hafterRest] at hmore
              have hindex : offset - 1 + (done.length + 1) = offset + done.length := by omega
              rw [hindex, List.append_assoc] at hmore
              exact hmore

theorem linesFrom_skip (path : String) {offset : ℕ} (limit maxBytes : ℕ) (hoffset : offset ≤ u32Max)
    {skipped : ℕ} (hskipped : skipped < offset) {reader : BufReader IoError}
    (hsteady : reader.Steady) {letters : List Char} (hletters : reader.rest = encode letters) :
    ∃ out count, linesFrom path offset limit maxBytes [] 0 (shownNumber skipped) reader = .ok out ∧
      Page shownNumber offset limit maxBytes
        ((fileLines reader.rest).drop (offset - 1 - skipped)) out count := by
  induction hlen : reader.rest.length using Nat.strong_induction_on
    generalizing reader skipped letters with
  | _ length ih =>
    rcases eq_or_lt_of_le (show skipped + 1 ≤ offset from hskipped) with heq | hlt
    · have htake := linesFrom_take path limit maxBytes (by omega) hoffset
        [] (Nat.zero_le _) (Nat.zero_le _) hsteady hletters
      have hzero : offset - 1 = skipped := by omega
      rw [List.length_nil, Nat.add_zero, hzero, List.nil_append] at htake
      rw [hzero, Nat.sub_self, List.drop_zero]
      exact htake
    · obtain ⟨buffer, filled, hfill⟩ := hsteady.fillBuf
      have hfilled := BufReader.filled_of_fillBuf hfill
      unfold linesFrom
      split
      · next error herror =>
        rw [hfill] at herror
        cases herror
      · next buffer' filled' heq =>
        rw [hfill] at heq
        cases heq
        split
        · next hnil =>
          have hend : fileLines reader.rest = [] := by
            rw [hfilled.nil hnil]
            exact linesOf_nil _
          rw [hend, List.drop_nil]
          have hpage : Page shownNumber offset limit maxBytes ([] ++ []) _ 0 :=
            Page.stop (Nat.zero_le _) (Nat.zero_le _) (.inr (.inl rfl)) rfl
          exact ⟨_, 0, rfl, hpage⟩
        · next hne =>
          have hrest := Filled.rest_ne_nil hfilled hne
          dsimp only
          rw [nextNumber_shown]
          have hbefore : shownNumber (skipped + 1) < offset := by
            unfold shownNumber
            omega
          rw [if_pos hbefore]
          obtain ⟨next, hnext⟩ := (hfilled.steady hsteady).skipUntil newline
          split
          · next error herror =>
            rw [hnext] at herror
            cases herror
          · next next' heq =>
            rw [hnext] at heq
            cases heq
            obtain ⟨hnextRest, hnextFills⟩ := BufReader.skipUntil_rest hnext
            rw [hfilled.rest] at hnextRest hrest
            have hshorter : next.rest.length < length := by
              rw [hnextRest, ← hlen]
              exact length_afterLine_lt hrest
            obtain ⟨out, count, hout, hpage⟩ := ih _ hshorter hlt
              (steady_of_fills (hfilled.steady hsteady) hnextFills)
              (hnextRest.trans (by rw [hletters]; exact (split_encode letters).2)) rfl
            refine ⟨out, count, hout, ?_⟩
            have hsplit : fileLines reader.rest = lineOf newline reader.rest ::
                fileLines (afterLine newline reader.rest) := linesOf_ne_nil hrest
            have hdrop : offset - 1 - skipped = offset - 1 - (skipped + 1) + 1 := by omega
            rw [hsplit, hdrop, List.drop_succ_cons, ← hnextRest]
            exact hpage

theorem startsWith_append {start bytes : List UInt8} (more : List UInt8)
    (h : startsWith bytes start = true) : startsWith (bytes ++ more) start = true :=
  List.isPrefixOf_iff_prefix.mpr
    ((List.isPrefixOf_iff_prefix.mp h).trans (List.prefix_append bytes more))

theorem imageType_eq_none {bytes : List UInt8} : imageType bytes = none ↔
    ¬ startsWith bytes [0x89, 0x50, 0x4e, 0x47, 0x0d, 0x0a, 0x1a, 0x0a] ∧
    ¬ startsWith bytes [0xff, 0xd8, 0xff] ∧
    ¬ (startsWith bytes [0x47, 0x49, 0x46, 0x38, 0x37, 0x61] ∨
      startsWith bytes [0x47, 0x49, 0x46, 0x38, 0x39, 0x61]) ∧
    ¬ ((12 ≤ bytes.length ∧ startsWith bytes [0x52, 0x49, 0x46, 0x46]) ∧
      startsWith (bytes.drop 8) [0x57, 0x45, 0x42, 0x50]) := by
  simp only [imageType, Bool.or_eq_true, Bool.and_eq_true, decide_eq_true_eq]
  split_ifs with hpng hjpeg hgif hwebp
  · simp [hpng]
  · simp [hjpeg]
  · simp [hgif]
  · simp [hwebp]
  · exact ⟨fun _ => ⟨hpng, hjpeg, hgif, hwebp⟩, fun _ => rfl⟩

theorem imageType_append {start more : List UInt8} (h : imageType (start ++ more) = none) :
    imageType start = none := by
  obtain ⟨hpng, hjpeg, hgif, hwebp⟩ := imageType_eq_none.mp h
  refine imageType_eq_none.mpr ⟨?_, ?_, ?_, ?_⟩
  · exact fun hstart => hpng (startsWith_append more hstart)
  · exact fun hstart => hjpeg (startsWith_append more hstart)
  · exact fun hstart => hgif (hstart.imp (startsWith_append more) (startsWith_append more))
  · rintro ⟨⟨hlen, hriff⟩, hstart⟩
    refine hwebp ⟨⟨?_, startsWith_append more hriff⟩, ?_⟩
    · rw [List.length_append]
      omega
    · rw [List.drop_append_of_le_length (by omega)]
      exact startsWith_append more hstart

/-- A UTF-8 file that is no image. -/
structure TextFile (file : FileAt) (letters : List Char) : Prop where
  kind : file.kind = .ok .file
  bytes : file.bytes = .ok (encode letters)
  image : imageType (encode letters) = none

def ReadsOn (fills : ℕ → Except IoError ℕ) : Prop := ∀ i, ∃ more, fills i = .ok more

theorem lines_page {file : FileAt} {letters : List Char} (h : TextFile file letters)
    (hfills : ReadsOn file.fills) {offset : ℕ} (hpos : 0 < offset) (hoffset : offset ≤ u32Max)
    (limit maxBytes : ℕ) : ∃ out count, lines file offset limit maxBytes = .ok out ∧
      Page shownNumber offset limit maxBytes ((fileLines (encode letters)).drop (offset - 1))
        out count := by
  have hsteady : (BufReader.new (encode letters) file.fills).Steady := hfills
  obtain ⟨start, reader, hfill⟩ := hsteady.fillBuf
  have hfilled := BufReader.filled_of_fillBuf hfill
  obtain ⟨more, hmore⟩ := hfilled.start
  have hbytes : encode letters = start ++ more := hmore
  have himage : imageType start = none := imageType_append (hbytes ▸ h.image)
  obtain ⟨out, count, hout, hpage⟩ := linesFrom_skip file.path limit maxBytes
    hoffset hpos (hfilled.steady hsteady) hfilled.rest
  have hrest : reader.rest = encode letters := hfilled.rest
  rw [hrest, Nat.sub_zero] at hpage
  refine ⟨out, count, ?_, hpage⟩
  unfold lines
  rw [h.kind, h.bytes]
  dsimp only [Except.bind, checkKind]
  rw [hfill]
  dsimp only
  rw [himage]
  exact hout

theorem Page.congr {number number' : ℕ → ℕ} {offset limit maxBytes : ℕ}
    {lines : List (List UInt8)} {out : Lines} {count : ℕ}
    (h : Page number offset limit maxBytes lines out count)
    (heq : ∀ i, offset ≤ i → i < offset + lines.length → number i = number' i) :
    Page number' offset limit maxBytes lines out count := by
  have hentries : ∀ (some : List (List UInt8)) (i : ℕ), offset ≤ i →
      i + some.length ≤ offset + lines.length → entries number i some = entries number' i some := by
    intro some
    induction some with
    | nil =>
      intro i _ _
      rfl
    | cons line some ih =>
      intro i hi hle
      rw [List.length_cons] at hle
      rw [entries, entries, heq i hi (by omega), ih (i + 1) (by omega) (by omega)]
  cases h with
  | whole hcount hlimit hfits hstop =>
    have hsame := hentries (lines.take count) offset le_rfl (by
      rw [List.length_take]
      omega)
    rw [hsame] at hfits hstop ⊢
    have hnext : (if count < lines.length then some (number (offset + count)) else none) =
        if count < lines.length then some (number' (offset + count)) else none := by
      split
      · rw [heq _ (by omega) (by omega)]
      · rfl
    rw [hnext]
    refine .whole hcount hlimit hfits ?_
    rcases hstop with hfull | hend | ⟨hpos, line, hline, hover⟩
    · exact .inl hfull
    · exact .inr (.inl hend)
    · have hlt := (List.getElem?_eq_some_iff.mp hline).1
      refine .inr (.inr ⟨hpos, line, hline, ?_⟩)
      rwa [← heq _ (by omega) (by omega)]
  | @cut line rest part hlines hover hpart hfits =>
    subst hlines
    rw [List.length_cons] at heq
    have hnext : (if rest = [] then none else some (number (offset + 1))) =
        if rest = [] then none else some (number' (offset + 1)) := by
      split
      · rfl
      · next hne =>
        have := List.length_pos_iff.mpr hne
        rw [heq _ (by omega) (by omega)]
    rw [heq offset le_rfl (by omega)] at hover hpart ⊢
    rw [hnext]
    exact .cut rfl hover hpart hfits

theorem Page.next_cases {number : ℕ → ℕ} {offset limit maxBytes : ℕ} {lines : List (List UInt8)}
    {out : Lines} {count : ℕ} (h : Page number offset limit maxBytes lines out count)
    (hlimit : 0 < limit) :
    (∃ text cut, out = .text text none cut ∧ count = lines.length) ∨
      ∃ text cut, out = .text text (some (number (offset + count))) cut ∧ 0 < count ∧
        count < lines.length := by
  cases h with
  | whole hcount hle hfits hstop =>
    rcases Nat.lt_or_ge count lines.length with hlt | hge
    · refine .inr ⟨_, none, by rw [if_pos hlt], ?_, hlt⟩
      rcases hstop with rfl | rfl | ⟨hpos, _⟩
      · exact hlimit
      · omega
      · exact hpos
    · exact .inl ⟨_, none, by rw [if_neg (by omega)], by omega⟩
  | @cut line rest part hlines hover hpart hfits =>
    rw [hlines, List.length_cons]
    rcases eq_or_ne rest [] with rfl | hne
    · exact .inl ⟨_, _, by rw [if_pos rfl], rfl⟩
    · have := List.length_pos_iff.mpr hne
      exact .inr ⟨_, _, by rw [if_neg hne], Nat.one_pos, by omega⟩

theorem Page.count_le {number : ℕ → ℕ} {offset limit maxBytes : ℕ} {lines : List (List UInt8)}
    {out : Lines} {count : ℕ} (h : Page number offset limit maxBytes lines out count)
    (hlimit : 0 < limit) : count ≤ limit := by
  cases h with
  | whole _ hle _ _ => exact hle
  | cut _ _ _ _ => exact hlimit

/-- Read the page at `offset`, and then each page that a `next` names. -/
def follow (file : FileAt) (fills : ℕ → ℕ → Except IoError ℕ) (limit maxBytes : ℕ) :
    ℕ → ℕ → ℕ → Option (List (ℕ × Lines))
  | 0, _, _ => none
  | fuel + 1, turn, offset =>
    match lines { file with fills := fills turn } offset limit maxBytes with
    | .error _ => none
    | .ok (.text text (some next) cut) =>
      (follow file fills limit maxBytes fuel (turn + 1) next).map
        ((offset, .text text (some next) cut) :: ·)
    | .ok out => some [(offset, out)]

def shownLines (pages : List (ℕ × Lines)) (counts : List ℕ) : List ℕ :=
  (List.zipWith (fun page count => List.range' page.1 count) pages counts).flatten

structure ReadsOnce (file : FileAt) (bytes : List UInt8) : Prop where
  /-- Each page holds the numbered lines from its offset on. -/
  page : ∀ fills offset limit maxBytes, ReadsOn fills → 0 < offset → offset ≤ u32Max → 0 < limit →
    0 < maxBytes → ∃ out count, lines { file with fills } offset limit maxBytes = .ok out ∧
      Page id offset limit maxBytes ((fileLines bytes).drop (offset - 1)) out count
  /-- The pages from line 1 on end, and show each line once. -/
  visits : ∀ fills limit maxBytes, (∀ turn, ReadsOn (fills turn)) → 0 < limit → 0 < maxBytes →
    ∃ fuel pages counts, follow file fills limit maxBytes fuel 0 1 = some pages ∧
      List.Forall₂ (fun page count => Page id page.1 limit maxBytes
        ((fileLines bytes).drop (page.1 - 1)) page.2 count) pages counts ∧
      shownLines pages counts = List.range' 1 (fileLines bytes).length

theorem lines_page_id {file : FileAt} {letters : List Char} (h : TextFile file letters)
    (hcount : (fileLines (encode letters)).length < 2 ^ 32) (hfills : ReadsOn file.fills)
    {offset : ℕ} (hpos : 0 < offset) (hoffset : offset ≤ u32Max) (limit maxBytes : ℕ) :
    ∃ out count, lines file offset limit maxBytes = .ok out ∧
      Page id offset limit maxBytes ((fileLines (encode letters)).drop (offset - 1))
        out count := by
  obtain ⟨out, count, hout, hpage⟩ := lines_page h hfills hpos hoffset limit maxBytes
  refine ⟨out, count, hout, hpage.congr ?_⟩
  intro i hi hlt
  rw [List.length_drop] at hlt
  unfold shownNumber u32Max
  simp only [id_eq]
  omega

theorem follow_visits {file : FileAt} {letters : List Char} (h : TextFile file letters)
    (hcount : (fileLines (encode letters)).length < 2 ^ 32)
    {fills : ℕ → ℕ → Except IoError ℕ} (hfills : ∀ turn, ReadsOn (fills turn)) {limit : ℕ}
    (hlimit : 0 < limit) (maxBytes turn : ℕ) {offset : ℕ} (hpos : 0 < offset)
    (hoffset : offset ≤ u32Max) : ∃ fuel pages counts,
      follow file fills limit maxBytes fuel turn offset = some pages ∧
      List.Forall₂ (fun page count => Page id page.1 limit maxBytes
        ((fileLines (encode letters)).drop (page.1 - 1)) page.2 count) pages counts ∧
      shownLines pages counts =
        List.range' offset ((fileLines (encode letters)).length + 1 - offset) := by
  induction hleft : (fileLines (encode letters)).length + 1 - offset using
    Nat.strong_induction_on generalizing turn offset with
  | _ left ih =>
    have hfile : TextFile { file with fills := fills turn } letters :=
      ⟨h.kind, h.bytes, h.image⟩
    obtain ⟨out, count, hout, hpage⟩ :=
      lines_page_id hfile hcount (hfills turn) hpos hoffset limit maxBytes
    have hlen : ((fileLines (encode letters)).drop (offset - 1)).length = left := by
      rw [List.length_drop]
      omega
    rcases hpage.next_cases hlimit with ⟨text, cut, rfl, hall⟩ | ⟨text, cut, rfl, hsome, hlt⟩
    · refine ⟨1, [(offset, .text text none cut)], [count], ?_, .cons hpage .nil, ?_⟩
      · unfold follow
        rw [hout]
      · rw [hall, hlen]
        simp [shownLines]
    · rw [hlen] at hlt
      have hnext : offset + count ≤ u32Max := by
        unfold u32Max
        omega
      obtain ⟨fuel, pages, counts, hfollow, hpages, hshown⟩ :=
        ih (left - count) (by omega) (turn + 1) (by omega) hnext (by omega)
      refine ⟨fuel + 1, (offset, .text text (some (offset + count)) cut) :: pages,
        count :: counts, ?_, .cons hpage hpages, ?_⟩
      · rw [follow, hout]
        dsimp only [id_eq]
        rw [hfollow]
        rfl
      · have hrange : List.range' offset count ++ List.range' (offset + count) (left - count) =
            List.range' offset left := by
          rw [List.range'_append_1]
          congr 1
          omega
        rw [← hrange, ← hshown]
        rfl

theorem not_readsOnce {file : FileAt} {letters : List Char} (h : TextFile file letters)
    (hcount : 2 ^ 32 ≤ (fileLines (encode letters)).length) :
    ¬ ReadsOnce file (encode letters) := by
  intro hreads
  have hfills : ReadsOn fun _ => .ok 0 := fun _ => ⟨0, rfl⟩
  have hpos : 0 < u32Max := by decide
  obtain ⟨out, count, hout, hpage⟩ :=
    hreads.page (fun _ => .ok 0) u32Max 1 1 hfills hpos le_rfl Nat.one_pos Nat.one_pos
  have hfile : TextFile { file with fills := fun _ => .ok 0 } letters := ⟨h.kind, h.bytes, h.image⟩
  obtain ⟨out', count', hout', hpage'⟩ := lines_page hfile hfills hpos le_rfl 1 1
  rw [hout] at hout'
  cases hout'
  have hlong : 1 < ((fileLines (encode letters)).drop (u32Max - 1)).length := by
    rw [List.length_drop]
    unfold u32Max
    omega
  rcases hpage.next_cases Nat.one_pos with ⟨_, _, _, hall⟩ | ⟨_, _, hnext, hsome, _⟩
  · have := hpage.count_le Nat.one_pos
    omega
  · rcases hpage'.next_cases Nat.one_pos with ⟨_, _, hnone, _⟩ | ⟨_, _, hshown, _, _⟩
    · rw [hnone] at hnext
      cases hnext
    · rw [hshown] at hnext
      have heq : shownNumber (u32Max + count') = u32Max + count :=
        Option.some.inj (Lines.text.inj hnext).2.1
      unfold shownNumber at heq
      omega

/-- A read page by page sees each line once exactly when a `u32` counts the lines of the file. -/
theorem reads_once_iff {file : FileAt} {letters : List Char} (h : TextFile file letters) :
    ReadsOnce file (encode letters) ↔ (fileLines (encode letters)).length < 2 ^ 32 := by
  constructor
  · intro hreads
    by_contra hcount
    exact not_readsOnce h (by omega) hreads
  · intro hcount
    constructor
    · intro fills offset limit maxBytes hfills hpos hoffset _ _
      have hfile : TextFile { file with fills } letters := ⟨h.kind, h.bytes, h.image⟩
      exact lines_page_id hfile hcount hfills hpos hoffset limit maxBytes
    · intro fills limit maxBytes hfills hlimit _
      obtain ⟨fuel, pages, counts, hfollow, hpages, hshown⟩ :=
        follow_visits h hcount hfills hlimit maxBytes 0 Nat.one_pos (by decide)
      exact ⟨fuel, pages, counts, hfollow, hpages, hshown⟩

def textAt (letters : List Char) : FileAt where
  path := "notes.txt"
  absolute := "/notes.txt"
  kind := .ok .file
  bytes := .ok (encode letters)
  fills := fun _ => .ok 0

theorem fileLines_newlines (count : ℕ) :
    (fileLines (encode (List.replicate count '\n'))).length = count := by
  induction count with
  | zero => simp [fileLines]
  | succ count ih =>
    have hsplit : encode (List.replicate (count + 1) '\n') =
        [] ++ newline :: encode (List.replicate count '\n') := rfl
    rw [fileLines, linesOf_ne_nil (by rw [hsplit]; simp), List.length_cons, hsplit,
      afterLine_end (by simp)]
    exact congrArg _ ih

theorem textFile_newlines (count : ℕ) :
    TextFile (textAt (List.replicate (count + 1) '\n')) (List.replicate (count + 1) '\n') where
  kind := rfl
  bytes := rfl
  image := by
    have hsplit : encode (List.replicate (count + 1) '\n') =
        newline :: encode (List.replicate count '\n') := rfl
    rw [hsplit, imageType_eq_none]
    simp [startsWith, newline]

theorem reads_once_two_lines :
    ReadsOnce (textAt ['\n', '\n']) (encode ['\n', '\n']) :=
  (reads_once_iff (textFile_newlines 1)).mpr (by
    rw [fileLines_newlines]
    decide)

/-- A file of 2^32 line feeds has a page that names its own line as the next one. -/
theorem reads_again_at_the_greatest_line :
    ¬ ReadsOnce (textAt (List.replicate (2 ^ 32) '\n')) (encode (List.replicate (2 ^ 32) '\n')) := by
  have hpow : 2 ^ 32 = 2 ^ 32 - 1 + 1 := by decide
  rw [hpow]
  exact not_readsOnce (textFile_newlines _) (by rw [fileLines_newlines]; decide)

end Yuke.Js
