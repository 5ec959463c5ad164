import Yuke.Shared.BufReader
import Yuke.Shared.Utf8Chars

/-!
# The lines of a file

The `read` tool shows a file page by page: at most so many numbered lines, in at most so many bytes.
A page names the first line that it left out. The read takes only the bytes that it shows, so a line
over the limit is not read into memory.
-/

set_option autoImplicit false

namespace Yuke.Js

open Yuke.Shared

structure IoError where
  description : String
  deriving DecidableEq

def ilseq : IoError := ⟨"the bytes are not valid UTF-8"⟩

def failure (error : IoError) (path : String) : String := error.description ++ ": " ++ path

inductive FileKind where
  | dir
  | file
  | special
  deriving DecidableEq

def checkKind : FileKind → Except IoError Unit
  | .dir => .error ⟨"the path is a directory"⟩
  | .file => .ok ()
  | .special => .error ⟨"the path names a special file"⟩

def startsWith (bytes start : List UInt8) : Bool := start.isPrefixOf bytes

def imageType (start : List UInt8) : Option String :=
  if startsWith start [0x89, 0x50, 0x4e, 0x47, 0x0d, 0x0a, 0x1a, 0x0a] then some "image/png"
  else if startsWith start [0xff, 0xd8, 0xff] then some "image/jpeg"
  else if startsWith start [0x47, 0x49, 0x46, 0x38, 0x37, 0x61] ||
      startsWith start [0x47, 0x49, 0x46, 0x38, 0x39, 0x61] then some "image/gif"
  else if 12 ≤ start.length && startsWith start [0x52, 0x49, 0x46, 0x46] &&
      startsWith (start.drop 8) [0x57, 0x45, 0x42, 0x50] then some "image/webp"
  else none

/-! ## One line -/

def newline : UInt8 := 0x0a

/-- Read one line without its line feed, after the bytes `line` of it. The line keeps at most
`maxBytes + 1` bytes, and the answer tells whether it is whole. -/
def readLine (maxBytes : ℕ) (line : List UInt8) (reader : BufReader IoError) :
    Except IoError (Bool × List UInt8 × BufReader IoError) :=
  match _h : reader.fillBuf with
  | .error error => .error error
  | .ok (buffer, filled) =>
    if _hbuffer : buffer = [] then .ok (true, line, filled)
    else
      let room := maxBytes + 1 - min line.length (maxBytes + 1)
      match (position newline buffer).filter (· ≤ room) with
      | some stop => .ok (true, line ++ buffer.take stop, filled.consume (stop + 1))
      | none =>
        if buffer.length ≤ room then
          readLine maxBytes (line ++ buffer) (filled.consume buffer.length)
        else .ok (false, line ++ buffer.take room, filled.consume room)
termination_by reader.rest.length
decreasing_by
  exact (BufReader.filled_of_fillBuf _h).length_consume_lt _hbuffer
    (List.length_pos_iff.mpr _hbuffer)

def contentOf (whole : Bool) (line : List UInt8) : Option (List UInt8) :=
  match fromUtf8 line with
  | .valid => some line
  | .incomplete validUpTo => if whole then none else some (line.take validUpTo)
  | .invalid _ _ => none

def entryOf (number : ℕ) (content : List UInt8) : List UInt8 :=
  encode (toString number).toList ++ ([0x3a, 0x20] ++ content ++ [newline])

/-- The last start of a character at or before `index`. -/
def floorCharBoundary (bytes : List UInt8) : ℕ → ℕ
  | 0 => 0
  | index + 1 =>
    match bytes[index + 1]? with
    | none => bytes.length
    | some b => if isTrailing b then floorCharBoundary bytes index else index + 1

theorem readLine_spec {maxBytes : ℕ} {line line' : List UInt8} {reader after : BufReader IoError}
    {whole : Bool} (h : readLine maxBytes line reader = .ok (whole, line', after))
    (hline : line.length ≤ maxBytes + 1) :
    after.fills = reader.fills ∧
    ((line ++ lineOf newline reader.rest).length ≤ maxBytes + 1 ∧ whole = true ∧
        line' = line ++ lineOf newline reader.rest ∧
        after.rest = afterLine newline reader.rest ∨
      maxBytes + 1 < (line ++ lineOf newline reader.rest).length ∧ whole = false ∧
        line' = (line ++ lineOf newline reader.rest).take (maxBytes + 1) ∧
        after.rest = reader.rest.drop (maxBytes + 1 - line.length)) := by
  induction hlen : reader.rest.length using Nat.strong_induction_on generalizing reader line with
  | _ length ih =>
    unfold readLine at h
    split at h
    · cases h
    · next buffer filled hfill =>
      have hfilled := BufReader.filled_of_fillBuf hfill
      obtain ⟨more, hmore⟩ := hfilled.start
      split at h
      · next hnil =>
        cases h
        refine ⟨hfilled.fills, .inl ?_⟩
        rw [hfilled.rest, hfilled.nil hnil]
        simpa [lineOf, afterLine] using hline
      · next hne =>
        have hroom : maxBytes + 1 - min line.length (maxBytes + 1) =
            maxBytes + 1 - line.length := by omega
        dsimp only at h
        rw [hroom] at h
        -- The read stops in the line when the buffer reaches past the room.
        have hstops : ∀ part, lineOf newline reader.rest = part →
            maxBytes + 1 - line.length < part.length →
            (∃ rest, part = buffer.take (maxBytes + 1 - line.length) ++ rest) →
            maxBytes + 1 - line.length < buffer.length →
            (maxBytes + 1 < (line ++ part).length ∧ false = false ∧
              line ++ buffer.take (maxBytes + 1 - line.length) =
                (line ++ part).take (maxBytes + 1) ∧
              (filled.consume (maxBytes + 1 - line.length)).rest =
                reader.rest.drop (maxBytes + 1 - line.length)) := by
          rintro part hpart hlong ⟨rest, hrest⟩ hbuffer
          refine ⟨by rw [List.length_append]; omega, rfl, ?_, by
            rw [BufReader.consume_rest, hfilled.rest]⟩
          have htake : (buffer.take (maxBytes + 1 - line.length)).length =
              maxBytes + 1 - line.length := by
            rw [List.length_take]
            omega
          rw [List.take_append, List.take_of_length_le hline, hrest,
            List.take_left' htake]
        split at h
        · next stop hstop =>
          obtain ⟨hposition, hle⟩ := Option.filter_eq_some_iff.mp hstop
          obtain ⟨rest, hbuffer, hi⟩ := position_some hposition
          have hle' : stop ≤ maxBytes + 1 - line.length := by simpa using hle
          cases h
          have hwhole : reader.rest = lineOf newline buffer ++ newline :: (rest ++ more) := by
            rw [hmore]
            conv_lhs => rw [hbuffer]
            rw [List.append_assoc, List.cons_append]
          have htake : buffer.take stop = lineOf newline buffer := by
            conv_lhs => rw [hbuffer]
            rw [← hi, List.take_left]
          refine ⟨hfilled.fills, .inl ⟨?_, rfl, ?_, ?_⟩⟩
          · rw [hwhole, lineOf_end (not_mem_lineOf newline buffer), List.length_append, hi]
            omega
          · rw [hwhole, lineOf_end (not_mem_lineOf newline buffer), htake]
          · rw [BufReader.consume_rest, hfilled.rest, hwhole, afterLine_end (not_mem_lineOf newline buffer),
              ← hi, List.drop_length_add_append]
            rfl
        · next hstop =>
          cases hposition : position newline buffer with
          | some i =>
            obtain ⟨rest, hbuffer, hi⟩ := position_some hposition
            have hover : maxBytes + 1 - line.length < i := by
              rw [hposition, Option.filter_eq_none_iff] at hstop
              have := hstop i rfl
              simpa using this
            have hlong : maxBytes + 1 - line.length < buffer.length := by
              have hlen := congrArg List.length hbuffer
              rw [List.length_append, List.length_cons] at hlen
              omega
            rw [if_neg (by omega)] at h
            cases h
            have hpart : lineOf newline reader.rest = lineOf newline buffer := by
              rw [hmore]
              conv_lhs => rw [hbuffer]
              rw [List.append_assoc, List.cons_append, lineOf_end (not_mem_lineOf newline buffer)]
            rw [hpart]
            refine ⟨hfilled.fills, .inr (hstops _ hpart (by omega) ?_ hlong)⟩
            refine ⟨(lineOf newline buffer).drop (maxBytes + 1 - line.length), ?_⟩
            have htake : buffer.take (maxBytes + 1 - line.length) =
                (lineOf newline buffer).take (maxBytes + 1 - line.length) := by
              conv_lhs => rw [hbuffer]
              rw [List.take_append_of_le_length (by omega)]
            rw [htake, List.take_append_drop]
          | none =>
            have hpart : lineOf newline reader.rest = buffer ++ lineOf newline more := by
              rw [hmore, lineOf_append (position_none hposition)]
            split at h
            · next hfits =>
              have hlt := hfilled.length_consume_lt hne (List.length_pos_iff.mpr hne)
              have hline' : (line ++ buffer).length ≤ maxBytes + 1 := by
                rw [List.length_append]
                omega
              have hrest : (filled.consume buffer.length).rest = more := by
                rw [BufReader.consume_rest, hfilled.rest, hmore, List.drop_left]
              obtain ⟨hfills, hcases⟩ := ih _ (hlen ▸ hlt) h hline' rfl
              rw [hrest, List.append_assoc, ← hpart] at hcases
              refine ⟨hfills.trans hfilled.fills, ?_⟩
              rcases hcases with ⟨hshort, hwhole, heq, hafter⟩ | ⟨hlong, hwhole, heq, hafter⟩
              · refine .inl ⟨hshort, hwhole, heq, ?_⟩
                rw [hafter, hmore, afterLine_append (position_none hposition)]
              · refine .inr ⟨hlong, hwhole, heq, ?_⟩
                have hdrop : maxBytes + 1 - line.length =
                    buffer.length + (maxBytes + 1 - (line ++ buffer).length) := by
                  rw [List.length_append]
                  rw [List.length_append] at hline'
                  omega
                rw [hafter, hmore, hdrop, List.drop_length_add_append]
            · next hlong =>
              cases h
              rw [hpart]
              refine ⟨hfilled.fills, .inr (hstops _ hpart ?_ ?_ (by omega))⟩
              · rw [List.length_append]
                omega
              · exact ⟨buffer.drop (maxBytes + 1 - line.length) ++ lineOf newline more, by
                  rw [← List.append_assoc, List.take_append_drop]⟩

theorem readLine_ok (maxBytes : ℕ) (line : List UInt8) {reader : BufReader IoError}
    (h : reader.Steady) : ∃ out, readLine maxBytes line reader = .ok out := by
  induction hlen : reader.rest.length using Nat.strong_induction_on generalizing reader line with
  | _ length ih =>
    unfold readLine
    split
    · next error herror =>
      obtain ⟨buffer, filled, hfill⟩ := h.fillBuf
      rw [hfill] at herror
      cases herror
    · next buffer filled hfill =>
      have hfilled := BufReader.filled_of_fillBuf hfill
      split
      · exact ⟨_, rfl⟩
      · next hne =>
        dsimp only
        split
        · exact ⟨_, rfl⟩
        · split
          · have hlt := hfilled.length_consume_lt hne (List.length_pos_iff.mpr hne)
            exact ih _ (hlen ▸ hlt) _ (hfilled.steady h) rfl
          · exact ⟨_, rfl⟩

def u32Max : ℕ := 2 ^ 32 - 1

/-- The next line number. A `u32` keeps its greatest value. -/
def nextNumber (number : ℕ) : ℕ := min (number + 1) u32Max

/-- What a read of lines gives. `next` is the first line that the read left out. `cut` is a line that
the read cut, because it alone is longer than the limit. -/
inductive Lines where
  | text (text : List UInt8) (next cut : Option ℕ)
  | image (path mime : String)
  deriving DecidableEq

theorem readLine_shorter {maxBytes : ℕ} {line : List UInt8} {reader after : BufReader IoError}
    {whole : Bool} (h : readLine maxBytes [] reader = .ok (whole, line, after))
    (hrest : reader.rest ≠ []) : after.rest.length < reader.rest.length := by
  obtain ⟨_, ⟨_, _, _, hafter⟩ | ⟨_, _, _, hafter⟩⟩ := readLine_spec h (by simp)
  · rw [hafter]
    exact length_afterLine_lt hrest
  · have := List.length_pos_iff.mpr hrest
    rw [hafter, List.length_drop, List.length_nil]
    omega

theorem Filled.rest_ne_nil {reader filled : BufReader IoError} {buffer : List UInt8}
    (h : BufReader.Filled reader buffer filled) (hbuffer : buffer ≠ []) : filled.rest ≠ [] := by
  obtain ⟨more, hmore⟩ := h.start
  rw [h.rest, hmore]
  exact List.append_ne_nil_of_left_ne_nil hbuffer more

/-- The page from here on. The read took `taken` lines of it, and went past `number` lines. -/
def linesFrom (path : String) (offset limit maxBytes : ℕ) (text : List UInt8) (taken number : ℕ)
    (reader : BufReader IoError) : Except String Lines :=
  match _hfill : reader.fillBuf with
  | .error error => .error (failure error path)
  | .ok (buffer, filled) =>
    if _hbuffer : buffer = [] then .ok (.text text none none)
    else
      let number := nextNumber number
      if number < offset then
        match _hskip : filled.skipUntil newline with
        | .error error => .error (failure error path)
        | .ok reader => linesFrom path offset limit maxBytes text taken number reader
      else if taken = limit then .ok (.text text (some number) none)
      else
        match _hread : readLine maxBytes [] filled with
        | .error error => .error (failure error path)
        | .ok (whole, line, reader) =>
          match contentOf whole line with
          | none => .error (failure ilseq path)
          | some content =>
            let entry := entryOf number content
            if maxBytes < text.length + entry.length then
              if text ≠ [] then .ok (.text text (some number) none)
              else
                -- The first line alone is over the limit: the read gives its start.
                match (if whole then .ok reader else reader.skipUntil newline) with
                | .error error => .error (failure error path)
                | .ok reader =>
                  match reader.fillBuf with
                  | .error error => .error (failure error path)
                  | .ok (buffer, _) =>
                    let next := if buffer = [] then none else some (nextNumber number)
                    .ok (.text (entry.take (floorCharBoundary entry maxBytes)) next (some number))
            else
              linesFrom path offset limit maxBytes (text ++ entry) (taken + 1) number reader
termination_by reader.rest.length
decreasing_by
  · have hne := Filled.rest_ne_nil (BufReader.filled_of_fillBuf _hfill) _hbuffer
    rw [(BufReader.skipUntil_rest _hskip).1, ← (BufReader.filled_of_fillBuf _hfill).rest]
    exact length_afterLine_lt hne
  · have hne := Filled.rest_ne_nil (BufReader.filled_of_fillBuf _hfill) _hbuffer
    rw [← (BufReader.filled_of_fillBuf _hfill).rest]
    exact readLine_shorter _hread hne

structure FileAt where
  path : String
  absolute : String
  kind : Except IoError FileKind
  bytes : Except IoError (List UInt8)
  fills : ℕ → Except IoError ℕ

def lines (file : FileAt) (offset limit maxBytes : ℕ) : Except String Lines :=
  -- An open of a FIFO waits for its other end, so the check of the kind comes first.
  match file.kind.bind checkKind with
  | .error error => .error (failure error file.path)
  | .ok () =>
    match file.bytes with
    | .error error => .error (failure error file.path)
    | .ok bytes =>
      match (BufReader.new bytes file.fills).fillBuf with
      | .error error => .error (failure error file.path)
      | .ok (start, reader) =>
        match imageType start with
        | some mime => .ok (.image file.absolute mime)
        | none => linesFrom file.path offset limit maxBytes [] 0 0 reader

end Yuke.Js
