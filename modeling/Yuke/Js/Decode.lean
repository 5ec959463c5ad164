import Yuke.Shared.Utf8Stream

/-!
# The decode of streamed bytes

One native function decodes for `TextDecoder` and for the output of a command. With `stream`, the
start of a character at the end waits for the next bytes.
-/

set_option autoImplicit false

namespace Yuke.Js

open Yuke.Shared

theorem fromUtf8_invalid {bytes : List UInt8} {validUpTo errorLen : Nat}
    (h : fromUtf8 bytes = .invalid validUpTo errorLen) :
    validUpTo + errorLen ≤ bytes.length ∧ 0 < errorLen := by
  rcases utf8_cases bytes with ⟨text, rfl⟩ | ⟨text, part, rfl, hpart⟩ |
    ⟨text, bad, rest, rfl, hbad⟩
  · have hvalid := fromUtf8_encode_append text []
    rw [List.append_nil, h] at hvalid
    cases hvalid
  · rw [fromUtf8_encode_append, fromUtf8_start hpart] at h
    cases h
  · rw [fromUtf8_encode_append, fromUtf8_broken hbad] at h
    cases h
    rw [List.length_append, List.length_append]
    exact ⟨by omega, hbad.length_pos⟩

/-- Decode `rest` after `text`. The text of valid bytes is what the lossy reader gives. -/
def decodeFrom (fatal stream : Bool) (text : List Char) (rest : List UInt8) :
    Option (List Char × Nat) :=
  match _h : fromUtf8 rest with
  | .valid => some (text ++ fromUtf8Lossy rest, 0)
  | .incomplete validUpTo =>
    let text := text ++ fromUtf8Lossy (rest.take validUpTo)
    let after := rest.drop validUpTo
    if stream then some (text, after.length)
    else if fatal then none
    else some (text ++ [Shared.replacement], 0)
  | .invalid validUpTo errorLen =>
    let text := text ++ fromUtf8Lossy (rest.take validUpTo)
    let after := rest.drop validUpTo
    if fatal then none
    else decodeFrom fatal stream (text ++ [Shared.replacement]) (after.drop errorLen)
termination_by rest.length
decreasing_by
  have hbound := fromUtf8_invalid _h
  rw [List.drop_drop, List.length_drop]
  omega

/-- Decode `bytes`. The number is the length of the start of a character that waits. -/
def decode (bytes : List UInt8) (fatal stream : Bool) : Option (List Char × Nat) :=
  decodeFrom fatal stream [] bytes

/-- A decoder. `pending` has the bytes that wait, and `started` says that it gave a character. -/
structure TextDecoder where
  fatal : Bool
  ignoreBOM : Bool
  pending : List UInt8 := []
  started : Bool := false
  deriving DecidableEq

def byteOrderMark : Char := '\ufeff'

namespace TextDecoder

def reset (d : TextDecoder) : TextDecoder := { d with pending := [], started := false }

def dropMark (d : TextDecoder) (text : List Char) : List Char :=
  if d.ignoreBOM = false ∧ text.head? = some byteOrderMark then text.tail else text

/-- Decode `fresh` after the bytes that wait. `none` is a throw. -/
def decode (d : TextDecoder) (fresh : List UInt8) (stream : Bool) :
    Option (List Char) × TextDecoder :=
  let bytes := if d.pending = [] then fresh else d.pending ++ fresh
  match Js.decode bytes d.fatal stream with
  | none => (none, d.reset)
  | some (text, rest) =>
    let next := { d with
      pending := if rest = 0 then [] else bytes.drop (bytes.length - rest)
      started := d.started || !text.isEmpty }
    let shown := if d.started = false ∧ text ≠ [] then d.dropMark text else text
    (some shown, if stream then next else next.reset)

/-- Decode each of `chunks` with `stream`, and then `last` without, up to the first throw. -/
def decodeAll (d : TextDecoder) : List (List UInt8) → List UInt8 → Option (List Char) × TextDecoder
  | [], last => d.decode last false
  | chunk :: chunks, last =>
    match d.decode chunk true with
    | (none, thrown) => (none, thrown)
    | (some text, next) =>
      match next.decodeAll chunks last with
      | (none, thrown) => (none, thrown)
      | (some more, ended) => (some (text ++ more), ended)

end TextDecoder

/-- A read of the output. `closed` says that nobody reads the chunks any more, and a read of no
bytes is the end. -/
inductive OutputRead where
  | bytes (bytes : List UInt8) (closed : Bool)
  | failed

/-- The texts that the reads send, with `cut` left from the reads before. -/
def readOutput : List UInt8 → List OutputRead → List (List Char)
  | cut, [] => if cut = [] then [] else [fromUtf8Lossy cut]
  | _, .failed :: _ => []
  | cut, .bytes bytes closed :: reads =>
    if bytes = [] then if cut = [] then [] else [fromUtf8Lossy cut]
    else if closed then readOutput cut reads
    else
      let all := cut ++ bytes
      let decoded := (decode all false true).getD ([], 0)
      (if decoded.1 = [] then [] else [decoded.1]) ++
        readOutput (all.drop (all.length - decoded.2)) reads

/-! ## What the bytes say -/

def decoded (fatal : Bool) (bytes : List UInt8) : Option (List Char) :=
  if fatal = true ∧ fromUtf8 bytes ≠ .valid then none else some (fromUtf8Lossy bytes)

theorem fromUtf8_encode (text : List Char) : fromUtf8 (encode text) = .valid := by
  have h := fromUtf8_encode_append text []
  rw [List.append_nil] at h
  exact h

theorem after_eq_valid {check : Utf8Check} {n : Nat} : check.after n = .valid ↔ check = .valid := by
  cases check with
  | valid => exact Iff.rfl
  | incomplete validUpTo => simp [Utf8Check.after]
  | invalid validUpTo errorLen => simp [Utf8Check.after]

theorem decoded_encode_append (fatal : Bool) (text : List Char) (rest : List UInt8) :
    decoded fatal (encode text ++ rest) = (decoded fatal rest).map (text ++ ·) := by
  unfold decoded
  simp only [fromUtf8_encode_append, ne_eq, after_eq_valid, fromUtf8Lossy_encode_append]
  split
  · rfl
  · rfl

theorem decoded_broken_fatal {bad rest : List UInt8} (h : Broken bad rest) (text : List Char) :
    decoded true (encode text ++ (bad ++ rest)) = none := by
  rw [decoded_encode_append, decoded, fromUtf8_broken h, if_pos ⟨rfl, nofun⟩]
  rfl

theorem decoded_broken {bad rest : List UInt8} (h : Broken bad rest) (text : List Char) :
    decoded false (encode text ++ (bad ++ rest)) =
      (decoded false rest).map (text ++ [Shared.replacement] ++ ·) := by
  rw [decoded_encode_append, decoded, fromUtf8Lossy_broken h, decoded,
    if_neg fun hfatal => Bool.false_ne_true hfatal.1, if_neg fun hfatal => Bool.false_ne_true hfatal.1]
  simp

theorem decoded_eq_none {fatal : Bool} {bytes : List UInt8} :
    decoded fatal bytes = none ↔ fatal = true ∧ ¬ ∃ text, bytes = encode text := by
  have hvalid : fromUtf8 bytes = .valid ↔ ∃ text, bytes = encode text := by
    constructor
    · intro hvalid
      rcases utf8_cases bytes with h | ⟨text, part, rfl, hpart⟩ | ⟨text, bad, rest, rfl, hbad⟩
      · exact h
      · rw [fromUtf8_encode_append, fromUtf8_start hpart] at hvalid
        cases hvalid
      · rw [fromUtf8_encode_append, fromUtf8_broken hbad] at hvalid
        cases hvalid
    · rintro ⟨text, rfl⟩
      exact fromUtf8_encode text
  rw [← hvalid, decoded]
  split
  · next h => exact ⟨fun _ => h, fun _ => rfl⟩
  · next h => exact ⟨fun hnone => (by cases hnone), fun hfatal => absurd hfatal h⟩

section Native

variable (fatal stream : Bool) (text : List Char)

theorem decodeFrom_encode (more : List Char) :
    decodeFrom fatal stream text (encode more) = some (text ++ more, 0) := by
  rw [decodeFrom]
  split
  · rw [fromUtf8Lossy_encode]
  · next h =>
    rw [fromUtf8_encode] at h
    cases h
  · next h =>
    rw [fromUtf8_encode] at h
    cases h

theorem decodeFrom_start (more : List Char) {part : List UInt8} (h : Start part) :
    decodeFrom fatal stream text (encode more ++ part) =
      if stream then some (text ++ more, part.length)
      else if fatal then none
      else some (text ++ more ++ [Shared.replacement], 0) := by
  have hcheck : fromUtf8 (encode more ++ part) = .incomplete (encode more).length := by
    rw [fromUtf8_encode_append, fromUtf8_start h]
    rfl
  rw [decodeFrom]
  split
  · next hvalid =>
    rw [hcheck] at hvalid
    cases hvalid
  · next validUpTo hincomplete =>
    rw [hcheck] at hincomplete
    cases hincomplete
    rw [List.take_left, List.drop_left, fromUtf8Lossy_encode]
  · next hinvalid =>
    rw [hcheck] at hinvalid
    cases hinvalid

theorem decodeFrom_broken (more : List Char) {bad rest : List UInt8} (h : Broken bad rest) :
    decodeFrom fatal stream text (encode more ++ (bad ++ rest)) =
      if fatal then none
      else decodeFrom fatal stream (text ++ more ++ [Shared.replacement]) rest := by
  have hcheck : fromUtf8 (encode more ++ (bad ++ rest)) =
      .invalid (encode more).length bad.length := by
    rw [fromUtf8_encode_append, fromUtf8_broken h]
    rfl
  rw [decodeFrom]
  split
  · next hvalid =>
    rw [hcheck] at hvalid
    cases hvalid
  · next hincomplete =>
    rw [hcheck] at hincomplete
    cases hincomplete
  · next validUpTo errorLen hinvalid =>
    rw [hcheck] at hinvalid
    cases hinvalid
    rw [List.take_left, List.drop_left, fromUtf8Lossy_encode]
    dsimp only
    rw [List.drop_left]

theorem decodeFrom_last (bytes : List UInt8) :
    decodeFrom fatal false text bytes =
      (decoded fatal bytes).map fun more => (text ++ more, 0) := by
  induction hlength : bytes.length using Nat.strong_induction_on generalizing bytes text with
  | _ length ih =>
    rcases utf8_cases bytes with ⟨more, rfl⟩ | ⟨more, part, rfl, hpart⟩ |
      ⟨more, bad, rest, rfl, hbad⟩
    · rw [decodeFrom_encode, decoded, fromUtf8_encode, fromUtf8Lossy_encode,
        if_neg fun h => h.2 rfl]
      rfl
    · rw [decodeFrom_start _ _ _ _ hpart, if_neg Bool.false_ne_true, decoded_encode_append, decoded,
        fromUtf8_start hpart, fromUtf8Lossy_start hpart]
      cases fatal with
      | false => simp
      | true => simp
    · rw [decodeFrom_broken _ _ _ _ hbad]
      cases fatal with
      | true =>
        rw [decoded_broken_fatal hbad]
        rfl
      | false =>
        have hpos := hbad.length_pos
        rw [List.length_append, List.length_append] at hlength
        rw [if_neg Bool.false_ne_true, ih rest.length (by omega) _ _ rfl, decoded_broken hbad,
          Option.map_map]
        congr 1
        funext left
        simp

theorem decodeFrom_stream (bytes : List UInt8) :
    (decodeFrom fatal true text bytes = none ∧ ∀ more, decoded fatal (bytes ++ more) = none) ∨
      ∃ front part left, bytes = front ++ part ∧
        decodeFrom fatal true text bytes = some (text ++ left, part.length) ∧
        ∀ more, decoded fatal (bytes ++ more) = (decoded fatal (part ++ more)).map (left ++ ·) := by
  induction hlength : bytes.length using Nat.strong_induction_on generalizing bytes text with
  | _ length ih =>
    rcases utf8_cases bytes with ⟨left, rfl⟩ | ⟨left, part, rfl, hpart⟩ |
      ⟨left, bad, rest, rfl, hbad⟩
    · refine .inr ⟨encode left, [], left, (List.append_nil _).symm, ?_, ?_⟩
      · rw [decodeFrom_encode]
        rfl
      · intro more
        exact decoded_encode_append fatal left more
    · refine .inr ⟨encode left, part, left, rfl, ?_, ?_⟩
      · rw [decodeFrom_start _ _ _ _ hpart, if_pos rfl]
      · intro more
        rw [List.append_assoc]
        exact decoded_encode_append fatal left (part ++ more)
    · rw [decodeFrom_broken _ _ _ _ hbad]
      cases fatal with
      | true =>
        refine .inl ⟨rfl, fun more => ?_⟩
        rw [List.append_assoc, List.append_assoc]
        exact decoded_broken_fatal (hbad.append more) left
      | false =>
        have hpos := hbad.length_pos
        rw [List.length_append, List.length_append] at hlength
        rw [if_neg Bool.false_ne_true]
        have hall : ∀ more, decoded false (encode left ++ (bad ++ rest) ++ more) =
            (decoded false (rest ++ more)).map (left ++ [Shared.replacement] ++ ·) := by
          intro more
          rw [List.append_assoc, List.append_assoc]
          exact decoded_broken (hbad.append more) left
        rcases ih rest.length (by omega) (text ++ left ++ [Shared.replacement]) rest rfl with
          ⟨hnone, hrest⟩ | ⟨front, part, tail, rfl, hsome, hrest⟩
        · refine .inl ⟨hnone, fun more => ?_⟩
          rw [hall, hrest]
          rfl
        · refine .inr ⟨encode left ++ (bad ++ front), part, left ++ [Shared.replacement] ++ tail,
            by simp, ?_, fun more => ?_⟩
          · rw [hsome]
            simp
          · rw [hall, hrest, Option.map_map]
            congr 1
            funext more
            simp

end Native

/-! ## The chunks of a decoder -/

namespace TextDecoder

/-- A decoder that gave nothing yet drops the byte order mark of the text. -/
def shown (d : TextDecoder) (text : List Char) : List Char :=
  if d.started then text else d.dropMark text

theorem dropMark_nil (d : TextDecoder) : d.dropMark [] = [] := by
  unfold dropMark
  split
  · rfl
  · rfl

theorem dropMark_append (d : TextDecoder) {text : List Char} (h : text ≠ []) (more : List Char) :
    d.dropMark (text ++ more) = d.dropMark text ++ more := by
  obtain ⟨c, text, rfl⟩ := List.exists_cons_of_ne_nil h
  unfold dropMark
  rw [List.cons_append, List.head?_cons, List.head?_cons]
  split
  · rfl
  · rfl

theorem shown_eq (d : TextDecoder) (text : List Char) :
    (if d.started = false ∧ text ≠ [] then d.dropMark text else text) = d.shown text := by
  unfold shown
  cases d.started with
  | true => rfl
  | false =>
    cases text with
    | nil => exact (dropMark_nil d).symm
    | cons c text => rw [if_pos ⟨rfl, List.cons_ne_nil _ _⟩, if_neg Bool.false_ne_true]

theorem shown_append (d : TextDecoder) (pending : List UInt8) (text more : List Char) :
    d.shown text ++ { d with pending := pending, started := d.started || !text.isEmpty }.shown more =
      d.shown (text ++ more) := by
  unfold shown
  cases hstarted : d.started with
  | true => rfl
  | false =>
    cases text with
    | nil => rw [if_neg Bool.false_ne_true, dropMark_nil]; rfl
    | cons c text =>
      rw [if_neg Bool.false_ne_true, if_neg Bool.false_ne_true,
        dropMark_append d (List.cons_ne_nil c text)]
      rfl

theorem decode_last (d : TextDecoder) (fresh : List UInt8) :
    d.decode fresh false = ((decoded d.fatal (d.pending ++ fresh)).map d.shown, d.reset) := by
  have hbytes : (if d.pending = [] then fresh else d.pending ++ fresh) = d.pending ++ fresh := by
    split
    · next h => rw [h, List.nil_append]
    · rfl
  unfold decode Js.decode
  rw [hbytes]
  dsimp only
  rw [decodeFrom_last]
  cases decoded d.fatal (d.pending ++ fresh) with
  | none => rfl
  | some text =>
    dsimp only [Option.map_some]
    rw [List.nil_append, shown_eq]
    rfl

theorem decodeAll_eq (d : TextDecoder) (chunks : List (List UInt8)) (last : List UInt8) :
    d.decodeAll chunks last =
      ((decoded d.fatal (d.pending ++ (chunks.flatten ++ last))).map d.shown, d.reset) := by
  induction chunks generalizing d with
  | nil => exact decode_last d last
  | cons chunk chunks ih =>
    have hbytes : (if d.pending = [] then chunk else d.pending ++ chunk) = d.pending ++ chunk := by
      split
      · next h => rw [h, List.nil_append]
      · rfl
    have hall : d.pending ++ ((chunk :: chunks).flatten ++ last) =
        d.pending ++ chunk ++ (chunks.flatten ++ last) := by
      simp
    rw [hall, decodeAll]
    rcases decodeFrom_stream d.fatal [] (d.pending ++ chunk) with
      ⟨hnone, hmore⟩ | ⟨front, part, left, hsplit, hsome, hmore⟩
    · have hdecode : d.decode chunk true = (none, d.reset) := by
        unfold decode Js.decode
        rw [hbytes]
        dsimp only
        rw [hnone]
      rw [hdecode, hmore]
      rfl
    · have hpending : (if part.length = 0 then [] else
          (d.pending ++ chunk).drop ((d.pending ++ chunk).length - part.length)) = part := by
        rw [hsplit]
        split
        · next h => exact (List.eq_nil_of_length_eq_zero h).symm
        · rw [List.length_append, Nat.add_sub_cancel, List.drop_left]
      have hdecode : d.decode chunk true = (some (d.shown left),
          { d with pending := part, started := d.started || !left.isEmpty }) := by
        unfold decode Js.decode
        rw [hbytes]
        dsimp only
        rw [hsome]
        dsimp only
        rw [List.nil_append, shown_eq, hpending, if_pos rfl]
      rw [hdecode, hmore]
      dsimp only
      rw [ih]
      dsimp only
      cases decoded d.fatal (part ++ (chunks.flatten ++ last)) with
      | none => rfl
      | some more =>
        dsimp only [Option.map_some]
        rw [shown_append]
        rfl

end TextDecoder

theorem readOutput_eq (cut : List UInt8) (chunks : List (List UInt8)) :
    (readOutput cut (chunks.map fun chunk => .bytes chunk false)).flatten =
      fromUtf8Lossy (cut ++ (chunks.takeWhile (· ≠ [])).flatten) := by
  have hlast : ∀ cut : List UInt8,
      (if cut = [] then [] else [fromUtf8Lossy cut]).flatten = fromUtf8Lossy cut := by
    intro cut
    split
    · next h =>
      rw [h]
      rfl
    · exact List.flatten_singleton
  induction chunks generalizing cut with
  | nil =>
    rw [List.map_nil, readOutput, hlast, List.takeWhile_nil, List.flatten_nil, List.append_nil]
  | cons chunk chunks ih =>
    rw [List.map_cons, readOutput]
    by_cases hend : chunk = []
    · rw [if_pos hend, hlast, List.takeWhile_cons_of_neg (by simpa using hend), List.flatten_nil,
        List.append_nil]
    · rw [if_neg hend, if_neg Bool.false_ne_true, List.takeWhile_cons_of_pos (by simpa using hend),
        List.flatten_cons, ← List.append_assoc]
      have hlossy : ∀ bytes, decoded false bytes = some (fromUtf8Lossy bytes) :=
        fun bytes => if_neg fun h => Bool.false_ne_true h.1
      rcases decodeFrom_stream false [] (cut ++ chunk) with
        ⟨_, hmore⟩ | ⟨front, part, left, hsplit, hsome, hmore⟩
      · have hnone := hmore []
        rw [hlossy] at hnone
        cases hnone
      · have htext := hmore (chunks.takeWhile (· ≠ [])).flatten
        rw [hlossy, hlossy, Option.map_some, Option.some.injEq] at htext
        have hsent : (if left = [] then [] else [left]).flatten = left := by
          split
          · next h =>
            rw [h]
            rfl
          · exact List.flatten_singleton
        have hdecode : decode (cut ++ chunk) false true = some ([] ++ left, part.length) := hsome
        rw [htext]
        dsimp only
        rw [hdecode]
        dsimp only [Option.getD_some]
        rw [List.nil_append, List.flatten_append, hsent, hsplit, List.length_append,
          Nat.add_sub_cancel, List.drop_left, ih]

/-- The chunks of a byte string give the text of the whole string, with one replacement for each
part that is no text and without a byte order mark at its start. A fatal decoder fails where the
whole string is no text. The decoder is as new afterwards. -/
theorem decoding_streams (fatal ignoreBOM : Bool) (chunks : List (List UInt8))
    (last : List UInt8) :
    let decoder : TextDecoder := { fatal := fatal, ignoreBOM := ignoreBOM }
    let whole := chunks.flatten ++ last
    Decodes whole (fromUtf8Lossy whole) ∧
      decoder.decodeAll chunks last = decoder.decode whole false ∧
      (decoder.decode whole false).2 = decoder ∧
      ((decoder.decode whole false).1 = none ↔
        fatal = true ∧ ¬ ∃ text, whole = encode text) ∧
      (∀ text, (decoder.decode whole false).1 = some text →
        text = decoder.dropMark (fromUtf8Lossy whole)) ∧
      (readOutput [] (chunks.map fun chunk => .bytes chunk false)).flatten =
        fromUtf8Lossy (chunks.takeWhile (· ≠ [])).flatten := by
  intro decoder whole
  have hwhole := decoder.decode_last whole
  rw [List.nil_append] at hwhole
  refine ⟨decodes_fromUtf8Lossy whole, ?_, ?_, ?_, ?_, ?_⟩
  · rw [hwhole, decoder.decodeAll_eq]
    rfl
  · rw [hwhole]
    rfl
  · rw [hwhole, Option.map_eq_none_iff, decoded_eq_none]
  · intro text htext
    rw [hwhole] at htext
    obtain ⟨raw, hraw, rfl⟩ := Option.map_eq_some_iff.mp htext
    unfold decoded at hraw
    split at hraw
    · cases hraw
    · cases hraw
      rfl
  · rw [readOutput_eq, List.nil_append]

end Yuke.Js
