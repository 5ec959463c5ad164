import Yuke.Js.Capture

/-!
# The text of a capture

The chunks of an output do not matter: the text follows from the bytes. Each end of the cut loses
the character that crosses it, unless the bytes at the cut are not UTF-8.
-/

set_option autoImplicit false

namespace Yuke.Js

open Yuke.Shared

theorem captured_holds (maxBytes : Nat) (path : List Char) (chunks : List Chunk) :
    ∃ capture, captured maxBytes path chunks = some capture ∧
      Holds maxBytes (chunks.flatMap Chunk.bytes) capture := by
  obtain ⟨start, hnew, hstart⟩ := new_holds maxBytes path
  unfold captured
  rw [hnew, Option.bind_some]
  have hrun : ∀ (output : List UInt8) (capture : Capture), Holds maxBytes output capture →
      ∃ last, chunks.foldlM Capture.add capture = some last ∧
        Holds maxBytes (output ++ chunks.flatMap Chunk.bytes) last := by
    induction chunks with
    | nil =>
      intro output capture h
      exact ⟨capture, rfl, by simpa using h⟩
    | cons chunk chunks ih =>
      intro output capture h
      obtain ⟨next, hadd, hnext⟩ := add_holds h chunk
      obtain ⟨last, hlast, hholds⟩ := ih _ next hnext
      refine ⟨last, ?_, ?_⟩
      · rw [List.foldlM_cons, hadd]
        exact hlast
      · rwa [List.flatMap_cons, ← List.append_assoc]
  exact hrun [] start hstart

theorem trimHead_eq {head : List UInt8}
    (h : ∀ validUpTo, fromUtf8 head ≠ .incomplete validUpTo) : trimHead head = head := by
  unfold trimHead
  split
  · next validUpTo heq => exact absurd heq (h validUpTo)
  · rfl

theorem trimHead_start {text : List Char} {part : List UInt8} (h : Start part) :
    trimHead (encode text ++ part) = encode text := by
  unfold trimHead
  rw [fromUtf8_encode_append, fromUtf8_start h]
  exact List.take_left

theorem before_exists (output : List UInt8) (cut : Nat) : ∃ head, Before output cut head := by
  by_cases h : ∃ before c after, Crosses output cut before c after
  · obtain ⟨before, c, after, hcross⟩ := h
    exact ⟨before, .crossed hcross⟩
  · exact ⟨_, .whole fun before c after hcross => h ⟨before, c, after, hcross⟩⟩

theorem after_exists (output : List UInt8) (cut : Nat) : ∃ tail, After output cut tail := by
  by_cases h : ∃ before c after, Crosses output cut before c after
  · obtain ⟨before, c, after, hcross⟩ := h
    exact ⟨after, .crossed hcross⟩
  · exact ⟨_, .whole fun before c after hcross => h ⟨before, c, after, hcross⟩⟩

theorem head_cases {output head : List UInt8} {cut : Nat} (h : Before output cut head) :
    (HeadClean output cut ∧
      fromUtf8Lossy (trimHead (output.take cut)) = fromUtf8Lossy head) ∨
    ¬ HeadClean output cut ∧
      (fromUtf8Lossy (trimHead (output.take cut)) = fromUtf8Lossy head ++ [Shared.replacement] ∨
        fromUtf8Lossy head =
          fromUtf8Lossy (trimHead (output.take cut)) ++ [Shared.replacement]) := by
  have hstart : ∀ {before part : List UInt8}, Start part →
      fromUtf8Lossy (before ++ part) = fromUtf8Lossy before ++ [Shared.replacement] := by
    intro before part hpart
    obtain ⟨first, rest, rfl, hfirst, _⟩ := hpart.cons
    rw [fromUtf8Lossy_append before hfirst, fromUtf8Lossy_start hpart]
  by_cases hincomplete : ∃ validUpTo, fromUtf8 (output.take cut) = .incomplete validUpTo
  · obtain ⟨validUpTo, hcheck⟩ := hincomplete
    obtain ⟨text, part, htake, _, hpart⟩ := incomplete_cases hcheck
    have htrim : trimHead (output.take cut) = encode text := by
      rw [htake]
      exact trimHead_start hpart
    cases h with
    | whole hno =>
      refine .inr ⟨?_, .inr ?_⟩
      · rintro (⟨_, hvalid⟩ | ⟨_, _, _, hcross⟩)
        · exact hvalid validUpTo hcheck
        · exact hno _ _ _ hcross
      · rw [htrim, htake, hstart hpart]
    | @crossed _ after c hcross =>
      obtain ⟨part', htake', hpart'⟩ := hcross.take
      have hbefore : head = encode text := hpart'.left_eq hpart (htake'.symm.trans htake)
      subst hbefore
      exact .inl ⟨.inr ⟨text, c, after, hcross⟩, by rw [htrim]⟩
  · have hvalid : ∀ validUpTo, fromUtf8 (output.take cut) ≠ .incomplete validUpTo :=
      fun validUpTo hcheck => hincomplete ⟨validUpTo, hcheck⟩
    rw [trimHead_eq hvalid]
    cases h with
    | whole hno => exact .inl ⟨.inl ⟨hno, hvalid⟩, rfl⟩
    | crossed hcross =>
      obtain ⟨part, htake, hpart⟩ := hcross.take
      refine .inr ⟨?_, .inl ?_⟩
      · rintro (⟨hno, _⟩ | ⟨text, _, _, hcross'⟩)
        · exact hno _ _ _ hcross
        · obtain ⟨part', htake', hpart'⟩ := hcross'.take
          refine hvalid (encode text).length ?_
          rw [htake', fromUtf8_encode_append, fromUtf8_start hpart']
          rfl
      · rw [htake, hstart hpart]

theorem tail_cases {output tail : List UInt8} {cut : Nat} (h : After output cut tail) :
    (TailClean output cut ∧
      fromUtf8Lossy (trimTail (output.drop cut)) = fromUtf8Lossy tail) ∨
    ¬ TailClean output cut ∧ ∃ n, 0 < n ∧
      fromUtf8Lossy tail =
        List.replicate n Shared.replacement ++ fromUtf8Lossy (trimTail (output.drop cut)) := by
  have hlossy : ∀ bytes : List UInt8, fromUtf8Lossy bytes =
      List.replicate (bytes.takeWhile isTrailing).length Shared.replacement ++
        fromUtf8Lossy (bytes.dropWhile isTrailing) := by
    intro bytes
    have hall : ∀ b ∈ bytes.takeWhile isTrailing, isTrailing b = true :=
      fun b hb => List.mem_takeWhile_imp hb
    rw [← fromUtf8Lossy_trailings hall, List.takeWhile_append_dropWhile]
  -- The bytes after the characters that cross the cut decide.
  have hsplit : ∀ bytes : List UInt8,
      ((∀ b rest, bytes = b :: rest → isTrailing b = false) ∧
        bytes.dropWhile isTrailing = bytes) ∨
      (∃ b rest, bytes = b :: rest ∧ isTrailing b = true) ∧ ∃ n, 0 < n ∧
        fromUtf8Lossy bytes =
          List.replicate n Shared.replacement ++ fromUtf8Lossy (bytes.dropWhile isTrailing) := by
    intro bytes
    cases bytes with
    | nil => exact .inl ⟨nofun, rfl⟩
    | cons b rest =>
      cases hb : isTrailing b with
      | false =>
        refine .inl ⟨?_, by simp [hb]⟩
        rintro b' rest' heq
        rw [← (List.cons.inj heq).1]
        exact hb
      | true => exact .inr ⟨⟨b, rest, rfl, hb⟩, _, by simp [hb], hlossy _⟩
  have hdrop : trimTail (output.drop cut) = tail.dropWhile isTrailing := by
    cases h with
    | whole _ => rfl
    | crossed hcross =>
      obtain ⟨rest, hdrop, _, hrest⟩ := hcross.drop
      rw [hdrop, trimTail, List.dropWhile_append_of_pos hrest]
  rw [hdrop]
  rcases hsplit tail with ⟨hclean, heq⟩ | ⟨⟨b, rest, heq, hb⟩, hn⟩
  · refine .inl ⟨?_, by rw [heq]⟩
    cases h with
    | whole _ => exact .inl hclean
    | crossed hcross => exact .inr ⟨_, _, _, hcross, hclean⟩
  · refine .inr ⟨?_, hn⟩
    rintro (hclean | ⟨before, c, after, hcross, hclean⟩)
    · cases h with
      | whole _ =>
        rw [hclean b rest heq] at hb
        cases hb
      | crossed hcross =>
        obtain ⟨more, hdrop, hne, hmore⟩ := hcross.drop
        cases more with
        | nil => exact absurd rfl hne
        | cons first more =>
          have hfirst := hmore first List.mem_cons_self
          rw [hclean first _ hdrop] at hfirst
          cases hfirst
    · cases h with
      | whole hno => exact hno _ _ _ hcross
      | crossed hcross' =>
        rw [hcross'.after_eq hcross] at heq
        rw [hclean b rest heq] at hb
        cases hb

theorem headClean_encode (letters : List Char) {cut : Nat} (h : cut ≤ (encode letters).length) :
    HeadClean (encode letters) cut := by
  rcases cut_encode letters h with ⟨left, right, _, htake, hdrop⟩ | ⟨left, c, right, _, hcross⟩
  · refine .inl ⟨?_, ?_⟩
    · intro before c after hcross
      obtain ⟨rest, hrest, hne, htrailing⟩ := hcross.drop
      cases rest with
      | nil => exact absurd rfl hne
      | cons b rest =>
        have hb := encode_not_trailing (hdrop.symm.trans hrest)
        rw [htrailing b List.mem_cons_self] at hb
        cases hb
    · intro validUpTo hcheck
      have hvalid := fromUtf8_encode_append left []
      rw [List.append_nil, ← htake, hcheck] at hvalid
      cases hvalid
  · exact .inr ⟨left, c, _, hcross⟩

theorem tailClean_encode (letters : List Char) {cut : Nat} (h : cut ≤ (encode letters).length) :
    TailClean (encode letters) cut := by
  rcases cut_encode letters h with ⟨left, right, _, _, hdrop⟩ | ⟨left, c, right, _, hcross⟩
  · exact .inl fun b rest heq => encode_not_trailing (hdrop.symm.trans heq)
  · exact .inr ⟨_, c, _, hcross, fun b rest heq => encode_not_trailing heq⟩

theorem not_crosses_of_drop {bytes before after : List UInt8} {cut : Nat} {c : Char}
    {right : List Char} (hdrop : bytes.drop cut = encode right) :
    ¬ Crosses bytes cut before c after := by
  intro hcross
  obtain ⟨rest, hrest, hne, htrailing⟩ := hcross.drop
  cases rest with
  | nil => exact hne rfl
  | cons b rest =>
    have hb := encode_not_trailing (hdrop.symm.trans hrest)
    rw [htrailing b List.mem_cons_self] at hb
    cases hb

theorem before_encode (letters : List Char) {cut : Nat} (h : cut ≤ (encode letters).length) :
    ∃ left right, letters = left ++ right ∧ Before (encode letters) cut (encode left) ∧
      (encode left).length ≤ cut := by
  rcases cut_encode letters h with ⟨left, right, rfl, htake, hdrop⟩ | ⟨left, c, right, rfl, hcross⟩
  · refine ⟨left, right, rfl, ?_, ?_⟩
    · rw [← htake]
      exact .whole fun _ _ _ => not_crosses_of_drop hdrop
    · rw [← htake, List.length_take]
      exact Nat.min_le_left ..
  · exact ⟨left, c :: right, rfl, .crossed hcross, hcross.before_lt.le⟩

theorem after_encode (letters : List Char) {cut : Nat} (h : cut ≤ (encode letters).length) :
    ∃ left right, letters = left ++ right ∧ After (encode letters) cut (encode right) ∧
      cut ≤ (encode left).length := by
  rcases cut_encode letters h with ⟨left, right, rfl, htake, hdrop⟩ | ⟨left, c, right, rfl, hcross⟩
  · refine ⟨left, right, rfl, ?_, ?_⟩
    · rw [← hdrop]
      exact .whole fun _ _ _ => not_crosses_of_drop hdrop
    · rw [← htake, List.length_take]
      omega
  · refine ⟨left ++ [c], right, by simp, .crossed hcross, ?_⟩
    have hlt := hcross.lt_after
    rw [encode_append, List.length_append, encode_cons, encode_nil, List.append_nil]
    exact hlt.le

theorem encode_ne_nil (c : Char) (letters : List Char) : encode (c :: letters) ≠ [] := by
  obtain ⟨first, rest, heq, _⟩ := (shape_encode c).cons
  rw [encode_cons, heq]
  exact List.cons_ne_nil _ _

theorem parts_ordered {letters left right first last : List Char} {m n : Nat}
    (hleft : letters = left ++ right) (hlast : letters = first ++ last)
    (hm : (encode left).length ≤ m) (hn : n ≤ (encode first).length) (hmn : m ≤ n) :
    ∃ cut, letters = left ++ cut ++ last := by
  rcases List.append_eq_append_iff.mp (hleft.symm.trans hlast) with
    ⟨cut, rfl, hcut⟩ | ⟨more, rfl, hmore⟩
  · exact ⟨cut, hlast⟩
  · cases more with
    | nil =>
      rw [List.append_nil] at hleft
      exact ⟨[], by rw [List.append_nil, List.append_nil, hlast]⟩
    | cons c more =>
      have hpos := List.length_pos_iff.mpr (encode_ne_nil c more)
      rw [encode_append, List.length_append] at hm
      omega

theorem parts_eq {head head' tail tail' : List Char} {cut : Nat} {file : List Char}
    (hhead : head' = head ∨ head' = head ++ [Shared.replacement] ∨
      head = head' ++ [Shared.replacement])
    (heq : head ++ cutMarker cut file ++ tail = head' ++ cutMarker cut file ++ tail') :
    head = head' ∧ tail = tail' := by
  obtain ⟨marker, hmarker⟩ : ∃ marker, cutMarker cut file = '\n' :: marker :=
    ⟨_, rfl⟩
  have hreplacement : Shared.replacement ≠ '\n' := by decide
  rw [List.append_assoc, List.append_assoc] at heq
  rcases hhead with rfl | rfl | rfl
  · exact ⟨rfl, List.append_cancel_left (List.append_cancel_left heq)⟩
  · rw [List.append_assoc] at heq
    have hrest := List.append_cancel_left heq
    rw [hmarker] at hrest
    exact absurd (List.cons.inj hrest).1.symm hreplacement
  · rw [List.append_assoc] at heq
    have hrest := List.append_cancel_left heq
    rw [hmarker] at hrest
    exact absurd (List.cons.inj hrest).1 hreplacement

section Finish

variable {maxBytes : Nat} {output : List UInt8} {capture : Capture}

theorem Holds.finish_whole (h : Holds maxBytes output capture) (hle : output.length ≤ maxBytes) :
    capture.finish = fromUtf8Lossy output := by
  have hcut : capture.cut = 0 := by
    rw [h.cut]
    omega
  have hstart : max (Js.headRoom maxBytes) (tailStart output maxBytes) = Js.headRoom maxBytes := by
    unfold tailStart Js.headRoom
    omega
  rw [Capture.finish, if_pos hcut, h.head, h.tail, hstart, List.take_append_drop]

theorem Holds.finish_cut (h : Holds maxBytes output capture) (hlt : maxBytes < output.length) :
    capture.finish = fromUtf8Lossy (trimHead (output.take (Js.headRoom maxBytes))) ++
      cutMarker (output.length - maxBytes) capture.fileText ++
      fromUtf8Lossy (trimTail (output.drop (tailStart output maxBytes))) := by
  have hcut : capture.cut ≠ 0 := by
    rw [h.cut]
    omega
  have hstart : max (Js.headRoom maxBytes) (tailStart output maxBytes) =
      tailStart output maxBytes := by
    unfold tailStart Js.headRoom
    omega
  rw [Capture.finish, if_neg hcut, h.head, h.tail, hstart, h.cut]

theorem Holds.plain (h : Holds maxBytes output capture) {letters : List Char}
    (hletters : output = encode letters) (hlt : maxBytes < output.length) :
    ∃ left cut right, letters = left ++ cut ++ right ∧
      capture.finish = left ++ cutMarker (output.length - maxBytes) capture.fileText ++ right := by
  subst hletters
  have hhead : Js.headRoom maxBytes ≤ (encode letters).length := by
    unfold Js.headRoom
    omega
  have htail : tailStart (encode letters) maxBytes ≤ (encode letters).length := by
    unfold tailStart
    omega
  obtain ⟨left, right, hleft, hbefore, hle⟩ := before_encode letters hhead
  obtain ⟨first, last, hlast, hafter, hge⟩ := after_encode letters htail
  have horder : Js.headRoom maxBytes ≤ tailStart (encode letters) maxBytes := by
    unfold Js.headRoom tailStart
    omega
  obtain ⟨cut, hcut⟩ := parts_ordered hleft hlast hle hge horder
  refine ⟨left, cut, last, hcut, ?_⟩
  have hheadText := (head_cases hbefore).resolve_right fun hdirty =>
    hdirty.1 (headClean_encode letters hhead)
  have htailText := (tail_cases hafter).resolve_right fun hdirty =>
    hdirty.1 (tailClean_encode letters htail)
  rw [h.finish_cut hlt, hheadText.2, fromUtf8Lossy_encode, htailText.2, fromUtf8Lossy_encode]

theorem Holds.keeps_iff (h : Holds maxBytes output capture) :
    Keeps output maxBytes capture.fileText capture.finish ↔ CutsClean output maxBytes := by
  constructor
  · intro hkeeps
    rcases Nat.lt_or_ge maxBytes output.length with hlt | hle
    · refine .inr ?_
      obtain ⟨head, tail, hbefore, hafter, htext⟩ := hkeeps.trimmed hlt
      rw [h.finish_cut hlt] at htext
      rcases head_cases hbefore with ⟨hhead, hheadText⟩ | ⟨_, hheadText⟩
      · obtain ⟨_, htailText⟩ := parts_eq (.inl hheadText.symm) htext
        rcases tail_cases hafter with ⟨htail, _⟩ | ⟨_, n, hn, hmore⟩
        · exact ⟨hhead, htail⟩
        · rw [htailText] at hmore
          have hlen := congrArg List.length hmore
          rw [List.length_append, List.length_replicate] at hlen
          omega
      · obtain ⟨hsame, _⟩ := parts_eq (by
          rcases hheadText with hmore | hmore
          · exact .inr (.inr hmore)
          · exact .inr (.inl hmore)) htext
        rcases hheadText with hmore | hmore
        · rw [hsame] at hmore
          have hlen := congrArg List.length hmore
          rw [List.length_append, List.length_singleton] at hlen
          omega
        · rw [hsame] at hmore
          have hlen := congrArg List.length hmore
          rw [List.length_append, List.length_singleton] at hlen
          omega
    · exact .inl hle
  · rintro (hle | ⟨hhead, htail⟩)
    · exact ⟨fun _ => h.finish_whole hle, fun hlt => absurd hlt (by omega),
        fun _ _ hlt => absurd hlt (by omega)⟩
    · refine ⟨fun hle => h.finish_whole hle, fun hlt => ?_, fun _ hletters hlt =>
        h.plain hletters hlt⟩
      obtain ⟨head, hbefore⟩ := before_exists output (Js.headRoom maxBytes)
      obtain ⟨tail, hafter⟩ := after_exists output (tailStart output maxBytes)
      refine ⟨head, tail, hbefore, hafter, ?_⟩
      have hheadText := (head_cases hbefore).resolve_right fun hdirty => hdirty.1 hhead
      have htailText := (tail_cases hafter).resolve_right fun hdirty => hdirty.1 htail
      rw [h.finish_cut hlt, hheadText.2, htailText.2]

end Finish

/-- No subtraction of a capture goes below zero, and its text is the output under the limit, however
the output arrives, exactly when the bytes that the cuts drop are characters over the cuts. -/
theorem capture_keeps_iff (maxBytes : Nat) (path : List Char) (chunks : List Chunk) :
    (∃ capture, captured maxBytes path chunks = some capture ∧
      Keeps (chunks.flatMap Chunk.bytes) maxBytes capture.fileText capture.finish) ↔
    CutsClean (chunks.flatMap Chunk.bytes) maxBytes := by
  obtain ⟨capture, hcaptured, hholds⟩ := captured_holds maxBytes path chunks
  rw [← hholds.keeps_iff, hcaptured]
  simp

/-- A tail that starts with bytes of no character loses them. -/
theorem capture_drops_stray_bytes :
    let chunks : List Chunk := [⟨[0x61, 0x62, 0x63, 0x64, 0x80, 0x80], true, true⟩]
    ∃ capture, captured 4 "out".toList chunks = some capture ∧
      ¬ Keeps (chunks.flatMap Chunk.bytes) 4 capture.fileText capture.finish := by
  intro chunks
  obtain ⟨capture, hcaptured, hholds⟩ := captured_holds 4 "out".toList chunks
  refine ⟨capture, hcaptured, ?_⟩
  rw [hholds.keeps_iff]
  rintro (hle | ⟨_, htail | ⟨before, c, after, hcross, hclean⟩⟩)
  · simp [chunks] at hle
  · have hb := htail 0x80 [0x80] rfl
    revert hb
    decide
  · -- The byte before the tail is a letter, so no character crosses its start.
    obtain ⟨part, htake, hpart⟩ := hcross.take
    have hlast : some (0x64 : UInt8) = part.getLast?.or before.getLast? := by
      rw [← List.getLast?_append, ← htake]
      rfl
    cases hpart with
    | one ha _ =>
      cases hlast
      revert ha
      decide
    | two hb _ =>
      cases hlast
      have hle := (isSecond_iff.mp hb).2.2.1
      revert hle
      decide
    | three _ _ hc =>
      cases hlast
      revert hc
      decide

end Yuke.Js
