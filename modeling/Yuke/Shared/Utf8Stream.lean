import Yuke.Shared.Utf8Chars

/-!
# Bytes that arrive in parts

Each byte string is text, and then nothing, the start of a character, or bytes that no text can
hold. Only the start of a character depends on the bytes that come after it.
-/

set_option autoImplicit false

namespace Yuke.Shared

/-- `bad` before `rest` is no text: a byte that starts no character, or the longest start of a
character, which the first byte of `rest` does not continue. -/
inductive Broken : List UInt8 → List UInt8 → Prop where
  | lead {a : UInt8} {rest : List UInt8} (ha : 0x80 ≤ a.toNat)
      (ha' : a.toNat < 0xc2 ∨ 0xf4 < a.toNat) : Broken [a] rest
  | one {a b : UInt8} {rest : List UInt8} (ha : 0xc2 ≤ a.toNat) (ha' : a.toNat ≤ 0xf4)
      (hb : isSecond a b = false) : Broken [a] (b :: rest)
  | two {a b c : UInt8} {rest : List UInt8} (hb : isSecond a b = true) (ha : 0xe0 ≤ a.toNat)
      (hc : isTrailing c = false) : Broken [a, b] (c :: rest)
  | three {a b c d : UInt8} {rest : List UInt8} (hb : isSecond a b = true) (ha : 0xf0 ≤ a.toNat)
      (hc : isTrailing c = true) (hd : isTrailing d = false) : Broken [a, b, c] (d :: rest)

theorem Broken.append {bad rest : List UInt8} (h : Broken bad rest) (more : List UInt8) :
    Broken bad (rest ++ more) := by
  cases h with
  | lead ha ha' => exact .lead ha ha'
  | one ha ha' hb => exact .one ha ha' hb
  | two hb ha hc => exact .two hb ha hc
  | three hb ha hc hd => exact .three hb ha hc hd

theorem Broken.length_pos {bad rest : List UInt8} (h : Broken bad rest) : 0 < bad.length := by
  cases h with
  | lead ha ha' => exact Nat.one_pos
  | one ha ha' hb => exact Nat.one_pos
  | two hb ha hc => exact Nat.succ_pos _
  | three hb ha hc hd => exact Nat.succ_pos _

inductive Decodes : List UInt8 → List Char → Prop where
  | nil : Decodes [] []
  | char {first rest : List UInt8} {c : Char} {text : List Char} : Shape first c →
      Decodes rest text → Decodes (first ++ rest) (c :: text)
  | broken {bad rest : List UInt8} {text : List Char} : Broken bad rest →
      Decodes rest text → Decodes (bad ++ rest) (replacement :: text)
  | cut {part : List UInt8} : Start part → Decodes part [replacement]

/-! ## The readers -/

section Bounds

variable {a : UInt8}

theorem not_lt_of_le {n : UInt8} (h : n.toNat ≤ a.toNat) : ¬ a < n := by
  rw [UInt8.lt_iff_toNat_lt]
  omega

theorem le_of_not_lt {n : UInt8} (h : ¬ a < n) : n.toNat ≤ a.toNat := by
  rw [UInt8.lt_iff_toNat_lt] at h
  omega

theorem lead_iff : a < 0xc2 ∨ 0xf4 < a ↔ a.toNat < 0xc2 ∨ 0xf4 < a.toNat := by
  simp only [UInt8.lt_iff_toNat_lt, UInt8.reduceToNat]

end Bounds

theorem fromUtf8_broken {bad rest : List UInt8} (h : Broken bad rest) :
    fromUtf8 (bad ++ rest) = .invalid 0 bad.length := by
  cases h with
  | @lead a rest ha ha' =>
    rw [List.singleton_append, fromUtf8.eq_def]
    simp [not_lt_of_le (n := 0x80) ha, lead_iff.mpr ha']
  | @one a b rest ha ha' hb =>
    have hlead : ¬ (a < 0xc2 ∨ 0xf4 < a) := by
      rw [lead_iff]
      omega
    rw [List.singleton_append, fromUtf8.eq_def]
    simp [not_lt_of_le (n := 0x80) (le_trans (by decide) ha), hlead, hb]
  | @two a b c rest hb ha hc =>
    have hb' := isSecond_iff.mp hb
    have hlead : ¬ (a < 0xc2 ∨ 0xf4 < a) := by
      rw [lead_iff]
      omega
    rw [List.cons_append, List.singleton_append, fromUtf8.eq_def]
    simp [not_lt_of_le (n := 0x80) (le_trans (by decide) ha), hlead, hb,
      not_lt_of_le (n := 0xe0) ha, hc]
  | @three a b c d rest hb ha hc hd =>
    have hb' := isSecond_iff.mp hb
    have hlead : ¬ (a < 0xc2 ∨ 0xf4 < a) := by
      rw [lead_iff]
      omega
    rw [List.cons_append, List.cons_append, List.singleton_append, fromUtf8.eq_def]
    simp [not_lt_of_le (n := 0x80) (le_trans (by decide) ha), hlead, hb,
      not_lt_of_le (n := 0xe0) (le_trans (by decide) ha), hc, not_lt_of_le (n := 0xf0) ha, hd]

theorem fromUtf8Lossy_broken {bad rest : List UInt8} (h : Broken bad rest) :
    fromUtf8Lossy (bad ++ rest) = replacement :: fromUtf8Lossy rest := by
  cases h with
  | @lead a rest ha ha' =>
    have h80 : ¬ a < 0x80 := not_lt_of_le ha
    rw [List.singleton_append]
    cases rest with
    | nil =>
      rw [fromUtf8Lossy.eq_def]
      simp [h80, fromUtf8Lossy]
    | cons b rest =>
      have hsecond : isSecond a b = false := by
        rw [Bool.eq_false_iff]
        intro hsecond
        have := isSecond_iff.mp hsecond
        omega
      rw [fromUtf8Lossy.eq_def]
      simp [h80, hsecond]
  | @one a b rest ha ha' hb =>
    rw [List.singleton_append, fromUtf8Lossy.eq_def]
    simp [not_lt_of_le (n := 0x80) (le_trans (by decide) ha), hb]
  | @two a b c rest hb ha hc =>
    rw [List.cons_append, List.singleton_append, fromUtf8Lossy.eq_def]
    simp [not_lt_of_le (n := 0x80) (le_trans (by decide) ha), hb,
      not_lt_of_le (n := 0xe0) ha, hc]
  | @three a b c d rest hb ha hc hd =>
    rw [List.cons_append, List.cons_append, List.singleton_append, fromUtf8Lossy.eq_def]
    simp [not_lt_of_le (n := 0x80) (le_trans (by decide) ha), hb,
      not_lt_of_le (n := 0xe0) (le_trans (by decide) ha), hc, not_lt_of_le (n := 0xf0) ha, hd]

theorem fromUtf8Lossy_encode_append (text : List Char) (rest : List UInt8) :
    fromUtf8Lossy (encode text ++ rest) = text ++ fromUtf8Lossy rest := by
  induction text with
  | nil => rfl
  | cons c text ih =>
    rw [encode_cons, List.append_assoc, fromUtf8Lossy_char (shape_encode c), ih, List.cons_append]

theorem utf8_cases (bytes : List UInt8) :
    (∃ text, bytes = encode text) ∨ (∃ text part, bytes = encode text ++ part ∧ Start part) ∨
      ∃ text bad rest, bytes = encode text ++ (bad ++ rest) ∧ Broken bad rest := by
  have hchar : ∀ (first : List UInt8) {rest : List UInt8} {c : Char}, Shape first c →
      ((∃ text, rest = encode text) ∨ (∃ text part, rest = encode text ++ part ∧ Start part) ∨
        ∃ text bad more, rest = encode text ++ (bad ++ more) ∧ Broken bad more) →
      (∃ text, first ++ rest = encode text) ∨
        (∃ text part, first ++ rest = encode text ++ part ∧ Start part) ∨
        ∃ text bad more, first ++ rest = encode text ++ (bad ++ more) ∧ Broken bad more := by
    intro first rest c hshape h
    have hfirst : ∀ text, encode (c :: text) = first ++ encode text := by
      intro text
      rw [encode_cons, hshape.encode_eq]
    rcases h with ⟨text, rfl⟩ | ⟨text, part, rfl, hpart⟩ | ⟨text, bad, more, rfl, hbad⟩
    · exact .inl ⟨c :: text, (hfirst text).symm⟩
    · exact .inr (.inl ⟨c :: text, part, by rw [hfirst, List.append_assoc], hpart⟩)
    · exact .inr (.inr ⟨c :: text, bad, more, by rw [hfirst, List.append_assoc], hbad⟩)
  have hlead : ∀ {a : UInt8}, ¬ (a < 0xc2 ∨ 0xf4 < a) → 0xc2 ≤ a.toNat ∧ a.toNat ≤ 0xf4 := by
    intro a ha
    rw [lead_iff] at ha
    omega
  have hstart : ∀ {part : List UInt8}, Start part →
      (∃ text, part = encode text) ∨ (∃ text part', part = encode text ++ part' ∧ Start part') ∨
        ∃ text bad more, part = encode text ++ (bad ++ more) ∧ Broken bad more :=
    fun {part} hpart => .inr (.inl ⟨[], part, rfl, hpart⟩)
  fun_induction fromUtf8 bytes with
  | case1 => exact .inl ⟨[], rfl⟩
  | case2 a rest ha ih => exact hchar [a] (.one (UInt8.lt_iff_toNat_lt.mp ha)) ih
  | case3 a rest ha hbad =>
    exact .inr (.inr ⟨[], [a], rest, rfl, .lead (le_of_not_lt ha) (lead_iff.mp hbad)⟩)
  | case4 a ha hlead' => exact hstart (.one (hlead hlead').1 (hlead hlead').2)
  | case5 a ha hlead' b rest hb =>
    exact .inr (.inr ⟨[], [a], b :: rest, rfl,
      .one (hlead hlead').1 (hlead hlead').2 (by simpa using hb)⟩)
  | case6 a ha hlead' b rest hb he0 ih =>
    exact hchar [a, b] (.two (by simpa using hb) (UInt8.lt_iff_toNat_lt.mp he0)) ih
  | case7 a ha hlead' b hb he0 => exact hstart (.two (by simpa using hb) (le_of_not_lt he0))
  | case8 a ha hlead' b hb he0 c rest hc =>
    exact .inr (.inr ⟨[], [a, b], c :: rest, rfl,
      .two (by simpa using hb) (le_of_not_lt he0) (by simpa using hc)⟩)
  | case9 a ha hlead' b hb he0 c rest hc hf0 ih =>
    exact hchar [a, b, c] (.three (by simpa using hb) (le_of_not_lt he0)
      (UInt8.lt_iff_toNat_lt.mp hf0) (by simpa using hc)) ih
  | case10 a ha hlead' b hb he0 c hc hf0 =>
    exact hstart (.three (by simpa using hb) (le_of_not_lt hf0) (by simpa using hc))
  | case11 a ha hlead' b hb he0 c hc hf0 d rest hd =>
    exact .inr (.inr ⟨[], [a, b, c], d :: rest, rfl,
      .three (by simpa using hb) (le_of_not_lt hf0) (by simpa using hc) (by simpa using hd)⟩)
  | case12 a ha hlead' b hb he0 c hc hf0 d rest hd ih =>
    exact hchar [a, b, c, d] (.four (by simpa using hb) (le_of_not_lt hf0) (by simpa using hc)
      (by simpa using hd)) ih

theorem decodes_fromUtf8Lossy (bytes : List UInt8) : Decodes bytes (fromUtf8Lossy bytes) := by
  have htext : ∀ (text : List Char) {rest : List UInt8} {more : List Char}, Decodes rest more →
      Decodes (encode text ++ rest) (text ++ more) := by
    intro text rest more h
    induction text with
    | nil => exact h
    | cons c text ih =>
      rw [encode_cons, List.append_assoc]
      exact .char (shape_encode c) ih
  induction hlength : bytes.length using Nat.strong_induction_on generalizing bytes with
  | _ length ih =>
    rcases utf8_cases bytes with ⟨text, rfl⟩ | ⟨text, part, rfl, hpart⟩ |
      ⟨text, bad, rest, rfl, hbad⟩
    · have h := htext text .nil
      rw [List.append_nil, List.append_nil] at h
      rw [fromUtf8Lossy_encode]
      exact h
    · rw [fromUtf8Lossy_encode_append, fromUtf8Lossy_start hpart]
      exact htext text (.cut hpart)
    · have hpos := hbad.length_pos
      rw [fromUtf8Lossy_encode_append, fromUtf8Lossy_broken hbad]
      apply htext text
      refine .broken hbad (ih rest.length ?_ rest rfl)
      rw [List.length_append, List.length_append] at hlength
      omega

end Yuke.Shared
