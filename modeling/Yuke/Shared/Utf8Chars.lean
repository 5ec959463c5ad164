import Yuke.Shared.Utf8

/-!
# Characters and their bytes

A character is a first byte and up to three trailing bytes. So characters do not overlap, and bytes
split into text at each byte that is not a trailing one.
-/

set_option autoImplicit false

namespace Yuke.Shared

/-- The UTF-8 bytes of a text. -/
def encode (text : List Char) : List UInt8 := text.flatMap String.utf8EncodeChar

@[simp] theorem encode_nil : encode [] = [] := rfl

@[simp] theorem encode_cons (c : Char) (text : List Char) :
    encode (c :: text) = String.utf8EncodeChar c ++ encode text := rfl

@[simp] theorem encode_append (text more : List Char) :
    encode (text ++ more) = encode text ++ encode more := List.flatMap_append

/-! ## The bytes of one character -/

theorem isTrailing_iff {b : UInt8} : isTrailing b = true ↔ 0x80 ≤ b.toNat ∧ b.toNat ≤ 0xbf := by
  simp [isTrailing, UInt8.le_iff_toNat_le]

theorem isSecond_iff {a b : UInt8} : isSecond a b = true ↔
    0xc2 ≤ a.toNat ∧ a.toNat ≤ 0xf4 ∧ 0x80 ≤ b.toNat ∧ b.toNat ≤ 0xbf ∧
      (a.toNat = 0xe0 → 0xa0 ≤ b.toNat) ∧ (a.toNat = 0xed → b.toNat ≤ 0x9f) ∧
      (a.toNat = 0xf0 → 0x90 ≤ b.toNat) ∧ (a.toNat = 0xf4 → b.toNat ≤ 0x8f) := by
  unfold isSecond isTrailing
  simp only [UInt8.le_iff_toNat_le, ← UInt8.toNat_inj, UInt8.reduceToNat, Bool.and_eq_true,
    decide_eq_true_eq]
  split_ifs
  all_goals simp only [Bool.and_eq_true, decide_eq_true_eq, false_iff]
  all_goals omega

theorem codePoint_toNat {n : Nat} (h : n.isValidChar) : (Char.ofNat n).toNat = n := by
  simp [Char.ofNat, h, Char.ofNatAux, Char.toNat, UInt32.toNat]

/-- The shapes of a character: one byte, or a first byte and its trailing bytes. -/
inductive Shape : List UInt8 → Char → Prop where
  | one {a : UInt8} (ha : a.toNat < 0x80) : Shape [a] (Char.ofNat a.toNat)
  | two {a b : UInt8} (hb : isSecond a b = true) (ha : a.toNat < 0xe0) :
      Shape [a, b] (codePoint (a.toNat % 32) [b])
  | three {a b c : UInt8} (hb : isSecond a b = true) (ha : 0xe0 ≤ a.toNat) (ha' : a.toNat < 0xf0)
      (hc : isTrailing c = true) : Shape [a, b, c] (codePoint (a.toNat % 16) [b, c])
  | four {a b c d : UInt8} (hb : isSecond a b = true) (ha : 0xf0 ≤ a.toNat)
      (hc : isTrailing c = true) (hd : isTrailing d = true) :
      Shape [a, b, c, d] (codePoint (a.toNat % 8) [b, c, d])

theorem shape_encode (c : Char) : Shape (String.utf8EncodeChar c) c := by
  have hvalid := c.valid
  simp only [UInt32.isValidChar, Nat.isValidChar] at hvalid
  have hofNat : Char.ofNat c.val.toNat = c := Char.ofNat_toNat c
  unfold String.utf8EncodeChar
  dsimp only
  generalize c.val.toNat = n at hvalid hofNat
  rw [← hofNat]
  have hbyte : ∀ k, k < 256 → (UInt8.ofNat k).toNat = k := by
    intro k hk
    rw [UInt8.toNat_ofNat', Nat.mod_eq_of_lt (by omega)]
  split
  · have hshape := Shape.one (a := UInt8.ofNat n) (by rw [hbyte n (by omega)]; omega)
    rwa [hbyte n (by omega)] at hshape
  · split
    · have hshape := Shape.two (a := UInt8.ofNat (n / 64 % 0x20 + 0xc0))
        (b := UInt8.ofNat (n % 0x40 + 0x80))
        (isSecond_iff.mpr (by rw [hbyte _ (by omega), hbyte _ (by omega)]; omega))
        (by rw [hbyte _ (by omega)]; omega)
      convert hshape using 1
      simp only [codePoint, List.foldl_cons, List.foldl_nil]
      rw [hbyte _ (by omega), hbyte _ (by omega)]
      congr 1
      omega
    · split
      · have hshape := Shape.three (a := UInt8.ofNat (n / 4096 % 0x10 + 0xe0))
          (b := UInt8.ofNat (n / 64 % 0x40 + 0x80)) (c := UInt8.ofNat (n % 0x40 + 0x80))
          (isSecond_iff.mpr (by rw [hbyte _ (by omega), hbyte _ (by omega)]; omega))
          (by rw [hbyte _ (by omega)]; omega) (by rw [hbyte _ (by omega)]; omega)
          (isTrailing_iff.mpr (by rw [hbyte _ (by omega)]; omega))
        convert hshape using 1
        simp only [codePoint, List.foldl_cons, List.foldl_nil]
        rw [hbyte _ (by omega), hbyte _ (by omega), hbyte _ (by omega)]
        congr 1
        omega
      · have hshape := Shape.four (a := UInt8.ofNat (n / 262144 % 0x08 + 0xf0))
          (b := UInt8.ofNat (n / 4096 % 0x40 + 0x80)) (c := UInt8.ofNat (n / 64 % 0x40 + 0x80))
          (d := UInt8.ofNat (n % 0x40 + 0x80))
          (isSecond_iff.mpr (by rw [hbyte _ (by omega), hbyte _ (by omega)]; omega))
          (by rw [hbyte _ (by omega)]; omega)
          (isTrailing_iff.mpr (by rw [hbyte _ (by omega)]; omega))
          (isTrailing_iff.mpr (by rw [hbyte _ (by omega)]; omega))
        convert hshape using 1
        simp only [codePoint, List.foldl_cons, List.foldl_nil]
        rw [hbyte _ (by omega), hbyte _ (by omega), hbyte _ (by omega), hbyte _ (by omega)]
        congr 1
        omega

theorem Shape.encode_eq {bytes : List UInt8} {c : Char} (h : Shape bytes c) :
    String.utf8EncodeChar c = bytes := by
  have hbyte : ∀ (a : UInt8) (n : Nat), a.toNat = n → UInt8.ofNat n = a := by
    rintro a n rfl
    exact UInt8.ofNat_toNat
  cases h with
  | @one a ha =>
    have hn : (Char.ofNat a.toNat).val.toNat = a.toNat := codePoint_toNat (.inl (by omega))
    rw [String.utf8EncodeChar, hn, if_pos (by omega), hbyte a _ rfl]
  | @two a b hb ha =>
    have hb' := isSecond_iff.mp hb
    have hn : (codePoint (a.toNat % 32) [b]).val.toNat = a.toNat % 32 * 64 + b.toNat % 64 :=
      codePoint_toNat (.inl (by simp; omega))
    rw [String.utf8EncodeChar, hn, if_neg (by omega), if_pos (by omega), hbyte a _ (by omega),
      hbyte b _ (by omega)]
  | @three a b c hb ha ha' hc =>
    have hb' := isSecond_iff.mp hb
    have hc' := isTrailing_iff.mp hc
    have hn : (codePoint (a.toNat % 16) [b, c]).val.toNat =
        (a.toNat % 16 * 64 + b.toNat % 64) * 64 + c.toNat % 64 :=
      codePoint_toNat (by simp [Nat.isValidChar]; omega)
    rw [String.utf8EncodeChar, hn, if_neg (by omega), if_neg (by omega), if_pos (by omega),
      hbyte a _ (by omega), hbyte b _ (by omega), hbyte c _ (by omega)]
  | @four a b c d hb ha hc hd =>
    have hb' := isSecond_iff.mp hb
    have hc' := isTrailing_iff.mp hc
    have hd' := isTrailing_iff.mp hd
    have hn : (codePoint (a.toNat % 8) [b, c, d]).val.toNat =
        ((a.toNat % 8 * 64 + b.toNat % 64) * 64 + c.toNat % 64) * 64 + d.toNat % 64 :=
      codePoint_toNat (by simp [Nat.isValidChar]; omega)
    rw [String.utf8EncodeChar, hn, if_neg (by omega), if_neg (by omega), if_neg (by omega),
      hbyte a _ (by omega), hbyte b _ (by omega), hbyte c _ (by omega), hbyte d _ (by omega)]

theorem Shape.cons {bytes : List UInt8} {c : Char} (h : Shape bytes c) :
    ∃ first rest, bytes = first :: rest ∧ isTrailing first = false ∧
      ∀ b ∈ rest, isTrailing b = true := by
  have hfirst : ∀ a : UInt8, (a.toNat < 0x80 ∨ 0xc2 ≤ a.toNat) → isTrailing a = false := by
    intro a ha
    rw [Bool.eq_false_iff]
    intro htrailing
    have := isTrailing_iff.mp htrailing
    omega
  cases h with
  | one ha => exact ⟨_, _, rfl, hfirst _ (.inl ha), nofun⟩
  | two hb ha =>
    have hb' := isSecond_iff.mp hb
    refine ⟨_, _, rfl, hfirst _ (.inr hb'.1), ?_⟩
    simp only [List.forall_mem_singleton]
    exact isTrailing_iff.mpr ⟨hb'.2.2.1, hb'.2.2.2.1⟩
  | three hb ha ha' hc =>
    have hb' := isSecond_iff.mp hb
    refine ⟨_, _, rfl, hfirst _ (.inr hb'.1), ?_⟩
    simp only [List.forall_mem_cons]
    exact ⟨isTrailing_iff.mpr ⟨hb'.2.2.1, hb'.2.2.2.1⟩, hc, nofun⟩
  | four hb ha hc hd =>
    have hb' := isSecond_iff.mp hb
    refine ⟨_, _, rfl, hfirst _ (.inr hb'.1), ?_⟩
    simp only [List.forall_mem_cons]
    exact ⟨isTrailing_iff.mpr ⟨hb'.2.2.1, hb'.2.2.2.1⟩, hc, hd, nofun⟩

inductive Start : List UInt8 → Prop where
  | one {a : UInt8} (ha : 0xc2 ≤ a.toNat) (ha' : a.toNat ≤ 0xf4) : Start [a]
  | two {a b : UInt8} (hb : isSecond a b = true) (ha : 0xe0 ≤ a.toNat) : Start [a, b]
  | three {a b c : UInt8} (hb : isSecond a b = true) (ha : 0xf0 ≤ a.toNat)
      (hc : isTrailing c = true) : Start [a, b, c]

theorem Shape.start {bytes more : List UInt8} {c : Char} (h : Shape (bytes ++ more) c)
    (hbytes : bytes ≠ []) (hmore : more ≠ []) : Start bytes := by
  generalize hall : bytes ++ more = all at h
  cases h with
  | one ha =>
    rcases bytes with _ | ⟨a, _ | ⟨b, bytes⟩⟩
    · exact absurd rfl hbytes
    · simp at hall
      exact absurd hall.2 hmore
    · simp at hall
  | two hb ha =>
    have hb' := isSecond_iff.mp hb
    rcases bytes with _ | ⟨a, _ | ⟨b, _ | ⟨c, bytes⟩⟩⟩
    · exact absurd rfl hbytes
    · cases hall
      exact .one hb'.1 hb'.2.1
    · simp at hall
      exact absurd hall.2.2 hmore
    · simp at hall
  | three hb ha ha' hc =>
    have hb' := isSecond_iff.mp hb
    rcases bytes with _ | ⟨a, _ | ⟨b, _ | ⟨c, _ | ⟨d, bytes⟩⟩⟩⟩
    · exact absurd rfl hbytes
    · cases hall
      exact .one hb'.1 hb'.2.1
    · cases hall
      exact .two hb ha
    · simp at hall
      exact absurd hall.2.2.2 hmore
    · simp at hall
  | four hb ha hc hd =>
    have hb' := isSecond_iff.mp hb
    rcases bytes with _ | ⟨a, _ | ⟨b, _ | ⟨c, _ | ⟨d, _ | ⟨e, bytes⟩⟩⟩⟩⟩
    · exact absurd rfl hbytes
    · cases hall
      exact .one hb'.1 hb'.2.1
    · cases hall
      exact .two hb (by omega)
    · cases hall
      exact .three hb ha hc
    · simp at hall
      exact absurd hall.2.2.2.2 hmore
    · simp at hall

theorem fromUtf8Lossy_char {bytes : List UInt8} {c : Char} (h : Shape bytes c)
    (rest : List UInt8) : fromUtf8Lossy (bytes ++ rest) = c :: fromUtf8Lossy rest := by
  cases h with
  | one ha =>
    have ha' := UInt8.lt_iff_toNat_lt.mpr (show _ < (0x80 : UInt8).toNat from ha)
    rw [fromUtf8Lossy.eq_def]
    simp [ha']
  | @two a b hb ha =>
    have hb' := isSecond_iff.mp hb
    have h80 : ¬ a < 0x80 := by rw [UInt8.lt_iff_toNat_lt]; simp; omega
    have he0 : a < 0xe0 := by rw [UInt8.lt_iff_toNat_lt]; exact ha
    rw [fromUtf8Lossy.eq_def]
    simp [h80, hb, he0]
  | @three a b c hb ha ha' hc =>
    have h80 : ¬ a < 0x80 := by rw [UInt8.lt_iff_toNat_lt]; simp; omega
    have he0 : ¬ a < 0xe0 := by rw [UInt8.lt_iff_toNat_lt]; simp; omega
    have hf0 : a < 0xf0 := by rw [UInt8.lt_iff_toNat_lt]; exact ha'
    rw [fromUtf8Lossy.eq_def]
    simp [h80, hb, he0, hf0, hc]
  | @four a b c d hb ha hc hd =>
    have h80 : ¬ a < 0x80 := by rw [UInt8.lt_iff_toNat_lt]; simp; omega
    have he0 : ¬ a < 0xe0 := by rw [UInt8.lt_iff_toNat_lt]; simp; omega
    have hf0 : ¬ a < 0xf0 := by rw [UInt8.lt_iff_toNat_lt]; simp; omega
    rw [fromUtf8Lossy.eq_def]
    simp [h80, hb, he0, hf0, hc, hd]

theorem fromUtf8Lossy_encode (text : List Char) : fromUtf8Lossy (encode text) = text := by
  induction text with
  | nil => rfl
  | cons c text ih =>
    rw [encode_cons, fromUtf8Lossy_char (shape_encode c), ih]

theorem fromUtf8Lossy_start {bytes : List UInt8} (h : Start bytes) :
    fromUtf8Lossy bytes = [replacement] := by
  cases h with
  | @one a ha ha' =>
    have h80 : ¬ a < 0x80 := by rw [UInt8.lt_iff_toNat_lt]; simp; omega
    rw [fromUtf8Lossy.eq_def]
    simp [h80]
  | @two a b hb ha =>
    have h80 : ¬ a < 0x80 := by rw [UInt8.lt_iff_toNat_lt]; simp; omega
    have he0 : ¬ a < 0xe0 := by rw [UInt8.lt_iff_toNat_lt]; simp; omega
    rw [fromUtf8Lossy.eq_def]
    simp [h80, hb, he0]
  | @three a b c hb ha hc =>
    have h80 : ¬ a < 0x80 := by rw [UInt8.lt_iff_toNat_lt]; simp; omega
    have he0 : ¬ a < 0xe0 := by rw [UInt8.lt_iff_toNat_lt]; simp; omega
    have hf0 : ¬ a < 0xf0 := by rw [UInt8.lt_iff_toNat_lt]; simp; omega
    rw [fromUtf8Lossy.eq_def]
    simp [h80, hb, he0, hf0, hc]

theorem isSecond_of_not_trailing {a b : UInt8} (h : isTrailing b = false) :
    isSecond a b = false := by
  rw [Bool.eq_false_iff] at h ⊢
  intro hsecond
  have := isSecond_iff.mp hsecond
  exact h (isTrailing_iff.mpr (by omega))

theorem fromUtf8Lossy_trailing {b : UInt8} (h : isTrailing b = true) (rest : List UInt8) :
    fromUtf8Lossy (b :: rest) = replacement :: fromUtf8Lossy rest := by
  have hb := isTrailing_iff.mp h
  have h80 : ¬ b < 0x80 := by rw [UInt8.lt_iff_toNat_lt]; simp; omega
  cases rest with
  | nil =>
    rw [fromUtf8Lossy.eq_def]
    simp [h80, fromUtf8Lossy]
  | cons c rest =>
    have hsecond : isSecond b c = false := by
      rw [Bool.eq_false_iff]
      intro hsecond
      have := isSecond_iff.mp hsecond
      omega
    rw [fromUtf8Lossy.eq_def]
    simp [h80, hsecond]

theorem fromUtf8Lossy_trailings {bytes : List UInt8} (h : ∀ b ∈ bytes, isTrailing b = true)
    (rest : List UInt8) : fromUtf8Lossy (bytes ++ rest) =
      List.replicate bytes.length replacement ++ fromUtf8Lossy rest := by
  induction bytes with
  | nil => rfl
  | cons b bytes ih =>
    obtain ⟨hb, hbytes⟩ := List.forall_mem_cons.mp h
    rw [List.cons_append, fromUtf8Lossy_trailing hb, ih hbytes, List.length_cons,
      List.replicate_succ, List.cons_append]

theorem fromUtf8Lossy_append (bytes : List UInt8) {b : UInt8} (h : isTrailing b = false)
    (rest : List UInt8) : fromUtf8Lossy (bytes ++ b :: rest) =
      fromUtf8Lossy bytes ++ fromUtf8Lossy (b :: rest) := by
  fun_induction fromUtf8Lossy bytes with
  | case1 => rfl
  | case2 a more ha ih =>
    rw [List.cons_append, fromUtf8Lossy.eq_def]
    simp [ha, ih]
  | case3 a ha =>
    rw [List.cons_append, List.nil_append, fromUtf8Lossy.eq_def]
    simp [ha, isSecond_of_not_trailing h]
  | case4 a ha c more hc ih =>
    rw [List.cons_append] at ih
    rw [List.cons_append, List.cons_append, fromUtf8Lossy.eq_def]
    simp [ha, hc, ih]
  | case5 a ha c more hc ha' ih =>
    rw [List.cons_append, List.cons_append, fromUtf8Lossy.eq_def]
    simp [ha, hc, ha', ih]
  | case6 a ha c hc ha' =>
    rw [List.cons_append, List.cons_append, List.nil_append, fromUtf8Lossy.eq_def]
    simp [ha, hc, ha', h]
  | case7 a ha c hc ha' d more hd ih =>
    rw [List.cons_append] at ih
    rw [List.cons_append, List.cons_append, List.cons_append, fromUtf8Lossy.eq_def]
    simp [ha, hc, ha', hd, ih]
  | case8 a ha c hc ha' d more hd ha'' ih =>
    rw [List.cons_append, List.cons_append, List.cons_append, fromUtf8Lossy.eq_def]
    simp [ha, hc, ha', hd, ha'', ih]
  | case9 a ha c hc ha' d hd ha'' =>
    simp only [List.cons_append, List.nil_append]
    rw [fromUtf8Lossy.eq_def]
    simp [ha, hc, ha', hd, ha'', h]
  | case10 a ha c hc ha' d hd ha'' e more he ih =>
    rw [List.cons_append] at ih
    simp only [List.cons_append]
    rw [fromUtf8Lossy.eq_def]
    simp [ha, hc, ha', hd, ha'', he, ih]
  | case11 a ha c hc ha' d hd ha'' e more he ih =>
    simp only [List.cons_append]
    rw [fromUtf8Lossy.eq_def]
    simp [ha, hc, ha', hd, ha'', he, ih]

/-! ## The strict reader -/

/-- What a strict reader says about bytes. Its numbers are the length of the text before the error,
and the length of the bytes that no text can hold. -/
inductive Utf8Check where
  | valid
  | incomplete (validUpTo : Nat)
  | invalid (validUpTo errorLen : Nat)
  deriving DecidableEq

/-- The check of `n` bytes of text, then bytes with this check. -/
def Utf8Check.after (n : Nat) : Utf8Check → Utf8Check
  | .valid => .valid
  | .incomplete validUpTo => .incomplete (n + validUpTo)
  | .invalid validUpTo errorLen => .invalid (n + validUpTo) errorLen

def fromUtf8 : List UInt8 → Utf8Check
  | [] => .valid
  | a :: rest =>
    if a < 0x80 then (fromUtf8 rest).after 1
    else if a < 0xc2 ∨ 0xf4 < a then .invalid 0 1
    else
      match rest with
      | [] => .incomplete 0
      | b :: rest₂ =>
        if isSecond a b = false then .invalid 0 1
        else if a < 0xe0 then (fromUtf8 rest₂).after 2
        else
          match rest₂ with
          | [] => .incomplete 0
          | c :: rest₃ =>
            if isTrailing c = false then .invalid 0 2
            else if a < 0xf0 then (fromUtf8 rest₃).after 3
            else
              match rest₃ with
              | [] => .incomplete 0
              | d :: rest₄ =>
                if isTrailing d = false then .invalid 0 3
                else (fromUtf8 rest₄).after 4

theorem Utf8Check.after_after (m n : Nat) (check : Utf8Check) :
    (check.after m).after n = check.after (n + m) := by
  cases check <;> simp [Utf8Check.after, Nat.add_assoc]

theorem fromUtf8_char {bytes : List UInt8} {c : Char} (h : Shape bytes c) (rest : List UInt8) :
    fromUtf8 (bytes ++ rest) = (fromUtf8 rest).after bytes.length := by
  cases h with
  | one ha =>
    have ha' := UInt8.lt_iff_toNat_lt.mpr (show _ < (0x80 : UInt8).toNat from ha)
    rw [fromUtf8.eq_def]
    simp [ha']
  | @two a b hb ha =>
    have hb' := isSecond_iff.mp hb
    have h80 : ¬ a < 0x80 := by rw [UInt8.lt_iff_toNat_lt]; simp; omega
    have hlead : ¬ (a < 0xc2 ∨ 0xf4 < a) := by
      simp only [UInt8.lt_iff_toNat_lt, UInt8.reduceToNat]; omega
    have he0 : a < 0xe0 := by rw [UInt8.lt_iff_toNat_lt]; exact ha
    rw [fromUtf8.eq_def]
    simp [h80, hlead, hb, he0]
  | @three a b c hb ha ha' hc =>
    have h80 : ¬ a < 0x80 := by rw [UInt8.lt_iff_toNat_lt]; simp; omega
    have hlead : ¬ (a < 0xc2 ∨ 0xf4 < a) := by
      simp only [UInt8.lt_iff_toNat_lt, UInt8.reduceToNat]; omega
    have he0 : ¬ a < 0xe0 := by rw [UInt8.lt_iff_toNat_lt]; simp; omega
    have hf0 : a < 0xf0 := by rw [UInt8.lt_iff_toNat_lt]; exact ha'
    rw [fromUtf8.eq_def]
    simp [h80, hlead, hb, he0, hf0, hc]
  | @four a b c d hb ha hc hd =>
    have hb' := isSecond_iff.mp hb
    have h80 : ¬ a < 0x80 := by rw [UInt8.lt_iff_toNat_lt]; simp; omega
    have hlead : ¬ (a < 0xc2 ∨ 0xf4 < a) := by
      simp only [UInt8.lt_iff_toNat_lt, UInt8.reduceToNat]; omega
    have he0 : ¬ a < 0xe0 := by rw [UInt8.lt_iff_toNat_lt]; simp; omega
    have hf0 : ¬ a < 0xf0 := by rw [UInt8.lt_iff_toNat_lt]; simp; omega
    rw [fromUtf8.eq_def]
    simp [h80, hlead, hb, he0, hf0, hc, hd]

theorem fromUtf8_encode_append (text : List Char) (rest : List UInt8) :
    fromUtf8 (encode text ++ rest) = (fromUtf8 rest).after (encode text).length := by
  induction text with
  | nil => cases h : fromUtf8 rest <;> simp [h, Utf8Check.after]
  | cons c text ih =>
    rw [encode_cons, List.append_assoc, fromUtf8_char (shape_encode c), ih,
      Utf8Check.after_after, List.length_append]

theorem fromUtf8_start {bytes : List UInt8} (h : Start bytes) : fromUtf8 bytes = .incomplete 0 := by
  cases h with
  | @one a ha ha' =>
    have h80 : ¬ a < 0x80 := by rw [UInt8.lt_iff_toNat_lt]; simp; omega
    have hlead : ¬ (a < 0xc2 ∨ 0xf4 < a) := by
      simp only [UInt8.lt_iff_toNat_lt, UInt8.reduceToNat]; omega
    rw [fromUtf8.eq_def]
    simp [h80, hlead]
  | @two a b hb ha =>
    have hb' := isSecond_iff.mp hb
    have h80 : ¬ a < 0x80 := by rw [UInt8.lt_iff_toNat_lt]; simp; omega
    have hlead : ¬ (a < 0xc2 ∨ 0xf4 < a) := by
      simp only [UInt8.lt_iff_toNat_lt, UInt8.reduceToNat]; omega
    have he0 : ¬ a < 0xe0 := by rw [UInt8.lt_iff_toNat_lt]; simp; omega
    rw [fromUtf8.eq_def]
    simp [h80, hlead, hb, he0]
  | @three a b c hb ha hc =>
    have hb' := isSecond_iff.mp hb
    have h80 : ¬ a < 0x80 := by rw [UInt8.lt_iff_toNat_lt]; simp; omega
    have hlead : ¬ (a < 0xc2 ∨ 0xf4 < a) := by
      simp only [UInt8.lt_iff_toNat_lt, UInt8.reduceToNat]; omega
    have he0 : ¬ a < 0xe0 := by rw [UInt8.lt_iff_toNat_lt]; simp; omega
    have hf0 : ¬ a < 0xf0 := by rw [UInt8.lt_iff_toNat_lt]; simp; omega
    rw [fromUtf8.eq_def]
    simp [h80, hlead, hb, he0, hf0, hc]

theorem Utf8Check.after_eq_incomplete {check : Utf8Check} {n validUpTo : Nat} :
    check.after n = .incomplete validUpTo ↔ ∃ m, check = .incomplete m ∧ n + m = validUpTo := by
  cases check <;> simp [after]

theorem incomplete_cases {bytes : List UInt8} {validUpTo : Nat}
    (h : fromUtf8 bytes = .incomplete validUpTo) :
    ∃ text part, bytes = encode text ++ part ∧ (encode text).length = validUpTo ∧ Start part := by
  have hchar : ∀ (first : List UInt8) {rest : List UInt8} {c : Char} {n : Nat}, Shape first c →
      (fromUtf8 rest).after first.length = .incomplete n →
      (∀ {m : Nat}, fromUtf8 rest = .incomplete m →
        ∃ text part, rest = encode text ++ part ∧ (encode text).length = m ∧ Start part) →
      ∃ text part, first ++ rest = encode text ++ part ∧
        (encode text).length = n ∧ Start part := by
    intro first rest c n hshape hafter ih
    obtain ⟨m, hrest, rfl⟩ := Utf8Check.after_eq_incomplete.mp hafter
    obtain ⟨text, part, rfl, rfl, hpart⟩ := ih hrest
    refine ⟨c :: text, part, ?_, ?_, hpart⟩
    · rw [encode_cons, hshape.encode_eq, List.append_assoc]
    · rw [encode_cons, hshape.encode_eq, List.length_append]
  have hlead : ∀ {a : UInt8}, ¬ (a < 0xc2 ∨ 0xf4 < a) → 0xc2 ≤ a.toNat ∧ a.toNat ≤ 0xf4 := by
    intro a ha
    simp only [UInt8.lt_iff_toNat_lt, UInt8.reduceToNat] at ha
    omega
  have hge : ∀ {a b : UInt8}, ¬ a < b → b.toNat ≤ a.toNat := by
    intro a b hab
    rw [UInt8.lt_iff_toNat_lt] at hab
    omega
  fun_induction fromUtf8 bytes generalizing validUpTo with
  | case1 | case3 | case5 | case8 | case11 => cases h
  | case2 a rest ha ih => exact hchar [a] (.one (UInt8.lt_iff_toNat_lt.mp ha)) h ih
  | case4 a ha hlead' =>
    cases h
    exact ⟨[], [a], rfl, rfl, .one (hlead hlead').1 (hlead hlead').2⟩
  | case6 a ha hlead' b rest hb he0 ih =>
    exact hchar [a, b] (.two (by simpa using hb) (UInt8.lt_iff_toNat_lt.mp he0)) h ih
  | case7 a ha hlead' b hb he0 =>
    cases h
    exact ⟨[], [a, b], rfl, rfl, .two (by simpa using hb) (hge he0)⟩
  | case9 a ha hlead' b hb he0 c rest hc hf0 ih =>
    exact hchar [a, b, c] (.three (by simpa using hb) (hge he0)
      (UInt8.lt_iff_toNat_lt.mp hf0) (by simpa using hc)) h ih
  | case10 a ha hlead' b hb he0 c hc hf0 =>
    cases h
    exact ⟨[], [a, b, c], rfl, rfl, .three (by simpa using hb) (hge hf0) (by simpa using hc)⟩
  | case12 a ha hlead' b hb he0 c hc hf0 d rest hd ih =>
    exact hchar [a, b, c, d] (.four (by simpa using hb) (hge hf0) (by simpa using hc)
      (by simpa using hd)) h ih

/-! ## A character over a cut -/

theorem Start.cons {part : List UInt8} (h : Start part) :
    ∃ first rest, part = first :: rest ∧ isTrailing first = false ∧
      ∀ b ∈ rest, isTrailing b = true := by
  have hfirst : ∀ a : UInt8, 0xc2 ≤ a.toNat → isTrailing a = false := by
    intro a ha
    rw [Bool.eq_false_iff]
    intro htrailing
    have := isTrailing_iff.mp htrailing
    omega
  cases h with
  | one ha ha' => exact ⟨_, [], rfl, hfirst _ ha, nofun⟩
  | @two a b hb ha =>
    have hb' := isSecond_iff.mp hb
    refine ⟨_, [b], rfl, hfirst _ hb'.1, ?_⟩
    rw [List.forall_mem_singleton]
    exact isTrailing_iff.mpr ⟨hb'.2.2.1, hb'.2.2.2.1⟩
  | @three a b c hb ha hc =>
    have hb' := isSecond_iff.mp hb
    refine ⟨_, [b, c], rfl, hfirst _ hb'.1, ?_⟩
    rw [List.forall_mem_cons, List.forall_mem_singleton]
    exact ⟨isTrailing_iff.mpr ⟨hb'.2.2.1, hb'.2.2.2.1⟩, hc⟩

theorem Start.left_eq {left left' part part' : List UInt8} (h : Start part) (h' : Start part')
    (heq : left ++ part = left' ++ part') : left = left' := by
  obtain ⟨first, rest, rfl, hfirst, hrest⟩ := h.cons
  obtain ⟨first', rest', rfl, hfirst', hrest'⟩ := h'.cons
  rcases List.append_eq_append_iff.mp heq with ⟨more, rfl, hmore⟩ | ⟨more, rfl, hmore⟩
  · cases more with
    | nil => simp
    | cons b more =>
      have htrailing := hrest first' (by
        rw [List.cons_append] at hmore
        rw [(List.cons.inj hmore).2]
        simp)
      rw [hfirst'] at htrailing
      cases htrailing
  · cases more with
    | nil => simp
    | cons b more =>
      have htrailing := hrest' first (by
        rw [List.cons_append] at hmore
        rw [(List.cons.inj hmore).2]
        simp)
      rw [hfirst] at htrailing
      cases htrailing

/-- The character `c` crosses the cut of `bytes` after the first `cut` bytes. -/
structure Crosses (bytes : List UInt8) (cut : Nat) (before : List UInt8) (c : Char)
    (after : List UInt8) : Prop where
  eq : bytes = before ++ (String.utf8EncodeChar c ++ after)
  before_lt : before.length < cut
  lt_after : cut < before.length + (String.utf8EncodeChar c).length

namespace Crosses

variable {bytes before after : List UInt8} {cut : Nat} {c : Char}

theorem take (h : Crosses bytes cut before c after) :
    ∃ part, bytes.take cut = before ++ part ∧ Start part := by
  have hbefore := h.before_lt
  have hafter := h.lt_after
  refine ⟨(String.utf8EncodeChar c).take (cut - before.length), ?_, ?_⟩
  · rw [h.eq, List.take_append, List.take_of_length_le (by omega), List.take_append_of_le_length
      (by omega)]
  · have hshape := shape_encode c
    rw [← List.take_append_drop (cut - before.length) (String.utf8EncodeChar c)] at hshape
    refine hshape.start ?_ ?_
    · rw [← List.length_pos_iff, List.length_take]
      omega
    · rw [← List.length_pos_iff, List.length_drop]
      omega

theorem drop (h : Crosses bytes cut before c after) :
    ∃ rest, bytes.drop cut = rest ++ after ∧ rest ≠ [] ∧ ∀ b ∈ rest, isTrailing b = true := by
  have hbefore := h.before_lt
  have hafter := h.lt_after
  refine ⟨(String.utf8EncodeChar c).drop (cut - before.length), ?_, ?_, ?_⟩
  · rw [h.eq, List.drop_append, List.drop_eq_nil_of_le (by omega), List.nil_append,
      List.drop_append_of_le_length (by omega)]
  · rw [← List.length_pos_iff, List.length_drop]
    omega
  · obtain ⟨first, rest, heq, _, hrest⟩ := (shape_encode c).cons
    intro b hb
    have hcut : cut - before.length = (cut - before.length - 1) + 1 := by omega
    rw [heq, hcut, List.drop_succ_cons] at hb
    exact hrest b (List.mem_of_mem_drop hb)

theorem before_eq {before' after' : List UInt8} {c' : Char} (h : Crosses bytes cut before c after)
    (h' : Crosses bytes cut before' c' after') : before = before' := by
  obtain ⟨part, htake, hpart⟩ := h.take
  obtain ⟨part', htake', hpart'⟩ := h'.take
  exact hpart.left_eq hpart' (htake.symm.trans htake')

theorem after_eq {before' after' : List UInt8} {c' : Char} (h : Crosses bytes cut before c after)
    (h' : Crosses bytes cut before' c' after') : after = after' := by
  have hbefore := h.before_eq h'
  subst hbefore
  have heq : String.utf8EncodeChar c ++ after = String.utf8EncodeChar c' ++ after' :=
    List.append_cancel_left (h.eq.symm.trans h'.eq)
  have hlossy := congrArg fromUtf8Lossy heq
  rw [fromUtf8Lossy_char (shape_encode c), fromUtf8Lossy_char (shape_encode c')] at hlossy
  rw [(List.cons.inj hlossy).1] at heq
  exact List.append_cancel_left heq

end Crosses

theorem cut_encode (text : List Char) {cut : Nat} (h : cut ≤ (encode text).length) :
    (∃ left right, text = left ++ right ∧ (encode text).take cut = encode left ∧
      (encode text).drop cut = encode right) ∨
    ∃ left c right, text = left ++ c :: right ∧
      Crosses (encode text) cut (encode left) c (encode right) := by
  induction text generalizing cut with
  | nil => exact .inl ⟨[], [], rfl, by simp, by simp⟩
  | cons c text ih =>
    rcases Nat.eq_zero_or_pos cut with rfl | hpos
    · exact .inl ⟨[], c :: text, rfl, rfl, rfl⟩
    · rcases Nat.lt_or_ge cut (String.utf8EncodeChar c).length with hlt | hge
      · exact .inr ⟨[], c, text, rfl, ⟨rfl, hpos, by simpa using hlt⟩⟩
      · have hrest : cut - (String.utf8EncodeChar c).length ≤ (encode text).length := by
          rw [encode_cons, List.length_append] at h
          omega
        rcases ih hrest with ⟨left, right, rfl, htake, hdrop⟩ | ⟨left, d, right, rfl, hcross⟩
        · refine .inl ⟨c :: left, right, rfl, ?_, ?_⟩
          · rw [encode_cons, List.take_append, List.take_of_length_le hge, htake, encode_cons]
          · rw [encode_cons, List.drop_append, List.drop_eq_nil_of_le hge, hdrop, List.nil_append]
        · refine .inr ⟨c :: left, d, right, rfl, ?_⟩
          have hbefore := hcross.before_lt
          have hafter := hcross.lt_after
          constructor
          · rw [encode_cons, hcross.eq, encode_cons, List.append_assoc]
          · rw [encode_cons, List.length_append]
            omega
          · rw [encode_cons, List.length_append]
            omega

theorem encode_not_trailing {text : List Char} {b : UInt8} {rest : List UInt8}
    (h : encode text = b :: rest) : isTrailing b = false := by
  cases text with
  | nil => cases h
  | cons c text =>
    obtain ⟨first, more, heq, hfirst, _⟩ := (shape_encode c).cons
    rw [encode_cons, heq, List.cons_append] at h
    rw [← (List.cons.inj h).1]
    exact hfirst

end Yuke.Shared
