import Mathlib

/-!
# Base64

The standard padded encoding of request media, and the decoder. The decoder takes a text with its padding
or without, and only a text that the encoder writes.
-/

set_option autoImplicit false

namespace Yuke.Ai

def base64Alphabet : List Char :=
  "ABCDEFGHIJKLMNOPQRSTUVWXYZabcdefghijklmnopqrstuvwxyz0123456789+/".toList

/-- The character of the six bits of `n` above `shift`. -/
def base64Char (n shift : Nat) : Char := base64Alphabet.getD (n >>> shift % 64) 'A'

/-- The standard padded base64 of `data`. -/
def encodeBase64 : List UInt8 → List Char
  | a :: b :: c :: rest =>
    let n := a.toNat <<< 16 ||| b.toNat <<< 8 ||| c.toNat
    base64Char n 18 :: base64Char n 12 :: base64Char n 6 :: base64Char n 0 :: encodeBase64 rest
  | [a, b] =>
    let n := a.toNat <<< 16 ||| b.toNat <<< 8
    [base64Char n 18, base64Char n 12, base64Char n 6, '=']
  | [a] =>
    let n := a.toNat <<< 16
    [base64Char n 18, base64Char n 12, '=', '=']
  | [] => []

example : encodeBase64 [102, 111, 111, 98] = "Zm9vYg==".toList := by decide

def base64Pad : UInt8 := 0x3d

/-- The six bits of the digit `c`. `symbols` are the last two digits of the alphabet. -/
def base64Value (symbols : UInt8 × UInt8) (c : UInt8) : Option Nat :=
  if 0x41 ≤ c ∧ c ≤ 0x5a then some (c.toNat - 0x41)
  else if 0x61 ≤ c ∧ c ≤ 0x7a then some (c.toNat - 0x61 + 26)
  else if 0x30 ≤ c ∧ c ≤ 0x39 then some (c.toNat - 0x30 + 52)
  else if c = symbols.1 then some 62
  else if c = symbols.2 then some 63
  else none

def bareBase64 (text : List UInt8) : List UInt8 :=
  if [base64Pad, base64Pad].isSuffixOf text then text.take (text.length - 2)
  else if [base64Pad].isSuffixOf text then text.take (text.length - 1)
  else text

def joinDigit (symbols : UInt8 × UInt8) (n : Nat) (entry : UInt8 × Nat) : Option Nat := do
  let value ← base64Value symbols entry.1
  return n ||| value <<< (18 - 6 * entry.2)

/-- Join the digits of one group at the top of 24 bits. -/
def joinDigits (symbols : UInt8 × UInt8) (digits : List UInt8) : Option Nat :=
  digits.zipIdx.foldlM (joinDigit symbols) 0

/-- The four bytes of a 32-bit number, the largest first. -/
def toBeBytes (n : Nat) : List UInt8 :=
  [.ofNat (n >>> 24), .ofNat (n >>> 16), .ofNat (n >>> 8), .ofNat n]

/-- A group of `k` digits holds `k - 1` bytes, and the rest is zero. -/
def decodeGroup (symbols : UInt8 × UInt8) (digits : List UInt8) : Option (List UInt8) := do
  let n ← joinDigits symbols digits
  let bytes := toBeBytes n
  if (bytes.drop digits.length).any (· ≠ 0) then none
  else return (bytes.take digits.length).drop 1

def decodeGroups (symbols : UInt8 × UInt8) : List UInt8 → Option (List UInt8)
  | a :: b :: c :: d :: rest => do
    let group ← decodeGroup symbols [a, b, c, d]
    let out ← decodeGroups symbols rest
    return group ++ out
  | [] => some []
  | digits => decodeGroup symbols digits

/-- The bytes of the base64 `text` whose last two digits are `symbols`. -/
def decodeWith (text : List UInt8) (symbols : UInt8 × UInt8) : Option (List UInt8) :=
  let bare := bareBase64 text
  if bare.length % 4 = 1 ∨ (bare.length ≠ text.length ∧ text.length % 4 ≠ 0) then none
  else decodeGroups symbols bare

def standardSymbols : UInt8 × UInt8 := (0x2b, 0x2f)

def urlSafeSymbols : UInt8 × UInt8 := (0x2d, 0x5f)

def decodeBase64 (text : List UInt8) : Option (List UInt8) := decodeWith text standardSymbols

def decodeUrlSafe (text : List UInt8) : Option (List UInt8) := decodeWith text urlSafeSymbols

def base64Byte (symbols : UInt8 × UInt8) (c : Char) : UInt8 :=
  if c = '+' then symbols.1 else if c = '/' then symbols.2 else c.toUInt8

def encodeWith (symbols : UInt8 × UInt8) (data : List UInt8) : List UInt8 :=
  (encodeBase64 data).map (base64Byte symbols)

def base64Digit (symbols : UInt8 × UInt8) (value : Nat) : UInt8 :=
  base64Byte symbols (base64Alphabet.getD value 'A')

structure Alphabet (symbols : UInt8 × UInt8) : Prop where
  value_digit : ∀ value < 64, base64Value symbols (base64Digit symbols value) = some value
  digit_value : ∀ c value, base64Value symbols c = some value →
    value < 64 ∧ base64Digit symbols value = c
  value_pad : base64Value symbols base64Pad = none
  byte_pad : base64Byte symbols '=' = base64Pad

theorem alphabet_of_bytes {symbols : UInt8 × UInt8}
    (hdigits : ∀ value : Fin 64, base64Value symbols (base64Digit symbols value) = some value.val)
    (hvalues : ∀ n : Fin 256, ∀ value ∈ base64Value symbols (UInt8.ofNat n),
      value < 64 ∧ base64Digit symbols value = UInt8.ofNat n)
    (hpad : base64Value symbols base64Pad = none) : Alphabet symbols where
  value_digit value h := hdigits ⟨value, h⟩
  digit_value c value h := by
    have hbyte := hvalues ⟨c.toNat, c.toNat_lt⟩ value
    simp only [UInt8.ofNat_toNat] at hbyte
    exact hbyte h
  value_pad := hpad
  byte_pad := rfl

theorem alphabet_standard : Alphabet standardSymbols :=
  alphabet_of_bytes (by decide +kernel) (by decide +kernel) rfl

theorem alphabet_urlSafe : Alphabet urlSafeSymbols :=
  alphabet_of_bytes (by decide +kernel) (by decide +kernel) rfl

/-! ## One group -/

def bitsOf (v w x y : Nat) : Nat := v * 2 ^ 18 + w * 2 ^ 12 + x * 2 ^ 6 + y

theorem or_bitsOf {v w x y : Nat} (hw : w < 64) (hx : x < 64) (hy : y < 64) :
    v <<< 18 ||| w <<< 12 ||| x <<< 6 ||| y = bitsOf v w x y := by
  have hshift : ∀ a b k, b < 2 ^ k → a <<< k ||| b = a * 2 ^ k + b := by
    intro a b k hb
    rw [← Nat.shiftLeft_add_eq_or_of_lt hb, Nat.shiftLeft_eq]
  have hlast : x <<< 6 ||| y = x * 2 ^ 6 + y := hshift x y 6 hy
  have hmiddle : w <<< 12 ||| (x * 2 ^ 6 + y) = w * 2 ^ 12 + (x * 2 ^ 6 + y) := by
    apply hshift
    omega
  have hfirst : v <<< 18 ||| (w * 2 ^ 12 + (x * 2 ^ 6 + y)) =
      v * 2 ^ 18 + (w * 2 ^ 12 + (x * 2 ^ 6 + y)) := by
    apply hshift
    omega
  rw [Nat.or_assoc, Nat.or_assoc, hlast, hmiddle, hfirst, bitsOf]
  omega

theorem or_bytes (a b c : UInt8) :
    a.toNat <<< 16 ||| b.toNat <<< 8 ||| c.toNat = a.toNat * 2 ^ 16 + b.toNat * 2 ^ 8 + c.toNat := by
  have hb := b.toNat_lt
  have hc := c.toNat_lt
  have hlast : b.toNat <<< 8 ||| c.toNat = b.toNat * 2 ^ 8 + c.toNat := by
    rw [← Nat.shiftLeft_add_eq_or_of_lt hc, Nat.shiftLeft_eq]
  have hfirst : a.toNat <<< 16 ||| (b.toNat * 2 ^ 8 + c.toNat) =
      a.toNat * 2 ^ 16 + (b.toNat * 2 ^ 8 + c.toNat) := by
    rw [← Nat.shiftLeft_add_eq_or_of_lt (by omega), Nat.shiftLeft_eq]
  rw [Nat.or_assoc, hlast, hfirst, Nat.add_assoc]

section Group

variable {symbols : UInt8 × UInt8}

def joinValues (values : List Nat) (index n : Nat) : Nat :=
  (values.zipIdx index).foldl (fun n entry => n ||| entry.1 <<< (18 - 6 * entry.2)) n

theorem joinDigit_digit (h : Alphabet symbols) {value : Nat} (hvalue : value < 64) (index n : Nat) :
    joinDigit symbols n (base64Digit symbols value, index) =
      some (n ||| value <<< (18 - 6 * index)) := by
  rw [joinDigit, h.value_digit value hvalue]
  rfl

theorem foldlM_joinDigit (h : Alphabet symbols) {values : List Nat}
    (hvalues : ∀ value ∈ values, value < 64) (index n : Nat) :
    ((values.map (base64Digit symbols)).zipIdx index).foldlM (joinDigit symbols) n =
      some (joinValues values index n) := by
  induction values generalizing n index with
  | nil => rfl
  | cons value values ih =>
    rw [List.map_cons, List.zipIdx_cons, List.foldlM_cons,
      joinDigit_digit h (hvalues value List.mem_cons_self)]
    exact ih (fun other hother => hvalues other (List.mem_cons_of_mem _ hother)) _ _

theorem values_of_foldlM (h : Alphabet symbols) {digits : List UInt8} {index start n : Nat}
    (hjoin : (digits.zipIdx index).foldlM (joinDigit symbols) start = some n) :
    ∃ values : List Nat, (∀ value ∈ values, value < 64) ∧
      digits = values.map (base64Digit symbols) := by
  induction digits generalizing start index with
  | nil => exact ⟨[], by simp, rfl⟩
  | cons digit digits ih =>
    rw [List.zipIdx_cons, List.foldlM_cons] at hjoin
    obtain ⟨_, hdigit, hrest⟩ := Option.bind_eq_some_iff.mp hjoin
    obtain ⟨value, hvalue, _⟩ := Option.bind_eq_some_iff.mp hdigit
    obtain ⟨values, hvalues, rfl⟩ := ih hrest
    obtain ⟨hlt, rfl⟩ := h.digit_value _ _ hvalue
    refine ⟨value :: values, ?_, rfl⟩
    intro other hother
    rcases List.mem_cons.mp hother with rfl | hother
    · exact hlt
    · exact hvalues other hother

theorem joinDigits_iff (h : Alphabet symbols) {digits : List UInt8} {n : Nat} :
    joinDigits symbols digits = some n ↔ ∃ values : List Nat, (∀ value ∈ values, value < 64) ∧
      digits = values.map (base64Digit symbols) ∧ n = joinValues values 0 0 := by
  constructor
  · intro hjoin
    obtain ⟨values, hvalues, rfl⟩ := values_of_foldlM h hjoin
    refine ⟨values, hvalues, rfl, ?_⟩
    have hfold := foldlM_joinDigit h hvalues 0 0
    exact Option.some.inj (hjoin.symm.trans hfold)
  · rintro ⟨values, hvalues, rfl, rfl⟩
    exact foldlM_joinDigit h hvalues 0 0

theorem joinValues_four {v w x y : Nat} (hw : w < 64) (hx : x < 64) (hy : y < 64) :
    joinValues [v, w, x, y] 0 0 = bitsOf v w x y := by
  rw [← or_bitsOf hw hx hy]
  simp [joinValues]

theorem joinValues_concat_zero (values : List Nat) (index n : Nat) :
    joinValues (values ++ [0]) index n = joinValues values index n := by
  simp [joinValues, List.zipIdx_append]

theorem exists_four {values : List Nat} (htwo : 2 ≤ values.length) (hlast : values.length ≤ 4)
    (hvalues : ∀ value ∈ values, value < 64) :
    ∃ v w x y, v < 64 ∧ w < 64 ∧ x < 64 ∧ y < 64 ∧ values = [v, w, x, y].take values.length ∧
      bitsOf v w x y % 2 ^ (24 - 6 * values.length) = 0 ∧
      joinValues values 0 0 = bitsOf v w x y := by
  rcases values with _ | ⟨v, _ | ⟨w, _ | ⟨x, _ | ⟨y, _ | ⟨z, rest⟩⟩⟩⟩⟩
  · simp at htwo
  · simp at htwo
  · obtain ⟨hv, hw⟩ : v < 64 ∧ w < 64 := by simpa using hvalues
    refine ⟨v, w, 0, 0, hv, hw, by omega, by omega, rfl, ?_, ?_⟩
    · simp only [bitsOf, List.length_cons, List.length_nil]
      omega
    · rw [← joinValues_concat_zero, ← joinValues_concat_zero]
      exact joinValues_four hw (by omega) (by omega)
  · obtain ⟨hv, hw, hx⟩ : v < 64 ∧ w < 64 ∧ x < 64 := by simpa using hvalues
    refine ⟨v, w, x, 0, hv, hw, hx, by omega, rfl, ?_, ?_⟩
    · simp only [bitsOf, List.length_cons, List.length_nil]
      omega
    · rw [← joinValues_concat_zero]
      exact joinValues_four hw hx (by omega)
  · obtain ⟨hv, hw, hx, hy⟩ : v < 64 ∧ w < 64 ∧ x < 64 ∧ y < 64 := by simpa using hvalues
    exact ⟨v, w, x, y, hv, hw, hx, hy, rfl, Nat.mod_one _, joinValues_four hw hx hy⟩
  · simp only [List.length_cons] at hlast
    omega

/-- The digits of a number of 24 bits. -/
def fourDigits (n : Nat) : List Nat := [n / 2 ^ 18 % 64, n / 2 ^ 12 % 64, n / 2 ^ 6 % 64, n % 64]

theorem joinValues_fourDigits {n : Nat} (hn : n < 2 ^ 24) : joinValues (fourDigits n) 0 0 = n := by
  rw [fourDigits, joinValues_four (by omega) (by omega) (by omega), bitsOf]
  omega

theorem joinValues_take {n count : Nat} (hn : n < 2 ^ 24) (htwo : 2 ≤ count) (hlast : count ≤ 4)
    (hzero : n % 2 ^ (24 - 6 * count) = 0) : joinValues ((fourDigits n).take count) 0 0 = n := by
  have hfour := joinValues_fourDigits hn
  interval_cases count
  · have hthird : n / 2 ^ 6 % 64 = 0 := by omega
    have hfourth : n % 64 = 0 := by omega
    rw [← joinValues_concat_zero, ← joinValues_concat_zero]
    rwa [fourDigits, hthird, hfourth] at hfour
  · have hfourth : n % 64 = 0 := by omega
    rw [← joinValues_concat_zero]
    rwa [fourDigits, hfourth] at hfour
  · exact hfour

/-- The first `count` digits of a number of 24 bits. -/
def digitsOf (symbols : UInt8 × UInt8) (n count : Nat) : List UInt8 :=
  ((fourDigits n).take count).map (base64Digit symbols)

theorem joinDigits_eq (h : Alphabet symbols) {digits : List UInt8} {n : Nat}
    (htwo : 2 ≤ digits.length) (hlast : digits.length ≤ 4) :
    joinDigits symbols digits = some n ↔ n < 2 ^ 24 ∧ n % 2 ^ (24 - 6 * digits.length) = 0 ∧
      digits = digitsOf symbols n digits.length := by
  constructor
  · intro hjoin
    obtain ⟨values, hvalues, rfl, rfl⟩ := (joinDigits_iff h).mp hjoin
    rw [List.length_map] at htwo hlast ⊢
    obtain ⟨v, w, x, y, hv, hw, hx, hy, htake, hzero, hbits⟩ := exists_four htwo hlast hvalues
    rw [hbits]
    have hdigits : ∀ n, n = bitsOf v w x y → n < 2 ^ 24 ∧ fourDigits n = [v, w, x, y] := by
      intro n hn
      unfold bitsOf at hn
      refine ⟨by omega, ?_⟩
      simp only [fourDigits, List.cons.injEq, and_true]
      omega
    obtain ⟨hlt, hfour⟩ := hdigits _ rfl
    refine ⟨hlt, hzero, ?_⟩
    rw [digitsOf, hfour, ← htake]
  · rintro ⟨hn, hzero, hdigits⟩
    refine (joinDigits_iff h).mpr ⟨(fourDigits n).take digits.length, ?_, hdigits, ?_⟩
    · intro value hvalue
      have hmem := List.mem_of_mem_take hvalue
      simp only [fourDigits, List.mem_cons, List.not_mem_nil, or_false] at hmem
      omega
    · exact (joinValues_take hn htwo hlast hzero).symm

def bytesValue (group : List UInt8) : Nat :=
  (group.getD 0 0).toNat * 2 ^ 16 + (group.getD 1 0).toNat * 2 ^ 8 + (group.getD 2 0).toNat

theorem bytesValue_inj {a b c d e f : UInt8} :
    bytesValue [a, b, c] = bytesValue [d, e, f] ↔ a = d ∧ b = e ∧ c = f := by
  have hbyte : ∀ x : UInt8, x.toNat < 256 := fun x => x.toNat_lt
  have hb := hbyte b
  have hc := hbyte c
  have he := hbyte e
  have hf := hbyte f
  simp only [bytesValue, List.getD_cons_zero, List.getD_cons_succ, ← UInt8.toNat_inj]
  omega

theorem exists_bytes {n : Nat} (hn : n < 2 ^ 24) :
    ∃ a b c, n = bytesValue [a, b, c] ∧ toBeBytes n = [0, a, b, c] := by
  refine ⟨.ofNat (n >>> 16), .ofNat (n >>> 8), .ofNat n, ?_, ?_⟩
  · simp only [bytesValue, List.getD_cons_zero, List.getD_cons_succ, UInt8.toNat_ofNat',
      Nat.shiftRight_eq_div_pow]
    omega
  · have hfirst : n >>> 24 = 0 := by
      rw [Nat.shiftRight_eq_div_pow]
      exact Nat.div_eq_of_lt hn
    rw [toBeBytes, hfirst]
    rfl

theorem bytesValue_lt {group : List UInt8} : bytesValue group < 2 ^ 24 := by
  have hbyte : ∀ x : UInt8, x.toNat < 256 := fun x => x.toNat_lt
  have ha := hbyte (group.getD 0 0)
  have hb := hbyte (group.getD 1 0)
  have hc := hbyte (group.getD 2 0)
  unfold bytesValue
  omega

theorem bytes_eq {n count : Nat} {group : List UInt8} (hn : n < 2 ^ 24) (htwo : 2 ≤ count)
    (hlast : count ≤ 4) :
    ((toBeBytes n).drop count).any (· ≠ 0) = false ∧ ((toBeBytes n).take count).drop 1 = group ↔
      group.length + 1 = count ∧ bytesValue group = n := by
  obtain ⟨a, b, c, rfl, hbytes⟩ := exists_bytes hn
  have hone : ∀ d : UInt8, bytesValue [d] = bytesValue [d, 0, 0] := fun _ => rfl
  have hpair : ∀ d e : UInt8, bytesValue [d, e] = bytesValue [d, e, 0] := fun _ _ => rfl
  rw [hbytes]
  interval_cases count
  · constructor
    · rintro ⟨hrest, rfl⟩
      have hrest : b = 0 ∧ c = 0 := by simpa using hrest
      exact ⟨rfl, by rw [List.take, List.take, List.take, List.drop, List.drop, hone, hrest.1, hrest.2]⟩
    · rintro ⟨hlength, hvalue⟩
      obtain ⟨d, rfl⟩ := List.length_eq_one_iff.mp (Nat.succ.inj hlength)
      rw [hone, bytesValue_inj] at hvalue
      obtain ⟨rfl, rfl, rfl⟩ := hvalue
      exact ⟨rfl, rfl⟩
  · constructor
    · rintro ⟨hrest, rfl⟩
      have hrest : c = 0 := by simpa using hrest
      exact ⟨rfl, by simp [hpair, hrest]⟩
    · rintro ⟨hlength, hvalue⟩
      obtain ⟨d, e, rfl⟩ := List.length_eq_two.mp (Nat.succ.inj hlength)
      rw [hpair, bytesValue_inj] at hvalue
      obtain ⟨rfl, rfl, rfl⟩ := hvalue
      exact ⟨rfl, rfl⟩
  · constructor
    · rintro ⟨_, rfl⟩
      exact ⟨rfl, rfl⟩
    · rintro ⟨hlength, hvalue⟩
      obtain ⟨d, e, f, rfl⟩ := List.length_eq_three.mp (Nat.succ.inj hlength)
      rw [bytesValue_inj] at hvalue
      obtain ⟨rfl, rfl, rfl⟩ := hvalue
      exact ⟨rfl, rfl⟩

theorem bytesValue_zero {group : List UInt8} {count : Nat} (hlength : group.length + 1 = count)
    (htwo : 2 ≤ count) (hlast : count ≤ 4) : bytesValue group % 2 ^ (24 - 6 * count) = 0 := by
  have hend : ∀ i, group.length ≤ i → group.getD i 0 = 0 := by
    intro i hi
    rw [List.getD_eq_default _ _ hi]
  unfold bytesValue
  interval_cases count
  · rw [hend 1 (by omega), hend 2 (by omega)]
    simp only [UInt8.toNat_zero]
    omega
  · rw [hend 2 (by omega)]
    simp only [UInt8.toNat_zero]
    omega
  · exact Nat.mod_one _

theorem decodeGroup_eq (h : Alphabet symbols) {digits group : List UInt8}
    (htwo : 2 ≤ digits.length) (hlast : digits.length ≤ 4) :
    decodeGroup symbols digits = some group ↔ group.length + 1 = digits.length ∧
      digits = digitsOf symbols (bytesValue group) digits.length := by
  unfold decodeGroup
  constructor
  · intro hdecode
    obtain ⟨n, hjoin, hgroup⟩ := Option.bind_eq_some_iff.mp hdecode
    obtain ⟨hn, _, hdigits⟩ := (joinDigits_eq h htwo hlast).mp hjoin
    dsimp only at hgroup
    split at hgroup
    · cases hgroup
    · next hzero =>
      obtain ⟨hlength, hvalue⟩ :=
        (bytes_eq hn htwo hlast).mp ⟨Bool.eq_false_iff.mpr hzero, Option.some.inj hgroup⟩
      exact ⟨hlength, hvalue ▸ hdigits⟩
  · rintro ⟨hlength, hdigits⟩
    have hjoin := (joinDigits_eq h htwo hlast).mpr
      ⟨bytesValue_lt, bytesValue_zero hlength htwo hlast, hdigits⟩
    obtain ⟨hzero, hgroup⟩ := (bytes_eq bytesValue_lt htwo hlast).mpr ⟨hlength, rfl⟩
    rw [hjoin]
    dsimp only [bind, Option.bind]
    rw [if_neg (Bool.eq_false_iff.mp hzero), hgroup]
    rfl

/-! ## The whole text -/

theorem base64Byte_char (n shift : Nat) :
    base64Byte symbols (base64Char n shift) = base64Digit symbols (n / 2 ^ shift % 64) := by
  rw [base64Char, base64Digit, Nat.shiftRight_eq_div_pow]

theorem encodeWith_one (h : Alphabet symbols) (a : UInt8) :
    encodeWith symbols [a] = digitsOf symbols (bytesValue [a]) 2 ++ [base64Pad, base64Pad] := by
  have hvalue : a.toNat <<< 16 = bytesValue [a] := by
    simp [bytesValue, Nat.shiftLeft_eq]
  simp only [encodeWith, encodeBase64, List.map_cons, List.map_nil, base64Byte_char, hvalue, h.byte_pad]
  rfl

theorem encodeWith_two (h : Alphabet symbols) (a b : UInt8) :
    encodeWith symbols [a, b] = digitsOf symbols (bytesValue [a, b]) 3 ++ [base64Pad] := by
  have hvalue : a.toNat <<< 16 ||| b.toNat <<< 8 = bytesValue [a, b] := by
    have hor := or_bytes a b 0
    rw [UInt8.toNat_zero, Nat.or_zero] at hor
    rw [hor, bytesValue, List.getD_cons_zero, List.getD_cons_succ, List.getD_cons_zero,
      List.getD_eq_default _ _ (Nat.le_refl 2), UInt8.toNat_zero]
  simp only [encodeWith, encodeBase64, List.map_cons, List.map_nil, base64Byte_char, hvalue, h.byte_pad]
  rfl

theorem encodeWith_three (a b c : UInt8) (rest : List UInt8) :
    encodeWith symbols (a :: b :: c :: rest) =
      digitsOf symbols (bytesValue [a, b, c]) 4 ++ encodeWith symbols rest := by
  simp only [encodeWith, encodeBase64, List.map_cons, base64Byte_char, or_bytes]
  have hlast : (a.toNat * 2 ^ 16 + b.toNat * 2 ^ 8 + c.toNat) / 2 ^ 0 % 64 =
      (a.toNat * 2 ^ 16 + b.toNat * 2 ^ 8 + c.toNat) % 64 := by
    rw [Nat.pow_zero, Nat.div_one]
  rw [hlast]
  rfl

def bareDigits (symbols : UInt8 × UInt8) : List UInt8 → List UInt8
  | a :: b :: c :: rest => digitsOf symbols (bytesValue [a, b, c]) 4 ++ bareDigits symbols rest
  | [a, b] => digitsOf symbols (bytesValue [a, b]) 3
  | [a] => digitsOf symbols (bytesValue [a]) 2
  | [] => []

def padCount (data : List UInt8) : Nat := (3 - data.length % 3) % 3

theorem encodeWith_eq (h : Alphabet symbols) (data : List UInt8) :
    encodeWith symbols data = bareDigits symbols data ++ List.replicate (padCount data) base64Pad := by
  induction data using encodeBase64.induct with
  | case1 a b c rest ih =>
    have hcount : padCount (a :: b :: c :: rest) = padCount rest := by
      simp only [padCount, List.length_cons]
      omega
    rw [encodeWith_three, ih, bareDigits, List.append_assoc, hcount]
  | case2 a b => rw [encodeWith_two h]; rfl
  | case3 a => rw [encodeWith_one h]; rfl
  | case4 => rfl

theorem length_digitsOf {n count : Nat} (hcount : count ≤ 4) :
    (digitsOf symbols n count).length = count := by
  simp [digitsOf, fourDigits, hcount]

theorem length_bareDigits (data : List UInt8) :
    (bareDigits symbols data).length = data.length + (data.length + 2) / 3 := by
  induction data using encodeBase64.induct with
  | case1 a b c rest ih =>
    rw [bareDigits, List.length_append, length_digitsOf (Nat.le_refl 4), ih]
    simp only [List.length_cons]
    omega
  | case2 a b =>
    rw [bareDigits, length_digitsOf (by decide)]
    simp
  | case3 a =>
    rw [bareDigits, length_digitsOf (by decide)]
    simp
  | case4 => rfl

theorem pad_not_mem_digitsOf (h : Alphabet symbols) (n count : Nat) :
    base64Pad ∉ digitsOf symbols n count := by
  intro hmem
  obtain ⟨value, hvalue, hpad⟩ := List.mem_map.mp hmem
  have hlt : value < 64 := by
    have hmem := List.mem_of_mem_take hvalue
    simp only [fourDigits, List.mem_cons, List.not_mem_nil, or_false] at hmem
    omega
  have hdigit := h.value_digit value hlt
  rw [hpad, h.value_pad] at hdigit
  cases hdigit

theorem pad_not_mem_bareDigits (h : Alphabet symbols) (data : List UInt8) :
    base64Pad ∉ bareDigits symbols data := by
  induction data using encodeBase64.induct with
  | case1 a b c rest ih =>
    rw [bareDigits, List.mem_append, not_or]
    exact ⟨pad_not_mem_digitsOf h _ _, ih⟩
  | case2 a b => exact pad_not_mem_digitsOf h _ _
  | case3 a => exact pad_not_mem_digitsOf h _ _
  | case4 => exact List.not_mem_nil

theorem decodeGroup_digitsOf (h : Alphabet symbols) {group : List UInt8} (hne : group ≠ [])
    (hlast : group.length ≤ 3) :
    decodeGroup symbols (digitsOf symbols (bytesValue group) (group.length + 1)) = some group := by
  have hpos := List.length_pos_iff.mpr hne
  have hlength : (digitsOf symbols (bytesValue group) (group.length + 1)).length = group.length + 1 :=
    length_digitsOf (by omega)
  refine (decodeGroup_eq h (by omega) (by omega)).mpr ⟨hlength.symm, ?_⟩
  rw [hlength]

theorem decodeGroups_bareDigits (h : Alphabet symbols) (data : List UInt8) :
    decodeGroups symbols (bareDigits symbols data) = some data := by
  induction data using encodeBase64.induct with
  | case1 a b c rest ih =>
    have hgroup : decodeGroup symbols (digitsOf symbols (bytesValue [a, b, c]) 4) = some [a, b, c] :=
      decodeGroup_digitsOf h (by simp) (Nat.le_refl 3)
    rw [bareDigits]
    change (decodeGroup symbols (digitsOf symbols (bytesValue [a, b, c]) 4) >>= fun group =>
      decodeGroups symbols (bareDigits symbols rest) >>= fun out => some (group ++ out)) = _
    rw [hgroup, ih]
    rfl
  | case2 a b => exact decodeGroup_digitsOf h (by simp) (by simp)
  | case3 a => exact decodeGroup_digitsOf h (by simp) (by simp)
  | case4 => rfl

theorem eq_bareDigits_of_decodeGroup (h : Alphabet symbols) {digits data : List UInt8}
    (htwo : 2 ≤ digits.length) (hlast : digits.length ≤ 3)
    (hdecode : decodeGroup symbols digits = some data) : digits = bareDigits symbols data := by
  obtain ⟨hlength, hdigits⟩ := (decodeGroup_eq h htwo (by omega)).mp hdecode
  rw [← hlength] at hdigits
  rcases data with _ | ⟨a, _ | ⟨b, _ | ⟨c, rest⟩⟩⟩
  · simp only [List.length_nil] at hlength
    omega
  · exact hdigits
  · exact hdigits
  · simp only [List.length_cons] at hlength
    omega

theorem eq_bareDigits_of_decodeGroups (h : Alphabet symbols) {bare data : List UInt8}
    (hlength : bare.length % 4 ≠ 1) (hdecode : decodeGroups symbols bare = some data) :
    bare = bareDigits symbols data := by
  induction bare using decodeGroups.induct generalizing data with
  | case1 a b c d rest ih =>
    have hrest : rest.length % 4 ≠ 1 := by
      simp only [List.length_cons] at hlength
      omega
    rw [decodeGroups] at hdecode
    obtain ⟨group, hfirst, hdecode⟩ := Option.bind_eq_some_iff.mp hdecode
    obtain ⟨out, hout, hdata⟩ := Option.bind_eq_some_iff.mp hdecode
    obtain ⟨hthree, hdigits⟩ := (decodeGroup_eq h (by simp) (by simp)).mp hfirst
    obtain ⟨x, y, z, rfl⟩ := List.length_eq_three.mp (Nat.succ.inj hthree)
    cases Option.some.inj hdata
    change a :: b :: c :: d :: rest = digitsOf symbols (bytesValue [x, y, z]) 4 ++ bareDigits symbols out
    rw [← ih hrest hout]
    exact congrArg (· ++ rest) hdigits
  | case2 =>
    cases hdecode
    rfl
  | case3 digits hfour hne =>
    have hthree : digits.length ≤ 3 := by
      rcases digits with _ | ⟨a, _ | ⟨b, _ | ⟨c, _ | ⟨d, rest⟩⟩⟩⟩
      · simp
      · simp
      · simp
      · simp
      · exact absurd rfl (hfour a b c d rest)
    have hpos := List.length_pos_iff.mpr hne
    apply eq_bareDigits_of_decodeGroup h (by omega) hthree
    rcases digits with _ | ⟨a, _ | ⟨b, _ | ⟨c, _ | ⟨d, rest⟩⟩⟩⟩
    · cases hdecode
      exact absurd rfl hne
    · exact hdecode
    · exact hdecode
    · exact hdecode
    · exact absurd rfl (hfour a b c d rest)

theorem bareBase64_split (text : List UInt8) :
    ∃ count ≤ 2, text = bareBase64 text ++ List.replicate count base64Pad := by
  unfold bareBase64
  split
  · next htwo =>
    obtain ⟨bare, hbare⟩ := List.isSuffixOf_iff_suffix.mp htwo
    refine ⟨2, Nat.le_refl 2, ?_⟩
    rw [← hbare]
    simp
  · split
    · next hone =>
      obtain ⟨bare, hbare⟩ := List.isSuffixOf_iff_suffix.mp hone
      refine ⟨1, by omega, ?_⟩
      rw [← hbare]
      simp
    · exact ⟨0, by omega, (List.append_nil text).symm⟩

theorem bareBase64_append {bare : List UInt8} (hpad : base64Pad ∉ bare) {count : Nat} (hcount : count ≤ 2) :
    bareBase64 (bare ++ List.replicate count base64Pad) = bare := by
  have hends : ∀ pads rest : List UInt8, rest ++ [base64Pad] = pads → ¬ pads <:+ bare := by
    rintro pads rest rfl ⟨front, hfront⟩
    apply hpad
    rw [← hfront]
    simp
  have htwo := hends [base64Pad, base64Pad] [base64Pad] rfl
  have hone := hends [base64Pad] [] rfl
  unfold bareBase64
  simp only [List.isSuffixOf_iff_suffix]
  interval_cases count
  · rw [List.replicate_zero, List.append_nil, if_neg htwo, if_neg hone]
  · have hnot : ¬ [base64Pad, base64Pad] <:+ bare ++ [base64Pad] := by
      rintro ⟨front, hfront⟩
      apply hone
      refine ⟨front, ?_⟩
      have happend : (front ++ [base64Pad]) ++ [base64Pad] = bare ++ [base64Pad] := by
        rw [← hfront, List.append_assoc]
        rfl
      exact List.append_cancel_right happend
    rw [List.replicate_one, if_neg hnot, if_pos (List.suffix_append _ _)]
    simp
  · change (if [base64Pad, base64Pad] <:+ bare ++ [base64Pad, base64Pad] then _ else _) = bare
    rw [if_pos (List.suffix_append _ _)]
    simp

theorem length_bareDigits_mod (data : List UInt8) :
    (bareDigits symbols data).length % 4 ≠ 1 ∧ padCount data ≤ 2 ∧
      ((bareDigits symbols data).length + padCount data) % 4 = 0 := by
  rw [length_bareDigits, padCount]
  omega

theorem decodeWith_eq (h : Alphabet symbols) {text data : List UInt8} :
    decodeWith text symbols = some data ↔
      text = bareDigits symbols data ++ List.replicate (padCount data) base64Pad ∨
      text = bareDigits symbols data := by
  obtain ⟨hmod, hpads, hwhole⟩ := @length_bareDigits_mod symbols data
  have hpad := pad_not_mem_bareDigits h data
  constructor
  · intro hdecode
    unfold decodeWith at hdecode
    dsimp only at hdecode
    split at hdecode
    · cases hdecode
    next hlength =>
    obtain ⟨hbare, hpadded⟩ := not_or.mp hlength
    have hdigits := eq_bareDigits_of_decodeGroups h hbare hdecode
    obtain ⟨count, hcount, htext⟩ := bareBase64_split text
    rw [hdigits] at htext hpadded
    cases count with
    | zero =>
      right
      simpa using htext
    | succ count =>
      left
      have hlengths := congrArg List.length htext
      rw [List.length_append, List.length_replicate] at hlengths
      have hfour : text.length % 4 = 0 := by
        by_contra hne
        exact hpadded ⟨by omega, hne⟩
      have hpadCount : padCount data = count + 1 := by omega
      rw [hpadCount]
      exact htext
  · have hdecode := decodeGroups_bareDigits h data
    have haccept : ∀ count ≤ 2, (count = 0 ∨ ((bareDigits symbols data).length + count) % 4 = 0) →
        decodeWith (bareDigits symbols data ++ List.replicate count base64Pad) symbols =
          some data := by
      intro count hcount hfour
      unfold decodeWith
      rw [bareBase64_append hpad hcount, if_neg ?_]
      · exact hdecode
      · rw [List.length_append, List.length_replicate]
        omega
    rintro (rfl | rfl)
    · exact haccept _ hpads (.inr hwhole)
    · have hnone := haccept 0 (by omega) (.inl rfl)
      rwa [List.replicate_zero, List.append_nil] at hnone

def encodeBare (symbols : UInt8 × UInt8) (data : List UInt8) : List UInt8 :=
  (encodeWith symbols data).rdropWhile (· = base64Pad)

theorem encodeBare_eq (h : Alphabet symbols) (data : List UInt8) :
    encodeBare symbols data = bareDigits symbols data := by
  have hpad := pad_not_mem_bareDigits h data
  rw [encodeBare, encodeWith_eq h]
  induction padCount data with
  | zero =>
    rw [List.replicate_zero, List.append_nil, List.rdropWhile_eq_self_iff]
    intro hne hlast
    apply hpad
    rw [← of_decide_eq_true hlast]
    exact List.getLast_mem hne
  | succ count ih =>
    rw [List.replicate_succ', ← List.append_assoc, List.rdropWhile_concat_pos _ _ _ (by simp)]
    exact ih

theorem decodeWith_iff (h : Alphabet symbols) (text data : List UInt8) :
    decodeWith text symbols = some data ↔
      text = encodeWith symbols data ∨ text = encodeBare symbols data := by
  rw [decodeWith_eq h, encodeWith_eq h, encodeBare_eq h]

end Group

/-- Both decoders take the encodings of their alphabet, with the padding or without, and no other
text. -/
theorem decode_base64_iff (text data : List UInt8) :
    (decodeBase64 text = some data ↔
      text = encodeWith standardSymbols data ∨ text = encodeBare standardSymbols data) ∧
    (decodeUrlSafe text = some data ↔
      text = encodeWith urlSafeSymbols data ∨ text = encodeBare urlSafeSymbols data) :=
  ⟨decodeWith_iff alphabet_standard text data, decodeWith_iff alphabet_urlSafe text data⟩

-- `Zh` sets unused bits, and `Zm8==` has the wrong padding.
example : decodeUrlSafe [0x5a, 0x67] = some [0x66] ∧ decodeUrlSafe [0x5a, 0x68] = none ∧
    decodeBase64 [0x5a, 0x6d, 0x38, 0x3d, 0x3d] = none := by decide

end Yuke.Ai
