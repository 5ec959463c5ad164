import Mathlib

/-!
# JSON texts

The grammar of RFC 8259 as a reader. A value keeps its members in order, its numbers as their text
and its strings as code points, because an escape can name a lone surrogate.
-/

set_option autoImplicit false

namespace Yuke.Shared

inductive Json where
  | null
  | bool (flag : Bool)
  | number (text : List Char)
  | string (codes : List Nat)
  | array (items : List Json)
  | object (members : List (List Nat × Json))

namespace Json

/-! ## The reader -/

def isSpace (c : Char) : Bool := c = ' ' || c = '\t' || c = '\n' || c = '\r'

def skipSpace (text : List Char) : List Char := text.dropWhile isSpace

def hexDigit (c : Char) : Option Nat :=
  let n := c.toNat
  if 0x30 ≤ n ∧ n ≤ 0x39 then some (n - 0x30)
  else if 0x41 ≤ n ∧ n ≤ 0x46 then some (n - 0x41 + 10)
  else if 0x61 ≤ n ∧ n ≤ 0x66 then some (n - 0x61 + 10)
  else none

def hexUnit (a b c d : Char) : Option Nat :=
  (hexDigit a).bind fun a => (hexDigit b).bind fun b => (hexDigit c).bind fun c =>
    (hexDigit d).map fun d => ((a * 16 + b) * 16 + c) * 16 + d

def escapeCode (c : Char) : Option Nat :=
  if c = '"' then some 0x22
  else if c = '\\' then some 0x5c
  else if c = '/' then some 0x2f
  else if c = 'b' then some 0x08
  else if c = 'f' then some 0x0c
  else if c = 'n' then some 0x0a
  else if c = 'r' then some 0x0d
  else if c = 't' then some 0x09
  else none

/-- Put an escaped code unit before `codes`. A high and a low surrogate are one code point. -/
def pushUnit (unit : Nat) : List Nat → List Nat
  | [] => [unit]
  | code :: codes =>
    if 0xd800 ≤ unit ∧ unit < 0xdc00 ∧ 0xdc00 ≤ code ∧ code < 0xe000 then
      (0x10000 + (unit - 0xd800) * 0x400 + (code - 0xdc00)) :: codes
    else unit :: code :: codes

def stringTail : List Char → Option (List Nat × List Char)
  | [] => none
  | c :: text =>
    if c = '"' then some ([], text)
    else if c = '\\' then
      match text with
      | 'u' :: h₁ :: h₂ :: h₃ :: h₄ :: text =>
        (hexUnit h₁ h₂ h₃ h₄).bind fun unit =>
          (stringTail text).map fun tail => (pushUnit unit tail.1, tail.2)
      | e :: text =>
        (escapeCode e).bind fun code => (stringTail text).map fun tail => (code :: tail.1, tail.2)
      | [] => none
    else if c.toNat < 0x20 then none
    else (stringTail text).map fun tail => (c.toNat :: tail.1, tail.2)

abbrev Scanner : Type := List Char → Option (List Char × List Char)

namespace Scanner

def nothing : Scanner := fun text => some ([], text)

def andThen (first second : Scanner) : Scanner := fun text =>
  (first text).bind fun taken => (second taken.2).map fun more => (taken.1 ++ more.1, more.2)

/-- `second` after one character of `chars`, or nothing. -/
def afterOneOf (chars : List Char) (second : Scanner) : Scanner := fun text =>
  match text with
  | [] => some ([], [])
  | c :: rest =>
    if c ∈ chars then (second rest).map fun more => (c :: more.1, more.2) else some ([], c :: rest)

end Scanner

open Scanner

def isDigit (c : Char) : Bool := decide (0x30 ≤ c.toNat ∧ c.toNat ≤ 0x39)

def digits : Scanner := fun text =>
  if (text.takeWhile isDigit).isEmpty then none
  else some (text.takeWhile isDigit, text.dropWhile isDigit)

def intPart : Scanner
  | '0' :: text => some (['0'], text)
  | text => digits text

def sign (chars : List Char) : Scanner := afterOneOf chars nothing

def numberText : Scanner :=
  andThen (sign ['-']) <| andThen intPart <| andThen (afterOneOf ['.'] digits) <|
    afterOneOf ['e', 'E'] <| andThen (sign ['+', '-']) digits

/-- The rest of `text` after `word`. -/
def literal (word : List Char) (text : List Char) : Option (List Char) :=
  if word.isPrefixOf text then some (text.drop word.length) else none

mutual

def value : Nat → List Char → Option (Json × List Char)
  | 0, _ => none
  | fuel + 1, text =>
    match skipSpace text with
    | [] => none
    | '"' :: text => (stringTail text).map fun read => (.string read.1, read.2)
    | '[' :: text =>
      match skipSpace text with
      | ']' :: text => some (.array [], text)
      | _ => (elements fuel text).map fun read => (.array read.1, read.2)
    | '{' :: text =>
      match skipSpace text with
      | '}' :: text => some (.object [], text)
      | _ => (members fuel text).map fun read => (.object read.1, read.2)
    | 'n' :: text => (literal ['u', 'l', 'l'] text).map fun rest => (.null, rest)
    | 't' :: text => (literal ['r', 'u', 'e'] text).map fun rest => (.bool true, rest)
    | 'f' :: text => (literal ['a', 'l', 's', 'e'] text).map fun rest => (.bool false, rest)
    | text => (numberText text).map fun read => (.number read.1, read.2)

def elements : Nat → List Char → Option (List Json × List Char)
  | 0, _ => none
  | fuel + 1, text =>
    (value fuel text).bind fun first =>
      match skipSpace first.2 with
      | ',' :: text => (elements fuel text).map fun more => (first.1 :: more.1, more.2)
      | ']' :: text => some ([first.1], text)
      | _ => none

def members : Nat → List Char → Option (List (List Nat × Json) × List Char)
  | 0, _ => none
  | fuel + 1, text =>
    match skipSpace text with
    | '"' :: text =>
      (stringTail text).bind fun name =>
        match skipSpace name.2 with
        | ':' :: text =>
          (value fuel text).bind fun first =>
            match skipSpace first.2 with
            | ',' :: text =>
              (members fuel text).map fun more => ((name.1, first.1) :: more.1, more.2)
            | '}' :: text => some ([(name.1, first.1)], text)
            | _ => none
        | _ => none
    | _ => none

end

def parse (text : List Char) : Option Json :=
  match value text.length text with
  | some (json, rest) => if rest.all isSpace then some json else none
  | none => none

/-! ## What a reader takes -/

/-- A number can go on with `c`. -/
def continues (c : Char) : Bool := isDigit c || c = '.' || c = 'e' || c = 'E' || c = '+' || c = '-'

theorem isSpace_of_continues {c : Char} (h : continues c = true) : isSpace c = false := by
  by_contra hspace
  simp only [isSpace, Bool.not_eq_false, Bool.or_eq_true, decide_eq_true_eq] at hspace
  rcases hspace with ((rfl | rfl) | rfl) | rfl <;> cases h

/-- No number goes on with `text`. -/
def Stops (text : List Char) : Prop := ∀ c ∈ text.head?, continues c = false

/-- A reader that left `rest` also leaves `rest'`. -/
def Follows (rest rest' : List Char) : Prop := rest'.head? = rest.head? ∨ Stops rest'

theorem Follows.nil (rest : List Char) : Follows rest [] := .inr (by simp [Stops])

theorem Follows.append {taken rest rest' : List Char} (h : Follows rest rest') :
    Follows (taken ++ rest) (taken ++ rest') := by
  cases taken with
  | nil => exact h
  | cons c taken => exact .inl rfl

def Scanner.Exact (scanner : Scanner) : Prop :=
  ∀ text taken rest, scanner text = some (taken, rest) → text = taken ++ rest ∧
    ∀ rest', Follows rest rest' → scanner (taken ++ rest') = some (taken, rest')

namespace Scanner

theorem exact_nothing : Exact nothing := by
  intro text taken rest h
  cases h
  exact ⟨rfl, fun _ _ => rfl⟩

theorem Exact.andThen {first second : Scanner} (hfirst : first.Exact) (hsecond : second.Exact) :
    (andThen first second).Exact := by
  intro text taken rest h
  obtain ⟨⟨a, rest₁⟩, ha, h⟩ := Option.bind_eq_some_iff.mp h
  obtain ⟨⟨b, rest₂⟩, hb, h⟩ := Option.map_eq_some_iff.mp h
  cases h
  obtain ⟨rfl, hfirst⟩ := hfirst _ _ _ ha
  obtain ⟨rfl, hsecond⟩ := hsecond _ _ _ hb
  refine ⟨(List.append_assoc ..).symm, fun rest' hfollows => ?_⟩
  have hnext := hfirst (b ++ rest') hfollows.append
  simp [Scanner.andThen, hnext, hsecond rest' hfollows]

theorem Exact.afterOneOf {chars : List Char} {second : Scanner}
    (hchars : ∀ c ∈ chars, continues c = true) (hsecond : second.Exact) :
    (afterOneOf chars second).Exact := by
  have hnone : ∀ rest', (∀ c ∈ rest'.head?, c ∉ chars) →
      Scanner.afterOneOf chars second rest' = some ([], rest') := by
    intro rest' h
    cases rest' with
    | nil => rfl
    | cons c rest' => simp [Scanner.afterOneOf, h c rfl]
  have hstops : ∀ rest', Stops rest' → ∀ c ∈ rest'.head?, c ∉ chars := by
    intro rest' h c hc hmem
    have hstop := h c hc
    rw [hchars c hmem] at hstop
    cases hstop
  intro text taken rest h
  cases text with
  | nil =>
    cases h
    refine ⟨rfl, fun rest' hfollows => hnone rest' ?_⟩
    rcases hfollows with hhead | hfollows
    · simp [hhead]
    · exact hstops rest' hfollows
  | cons c text =>
    simp only [Scanner.afterOneOf] at h
    split_ifs at h with hc
    · obtain ⟨⟨b, rest₂⟩, hb, h⟩ := Option.map_eq_some_iff.mp h
      cases h
      obtain ⟨rfl, hsecond⟩ := hsecond _ _ _ hb
      refine ⟨rfl, fun rest' hfollows => ?_⟩
      simp [Scanner.afterOneOf, hc, hsecond rest' hfollows]
    · cases h
      refine ⟨rfl, fun rest' hfollows => hnone rest' ?_⟩
      rcases hfollows with hhead | hfollows
      · simpa [hhead] using hc
      · exact hstops rest' hfollows

end Scanner

theorem exact_digits : Scanner.Exact digits := by
  intro text taken rest h
  unfold digits at h
  split_ifs at h with hempty
  cases h
  refine ⟨List.takeWhile_append_dropWhile.symm, fun rest' hfollows => ?_⟩
  have hstop : ∀ c ∈ rest'.head?, isDigit c = false := by
    intro c hc
    rcases hfollows with hhead | hfollows
    · rw [hhead] at hc
      have hnot := List.head?_dropWhile_not isDigit text
      rwa [hc] at hnot
    · have hstop := hfollows c hc
      simp only [continues, Bool.or_eq_false_iff] at hstop
      exact hstop.1.1.1.1.1
  have hdigits : ∀ c ∈ text.takeWhile isDigit, isDigit c = true := fun c => List.mem_takeWhile_imp
  have hnone : rest'.takeWhile isDigit = [] ∧ rest'.dropWhile isDigit = rest' := by
    cases rest' with
    | nil => exact ⟨rfl, rfl⟩
    | cons c rest' => simp [hstop c rfl]
  have htake : (text.takeWhile isDigit ++ rest').takeWhile isDigit = text.takeWhile isDigit := by
    rw [List.takeWhile_append_of_pos hdigits, hnone.1, List.append_nil]
  have hdrop : (text.takeWhile isDigit ++ rest').dropWhile isDigit = rest' := by
    rw [List.dropWhile_append_of_pos hdigits, hnone.2]
  unfold digits
  rw [htake, hdrop, if_neg hempty]

theorem exact_intPart : Scanner.Exact intPart := by
  intro text taken rest h
  unfold intPart at h
  split at h
  · cases h
    exact ⟨rfl, fun _ _ => rfl⟩
  · next text hzero =>
    obtain ⟨rfl, hdigits⟩ := exact_digits _ _ _ h
    refine ⟨rfl, fun rest' hfollows => ?_⟩
    have hread := hdigits rest' hfollows
    unfold intPart
    split
    · next tail htext =>
      cases taken with
      | nil =>
        have hnone := hdigits [] (.nil rest)
        cases hnone
      | cons c taken =>
        cases htext
        exact absurd rfl (hzero (taken ++ rest))
    · exact hread

theorem exact_sign {chars : List Char} (hchars : ∀ c ∈ chars, continues c = true) :
    Scanner.Exact (sign chars) :=
  .afterOneOf hchars Scanner.exact_nothing

theorem exact_numberText : Scanner.Exact numberText := by
  have hsigns : Scanner.Exact (sign ['+', '-']) := exact_sign (by simp [continues])
  have hexp : Scanner.Exact (afterOneOf ['e', 'E'] (andThen (sign ['+', '-']) digits)) :=
    .afterOneOf (by simp [continues]) (hsigns.andThen exact_digits)
  have hfrac : Scanner.Exact (afterOneOf ['.'] digits) := .afterOneOf (by simp [continues]) exact_digits
  have hsign : Scanner.Exact (sign ['-']) := exact_sign (by simp [continues])
  exact hsign.andThen (exact_intPart.andThen (hfrac.andThen hexp))

def Scanner.Numeric (scanner : Scanner) : Prop :=
  ∀ text taken rest, scanner text = some (taken, rest) → ∀ c ∈ taken, continues c = true

namespace Scanner

theorem Numeric.andThen {first second : Scanner} (hfirst : first.Numeric)
    (hsecond : second.Numeric) : (andThen first second).Numeric := by
  intro text taken rest h c hc
  obtain ⟨⟨a, rest₁⟩, ha, h⟩ := Option.bind_eq_some_iff.mp h
  obtain ⟨⟨b, rest₂⟩, hb, h⟩ := Option.map_eq_some_iff.mp h
  cases h
  rcases List.mem_append.mp hc with hc | hc
  · exact hfirst _ _ _ ha c hc
  · exact hsecond _ _ _ hb c hc

theorem Numeric.afterOneOf {chars : List Char} {second : Scanner}
    (hchars : ∀ c ∈ chars, continues c = true) (hsecond : second.Numeric) :
    (afterOneOf chars second).Numeric := by
  intro text taken rest h c hc
  cases text with
  | nil =>
    cases h
    cases hc
  | cons d text =>
    simp only [Scanner.afterOneOf] at h
    split_ifs at h with hd
    · obtain ⟨⟨b, rest₂⟩, hb, h⟩ := Option.map_eq_some_iff.mp h
      cases h
      rcases List.mem_cons.mp hc with rfl | hc
      · exact hchars c hd
      · exact hsecond _ _ _ hb c hc
    · cases h
      cases hc

end Scanner

theorem numeric_digits : Scanner.Numeric digits := by
  intro text taken rest h c hc
  unfold digits at h
  split_ifs at h
  cases h
  simp [continues, List.mem_takeWhile_imp hc]

theorem numeric_intPart : Scanner.Numeric intPart := by
  intro text taken rest h c hc
  unfold intPart at h
  split at h
  · cases h
    rw [List.mem_singleton.mp hc]
    rfl
  · exact numeric_digits _ _ _ h c hc

theorem numeric_sign {chars : List Char} (hchars : ∀ c ∈ chars, continues c = true) :
    Scanner.Numeric (sign chars) := by
  refine .afterOneOf hchars ?_
  intro text taken rest h c hc
  cases h
  cases hc

theorem numeric_numberText : Scanner.Numeric numberText := by
  have hsigns : Scanner.Numeric (sign ['+', '-']) := numeric_sign (by simp [continues])
  have hexp : Scanner.Numeric (afterOneOf ['e', 'E'] (andThen (sign ['+', '-']) digits)) :=
    .afterOneOf (by simp [continues]) (hsigns.andThen numeric_digits)
  have hfrac : Scanner.Numeric (afterOneOf ['.'] digits) :=
    .afterOneOf (by simp [continues]) numeric_digits
  have hsign : Scanner.Numeric (sign ['-']) := numeric_sign (by simp [continues])
  exact hsign.andThen (numeric_intPart.andThen (hfrac.andThen hexp))

theorem intPart_ne_nil {text taken rest : List Char} (h : intPart text = some (taken, rest)) :
    taken ≠ [] := by
  unfold intPart at h
  split at h
  · cases h
    exact List.cons_ne_nil _ _
  · unfold digits at h
    split_ifs at h with hempty
    cases h
    simpa using hempty

theorem numberText_ne_nil {text taken rest : List Char}
    (h : numberText text = some (taken, rest)) : taken ≠ [] := by
  obtain ⟨⟨a, rest₁⟩, ha, h⟩ := Option.bind_eq_some_iff.mp h
  obtain ⟨⟨b, rest₂⟩, hb, h⟩ := Option.map_eq_some_iff.mp h
  obtain ⟨⟨int, rest₃⟩, hint, hb⟩ := Option.bind_eq_some_iff.mp hb
  obtain ⟨⟨frac, rest₄⟩, hfrac, hb⟩ := Option.map_eq_some_iff.mp hb
  cases h
  cases hb
  simp [intPart_ne_nil hint]

theorem continues_of_numberText {c : Char} {text taken rest : List Char}
    (h : numberText (c :: text) = some (taken, rest)) : continues c = true := by
  obtain ⟨htext, -⟩ := exact_numberText _ _ _ h
  cases taken with
  | nil => exact absurd rfl (numberText_ne_nil h)
  | cons d taken =>
    rw [(List.cons.inj htext).1]
    exact numeric_numberText _ _ _ h d List.mem_cons_self

theorem stringTail_unit (h₁ h₂ h₃ h₄ : Char) (text : List Char) :
    stringTail ('\\' :: 'u' :: h₁ :: h₂ :: h₃ :: h₄ :: text) =
      (hexUnit h₁ h₂ h₃ h₄).bind fun unit =>
        (stringTail text).map fun tail => (pushUnit unit tail.1, tail.2) := rfl

theorem stringTail_escape {e : Char} {code : Nat} (h : escapeCode e = some code)
    (text : List Char) :
    stringTail ('\\' :: e :: text) = (stringTail text).map fun tail => (code :: tail.1, tail.2) := by
  have hunit : e ≠ 'u' := by
    rintro rfl
    cases h
  rw [stringTail, if_neg (by decide), if_pos rfl, h, Option.bind_some]
  exact fun _ _ _ _ _ hu => absurd hu hunit

theorem stringTail_plain {c : Char} (hquote : c ≠ '"') (hslash : c ≠ '\\') (hc : 0x20 ≤ c.toNat)
    (text : List Char) :
    stringTail (c :: text) = (stringTail text).map fun tail => (c.toNat :: tail.1, tail.2) := by
  rw [stringTail.eq_def]
  dsimp only
  rw [if_neg hquote, if_neg hslash, if_neg (by omega)]

theorem stringTail_quote (text : List Char) : stringTail ('"' :: text) = some ([], text) := by
  rw [stringTail.eq_def]
  dsimp only
  rw [if_pos rfl]

theorem stringTail_exact {text rest : List Char} {codes : List Nat}
    (h : stringTail text = some (codes, rest)) :
    ∃ taken, text = taken ++ '"' :: rest ∧
      ∀ rest', stringTail (taken ++ '"' :: rest') = some (codes, rest') := by
  induction text using stringTail.induct generalizing codes with
  | case1 => cases h
  | case2 text =>
    rw [stringTail_quote] at h
    cases h
    exact ⟨[], rfl, stringTail_quote⟩
  | case3 h₁ h₂ h₃ h₄ text _ ih =>
    rw [stringTail_unit] at h
    obtain ⟨unit, hunit, h⟩ := Option.bind_eq_some_iff.mp h
    obtain ⟨⟨tail, rest₂⟩, htail, h⟩ := Option.map_eq_some_iff.mp h
    cases h
    obtain ⟨taken, rfl, hread⟩ := ih htail
    refine ⟨'\\' :: 'u' :: h₁ :: h₂ :: h₃ :: h₄ :: taken, rfl, fun rest' => ?_⟩
    simp only [List.cons_append]
    rw [stringTail_unit, hunit, hread rest']
    rfl
  | case4 e text hnot _ ih =>
    rw [stringTail.eq_def] at h
    dsimp only at h
    rw [if_neg (by decide), if_pos rfl] at h
    split at h
    · next heq =>
      cases heq
      exact absurd rfl (hnot _ _ _ _ _ rfl)
    · next heq =>
      cases heq
      obtain ⟨code, hcode, h⟩ := Option.bind_eq_some_iff.mp h
      obtain ⟨⟨tail, rest₂⟩, htail, h⟩ := Option.map_eq_some_iff.mp h
      cases h
      obtain ⟨taken, rfl, hread⟩ := ih htail
      refine ⟨'\\' :: e :: taken, rfl, fun rest' => ?_⟩
      simp only [List.cons_append]
      rw [stringTail_escape hcode, hread rest']
      rfl
    · next heq => cases heq
  | case5 => cases h
  | case6 c text hquote hslash hc =>
    rw [stringTail.eq_def] at h
    dsimp only at h
    rw [if_neg hquote, if_neg hslash, if_pos hc] at h
    cases h
  | case7 c text hquote hslash hc ih =>
    rw [stringTail_plain hquote hslash (by omega)] at h
    obtain ⟨⟨tail, rest₂⟩, htail, h⟩ := Option.map_eq_some_iff.mp h
    cases h
    obtain ⟨taken, rfl, hread⟩ := ih htail
    refine ⟨c :: taken, rfl, fun rest' => ?_⟩
    simp only [List.cons_append]
    rw [stringTail_plain hquote hslash (by omega), hread rest']
    rfl

theorem literal_exact {word text rest : List Char} (h : literal word text = some rest) :
    text = word ++ rest := by
  unfold literal at h
  split_ifs at h with hprefix
  cases h
  obtain ⟨tail, rfl⟩ := List.isPrefixOf_iff_prefix.mp hprefix
  simp

theorem literal_append (word rest : List Char) : literal word (word ++ rest) = some rest := by
  have hprefix : word.isPrefixOf (word ++ rest) = true :=
    List.isPrefixOf_iff_prefix.mpr (List.prefix_append word rest)
  rw [literal, if_pos hprefix]
  simp

theorem skipSpace_cons {text tail : List Char} {c : Char} (h : skipSpace text = c :: tail) :
    isSpace c = false ∧ ∃ spaces, text = spaces ++ c :: tail ∧
      ∀ tail', skipSpace (spaces ++ c :: tail') = c :: tail' := by
  have hc : isSpace c = false := by
    have hnot := List.head?_dropWhile_not isSpace text
    unfold skipSpace at h
    rwa [h] at hnot
  have hspaces : ∀ d ∈ text.takeWhile isSpace, isSpace d = true := fun d => List.mem_takeWhile_imp
  refine ⟨hc, text.takeWhile isSpace, ?_, fun tail' => ?_⟩
  · rw [← h]
    exact List.takeWhile_append_dropWhile.symm
  · rw [skipSpace, List.dropWhile_append_of_pos hspaces, List.dropWhile_cons, if_neg (by simp [hc])]

theorem value_close (fuel : Nat) (tail : List Char) : value fuel (']' :: tail) = none := by
  cases fuel with
  | zero => rfl
  | succ fuel => rfl

theorem value_skipSpace {text text' : List Char} (h : skipSpace text = skipSpace text')
    (fuel : Nat) : value fuel text = value fuel text' := by
  cases fuel with
  | zero => rfl
  | succ fuel => rw [value, value, h]

theorem elements_close {text tail : List Char} (h : skipSpace text = ']' :: tail) (fuel : Nat) :
    elements fuel text = none := by
  cases fuel with
  | zero => rfl
  | succ fuel =>
    have hclose : skipSpace text = skipSpace (']' :: tail) := h
    rw [elements, value_skipSpace hclose, value_close, Option.bind_none]

theorem members_close {text tail : List Char} (h : skipSpace text = '}' :: tail) (fuel : Nat) :
    members fuel text = none := by
  cases fuel with
  | zero => rfl
  | succ fuel =>
    rw [members, h]
    rfl

inductive ValueStep (fuel : Nat) (text : List Char) : Json → List Char → Prop where
  | string {tail rest : List Char} {codes : List Nat} (hstart : skipSpace text = '"' :: tail)
    (hread : stringTail tail = some (codes, rest)) : ValueStep fuel text (.string codes) rest
  | arrayNil {tail rest : List Char} (hstart : skipSpace text = '[' :: tail)
    (hend : skipSpace tail = ']' :: rest) : ValueStep fuel text (.array []) rest
  | array {tail rest : List Char} {items : List Json} (hstart : skipSpace text = '[' :: tail)
    (hread : elements fuel tail = some (items, rest)) : ValueStep fuel text (.array items) rest
  | objectNil {tail rest : List Char} (hstart : skipSpace text = '{' :: tail)
    (hend : skipSpace tail = '}' :: rest) : ValueStep fuel text (.object []) rest
  | object {tail rest : List Char} {items : List (List Nat × Json)}
    (hstart : skipSpace text = '{' :: tail) (hread : members fuel tail = some (items, rest)) :
    ValueStep fuel text (.object items) rest
  | null {rest : List Char} (hstart : skipSpace text = 'n' :: (['u', 'l', 'l'] ++ rest)) :
    ValueStep fuel text .null rest
  | true {rest : List Char} (hstart : skipSpace text = 't' :: (['r', 'u', 'e'] ++ rest)) :
    ValueStep fuel text (.bool true) rest
  | false {rest : List Char} (hstart : skipSpace text = 'f' :: (['a', 'l', 's', 'e'] ++ rest)) :
    ValueStep fuel text (.bool false) rest
  | number {taken rest : List Char} (hread : numberText (skipSpace text) = some (taken, rest)) :
    ValueStep fuel text (.number taken) rest

theorem valueStep_of_value {fuel : Nat} {text rest : List Char} {json : Json}
    (h : value (fuel + 1) text = some (json, rest)) : ValueStep fuel text json rest := by
  rw [value] at h
  split at h
  · cases h
  · next tail hstart =>
    obtain ⟨⟨codes, rest₁⟩, hread, h⟩ := Option.map_eq_some_iff.mp h
    cases h
    exact .string hstart hread
  · next tail hstart =>
    split at h
    · next hend =>
      cases h
      exact .arrayNil hstart hend
    · obtain ⟨⟨items, rest₁⟩, hread, h⟩ := Option.map_eq_some_iff.mp h
      cases h
      exact .array hstart hread
  · next tail hstart =>
    split at h
    · next hend =>
      cases h
      exact .objectNil hstart hend
    · obtain ⟨⟨items, rest₁⟩, hread, h⟩ := Option.map_eq_some_iff.mp h
      cases h
      exact .object hstart hread
  · next tail hstart =>
    obtain ⟨rest₁, hread, h⟩ := Option.map_eq_some_iff.mp h
    cases h
    exact .null (hstart.trans (congrArg _ (literal_exact hread)))
  · next tail hstart =>
    obtain ⟨rest₁, hread, h⟩ := Option.map_eq_some_iff.mp h
    cases h
    exact .true (hstart.trans (congrArg _ (literal_exact hread)))
  · next tail hstart =>
    obtain ⟨rest₁, hread, h⟩ := Option.map_eq_some_iff.mp h
    cases h
    exact .false (hstart.trans (congrArg _ (literal_exact hread)))
  · obtain ⟨⟨taken, rest₁⟩, hread, h⟩ := Option.map_eq_some_iff.mp h
    cases h
    exact .number hread

theorem value_of_valueStep {fuel : Nat} {text rest : List Char} {json : Json}
    (h : ValueStep fuel text json rest) : value (fuel + 1) text = some (json, rest) := by
  rw [value]
  cases h with
  | string hstart hread => simp [hstart, hread]
  | arrayNil hstart hend => simp [hstart, hend]
  | array hstart hread =>
    simp only [hstart]
    split
    · next hend =>
      rw [elements_close hend] at hread
      cases hread
    · simp [hread]
  | objectNil hstart hend => simp [hstart, hend]
  | object hstart hread =>
    simp only [hstart]
    split
    · next hend =>
      rw [members_close hend] at hread
      cases hread
    · simp [hread]
  | null hstart =>
    simp only [hstart]
    rw [literal_append]
    rfl
  | true hstart =>
    simp only [hstart]
    rw [literal_append]
    rfl
  | false hstart =>
    simp only [hstart]
    rw [literal_append]
    rfl
  | number hread =>
    -- The other ways start with a character of no number.
    split
    · next hstart =>
      rw [hstart] at hread
      cases hread
    · next hstart => cases continues_of_numberText (hstart ▸ hread)
    · next hstart => cases continues_of_numberText (hstart ▸ hread)
    · next hstart => cases continues_of_numberText (hstart ▸ hread)
    · next hstart => cases continues_of_numberText (hstart ▸ hread)
    · next hstart => cases continues_of_numberText (hstart ▸ hread)
    · next hstart => cases continues_of_numberText (hstart ▸ hread)
    · rw [hread]
      rfl

def ValueExact (fuel : Nat) : Prop :=
  ∀ text json rest, value fuel text = some (json, rest) → ∃ taken, text = taken ++ rest ∧
    (∀ c ∈ taken.getLast?, isSpace c = false) ∧
    ∀ rest', Follows rest rest' → value fuel (taken ++ rest') = some (json, rest')

def ElementsExact (fuel : Nat) : Prop :=
  ∀ text items rest, elements fuel text = some (items, rest) → ∃ taken,
    text = taken ++ ']' :: rest ∧
    ∀ rest', elements fuel (taken ++ ']' :: rest') = some (items, rest')

def MembersExact (fuel : Nat) : Prop :=
  ∀ text items rest, members fuel text = some (items, rest) → ∃ taken,
    text = taken ++ '}' :: rest ∧
    ∀ rest', members fuel (taken ++ '}' :: rest') = some (items, rest')

theorem valueExact_succ {fuel : Nat} (helements : ElementsExact fuel)
    (hmembers : MembersExact fuel) : ValueExact (fuel + 1) := by
  -- A text that starts with `c` after its space, up to the last character `d`.
  have hclosed : ∀ {text tail taken rest : List Char} {json : Json} {c d : Char},
      skipSpace text = c :: tail → tail = taken ++ d :: rest → isSpace d = false →
      (∀ text' rest', skipSpace text' = c :: (taken ++ d :: rest') →
        ValueStep fuel text' json rest') → ∃ taken, text = taken ++ rest ∧
        (∀ c ∈ taken.getLast?, isSpace c = false) ∧
        ∀ rest', Follows rest rest' → value (fuel + 1) (taken ++ rest') = some (json, rest') := by
    intro text tail taken rest json c d hstart htail hd hread
    obtain ⟨_, spaces, rfl, hskip⟩ := skipSpace_cons hstart
    refine ⟨spaces ++ c :: taken ++ [d], by simp [htail], ?_, fun rest' _ => ?_⟩
    · intro e he
      rw [List.getLast?_concat] at he
      cases he
      exact hd
    · have hagain := hread _ rest' (hskip (taken ++ d :: rest'))
      simpa using value_of_valueStep hagain
  intro text json rest h
  cases valueStep_of_value h with
  | string hstart hread =>
    obtain ⟨taken, htail, hread⟩ := stringTail_exact hread
    exact hclosed hstart htail (by decide) fun _ rest' hskip => .string hskip (hread rest')
  | arrayNil hstart hend =>
    obtain ⟨_, spaces, htail, hskip⟩ := skipSpace_cons hend
    exact hclosed hstart htail (by decide) fun _ rest' hstart' => .arrayNil hstart' (hskip rest')
  | array hstart hread =>
    obtain ⟨taken, htail, hread⟩ := helements _ _ _ hread
    exact hclosed hstart htail (by decide) fun _ rest' hskip => .array hskip (hread rest')
  | objectNil hstart hend =>
    obtain ⟨_, spaces, htail, hskip⟩ := skipSpace_cons hend
    exact hclosed hstart htail (by decide) fun _ rest' hstart' => .objectNil hstart' (hskip rest')
  | object hstart hread =>
    obtain ⟨taken, htail, hread⟩ := hmembers _ _ _ hread
    exact hclosed hstart htail (by decide) fun _ rest' hskip => .object hskip (hread rest')
  | null hstart =>
    have htail : 'u' :: 'l' :: 'l' :: rest = ['u', 'l'] ++ 'l' :: rest := rfl
    exact hclosed hstart htail (by decide) fun _ rest' hskip => .null hskip
  | true hstart =>
    have htail : 'r' :: 'u' :: 'e' :: rest = ['r', 'u'] ++ 'e' :: rest := rfl
    exact hclosed hstart htail (by decide) fun _ rest' hskip => .true hskip
  | false hstart =>
    have htail : 'a' :: 'l' :: 's' :: 'e' :: rest = ['a', 'l', 's'] ++ 'e' :: rest := rfl
    exact hclosed hstart htail (by decide) fun _ rest' hskip => .false hskip
  | @number taken _ hread =>
    obtain ⟨htaken, hagain⟩ := exact_numberText _ _ _ hread
    have hnumeric := numeric_numberText _ _ _ hread
    cases taken with
    | nil => exact absurd rfl (numberText_ne_nil hread)
    | cons c taken =>
      obtain ⟨_, spaces, rfl, hskip⟩ := skipSpace_cons htaken
      refine ⟨spaces ++ c :: taken, by simp, ?_, fun rest' hfollows => ?_⟩
      · intro d hd
        rw [List.getLast?_append_of_ne_nil _ (List.cons_ne_nil _ _)] at hd
        exact isSpace_of_continues (hnumeric d (List.mem_of_mem_getLast? hd))
      · refine value_of_valueStep (.number ?_)
        rw [List.append_assoc, List.cons_append, hskip]
        exact hagain rest' hfollows

theorem elementsExact_succ {fuel : Nat} (hvalue : ValueExact fuel)
    (helements : ElementsExact fuel) : ElementsExact (fuel + 1) := by
  intro text items rest h
  rw [elements] at h
  obtain ⟨⟨first, rest₁⟩, hfirst, hnext⟩ := Option.bind_eq_some_iff.mp h
  obtain ⟨taken, rfl, -, hread⟩ := hvalue _ _ _ hfirst
  split at hnext
  · next tail hcomma =>
    obtain ⟨⟨more, rest₂⟩, hmore, hitems⟩ := Option.map_eq_some_iff.mp hnext
    cases hitems
    obtain ⟨_, spaces, rfl, hskip⟩ := skipSpace_cons hcomma
    obtain ⟨taken', rfl, hagain⟩ := helements _ _ _ hmore
    refine ⟨taken ++ spaces ++ ',' :: taken', by simp, fun rest' => ?_⟩
    have hhead := hread (spaces ++ ',' :: (taken' ++ ']' :: rest')) (Follows.append (.inl rfl))
    rw [elements]
    simp only [List.append_assoc, List.cons_append]
    rw [hhead]
    simp [hskip, hagain]
  · next tail hclose =>
    cases hnext
    obtain ⟨_, spaces, rfl, hskip⟩ := skipSpace_cons hclose
    refine ⟨taken ++ spaces, by simp, fun rest' => ?_⟩
    have hhead := hread (spaces ++ ']' :: rest') (Follows.append (.inl rfl))
    rw [elements, List.append_assoc, hhead]
    simp [hskip]
  · cases hnext

theorem membersExact_succ {fuel : Nat} (hvalue : ValueExact fuel)
    (hmembers : MembersExact fuel) : MembersExact (fuel + 1) := by
  intro text items rest h
  rw [members] at h
  split at h
  · next tail hquote =>
    obtain ⟨⟨name, rest₁⟩, hname, hnamed⟩ := Option.bind_eq_some_iff.mp h
    obtain ⟨_, spaces, rfl, hskip⟩ := skipSpace_cons hquote
    obtain ⟨quoted, rfl, hquoted⟩ := stringTail_exact hname
    split at hnamed
    · next tail hcolon =>
      obtain ⟨⟨first, rest₂⟩, hfirst, hnext⟩ := Option.bind_eq_some_iff.mp hnamed
      obtain ⟨_, spaces', rfl, hskip'⟩ := skipSpace_cons hcolon
      obtain ⟨taken, rfl, -, hread⟩ := hvalue _ _ _ hfirst
      split at hnext
      · next tail hcomma =>
        obtain ⟨⟨more, rest₃⟩, hmore, hitems⟩ := Option.map_eq_some_iff.mp hnext
        cases hitems
        obtain ⟨_, spaces'', rfl, hskip''⟩ := skipSpace_cons hcomma
        obtain ⟨taken', rfl, hagain⟩ := hmembers _ _ _ hmore
        refine ⟨spaces ++ '"' :: quoted ++ '"' :: spaces' ++ ':' :: taken ++ spaces'' ++
          ',' :: taken', by simp, fun rest' => ?_⟩
        have hhead := hread (spaces'' ++ ',' :: (taken' ++ '}' :: rest')) (Follows.append (.inl rfl))
        rw [members]
        simp only [List.append_assoc, List.cons_append, hskip, hquoted, Option.bind_some, hskip']
        rw [hhead]
        simp [hskip'', hagain]
      · next tail hclose =>
        cases hnext
        obtain ⟨_, spaces'', rfl, hskip''⟩ := skipSpace_cons hclose
        refine ⟨spaces ++ '"' :: quoted ++ '"' :: spaces' ++ ':' :: taken ++ spaces'', by simp,
          fun rest' => ?_⟩
        have hhead := hread (spaces'' ++ '}' :: rest') (Follows.append (.inl rfl))
        rw [members]
        simp only [List.append_assoc, List.cons_append, hskip, hquoted, Option.bind_some, hskip']
        rw [hhead]
        simp [hskip'']
      · cases hnext
    · cases hnamed
  · cases h

theorem reads_exact (fuel : Nat) : ValueExact fuel ∧ ElementsExact fuel ∧ MembersExact fuel := by
  induction fuel with
  | zero =>
    refine ⟨?_, ?_, ?_⟩
    · intro _ _ _ h
      cases h
    · intro _ _ _ h
      cases h
    · intro _ _ _ h
      cases h
  | succ fuel ih =>
    obtain ⟨hvalue, helements, hmembers⟩ := ih
    exact ⟨valueExact_succ helements hmembers, elementsExact_succ hvalue helements,
      membersExact_succ hvalue hmembers⟩

/-! ## The fuel -/

theorem length_skipSpace {text tail : List Char} {c : Char} (h : skipSpace text = c :: tail) :
    tail.length < text.length := by
  obtain ⟨_, spaces, rfl, _⟩ := skipSpace_cons h
  simp only [List.length_append, List.length_cons]
  omega

def ValueFuel (fuel : Nat) : Prop :=
  ∀ text json rest, value fuel text = some (json, rest) → rest.length < text.length ∧
    ∀ fuel', text.length ≤ rest.length + fuel' → value fuel' text = some (json, rest)

def ElementsFuel (fuel : Nat) : Prop :=
  ∀ text items rest, elements fuel text = some (items, rest) → rest.length < text.length ∧
    ∀ fuel', text.length ≤ rest.length + fuel' → elements fuel' text = some (items, rest)

def MembersFuel (fuel : Nat) : Prop :=
  ∀ text items rest, members fuel text = some (items, rest) → rest.length < text.length ∧
    ∀ fuel', text.length ≤ rest.length + fuel' → members fuel' text = some (items, rest)

theorem length_value {fuel : Nat} {text rest : List Char} {json : Json}
    (h : value fuel text = some (json, rest)) : rest.length < text.length := by
  obtain ⟨taken, rfl, -, hread⟩ := (reads_exact fuel).1 text json rest h
  cases taken with
  | nil =>
    have hnone := hread [] (.nil rest)
    cases fuel with
    | zero => cases hnone
    | succ fuel => cases hnone
  | cons c taken =>
    rw [List.length_append, List.length_cons]
    omega

theorem valueFuel_succ {fuel : Nat} (helements : ElementsFuel fuel) (hmembers : MembersFuel fuel) :
    ValueFuel (fuel + 1) := by
  intro text json rest h
  have hstep := valueStep_of_value h
  have hless := length_value h
  refine ⟨hless, fun fuel' hfuel => ?_⟩
  obtain ⟨fuel', rfl⟩ : ∃ k, fuel' = k + 1 := ⟨fuel' - 1, by omega⟩
  refine value_of_valueStep ?_
  cases hstep with
  | string hstart hread => exact .string hstart hread
  | arrayNil hstart hend => exact .arrayNil hstart hend
  | array hstart hread =>
    have hlength := length_skipSpace hstart
    exact .array hstart ((helements _ _ _ hread).2 fuel' (by omega))
  | objectNil hstart hend => exact .objectNil hstart hend
  | object hstart hread =>
    have hlength := length_skipSpace hstart
    exact .object hstart ((hmembers _ _ _ hread).2 fuel' (by omega))
  | null hstart => exact .null hstart
  | true hstart => exact .true hstart
  | false hstart => exact .false hstart
  | number hread => exact .number hread

theorem elementsFuel_succ {fuel : Nat} (hvalue : ValueFuel fuel) (helements : ElementsFuel fuel) :
    ElementsFuel (fuel + 1) := by
  intro text items rest h
  obtain ⟨taken, htext, -⟩ := (reads_exact (fuel + 1)).2.1 text items rest h
  have hless : rest.length < text.length := by
    rw [htext, List.length_append, List.length_cons]
    omega
  refine ⟨hless, fun fuel' hfuel => ?_⟩
  obtain ⟨fuel', rfl⟩ : ∃ k, fuel' = k + 1 := ⟨fuel' - 1, by omega⟩
  rw [elements] at h ⊢
  obtain ⟨⟨first, rest₁⟩, hfirst, hnext⟩ := Option.bind_eq_some_iff.mp h
  have hlength := length_value hfirst
  dsimp only at hnext
  split at hnext
  · next tail hcomma =>
    obtain ⟨⟨more, rest₂⟩, hmore, hitems⟩ := Option.map_eq_some_iff.mp hnext
    cases hitems
    have hcut := length_skipSpace hcomma
    obtain ⟨hmoreLess, hagain⟩ := helements _ _ _ hmore
    rw [(hvalue _ _ _ hfirst).2 fuel' (by dsimp only at hfuel hcut hmoreLess; omega)]
    simp only [Option.bind_some, hcomma]
    rw [hagain fuel' (by dsimp only at hfuel hcut; omega)]
    rfl
  · next tail hclose =>
    cases hnext
    have hcut := length_skipSpace hclose
    rw [(hvalue _ _ _ hfirst).2 fuel' (by omega)]
    simp only [Option.bind_some, hclose]
  · cases hnext

theorem membersFuel_succ {fuel : Nat} (hvalue : ValueFuel fuel) (hmembers : MembersFuel fuel) :
    MembersFuel (fuel + 1) := by
  intro text items rest h
  obtain ⟨taken, htext, -⟩ := (reads_exact (fuel + 1)).2.2 text items rest h
  have hless : rest.length < text.length := by
    rw [htext, List.length_append, List.length_cons]
    omega
  refine ⟨hless, fun fuel' hfuel => ?_⟩
  obtain ⟨fuel', rfl⟩ : ∃ k, fuel' = k + 1 := ⟨fuel' - 1, by omega⟩
  rw [members] at h ⊢
  split at h
  · next tail hquote =>
    have hquoteCut := length_skipSpace hquote
    obtain ⟨⟨name, rest₁⟩, hname, hnamed⟩ := Option.bind_eq_some_iff.mp h
    obtain ⟨quoted, htail, -⟩ := stringTail_exact hname
    have hnameCut : rest₁.length < tail.length := by
      rw [htail, List.length_append, List.length_cons]
      omega
    simp only [hname, Option.bind_some]
    dsimp only at hnamed
    split at hnamed
    · next tail₁ hcolon =>
      have hcolonCut := length_skipSpace hcolon
      obtain ⟨⟨first, rest₂⟩, hfirst, hnext⟩ := Option.bind_eq_some_iff.mp hnamed
      have hlength := length_value hfirst
      dsimp only at hnext
      split at hnext
      · next tail₂ hcomma =>
        obtain ⟨⟨more, rest₃⟩, hmore, hitems⟩ := Option.map_eq_some_iff.mp hnext
        cases hitems
        have hcut := length_skipSpace hcomma
        obtain ⟨hmoreLess, hagain⟩ := hmembers _ _ _ hmore
        dsimp only at hfuel
        rw [(hvalue _ _ _ hfirst).2 fuel' (by omega)]
        simp only [Option.bind_some, hcomma]
        rw [hagain fuel' (by omega)]
        rfl
      · next tail₂ hclose =>
        cases hnext
        have hcut := length_skipSpace hclose
        rw [(hvalue _ _ _ hfirst).2 fuel' (by omega)]
        simp only [Option.bind_some, hclose]
      · cases hnext
    · cases hnamed
  · cases h

theorem reads_fuel (fuel : Nat) : ValueFuel fuel ∧ ElementsFuel fuel ∧ MembersFuel fuel := by
  induction fuel with
  | zero =>
    refine ⟨?_, ?_, ?_⟩
    · intro _ _ _ h
      cases h
    · intro _ _ _ h
      cases h
    · intro _ _ _ h
      cases h
  | succ fuel ih =>
    obtain ⟨hvalue, helements, hmembers⟩ := ih
    exact ⟨valueFuel_succ helements hmembers, elementsFuel_succ hvalue helements,
      membersFuel_succ hvalue hmembers⟩

end Json

end Yuke.Shared
