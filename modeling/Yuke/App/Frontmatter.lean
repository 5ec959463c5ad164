import Yuke.Protocol.Title
import Yuke.Shared.Json

/-!
# Quoted values of a frontmatter

A value in double quotes holds backslash escapes, a value in single quotes doubles its quotes, and
a comment can follow either. What cannot be read is kept as it stands.
-/

set_option autoImplicit false

namespace Yuke.App.Frontmatter

open Yuke.Protocol (isWhitespace trimEnd)
open Yuke.Shared.Json (hexDigit)

def trim (text : List Char) : List Char := trimEnd (text.dropWhile isWhitespace)

/-- Whether `rest`, the text after a closing quote, holds nothing or a comment only. -/
def isComment (rest : List Char) : Bool :=
  match trim rest with
  | [] => true
  | c :: _ => c == '#'

def letterOf : Char → Option Char
  | 'n' => some '\n'
  | 't' => some '\t'
  | 'r' => some '\r'
  | '0' => some (Char.ofNat 0)
  | 'a' => some (Char.ofNat 7)
  | 'b' => some (Char.ofNat 8)
  | 'e' => some (Char.ofNat 0x1b)
  | 'f' => some (Char.ofNat 0x0c)
  | 'v' => some (Char.ofNat 0x0b)
  | _ => none

def digitsOf : Char → Option Nat
  | 'x' => some 2
  | 'u' => some 4
  | 'U' => some 8
  | _ => none

def withoutSign : List Char → List Char
  | '+' :: digits => digits
  | digits => digits

/-- `u32::from_str_radix(text, 16)` of a text of at most eight characters. -/
def hexNumber (text : List Char) : Option Nat :=
  if withoutSign text = [] then none
  else (withoutSign text).foldlM (fun value c => (hexDigit c).map (value * 16 + ·)) 0

/-- `char::from_u32`. -/
def charOf (code : Nat) : Option Char :=
  if code.isValidChar then some (Char.ofNat code) else none

def codeOf (digits : List Char) : Option Char := (hexNumber digits).bind charOf

/-- The text of a double-quoted value, or `none` for a malformed escape. -/
def unescape : List Char → Option (List Char)
  | [] => some []
  | c :: rest =>
    if c ≠ '\\' then (unescape rest).map (c :: ·)
    else
      match rest with
      | [] => none
      | escaped :: rest =>
        match letterOf escaped, digitsOf escaped with
        | some letter, _ => (unescape rest).map (letter :: ·)
        | none, none => (unescape rest).map (escaped :: ·)
        | none, some digits =>
          (codeOf (rest.take digits)).bind fun code =>
            (unescape (rest.drop digits)).map (code :: ·)
termination_by text => text.length
decreasing_by all_goals simp only [List.length_cons, List.length_drop]; omega

/-- The text up to the double quote that closes a value, and the text after the quote. A backslash
escapes the next character. -/
def closingQuote (escaped : Bool) : List Char → Option (List Char × List Char)
  | [] => none
  | c :: rest =>
    if c = '"' ∧ escaped = false then some ([], rest)
    else (closingQuote (c == '\\' && !escaped) rest).map fun found => (c :: found.1, found.2)

/-- The text up to the single quote that closes a value, where only a comment may follow. Two
quotes stand for one quote. -/
def singleValue : List Char → Option (List Char)
  | [] => none
  | c :: rest =>
    if c ≠ '\'' then (singleValue rest).map (c :: ·)
    else
      match rest with
      | [] => some []
      | next :: more =>
        if next = '\'' then (singleValue more).map fun inner => c :: next :: inner
        else if isComment rest then some []
        else none

/-- `replace("''", "'")`. -/
def undouble : List Char → List Char
  | [] => []
  | [c] => [c]
  | c :: next :: rest =>
    if c = '\'' ∧ next = '\'' then c :: undouble rest else c :: undouble (next :: rest)

/-- The text before the first blank with a `#` behind it. -/
def beforeComment : List Char → List Char
  | [] => []
  | c :: rest =>
    if c = ' ' ∧ rest.head? = some '#' then [] else c :: beforeComment rest

/-- The text in double quotes at the start of `rest`, where the opening quote is gone. -/
def doubleValue (rest : List Char) : Option (List Char) :=
  (closingQuote false rest).bind fun found =>
    if isComment found.2 then unescape found.1 else none

/-- The text of a plain or quoted value. An unclosed quote keeps the raw text. -/
def scalar (value : List Char) : List Char :=
  match value with
  | [] => []
  | c :: rest =>
    if c = '#' then []
    else if c = '"' then (doubleValue rest).getD value
    else if c = '\'' then ((singleValue rest).map undouble).getD value
    else trimEnd (beforeComment value)

def Comment (suffix : List Char) : Prop :=
  ∃ blank note, suffix = blank ++ note ∧ (∀ c ∈ blank, isWhitespace c = true) ∧
    (note = [] ∨ ∃ words, note = '#' :: words)

/-- `Writes digits text writing`: the characters of `writing` stand for `text` in double quotes,
where the digits of a hex escape are as `digits` has it. It sees how many the escape names, the
digits, and what follows them. -/
inductive Writes (digits : Nat → List Char → List Char → Prop) : List Char → List Char → Prop where
  | nil : Writes digits [] []
  | plain {c : Char} {text writing : List Char} : c ≠ '"' → c ≠ '\\' →
      Writes digits text writing → Writes digits (c :: text) (c :: writing)
  | letter {c letter : Char} {text writing : List Char} : letterOf c = some letter →
      Writes digits text writing → Writes digits (letter :: text) ('\\' :: c :: writing)
  | kept {c : Char} {text writing : List Char} : letterOf c = none → digitsOf c = none →
      Writes digits text writing → Writes digits (c :: text) ('\\' :: c :: writing)
  | code {c letter : Char} {named : Nat} {hex text writing : List Char} :
      digitsOf letter = some named → digits named hex writing → codeOf hex = some c →
      Writes digits text writing → Writes digits (c :: text) ('\\' :: letter :: (hex ++ writing))

def Exact (named : Nat) (hex _rest : List Char) : Prop :=
  hex.length = named ∧ ∀ c ∈ hex, (hexDigit c).isSome = true

/-- Whatever a reader finds that takes the named count of characters, or all that are left. -/
def Greedy (named : Nat) (hex rest : List Char) : Prop :=
  hex.length = named ∨ (hex.length ≤ named ∧ rest = [])

def QuotedWith (digits : Nat → List Char → List Char → Prop) (text value : List Char) : Prop :=
  ∃ writing suffix, value = '"' :: (writing ++ '"' :: suffix) ∧ Comment suffix ∧
    Writes digits text writing

def DoubleQuoted : List Char → List Char → Prop := QuotedWith Exact

def double (text : List Char) : List Char :=
  text.flatMap fun c => if c = '\'' then [c, c] else [c]

def SingleQuoted (text value : List Char) : Prop :=
  ∃ suffix, value = '\'' :: (double text ++ '\'' :: suffix) ∧ Comment suffix

/-- A value that the reader takes for a quoted one although a hex escape of it has a sign in place
of its first digit, or has fewer digits than it names because the quote closes behind it. -/
def Sloppy (value : List Char) : Prop :=
  ∃ text, QuotedWith Greedy text value ∧ ¬ ∃ other, DoubleQuoted other value

theorem trimEnd_cons {c : Char} {rest : List Char} (h : isWhitespace c = false) :
    ∃ more, trimEnd (c :: rest) = c :: more := by
  have hstart := List.rdropWhile_prefix isWhitespace (l := c :: rest)
  cases hwhole : trimEnd (c :: rest) with
  | nil =>
    have hall := List.rdropWhile_eq_nil_iff.mp hwhole
    simp [h] at hall
  | cons first more =>
    unfold trimEnd at hwhole
    rw [hwhole] at hstart
    obtain ⟨cut, hcut⟩ := hstart
    simp only [List.cons_append, List.cons.injEq] at hcut
    exact ⟨more, by rw [hcut.1]⟩

theorem isComment_cons {c : Char} {rest : List Char} (h : isWhitespace c = false) :
    isComment (c :: rest) = (c == '#') := by
  obtain ⟨more, hmore⟩ := @trimEnd_cons c rest h
  rw [isComment, trim, List.dropWhile_cons_of_neg (by simp [h]), hmore]

theorem isComment_append {blank : List Char} (h : ∀ c ∈ blank, isWhitespace c = true)
    (note : List Char) : isComment (blank ++ note) = isComment note := by
  rw [isComment, isComment, trim, trim, List.dropWhile_append, List.dropWhile_eq_nil_iff.mpr h]
  rfl

theorem isComment_iff (suffix : List Char) : isComment suffix = true ↔ Comment suffix := by
  constructor
  · intro h
    have hblank : ∀ c ∈ suffix.takeWhile isWhitespace, isWhitespace c = true :=
      fun c hc => List.mem_takeWhile_imp hc
    have hparts := List.takeWhile_append_dropWhile (p := isWhitespace) (l := suffix)
    refine ⟨_, suffix.dropWhile isWhitespace, hparts.symm, hblank, ?_⟩
    cases hrest : suffix.dropWhile isWhitespace with
    | nil => exact Or.inl rfl
    | cons c rest =>
      have hc : isWhitespace c = false := by
        have hhead := List.head_dropWhile_not isWhitespace (l := suffix) (by simp [hrest])
        simpa [hrest] using hhead
      rw [← hparts, isComment_append hblank, hrest, isComment_cons hc, beq_iff_eq] at h
      exact Or.inr ⟨rest, by rw [h]⟩
  · intro ⟨blank, note, hparts, hblank, hnote⟩
    rw [hparts, isComment_append hblank]
    rcases hnote with rfl | ⟨words, rfl⟩
    · rfl
    · exact isComment_cons (by decide)

theorem Comment.head_ne {c : Char} {rest : List Char} (h : Comment (c :: rest)) : c ≠ '\'' := by
  obtain ⟨blank, note, hparts, hblank, hnote⟩ := h
  intro hc
  cases blank with
  | nil =>
    rcases hnote with rfl | ⟨words, rfl⟩
    · simp at hparts
    · simp [hc] at hparts
  | cons b blank =>
    have hb := hblank b List.mem_cons_self
    simp only [List.cons_append, List.cons.injEq] at hparts
    rw [← hparts.1, hc] at hb
    revert hb
    decide

theorem foldlM_digits {digits : List Char} {start value : Nat}
    (h : digits.foldlM (fun value c => (hexDigit c).map (value * 16 + ·)) start = some value) :
    ∀ c ∈ digits, (hexDigit c).isSome = true := by
  induction digits generalizing start with
  | nil => simp
  | cons c rest ih =>
    rw [List.foldlM_cons] at h
    cases hc : hexDigit c with
    | none => simp [hc] at h
    | some digit =>
      intro d hd
      rcases List.mem_cons.mp hd with rfl | hd
      · simp [hc]
      · exact ih (by simpa [hc] using h) d hd

theorem codeOf_plain {hex : List Char} {code : Char} (h : codeOf hex = some code) :
    ∀ c ∈ hex, c ≠ '"' ∧ c ≠ '\\' := by
  have hdigit : ∀ c, (hexDigit c).isSome = true → c ≠ '"' ∧ c ≠ '\\' := by
    intro c hc
    constructor
    · rintro rfl
      exact absurd hc (by decide)
    · rintro rfl
      exact absurd hc (by decide)
  rw [codeOf, Option.bind_eq_some_iff] at h
  obtain ⟨value, hvalue, -⟩ := h
  rw [hexNumber] at hvalue
  split at hvalue
  · cases hvalue
  · have hall := foldlM_digits hvalue
    intro c hc
    unfold withoutSign at hall
    split at hall
    · rcases List.mem_cons.mp hc with rfl | hc
      · decide
      · exact hdigit c (hall c hc)
    · exact hdigit c (hall c hc)

theorem Writes.mono {digits more : Nat → List Char → List Char → Prop}
    (hmore : ∀ named hex rest, digits named hex rest → more named hex rest)
    {text writing : List Char} (h : Writes digits text writing) : Writes more text writing := by
  induction h with
  | nil => exact .nil
  | plain hquote hslash _ ih => exact .plain hquote hslash ih
  | letter hletter _ ih => exact .letter hletter ih
  | kept hletter hdigits _ ih => exact .kept hletter hdigits ih
  | code hnamed hhex hcode _ ih => exact .code hnamed (hmore _ _ _ hhex) hcode ih

theorem Exact.greedy {named : Nat} {hex rest : List Char} (h : Exact named hex rest) :
    Greedy named hex rest := Or.inl h.1

theorem Writes.length_le {digits : Nat → List Char → List Char → Prop} {text writing : List Char}
    (h : Writes digits text writing) : text.length ≤ writing.length := by
  induction h with
  | nil => exact Nat.le_refl _
  | plain _ _ _ ih => simpa using ih
  | letter _ _ ih => simp only [List.length_cons]; omega
  | kept _ _ _ ih => simp only [List.length_cons]; omega
  | code _ _ _ _ ih => simp only [List.length_cons, List.length_append]; omega

theorem Greedy.take_drop {named : Nat} {hex rest : List Char} (h : Greedy named hex rest) :
    (hex ++ rest).take named = hex ∧ (hex ++ rest).drop named = rest := by
  rcases h with hlength | ⟨hlength, rfl⟩
  · exact ⟨List.take_left' hlength, List.drop_left' hlength⟩
  · simp only [List.append_nil]
    exact ⟨List.take_of_length_le hlength, List.drop_of_length_le hlength⟩

theorem greedy_take_drop (named : Nat) (text : List Char) :
    Greedy named (text.take named) (text.drop named) := by
  by_cases hlong : named ≤ text.length
  · exact Or.inl (List.length_take_of_le hlong)
  · exact Or.inr ⟨by simp, List.drop_of_length_le (by omega)⟩

theorem unescape_plain {c : Char} (rest : List Char) (h : c ≠ '\\') :
    unescape (c :: rest) = (unescape rest).map (c :: ·) := by
  rw [unescape.eq_def]
  simp [h]

theorem unescape_slash (c : Char) (rest : List Char) :
    unescape ('\\' :: c :: rest) =
      match letterOf c, digitsOf c with
      | some letter, _ => (unescape rest).map (letter :: ·)
      | none, none => (unescape rest).map (c :: ·)
      | none, some digits =>
        (codeOf (rest.take digits)).bind fun code =>
          (unescape (rest.drop digits)).map (code :: ·) := by
  rw [unescape.eq_def]
  simp

theorem letterOf_eq_none {c : Char} {named : Nat} (h : digitsOf c = some named) :
    letterOf c = none := by
  unfold digitsOf at h
  split at h
  all_goals first | rfl | cases h

theorem unescape_writes {text writing : List Char} (h : Writes Greedy text writing) :
    unescape writing = some text := by
  induction h with
  | nil => simp [unescape]
  | plain _ hslash _ ih => rw [unescape_plain _ hslash, ih]; rfl
  | letter hletter _ ih => simp [unescape_slash, hletter, ih]
  | kept hletter hdigits _ ih => simp [unescape_slash, hletter, hdigits, ih]
  | code hnamed hhex hcode _ ih =>
    obtain ⟨htake, hdrop⟩ := hhex.take_drop
    simp [unescape_slash, letterOf_eq_none hnamed, hnamed, htake, hdrop, hcode, ih]

theorem closingQuote_plain {c : Char} (rest : List Char) (hquote : c ≠ '"') (hslash : c ≠ '\\') :
    closingQuote false (c :: rest) =
      (closingQuote false rest).map fun found => (c :: found.1, found.2) := by
  have hnot : (c == '\\') = false := by simpa using hslash
  simp [closingQuote, hquote, hnot]

theorem closingQuote_slash (c : Char) (rest : List Char) :
    closingQuote false ('\\' :: c :: rest) =
      (closingQuote false rest).map fun found => ('\\' :: c :: found.1, found.2) := by
  simp [closingQuote, Function.comp_def]

theorem closingQuote_append {digits : List Char} (h : ∀ c ∈ digits, c ≠ '"' ∧ c ≠ '\\')
    (rest : List Char) :
    closingQuote false (digits ++ rest) =
      (closingQuote false rest).map fun found => (digits ++ found.1, found.2) := by
  induction digits with
  | nil => simp
  | cons c digits ih =>
    have hc := h c List.mem_cons_self
    rw [List.cons_append, closingQuote_plain _ hc.1 hc.2,
      ih fun d hd => h d (List.mem_cons_of_mem _ hd)]
    simp [Function.comp_def]

theorem closingQuote_writes {digits : Nat → List Char → List Char → Prop}
    {text writing : List Char} (h : Writes digits text writing) (suffix : List Char) :
    closingQuote false (writing ++ '"' :: suffix) = some (writing, suffix) := by
  induction h with
  | nil => simp [closingQuote]
  | plain hquote hslash _ ih => simp [closingQuote_plain _ hquote hslash, ih]
  | letter _ _ ih => simp [closingQuote_slash, ih]
  | kept _ _ _ ih => simp [closingQuote_slash, ih]
  | code _ _ hcode _ ih =>
    simp [closingQuote_slash, closingQuote_append (codeOf_plain hcode), ih]

theorem closingQuote_parts {escaped : Bool} {rest inner suffix : List Char}
    (h : closingQuote escaped rest = some (inner, suffix)) : rest = inner ++ '"' :: suffix := by
  induction rest generalizing escaped inner with
  | nil => simp [closingQuote] at h
  | cons c rest ih =>
    rw [closingQuote] at h
    split at h
    · next hcloses =>
      simp only [Option.some.injEq, Prod.mk.injEq] at h
      rw [← h.1, ← h.2, hcloses.1]
      rfl
    · obtain ⟨found, hfound, heq⟩ := Option.map_eq_some_iff.mp h
      simp only [Prod.mk.injEq] at heq
      rw [ih (hfound.trans (by rw [← heq.2])), ← heq.1]
      rfl

theorem closingQuote_tail (start : List Char) {rest inner suffix : List Char}
    (h : (closingQuote false rest).map (fun found => (start ++ found.1, found.2)) =
      some (start ++ inner, suffix)) : closingQuote false rest = some (inner, suffix) := by
  obtain ⟨found, hfound, heq⟩ := Option.map_eq_some_iff.mp h
  simp only [Prod.mk.injEq, List.append_cancel_left_eq] at heq
  rw [hfound, ← heq.1, ← heq.2]

theorem writes_of_unescape {inner text suffix : List Char}
    (hinner : closingQuote false (inner ++ '"' :: suffix) = some (inner, suffix))
    (h : unescape inner = some text) : Writes Greedy text inner := by
  induction hlength : inner.length using Nat.strong_induction_on generalizing inner text with
  | _ length ih =>
    cases inner with
    | nil =>
      simp only [unescape, Option.some.injEq] at h
      rw [← h]
      exact .nil
    | cons c rest =>
      by_cases hslash : c = '\\'
      · subst hslash
        cases rest with
        | nil => simp [unescape] at h
        | cons e rest =>
          rw [List.cons_append, List.cons_append, closingQuote_slash] at hinner
          have htail := closingQuote_tail ['\\', e] hinner
          rw [unescape_slash] at h
          cases hletter : letterOf e with
          | some letter =>
            rw [hletter] at h
            obtain ⟨more, hmore, rfl⟩ := Option.map_eq_some_iff.mp h
            exact .letter hletter (ih _ (by simp at hlength; omega) htail hmore rfl)
          | none =>
            cases hnamed : digitsOf e with
            | none =>
              rw [hletter, hnamed] at h
              obtain ⟨more, hmore, rfl⟩ := Option.map_eq_some_iff.mp h
              exact .kept hletter hnamed (ih _ (by simp at hlength; omega) htail hmore rfl)
            | some named =>
              rw [hletter, hnamed] at h
              obtain ⟨code, hcode, hrest⟩ := Option.bind_eq_some_iff.mp h
              obtain ⟨more, hmore, rfl⟩ := Option.map_eq_some_iff.mp hrest
              rw [← List.take_append_drop named rest, List.append_assoc,
                closingQuote_append (codeOf_plain hcode)] at htail
              have hwrites := ih _ (by simp at hlength ⊢; omega)
                (closingQuote_tail _ htail) hmore rfl
              have hwhole := Writes.code hnamed (greedy_take_drop named rest) hcode hwrites
              rwa [List.take_append_drop] at hwhole
      · rw [unescape_plain _ hslash] at h
        obtain ⟨more, hmore, rfl⟩ := Option.map_eq_some_iff.mp h
        have hquote : c ≠ '"' := by
          rintro rfl
          simp [closingQuote] at hinner
        rw [List.cons_append, closingQuote_plain _ hquote hslash] at hinner
        exact .plain hquote hslash
          (ih _ (by simp at hlength; omega) (closingQuote_tail [c] hinner) hmore rfl)

theorem doubleValue_eq_some (rest text : List Char) :
    doubleValue rest = some text ↔ QuotedWith Greedy text ('"' :: rest) := by
  constructor
  · intro h
    obtain ⟨⟨inner, suffix⟩, hfound, hread⟩ := Option.bind_eq_some_iff.mp h
    have hparts := closingQuote_parts hfound
    split at hread
    · next hcomment =>
      refine ⟨inner, suffix, by rw [hparts], (isComment_iff suffix).mp hcomment, ?_⟩
      exact writes_of_unescape (hparts ▸ hfound) hread
    · cases hread
  · intro ⟨writing, suffix, hvalue, hcomment, hwrites⟩
    simp only [List.cons.injEq, true_and] at hvalue
    rw [doubleValue, hvalue, closingQuote_writes hwrites]
    simp [(isComment_iff suffix).mpr hcomment, unescape_writes hwrites]

@[simp] theorem double_cons_quote (text : List Char) :
    double ('\'' :: text) = '\'' :: '\'' :: double text := rfl

theorem double_cons {c : Char} (text : List Char) (h : c ≠ '\'') :
    double (c :: text) = c :: double text := by
  simp [double, h]

theorem singleValue_double {suffix : List Char} (h : Comment suffix) (text : List Char) :
    singleValue (double text ++ '\'' :: suffix) = some (double text) := by
  induction text with
  | nil =>
    cases suffix with
    | nil => rfl
    | cons c rest => simp [double, singleValue, h.head_ne, (isComment_iff _).mpr h]
  | cons c text ih =>
    by_cases hc : c = '\''
    · simp [hc, singleValue, ih]
    · rw [double_cons text hc, List.cons_append, singleValue.eq_def]
      simp [hc, ih]

theorem undouble_cons {c : Char} (text : List Char) (h : c ≠ '\'') :
    undouble (c :: text) = c :: undouble text := by
  cases text with
  | nil => rfl
  | cons next rest => simp [undouble, h]

theorem undouble_double (text : List Char) : undouble (double text) = text := by
  induction text with
  | nil => rfl
  | cons c text ih =>
    by_cases hc : c = '\''
    · simp [hc, undouble, ih]
    · rw [double_cons text hc, undouble_cons _ hc, ih]

/-- A quoted value gives its text, and a value that only starts like one in double quotes is kept. -/
def ReadsAsWritten (value : List Char) : Prop :=
  (∀ text, DoubleQuoted text value → scalar value = text) ∧
    (∀ text, SingleQuoted text value → scalar value = text) ∧
    (value.head? = some '"' → (¬ ∃ text, DoubleQuoted text value) → scalar value = value)

theorem scalar_double (rest : List Char) :
    scalar ('"' :: rest) = (doubleValue rest).getD ('"' :: rest) := by
  simp [scalar]

theorem scalar_greedy {text value : List Char} (h : QuotedWith Greedy text value) :
    scalar value = text := by
  obtain ⟨writing, suffix, hvalue, -⟩ := id h
  subst hvalue
  rw [scalar_double, (doubleValue_eq_some _ _).mpr h]
  rfl

theorem DoubleQuoted.greedy {text value : List Char} (h : DoubleQuoted text value) :
    QuotedWith Greedy text value := by
  obtain ⟨writing, suffix, hvalue, hcomment, hwrites⟩ := h
  exact ⟨writing, suffix, hvalue, hcomment, hwrites.mono fun _ _ _ => Exact.greedy⟩

theorem scalar_single {text value : List Char} (h : SingleQuoted text value) :
    scalar value = text := by
  obtain ⟨suffix, rfl, hcomment⟩ := h
  simp [scalar, singleValue_double hcomment, undouble_double]

theorem QuotedWith.ne {digits : Nat → List Char → List Char → Prop} {text value : List Char}
    (h : QuotedWith digits text value) : text ≠ value := by
  obtain ⟨writing, suffix, rfl, -, hwrites⟩ := h
  have hlength := hwrites.length_le
  intro heq
  have hsame := congrArg List.length heq
  simp only [List.length_cons, List.length_append] at hsame
  omega

theorem readsAsWritten_iff (value : List Char) : ReadsAsWritten value ↔ ¬ Sloppy value := by
  constructor
  · intro ⟨_, _, hkept⟩ ⟨text, hquoted, hnot⟩
    have hhead : value.head? = some '"' := by
      obtain ⟨writing, suffix, rfl, -⟩ := hquoted
      rfl
    have hraw := hkept hhead hnot
    rw [scalar_greedy hquoted] at hraw
    exact hquoted.ne hraw
  · intro hexact
    refine ⟨fun text h => scalar_greedy h.greedy, fun text h => scalar_single h, ?_⟩
    intro hhead hnot
    cases value with
    | nil => rfl
    | cons c rest =>
      obtain rfl : c = '"' := by simpa using hhead
      cases hread : doubleValue rest with
      | none => rw [scalar_double, hread]; rfl
      | some text =>
        exact absurd ⟨text, (doubleValue_eq_some rest text).mp hread, hnot⟩ hexact

theorem not_exact_sign {text : List Char} : ¬ Writes Exact text ['\\', 'x', '+', '4'] := by
  intro h
  generalize hwriting : ['\\', 'x', '+', '4'] = writing at h
  cases h with
  | nil => cases hwriting
  | plain _ hslash _ => exact hslash (List.cons.inj hwriting).1.symm
  | letter hletter _ =>
    rw [← (List.cons.inj (List.cons.inj hwriting).2).1] at hletter
    cases hletter
  | kept _ hdigits _ =>
    rw [← (List.cons.inj (List.cons.inj hwriting).2).1] at hdigits
    cases hdigits
  | @code _ letter named hex _ rest hnamed hhex _ _ =>
    obtain ⟨hletter, hrest⟩ := List.cons.inj (List.cons.inj hwriting).2
    rw [← hletter] at hnamed
    cases hnamed
    cases hex with
    | nil => exact absurd hhex.1 (by decide)
    | cons c hex =>
      have hsign := hhex.2 c List.mem_cons_self
      rw [← (List.cons.inj hrest).1] at hsign
      exact absurd hsign (by decide)

/-- The digits of the escape in `"\x+4"` start with a sign, and it reads as the character 4. -/
theorem sign_read_as_digit : ¬ ReadsAsWritten ['"', '\\', 'x', '+', '4', '"'] := by
  intro h
  have hwrites : Writes Greedy [Char.ofNat 4] ('\\' :: 'x' :: (['+', '4'] ++ [])) :=
    .code rfl (Or.inl rfl) (by decide) .nil
  have hquoted : QuotedWith Greedy [Char.ofNat 4] ['"', '\\', 'x', '+', '4', '"'] :=
    ⟨['\\', 'x', '+', '4'], [], rfl, ⟨[], [], rfl, by simp, Or.inl rfl⟩, hwrites⟩
  have hnot : ¬ ∃ text, DoubleQuoted text ['"', '\\', 'x', '+', '4', '"'] := by
    intro ⟨text, writing, suffix, hvalue, _, hwrites⟩
    have hclose := closingQuote_writes hwrites suffix
    rw [← (List.cons.inj hvalue).2] at hclose
    have hwriting : writing = ['\\', 'x', '+', '4'] := by
      have heq := hclose.symm.trans (by rfl : _ = some (['\\', 'x', '+', '4'], []))
      exact (Prod.mk.inj (Option.some.inj heq)).1
    exact not_exact_sign (hwriting ▸ hwrites)
  have hraw := h.2.2 rfl hnot
  rw [scalar_greedy hquoted] at hraw
  exact hquoted.ne hraw

end Yuke.App.Frontmatter
