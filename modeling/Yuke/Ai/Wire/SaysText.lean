import Yuke.Ai.Wire.Says

/-!
# The values that the writer puts

Every value of the writer reads as what it was given: a text decodes to itself, and a number is its
decimal text.
-/

set_option autoImplicit false

namespace Yuke.Ai

open Yuke.Shared
open Yuke.Ai.Write

inductive Escapes (c : Char) : Option Char → Prop where
  | plain (hquote : c ≠ '"') (hslash : c ≠ '\\') (hc : 0x20 ≤ c.toNat) : Escapes c none
  | unit (hc : c.toNat < 0x20) : Escapes c (some 'u')
  | letter {e : Char} (hu : e ≠ 'u') (hcode : Json.escapeCode e = some c.toNat) :
    Escapes c (some e)

theorem escapes (c : Char) : Escapes c (escape c) := by
  unfold escape
  split_ifs with hb hf hn hr ht hquote hslash hunit
  · exact .letter (by decide) (by rw [hb]; rfl)
  · exact .letter (by decide) (by rw [hf]; rfl)
  · exact .letter (by decide) (by rw [hn]; rfl)
  · exact .letter (by decide) (by rw [hr]; rfl)
  · exact .letter (by decide) (by rw [ht]; rfl)
  · exact .letter (by decide) (by rw [hquote]; rfl)
  · exact .letter (by decide) (by rw [hslash]; rfl)
  · exact .unit hunit
  · exact .plain hquote hslash (by omega)

theorem hexUnit_lt {n : Nat} (h : n < 0x20) :
    Json.hexUnit '0' '0' (hex.getD (n / 16) '0') (hex.getD (n % 16) '0') = some n := by
  revert n
  decide

theorem pushUnit_lt {n : Nat} (h : n < 0x20) (rest : List Nat) :
    Json.pushUnit n rest = n :: rest := by
  cases rest with
  | nil => rfl
  | cons code rest => exact if_neg (by omega)

theorem stringTail_escapeChar (c : Char) (rest : List Char) :
    Json.stringTail (escapeChar c ++ rest) =
      (Json.stringTail rest).map fun tail => (c.toNat :: tail.1, tail.2) := by
  unfold escapeChar
  have hescape := escapes c
  generalize escape c = escaped at hescape
  cases hescape with
  | plain hquote hslash hc => exact Json.stringTail_plain hquote hslash hc rest
  | unit hc =>
    change Json.stringTail ('\\' :: 'u' :: '0' :: '0' :: _ :: _ :: rest) = _
    rw [Json.stringTail_unit, hexUnit_lt hc, Option.bind_some]
    simp only [pushUnit_lt hc]
  | letter hu hcode =>
    dsimp only
    rw [if_neg hu]
    exact Json.stringTail_escape hcode rest

theorem quotes_escapeInto (text : List Char) : Json.Quotes (escapeInto text) (codes text) := by
  intro rest
  induction text with
  | nil => exact Json.stringTail_quote rest
  | cons c text ih =>
    change Json.stringTail ((escapeChar c ++ escapeInto text) ++ _) = _
    rw [List.append_assoc, stringTail_escapeChar, ih]
    rfl

theorem str_injective : Function.Injective str := by
  intro text text' h
  have hcodes : codes text.toList = codes text'.toList := Json.string.inj h
  have htoNat : Function.Injective Char.toNat := fun c c' h => Char.ext (UInt32.toNat_inj.mp h)
  exact String.toList_inj.mp (List.map_injective_iff.mpr htoNat hcodes)

theorem says_quoted (text : List Char) :
    SaysValue (token ('"' :: (escapeInto text ++ ['"']))) (.ok (.string (codes text))) :=
  says_token (.string (quotes_escapeInto text))

theorem says_string (text : String) : SaysValue (string text) (.ok (str text)) :=
  says_quoted text.toList

theorem says_stringParts (parts : List String) :
    SaysValue (stringParts parts) (.ok (strings parts)) := by
  have hparts : parts.flatMap (fun part => escapeInto part.toList) =
      escapeInto (parts.flatMap String.toList) := (List.flatMap_assoc ..).symm
  unfold stringParts
  rw [hparts]
  exact says_quoted _

theorem says_toolText (text : String) (isError : Bool) :
    SaysValue (toolText text isError) (.ok (strings [if isError then "Error: " else "", text])) :=
  says_stringParts _

theorem escape_base64 : ∀ c ∈ 'A' :: base64Alphabet, escape c = none := by
  unfold base64Alphabet
  simp only [String.reduceToList, List.forall_mem_cons]
  repeat' constructor
  exact fun c h => absurd h List.not_mem_nil

theorem escapeInto_base64 (data : List UInt8) : escapeInto (encodeBase64 data) = encodeBase64 data := by
  have hchar : ∀ n shift, escapeChar (base64Char n shift) = [base64Char n shift] := by
    intro n shift
    have hmem : base64Char n shift ∈ 'A' :: base64Alphabet := by
      unfold base64Char
      rw [List.getD_eq_getElem?_getD]
      cases hget : base64Alphabet[n >>> shift % 64]? with
      | none => exact List.mem_cons_self
      | some c => exact List.mem_cons_of_mem _ (List.mem_of_getElem? hget)
    unfold escapeChar
    rw [escape_base64 _ hmem]
  have hpad : escapeChar '=' = ['='] := rfl
  unfold escapeInto
  induction data using encodeBase64.induct with
  | case1 a b c rest ih =>
    simp only [encodeBase64, List.flatMap_cons, hchar, ih]
    rfl
  | case2 a b =>
    simp only [encodeBase64, List.flatMap_cons, hchar, hpad]
    rfl
  | case3 a =>
    simp only [encodeBase64, List.flatMap_cons, hchar, hpad]
    rfl
  | case4 => rfl

def base64Text (mime : Option String) (data : List UInt8) : List Char :=
  match mime with
  | some mime => "data:".toList ++ mime.toList ++ ";base64,".toList ++ encodeBase64 data
  | none => encodeBase64 data

theorem says_base64 (mime : Option String) (data : List UInt8) :
    SaysValue (base64 mime data) (.ok (.string (codes (base64Text mime data)))) := by
  have hescape : escapeInto (base64Text mime data) =
      (match mime with
        | some mime => "data:".toList ++ escapeInto mime.toList ++ ";base64,".toList
        | none => []) ++ encodeBase64 data := by
    have happend : ∀ text text', escapeInto (text ++ text') = escapeInto text ++ escapeInto text' :=
      fun text text' => List.flatMap_append
    cases mime with
    | none => exact escapeInto_base64 data
    | some mime =>
      change escapeInto (_ ++ _ ++ _ ++ _) = _
      rw [happend, happend, happend, escapeInto_base64]
      rfl
  have hquoted := says_quoted (base64Text mime data)
  rw [hescape] at hquoted
  exact hquoted

/-! ## Numbers -/

theorem isDigit_iff {c : Char} : Json.isDigit c = true ↔ c.isDigit = true := by
  unfold Json.isDigit Char.isDigit
  simp only [Bool.and_eq_true, decide_eq_true_eq, ge_iff_le, UInt32.le_iff_toNat_le]
  exact Iff.rfl

theorem digits_append {word rest : List Char} (hne : word ≠ [])
    (hword : ∀ c ∈ word, Json.isDigit c = true) (hrest : ∀ c ∈ rest.head?, Json.isDigit c = false) :
    Json.digits (word ++ rest) = some (word, rest) := by
  have htake : (word ++ rest).takeWhile Json.isDigit = word := by
    rw [List.takeWhile_append_of_pos hword]
    cases rest with
    | nil => simp
    | cons c rest => simp [hrest c rfl]
  have hdrop : (word ++ rest).dropWhile Json.isDigit = rest := by
    rw [List.dropWhile_append_of_pos hword]
    cases rest with
    | nil => rfl
    | cons c rest => simp [hrest c rfl]
  unfold Json.digits
  rw [htake, hdrop, if_neg (by simpa using hne)]

theorem digits_natText (n : Nat) : ∀ c ∈ (toString n).toList, Json.isDigit c = true := by
  intro c hc
  rw [isDigit_iff]
  have hmem : c ∈ Nat.toDigits 10 n := by simpa using hc
  exact Nat.isDigit_of_mem_toDigits (by decide) (by decide) hmem

theorem natText_head {n : Nat} (h : 0 < n) : ∃ c rest, (toString n).toList = c :: rest ∧ c ≠ '0' := by
  have hdigits : (toString n).toList = Nat.toDigits 10 n := by simp
  rw [hdigits]
  induction n using Nat.strong_induction_on with
  | h n ih =>
    by_cases hlt : n < 10
    · have hchar : ∀ n < 10, 0 < n → n.digitChar ≠ '0' := by decide
      exact ⟨n.digitChar, [], Nat.toDigits_of_lt_base hlt, hchar n hlt h⟩
    · obtain ⟨c, rest, htext, hc⟩ := ih (n / 10) (by omega) (by omega) (by simp)
      refine ⟨c, rest ++ [(n % 10).digitChar], ?_, hc⟩
      rw [Nat.toDigits_of_base_le (by decide) (by omega), htext]
      rfl

theorem intPart_natText (n : Nat) {rest : List Char} (hrest : ∀ c ∈ rest.head?, Json.isDigit c = false) :
    Json.intPart ((toString n).toList ++ rest) = some ((toString n).toList, rest) := by
  rcases Nat.eq_zero_or_pos n with rfl | hpos
  · rfl
  · have hdigits := digits_append (by simp) (digits_natText n) hrest
    obtain ⟨c, text, htext, hc⟩ := natText_head hpos
    rw [htext] at hdigits ⊢
    rw [← hdigits]
    exact Json.intPart.eq_2 _ fun _ h => hc (List.cons.inj h).1

theorem andThen_some {first second : Json.Scanner} {text rest rest' taken more : List Char}
    (hfirst : first text = some (taken, rest)) (hsecond : second rest = some (more, rest')) :
    Json.Scanner.andThen first second text = some (taken ++ more, rest') := by
  unfold Json.Scanner.andThen
  rw [hfirst, Option.bind_some, hsecond]
  rfl

theorem afterOneOf_skip {chars text : List Char} {second : Json.Scanner}
    (h : ∀ c ∈ text.head?, c ∉ chars) :
    Json.Scanner.afterOneOf chars second text = some ([], text) := by
  cases text with
  | nil => rfl
  | cons c text => exact if_neg (h c rfl)

theorem afterOneOf_take {c : Char} {chars text rest more : List Char} {second : Json.Scanner}
    (hc : c ∈ chars) (h : second text = some (more, rest)) :
    Json.Scanner.afterOneOf chars second (c :: text) = some (c :: more, rest) := by
  unfold Json.Scanner.afterOneOf
  dsimp only
  rw [if_pos hc, h]
  rfl

theorem numberText_decimal (value : Decimal) :
    Json.numberText (floatText (.finite value)) = some (floatText (.finite value), []) := by
  obtain ⟨negative, whole, fraction⟩ := value
  have hdigit : ∀ digit : Fin 10, Json.isDigit (Char.ofNat (0x30 + digit.val)) = true := by decide
  have hdigits : ∀ c ∈ fraction.map (fun digit : Fin 10 => Char.ofNat (0x30 + digit.val)),
      Json.isDigit c = true := by
    intro c hc
    obtain ⟨digit, -, rfl⟩ := List.mem_map.mp hc
    exact hdigit digit
  have hexp : Json.Scanner.afterOneOf ['e', 'E'] (Json.Scanner.andThen (Json.sign ['+', '-'])
      Json.digits) [] = some ([], []) := afterOneOf_skip fun c hc => nomatch hc
  -- The digits after the point, when there are any.
  obtain ⟨point, hpoint, hhead, hscan⟩ : ∃ point : List Char,
      point = (if fraction.isEmpty then []
        else '.' :: fraction.map fun digit : Fin 10 => Char.ofNat (0x30 + digit.val)) ∧
      (∀ c ∈ point.head?, Json.isDigit c = false) ∧
      Json.Scanner.afterOneOf ['.'] Json.digits point = some (point, []) := by
    refine ⟨_, rfl, ?_⟩
    split_ifs with hempty
    · exact ⟨fun c hc => absurd hc (Option.not_mem_none c), rfl⟩
    · refine ⟨fun c hc => ?_, afterOneOf_take List.mem_cons_self ?_⟩
      · cases hc
        rfl
      · have hne : fraction.map (fun digit : Fin 10 => Char.ofNat (0x30 + digit.val)) ≠ [] := by
          simpa using hempty
        have hread := @digits_append _ [] hne hdigits fun c hc => absurd hc (Option.not_mem_none c)
        rwa [List.append_nil] at hread
  have hsign : Json.sign ['-'] ((if negative then ['-'] else []) ++ ((toString whole).toList ++ point)) =
      some (if negative then ['-'] else [], (toString whole).toList ++ point) := by
    cases negative with
    | true => exact afterOneOf_take List.mem_cons_self rfl
    | false =>
      refine afterOneOf_skip fun c hc hminus => ?_
      have hwhole := digits_natText whole
      have hne : (toString whole).toList ≠ [] := by simp
      cases htext : (toString whole).toList with
      | nil => exact hne htext
      | cons d text =>
        rw [htext] at hc hwhole
        cases hc
        have hd := hwhole c List.mem_cons_self
        rw [List.mem_singleton.mp hminus] at hd
        cases hd
  have htext : floatText (.finite ⟨negative, whole, fraction⟩) =
      (if negative then ['-'] else []) ++ ((toString whole).toList ++ point) := by
    rw [hpoint, ← List.append_assoc]
    rfl
  have hnumber := andThen_some hsign (andThen_some (intPart_natText whole hhead)
    (andThen_some hscan hexp))
  rw [List.append_nil] at hnumber
  rw [htext]
  exact hnumber

def decimal (value : F64) : Json := .number (floatText value)

def natural (value : Nat) : Json := .number (toString value).toList

theorem says_float {value : F64} (h : value.isFinite = true) :
    SaysValue (float value) (.ok (decimal value)) := by
  cases value with
  | finite value => exact says_token (.number (numberText_decimal value))
  | infinity negative => cases h
  | nan => cases h

theorem says_uint (value : Nat) : SaysValue (uint value) (.ok (natural value)) := by
  have hnumber := numberText_decimal ⟨false, value, []⟩
  have htext : floatText (.finite ⟨false, value, []⟩) = (toString value).toList :=
    List.append_nil _
  rw [htext] at hnumber
  exact says_token (.number hnumber)

def integer (value : Int) : Json := .number (toString value).toList

theorem intText (value : Int) :
    (toString value).toList = floatText (.finite ⟨decide (value < 0), value.natAbs, []⟩) := by
  cases value with
  | ofNat n =>
    have hsign : decide (Int.ofNat n < 0) = false := by simp
    rw [hsign]
    exact (List.append_nil _).symm
  | negSucc n =>
    have hsign : decide (Int.negSucc n < 0) = true := by simp [Int.negSucc_lt_zero]
    rw [hsign]
    have htext : toString (Int.negSucc n) = "-" ++ toString (n + 1) := rfl
    rw [htext, String.toList_append]
    exact (List.append_nil _).symm

theorem says_int (value : Int) : SaysValue (int value) (.ok (integer value)) := by
  have hnumber := numberText_decimal ⟨decide (value < 0), value.natAbs, []⟩
  rw [← intText] at hnumber
  exact says_token (.number hnumber)

theorem says_boolean (value : Bool) : SaysValue (boolean value) (.ok (.bool value)) := by
  have hreads := Json.Reads.bool value
  cases value with
  | true => exact says_token hreads
  | false => exact says_token hreads

theorem says_null : SaysValue null (.ok .null) := says_token .null

/-! ## Caller JSON -/

def raw? (text : String) : Option Json :=
  if text.isEmpty then some (.object []) else Json.parse text.toList

def rawValue (text : String) : Json := (raw? text).getD .null

theorem says_raw {text : String} (h : (raw? text).isSome) :
    SaysValue (raw text.toList) (.ok (rawValue text)) := by
  obtain ⟨value, hvalue⟩ := Option.isSome_iff_exists.mp h
  unfold rawValue
  rw [hvalue, Option.getD_some]
  unfold raw? at hvalue
  unfold raw
  split_ifs at hvalue with hempty
  · cases hvalue
    rw [if_pos (by simpa using hempty)]
    exact says_token .object_nil
  · rw [if_neg (by simpa using hempty)]
    exact says_token (Json.reads_iff_parse.mpr hvalue)

/-- The JSON texts that the caller promises: every schema, and every stored array of replay state. -/
structure RawJson (request : Request) : Prop where
  tools : ∀ tool ∈ request.tools, (raw? tool.inputSchema).isSome
  loaded : ∀ result, Block.toolResult result ∈ request.blocks →
    ∀ tool ∈ result.loaded, (raw? tool.inputSchema).isSome
  output : ∀ output ∈ request.settings.outputSchema, (raw? output.schema).isSome
  details : ∀ reasoning, Block.reasoning reasoning ∈ request.blocks → ∀ replay ∈ reasoning.replay,
    replay.kind = .openrouterDetails → ∃ items, Json.parse replay.data.toList = some (.array items)

def argumentsText (text : String) : String :=
  match Json.parse text.toList with
  | some (.object _) => text
  | _ => "{}"

def arguments (text : String) : Json :=
  match Json.parse text.toList with
  | some (.object members) => .object members
  | _ => .object []

theorem raw_argumentsText (text : String) : raw? (argumentsText text) = some (arguments text) := by
  have hempty : raw? "{}" = some (.object []) := rfl
  unfold argumentsText arguments
  split
  · next members hparse =>
    unfold raw?
    split_ifs with htext
    · rw [String.isEmpty_iff.mp htext] at hparse
      cases hparse
    · exact hparse
  · exact hempty

theorem isWhitespace_start {c : Char}
    (h : c ∈ ['"', '[', '{', 'n', 't', 'f'] ∨ Json.continues c = true) :
    Protocol.isWhitespace c = false := by
  have hmarks : ∀ c ∈ ['"', '[', '{', 'n', 't', 'f', '.', 'e', 'E', '+', '-'],
      Protocol.isWhitespace c = false := by
    simp only [List.forall_mem_cons]
    repeat' constructor
    exact fun c h => absurd h List.not_mem_nil
  rcases h with h | h
  · exact hmarks c (List.mem_append_left ['.', 'e', 'E', '+', '-'] h)
  · by_cases hdigit : Json.isDigit c = true
    · unfold Json.isDigit at hdigit
      unfold Protocol.isWhitespace
      simp only [decide_eq_true_eq] at hdigit
      simp
      omega
    · refine hmarks c (List.mem_append_right ['"', '[', '{', 'n', 't', 'f'] ?_)
      unfold Json.continues at h
      simpa [hdigit, or_assoc] using h

theorem callArguments_eq {isJson : String → Bool}
    (hjson : ∀ text, isJson text = true ↔ (Json.parse text.toList).isSome) (text : String) :
    callArguments isJson text = argumentsText text := by
  have hwhite : ∀ c, Json.isSpace c = true → Protocol.isWhitespace c = true := by
    intro c hc
    have hcases : c = ' ' ∨ c = '\t' ∨ c = '\n' ∨ c = '\r' := by
      simpa [Json.isSpace, or_assoc] using hc
    rcases hcases with rfl | rfl | rfl | rfl <;> rfl
  unfold callArguments argumentsText
  dsimp only
  cases hparse : Json.parse text.toList with
  | none =>
    have hnot : isJson text = false := by
      rw [Bool.eq_false_iff, ne_eq, hjson, hparse]
      exact Bool.false_ne_true
    rw [hnot, Bool.and_false]
    rfl
  | some value =>
    have hyes : isJson text = true := (hjson text).mpr (by rw [hparse]; rfl)
    obtain ⟨spaces, c, tail, hspaces, htext, hc, hobject⟩ := (Json.reads_iff_parse.mpr hparse).start
    have hplain := isWhitespace_start hc
    have hstart : text.toList.dropWhile Protocol.isWhitespace = c :: tail := by
      rw [htext, List.dropWhile_append_of_pos fun d hd => hwhite d (hspaces d hd),
        List.dropWhile_cons_of_neg (by simp [hplain])]
    rw [hyes, hstart, Bool.and_true]
    by_cases hbrace : c = '{'
    · obtain ⟨members, rfl⟩ := hobject.mp hbrace
      simp [hbrace]
    · have hother : ∀ members, value ≠ .object members := fun members h =>
        hbrace (hobject.mpr ⟨members, h⟩)
      cases value with
      | object members => exact absurd rfl (hother members)
      | null => simp [hbrace]
      | bool flag => simp [hbrace]
      | number text => simp [hbrace]
      | string codes => simp [hbrace]
      | array items => simp [hbrace]

theorem SaysValue.ok {write : Write Unit} {value : Json} (h : SaysValue write (.ok value))
    (comma : Bool) : (write comma).result = .ok () ∧ (write comma).comma = true ∧
      ∃ text, Json.Reads text value ∧ (write comma).text = valueStart comma ++ text := by
  obtain ⟨hok, ⟨hnil, -⟩ | ⟨text, hreads, htext, hcomma⟩⟩ := h comma
  · cases hnil
  · refine ⟨hok, hcomma, text, ?_, htext⟩
    cases hreads with
    | one h => exact h
    | cons _ hmore => exact absurd rfl hmore.ne_nil

theorem says_member (name : String) {write : Write Unit} {result : Except EncodeError Json}
    (h : SaysValue write result) :
    SaysMembers (member name write) (result.map fun value => [field name value]) := by
  intro comma
  have hkey : key name comma =
      ⟨.ok (), valueStart comma ++ '"' :: (escapeInto name.toList ++ ['"', ':']), false⟩ := rfl
  unfold member
  rw [bind_ok (congrArg Written.result hkey), hkey]
  dsimp only
  cases result with
  | error error => exact h false
  | ok value =>
    obtain ⟨hok, hcomma, text, hreads, htext⟩ := h.ok false
    refine ⟨hok, .inr ⟨_, .one (quotes_escapeInto name.toList) hreads, ?_, hcomma⟩⟩
    rw [htext]
    simp [valueStart]

def number? (name : String) (value : Option F64) : JsonMembers :=
  value.elim [] fun value => [field name (decimal value)]

theorem Says.and {write write' : Write Unit} {result result' : Except EncodeError JsonMembers}
    (h : Says Json.Members write result) (h' : Says Json.Members write' result') :
    SaysMembers (write >>= fun _ => write') (both result result') :=
  Says.then joins_members h h'

theorem says_fieldStr (name text : String) :
    SaysMembers (fieldStr name text) (.ok [field name (str text)]) :=
  says_member name (says_string text)

theorem says_fieldUint (name : String) (value : Nat) :
    SaysMembers (fieldUint name value) (.ok [field name (natural value)]) :=
  says_member name (says_uint value)

theorem says_fieldBool (name : String) (value : Bool) :
    SaysMembers (fieldBool name value) (.ok [field name (.bool value)]) :=
  says_member name (says_boolean value)

theorem says_fieldRaw (name : String) {text : String} (h : (raw? text).isSome) :
    SaysMembers (fieldRaw name text.toList) (.ok [field name (rawValue text)]) :=
  says_member name (says_raw h)

theorem says_fieldArguments {isJson : String → Bool}
    (hjson : ∀ text, isJson text = true ↔ (Json.parse text.toList).isSome) (name text : String) :
    SaysMembers (fieldRaw name (callArguments isJson text).toList)
      (.ok [field name (arguments text)]) := by
  have hraw := raw_argumentsText text
  have hvalue : rawValue (argumentsText text) = arguments text := by
    unfold rawValue
    rw [hraw, Option.getD_some]
  rw [callArguments_eq hjson, ← hvalue]
  exact says_fieldRaw name (Option.isSome_of_eq_some hraw)

theorem says_fieldFloatOpt (name : String) {value : Option F64}
    (h : ∀ float ∈ value, float.isFinite = true) :
    SaysMembers (fieldFloatOpt name value) (.ok (number? name value)) :=
  says_ifSome value fun float hfloat => says_member name (says_float (h float hfloat))

def Items (text : List Char) (items : List Json) : Prop :=
  items = [] ∧ text = [] ∨ Json.Elements text items

def joint (first : List Json) (inner : List Char) : List Char :=
  if !first.isEmpty && inner.length ≠ 0 then [','] else []

/-- The write puts `members` and the open array `name` with the elements `first`. -/
def Opens {β : Type} (name : String) (members : JsonMembers) (first : List Json)
    (write : Write β) (value : β) : Prop :=
  ∀ comma, (write comma).result = .ok value ∧
    ∀ inner items, Items inner items → ∃ text,
      Json.Members text (members ++ [field name (.array (first ++ items))]) ∧
        (write comma).text ++ joint first inner ++ inner ++ [']'] = valueStart comma ++ text

theorem Says.opens {β : Type} {name : String} {members members' : JsonMembers}
    {first : List Json} {write : Write Unit} {write' : Write β} {value : β}
    (h : Says Json.Members write (.ok members)) (h' : Opens name members' first write' value) :
    Opens name (members ++ members') first (write >>= fun _ => write') value := by
  intro comma
  obtain ⟨hok, hwritten⟩ := h comma
  obtain ⟨hok', hclose⟩ := h' (write comma).comma
  rw [bind_ok hok]
  refine ⟨hok', fun inner items hitems => ?_⟩
  obtain ⟨text', hreads', htext'⟩ := hclose inner items hitems
  have hwhole : (write comma).text ++ (write' (write comma).comma).text ++ joint first inner ++
      inner ++ [']'] = (write comma).text ++ (valueStart (write comma).comma ++ text') := by
    rw [← htext']
    simp only [List.append_assoc]
  refine hwhole ▸ ?_
  rcases hwritten with ⟨rfl, htext, hcomma⟩ | ⟨text, hreads, htext, hcomma⟩
  · exact ⟨text', hreads', by rw [htext, hcomma]; rfl⟩
  · refine ⟨text ++ ',' :: text', ?_, ?_⟩
    · rw [List.append_assoc]
      exact hreads.append hreads'
    · rw [htext, hcomma]
      simp [valueStart]

/-- The write opens an object as `Opens` says. -/
def OpensObject {β : Type} (name : String) (members : JsonMembers) (first : List Json)
    (write : Write β) (value : β) : Prop :=
  ∃ rest, write = (beginObject >>= fun _ => rest) ∧ Opens name members first rest value

theorem Items.reads {text : List Char} {items : List Json} (h : Items text items) :
    Json.Reads ('[' :: (text ++ [']'])) (.array items) := by
  rcases h with ⟨rfl, rfl⟩ | h
  · exact .array_nil
  · exact .array h

theorem Items.joint {text inner : List Char} {first items : List Json} (h : Items text first)
    (hinner : Items inner items) : Items (text ++ joint first inner ++ inner) (first ++ items) := by
  unfold Ai.joint
  rcases h with ⟨rfl, rfl⟩ | h
  · exact hinner
  · rcases hinner with ⟨rfl, rfl⟩ | hinner
    · have htext : text ++ (if !first.isEmpty && decide (([] : List Char).length ≠ 0) then [',']
          else []) ++ [] = text := by simp
      rw [htext, List.append_nil]
      exact .inr h
    · have hfirst : first.isEmpty = false := by simpa using h.ne_nil
      have htext : inner.length ≠ 0 := by simpa using hinner.text_ne_nil
      rw [hfirst, if_pos (by simpa using htext), List.append_assoc]
      exact .inr (h.append hinner)

theorem opens_write {β : Type} (name : String) {first : List Json} {write : Write Unit} (value : β)
    (h : SaysValues write (.ok first)) :
    Opens name [] first (key name >>= fun _ => beginArray >>= fun _ => write >>= fun _ => pure value)
      value := by
  intro comma
  obtain ⟨hok, hwritten⟩ := h false
  have hkey : key name comma =
      ⟨.ok (), valueStart comma ++ '"' :: (escapeInto name.toList ++ ['"', ':']), false⟩ := rfl
  have hbegin : beginArray false = ⟨.ok (), ['['], false⟩ := rfl
  have hrest : (write >>= fun _ => (pure value : Write β)) false =
      ⟨.ok value, (write false).text ++ [], (write false).comma⟩ := bind_ok hok
  rw [bind_ok (congrArg Written.result hkey), hkey]
  dsimp only
  rw [bind_ok (congrArg Written.result hbegin), hbegin]
  dsimp only
  rw [hrest]
  refine ⟨rfl, fun inner items hitems => ?_⟩
  have hfirst : Items (write false).text first := by
    rcases hwritten with ⟨hnil, htext, -⟩ | ⟨text, hreads, htext, -⟩
    · exact .inl ⟨hnil, htext⟩
    · rw [htext]
      exact .inr hreads
  refine ⟨_, .one (quotes_escapeInto name.toList) (hfirst.joint hitems).reads, ?_⟩
  simp

theorem opens_array (name : String) : Opens name [] [] (key name >>= fun _ => beginArray) () := by
  intro comma
  have hopen := opens_write name () says_pure comma
  have hsame : (key name >>= fun _ => beginArray) comma = (key name >>= fun _ => beginArray >>=
      fun _ => (pure () : Write Unit) >>= fun _ => pure ()) comma := rfl
  rw [hsame]
  exact hopen

theorem OpensObject.parse {β : Type} {name : String} {members : JsonMembers}
    {first items : List Json} {write : Write β} {value : β} {inner : List Char}
    (h : OpensObject name members first write value) (hitems : Items inner items) :
    (write false).result = .ok value ∧
      Json.parse ((write false).text ++ joint first inner ++ inner ++ [']', '}']) =
        some (.object (members ++ [field name (.array (first ++ items))])) := by
  obtain ⟨rest, rfl, hrest⟩ := h
  have hbegin : beginObject false = ⟨.ok (), ['{'], false⟩ := rfl
  obtain ⟨hok, hclose⟩ := hrest false
  obtain ⟨text, hreads, htext⟩ := hclose inner items hitems
  rw [bind_ok (congrArg Written.result hbegin), hbegin]
  refine ⟨hok, Json.reads_iff_parse.mp ?_⟩
  have hwhole : ['{'] ++ (rest false).text ++ joint first inner ++ inner ++ [']', '}'] =
      '{' :: (text ++ ['}']) := by
    have hbody : (rest false).text ++ joint first inner ++ inner ++ [']'] = text := htext
    rw [← hbody]
    simp
  exact hwhole ▸ .object hreads

end Yuke.Ai
