import Yuke.Shared.Search
import Yuke.Shared.Utf8
import Yuke.Term.Event

/-!
# The parser of the terminal bytes

The parser reads legacy keys, the kitty keyboard protocol, xterm modifyOtherKeys, SGR mouse reports,
bracketed paste, focus, and the probe answers. A sequence that a read cuts waits for the next read,
or for a flush when no more bytes come.
-/

set_option autoImplicit false

namespace Yuke.Term

open Yuke.Shared (find isSecond isTrailing codePoint fromUtf8Lossy)

def charFrom (byte : UInt8) : Char := Char.ofNat byte.toNat

def ascii (chars : List Char) : List UInt8 := chars.map fun c => UInt8.ofNat c.toNat

def ESC : UInt8 := 0x1b
def BEL : UInt8 := 0x07
def PASTE_END : List UInt8 := ESC :: ascii ['[', '2', '0', '1', '~']

def BACKGROUND_ANSWER : List UInt8 := ESC :: ascii [']', '1', '1', ';']

inductive Step where
  /-- The input ends inside a sequence. -/
  | incomplete
  /-- The first bytes are no event, such as an unknown sequence. -/
  | skip (n : Nat)
  | event (event : Event) (n : Nat)
  | answer (answer : Answer) (n : Nat)
  /-- The first bytes open a bracketed paste. -/
  | pasteStart (n : Nat)
  deriving DecidableEq

def toU8 (number : Nat) : UInt8 := if number < 256 then UInt8.ofNat number else 255

def toDigit (radix : Nat) (c : Char) : Option Nat :=
  let digit :=
    if '0' ≤ c ∧ c ≤ '9' then some (c.toNat - '0'.toNat)
    else if 'a' ≤ c ∧ c ≤ 'z' then some (c.toNat - 'a'.toNat + 10)
    else if 'A' ≤ c ∧ c ≤ 'Z' then some (c.toNat - 'A'.toNat + 10)
    else none
  digit.filter (· < radix)

/-- The scalar value `number`, which a surrogate or a larger number is not. -/
def charFromU32 (number : Nat) : Option Char :=
  if number.isValidChar then some (Char.ofNat number) else none

/-- A decimal parameter of 32 bits. An empty or non-decimal one is `none`. -/
def number (digits : List UInt8) : Option Nat :=
  if digits.isEmpty then none
  else digits.foldlM (fun value digit => do
    let digit ← toDigit 10 (charFrom digit)
    let tens ← if value * 10 < 2 ^ 32 then some (value * 10) else none
    if tens + digit < 2 ^ 32 then some (tens + digit) else none) 0

def fields (params : List UInt8) : List (List UInt8) := params.splitOn (UInt8.ofNat ';'.toNat)

/-! ## Keys -/

def withAlt (key : Key) : Key := { key with modifiers := key.modifiers.union .alt, text := "" }

def ctrl (character : Char) : Key := { Key.new (.char character) with modifiers := .ctrl }

/-- The first code point of a text, an error of some bytes, or a code point that the end cuts. -/
inductive Utf8Start where
  | char (character : Char) (length : Nat)
  | invalid (length : Nat)
  | cut
  deriving DecidableEq

/-- What a check of `bytes` as UTF-8 finds at their start. -/
def utf8Start : List UInt8 → Utf8Start
  | [] => .cut
  | a :: rest =>
    if a < 0x80 then .char (charFrom a) 1
    else if a < 0xc2 ∨ 0xf4 < a then .invalid 1
    else
      match rest with
      | [] => .cut
      | b :: rest =>
        if isSecond a b = false then .invalid 1
        else if a < 0xe0 then .char (codePoint (a.toNat % 32) [b]) 2
        else
          match rest with
          | [] => .cut
          | c :: rest =>
            if isTrailing c = false then .invalid 2
            else if a < 0xf0 then .char (codePoint (a.toNat % 16) [b, c]) 3
            else
              match rest with
              | [] => .cut
              | d :: _ =>
                if isTrailing d = false then .invalid 3
                else .char (codePoint (a.toNat % 8) [b, c, d]) 4

/-- One typed code point. A code point that the end of the input cuts waits for the next read. -/
def parseText (input : List UInt8) : Step :=
  match utf8Start (input.take 4) with
  | .char character length =>
    .event (.key { Key.new (.char character) with text := "".push character }) length
  | .invalid length => .skip length
  | .cut => .incomplete

def parseGround (input : List UInt8) : Step :=
  match input with
  | [] => .incomplete
  | byte :: _ =>
    if byte = 0x00 then .event (.key (ctrl ' ')) 1
    else if byte = 0x08 ∨ byte = 0x7f then .event (.key (Key.new .backspace)) 1
    else if byte = 0x09 then .event (.key (Key.new .tab)) 1
    else if byte = 0x0d then .event (.key (Key.new .enter)) 1
    else if 0x01 ≤ byte ∧ byte ≤ 0x1a then .event (.key (ctrl (charFrom (byte + 0x60)))) 1
    else if byte = ESC then .event (.key (Key.new .escape)) 1
    else if 0x1c ≤ byte ∧ byte ≤ 0x1f then .event (.key (ctrl (charFrom (byte + 0x40)))) 1
    else parseText input

/-- The key of the last byte of an SS3 key or a legacy CSI key. -/
def letterCode (byte : UInt8) : Option Code :=
  match charFrom byte with
  | 'A' => some .up
  | 'B' => some .down
  | 'C' => some .right
  | 'D' => some .left
  | 'F' => some .end
  | 'H' => some .home
  | 'P' => some (.f 1)
  | 'Q' => some (.f 2)
  | 'R' => some (.f 3)
  | 'S' => some (.f 4)
  | _ => none

def parseSs3 (input : List UInt8) : Step :=
  match input[2]? with
  | none => .incomplete
  | some byte =>
    if byte = ESC then .skip 2
    else
      match letterCode byte with
      | none => .skip 3
      | some code => .event (.key (Key.new code)) 3

/-- `modifiers[:event]`: the bits are the field minus one. Event 1 is a press and 2 a repeat. A
release or another event gives `none`. -/
def parseModifiers (field : List UInt8) : Option Modifiers :=
  let parts := field.splitOn (UInt8.ofNat ':'.toNat)
  let mask :=
    match parts[0]? with
    | none | some [] => some 1
    | some digits => number digits
  mask.bind fun mask =>
    if mask - 1 < 256 then
      if parts[1]? = none ∨ parts[1]? = some (ascii ['1']) ∨ parts[1]? = some (ascii ['2']) then
        some ⟨UInt8.ofNat (mask - 1)⟩
      else none
    else none

def finishKey (key : Key) (fields : List (List UInt8)) (n : Nat) : Step :=
  match fields with
  | [] => .event (.key key) n
  | field :: _ =>
    match parseModifiers field with
    | some modifiers => .event (.key { key with modifiers := modifiers }) n
    | none => .skip n

/-- `CSI 1 ; modifiers[:event]` and a letter. -/
def legacyKey (code : Code) (params : List UInt8) (n : Nat) : Step :=
  finishKey (Key.new code) (fields params).tail n

def isAsciiGraphic (c : Char) : Bool := '!' ≤ c && c ≤ '~'

def typedText (key : Key) : Key :=
  match key.code with
  | .char character =>
    if key.text ≠ "" ∨ ¬ (isAsciiGraphic character ∨ character = ' ') then key
    else
      let held := key.modifiers.without (Modifiers.union .capsLock .numLock)
      if held = .none then { key with text := key.text.push character }
      else if held = .shift then
        let upper := character.toUpper
        { key with text := key.text.push upper, shifted := some (key.shifted.getD upper) }
      else key
  | _ => key

/-- The key of a kitty key number. A keypad key is the key that it types. A key with no name gives
`none`. -/
def kittyCode (number : Nat) : Option Code :=
  if number = 0 ∨ (57358 ≤ number ∧ number ≤ 57362) ∨ (57427 ≤ number ∧ number ≤ 57454) then none
  else if number = 8 ∨ number = 127 then some .backspace
  else if number = 9 then some .tab
  else if number = 13 ∨ number = 57414 then some .enter
  else if number = 27 then some .escape
  else if number = 57348 ∨ number = 57425 then some .insert
  else if number = 57349 ∨ number = 57426 then some .delete
  else if number = 57350 ∨ number = 57417 then some .left
  else if number = 57351 ∨ number = 57418 then some .right
  else if number = 57352 ∨ number = 57419 then some .up
  else if number = 57353 ∨ number = 57420 then some .down
  else if number = 57354 ∨ number = 57421 then some .pageUp
  else if number = 57355 ∨ number = 57422 then some .pageDown
  else if number = 57356 ∨ number = 57423 then some .home
  else if number = 57357 ∨ number = 57424 then some .end
  else if number = 57363 then some .menu
  else if 57364 ≤ number ∧ number ≤ 57398 then some (.f (toU8 (number - 57363)))
  else if 57399 ≤ number ∧ number ≤ 57408 then
    some (.char (Char.ofNat (number - 57399 + '0'.toNat)))
  else if number = 57409 then some (.char '.')
  else if number = 57410 then some (.char '/')
  else if number = 57411 then some (.char '*')
  else if number = 57412 then some (.char '-')
  else if number = 57413 then some (.char '+')
  else if number = 57415 then some (.char '=')
  else if number = 57416 then some (.char ',')
  else (charFromU32 number).map .char

/-- xterm modifyOtherKeys: `CSI 27 ; modifiers ; code ~`. -/
def modifyOtherKeys (fields : List (List UInt8)) (n : Nat) : Step :=
  match fields[0]?.bind parseModifiers, (fields[1]?.bind number).bind kittyCode with
  | some modifiers, some code =>
    .event (.key (typedText { Key.new code with modifiers := modifiers })) n
  | _, _ => .skip n

/-- `CSI number ; modifiers[:event] ~`. -/
def tildeKey (params : List UInt8) (n : Nat) : Step :=
  let rest := (fields params).tail
  match (fields params)[0]?.bind number with
  | none => .skip n
  | some first =>
    if first = 1 ∨ first = 7 then finishKey (Key.new .home) rest n
    else if first = 2 then finishKey (Key.new .insert) rest n
    else if first = 3 then finishKey (Key.new .delete) rest n
    else if first = 4 ∨ first = 8 then finishKey (Key.new .end) rest n
    else if first = 5 then finishKey (Key.new .pageUp) rest n
    else if first = 6 then finishKey (Key.new .pageDown) rest n
    else if 11 ≤ first ∧ first ≤ 15 then finishKey (Key.new (.f (toU8 (first - 10)))) rest n
    else if 17 ≤ first ∧ first ≤ 21 then finishKey (Key.new (.f (toU8 (first - 11)))) rest n
    else if 23 ≤ first ∧ first ≤ 26 then finishKey (Key.new (.f (toU8 (first - 12)))) rest n
    else if first = 27 then modifyOtherKeys rest n
    else if first = 200 then .pasteStart n
    else .skip n

/-- `CSI code[:shifted[:base]] ; modifiers[:event] u`, the kitty keyboard protocol. -/
def kittyKey (params : List UInt8) (n : Nat) : Step :=
  let codes := ((fields params)[0]?.getD []).splitOn (UInt8.ofNat ':'.toNat)
  match (codes[0]?.bind number).bind kittyCode with
  | none => .skip n
  | some code =>
    let key := { Key.new code with
      shifted := (codes[1]?.bind number).bind charFromU32
      baseLayout := (codes[2]?.bind number).bind charFromU32 }
    match finishKey key (fields params).tail n with
    | .event (.key key) n => .event (.key (typedText key)) n
    | step => step

/-- A mouse report from its button mask and one-based place. `release` is `none` for an X10 report,
which has no release flag. -/
def mouse (mask column row : Nat) (release : Option Bool) : Option Mouse :=
  if mask &&& 0x100 ≠ 0 then none
  else
    let bits := mask &&& 0xc3
    let button : Option Button :=
      if bits = 0 then some .left
      else if bits = 1 then some .middle
      else if bits = 2 then some .right
      else if bits = 3 then some .none
      else if bits = 64 then some .wheelUp
      else if bits = 65 then some .wheelDown
      else if bits = 66 then some .wheelRight
      else if bits = 67 then some .wheelLeft
      else if 128 ≤ bits ∧ bits ≤ 131 then some (.extra (toU8 (bits - 120)))
      else none
    button.map fun button =>
      let motion := mask &&& 32 ≠ 0
      let kind : MouseKind :=
        if motion then (if button = .none then .motion else .drag)
        else if release = some true ∨ (button = .none ∧ release = none) then .release
        else .press
      let place := fun value : Nat =>
        if value - 1 < 2 ^ 16 then UInt16.ofNat (value - 1) else UInt16.ofNat (2 ^ 16 - 1)
      ⟨place column, place row, button, kind, ⟨toU8 ((mask >>> 2) &&& 7)⟩⟩

/-- `CSI < button ; column ; row` and `M` or `m`. -/
def sgrMouse (body : List UInt8) (release : Bool) (n : Nat) : Step :=
  let place := fun field => (number field).getD 1
  match (fields body)[0]?.bind number, (fields body)[1]?.map place, (fields body)[2]?.map place with
  | some mask, some column, some row =>
    match mouse mask column row (some release) with
    | some mouse => .event (.mouse mouse) n
    | none => .skip n
  | _, _, _ => .skip n

/-- `CSI M` and three bytes, each offset by 32, from a terminal without SGR reports. -/
def parseX10Mouse (input : List UInt8) : Step :=
  match input with
  | _ :: _ :: _ :: mask :: column :: row :: _ =>
    let offset := fun byte : UInt8 => byte.toNat - 32
    match mouse (offset mask) (offset column) (offset row) none with
    | some mouse => .event (.mouse mouse) 6
    | none => .skip 6
  | _ => .incomplete

def csiEnd : List UInt8 → Nat → Option (Except Nat Nat)
  | [], _ => none
  | byte :: rest, at_ =>
    if 0x40 ≤ byte ∧ byte ≤ 0x7e then some (.ok at_)
    else if 0x20 ≤ byte ∧ byte ≤ 0x3f then csiEnd rest (at_ + 1)
    else some (.error at_)

/-- The step of a control sequence with the parameters `params` and the last byte `last`, of `n`
bytes. -/
def csiStep (input params : List UInt8) (last : UInt8) (n : Nat) : Step :=
  match letterCode last with
  | some code => legacyKey code params n
  | none =>
    match charFrom last with
    | 'M' =>
      if params.isEmpty then parseX10Mouse input
      else
        match params with
        | first :: body => if charFrom first = '<' then sgrMouse body false n else .skip n
        | [] => .skip n
    | 'm' =>
      match params with
      | first :: body => if charFrom first = '<' then sgrMouse body true n else .skip n
      | [] => .skip n
    | 'Z' => .event (.key { Key.new .tab with modifiers := .shift }) n
    | '~' => tildeKey params n
    | 'I' => .event .focusGained n
    | 'O' => .event .focusLost n
    | 'c' => if (ascii ['?']).isPrefixOf params then .answer .deviceAttributes n else .skip n
    | 'n' =>
      if params = ascii ['?', '9', '9', '7', ';', '1'] ∨
          params = ascii ['?', '9', '9', '7', ';', '2'] then .event .schemeChanged n
      else .skip n
    | 'u' =>
      if (ascii ['?']).isPrefixOf params then
        match (number (params.drop 1)).filter (· < 256) with
        | some flags => .answer (.kittyKeyboard (UInt8.ofNat flags)) n
        | none => .skip n
      else kittyKey params n
    | _ => .skip n

def parseCsi (input : List UInt8) : Step :=
  match csiEnd (input.drop 2) 2 with
  | none => .incomplete
  | some (.error at_) => .skip at_
  | some (.ok last) =>
    csiStep input ((input.take last).drop 2) ((input[last]?).getD 0) (last + 1)

def parseChannel (digits : List UInt8) : Option Nat :=
  if digits.isEmpty ∨ digits.length > 4 then none
  else
    (digits.foldlM (fun value digit =>
      (toDigit 16 (charFrom digit)).map fun digit => value * 16 + digit) 0).map fun value =>
        value * 255 / (2 ^ (4 * digits.length) - 1)

/-- Parse an X11 color spec `rgb:R/G/B` or `rgba:R/G/B/A`. -/
def parseColor (spec : List UInt8) : Option Rgb :=
  let parsed : Option (Nat × List UInt8) :=
    if (ascii ['r', 'g', 'b', ':']).isPrefixOf spec then some (3, spec.drop 4)
    else if (ascii ['r', 'g', 'b', 'a', ':']).isPrefixOf spec then some (4, spec.drop 5)
    else none
  parsed.bind fun (channels, body) =>
    let parts := body.splitOn (UInt8.ofNat '/'.toNat)
    if parts.length = channels then
      (parts.mapM parseChannel).bind fun
        | red :: green :: blue :: _ => some ⟨toU8 red, toU8 green, toU8 blue⟩
        | _ => none
    else none

def stringEnd (osc : Bool) : List UInt8 → Nat → Option (Except Nat (Nat × Nat))
  | [], _ => none
  | byte :: rest, at_ =>
    if byte = BEL ∧ osc then some (.ok (at_, at_ + 1))
    else if byte = ESC then
      match rest with
      | [] => none
      | next :: _ => if charFrom next = '\\' then some (.ok (at_, at_ + 2)) else some (.error at_)
    else stringEnd osc rest (at_ + 1)

/-- A string sequence. Only an OSC 11 answer gives an event. -/
def parseString (input : List UInt8) : Step :=
  let osc := (input[1]?).map charFrom = some ']'
  match stringEnd osc (input.drop 2) 2 with
  | none => .incomplete
  | some (.error at_) => .skip at_
  | some (.ok (payloadEnd, «end»)) =>
    let payload := (input.take payloadEnd).drop 2
    if osc ∧ (ascii ['1', '1', ';']).isPrefixOf payload then
      match parseColor (payload.drop 3) with
      | some color => .event (.background color) «end»
      | none => .skip «end»
    else .skip «end»

def parse (input : List UInt8) : Step :=
  match input with
  | [] => .incomplete
  | first :: rest =>
    if first ≠ ESC then parseGround input
    else
      match rest with
      | [] => .incomplete
      | next :: _ =>
        if charFrom next = 'O' then parseSs3 input
        else if charFrom next = '[' then parseCsi input
        else if charFrom next ∈ [']', 'P', 'X', '^', '_'] then parseString input
        else if next = ESC then .event (.key (withAlt (Key.new .escape))) 2
        else
          match parseGround rest with
          | .event (.key key) n => .event (.key (withAlt key)) (n + 1)
          | .incomplete => .incomplete
          | _ => .skip 1

/-- The step of a flush for `input`, the start of a cut sequence: an escape byte alone is the escape
key, and an escape byte before a byte that is a key is alt with that key. Other bytes give no
key. -/
def cut (input : List UInt8) : Step :=
  match input with
  | first :: rest =>
    if first = ESC then
      match rest with
      | [] => .event (.key (Key.new .escape)) 1
      | next :: _ =>
        match parseGround [next] with
        | .event (.key key) _ => .event (.key (withAlt key)) 2
        | _ => .skip 1
    else .skip 1
  | [] => .skip 1

/-- `char::is_control`: the code points of the category Cc. -/
def isControl (c : Char) : Bool := c.toNat < 0x20 || (0x7f ≤ c.toNat && c.toNat ≤ 0x9f)

def isAsciiDigit (byte : UInt8) : Bool := 0x30 ≤ byte && byte ≤ 0x39

/-- The control byte and the length of a ctrl key `CSI code ; 5 u` at the start of `input`. -/
def controlKey (input : List UInt8) : Option (UInt8 × Nat) :=
  if (ESC :: ascii ['[']).isPrefixOf input then
    let body := input.drop 2
    let digits := (body.takeWhile isAsciiDigit).length
    if (ascii [';', '5', 'u']).isPrefixOf (body.drop digits) then
      (number (body.take digits)).bind fun code =>
        let byte :=
          if code ≤ 31 then some code
          else if code = 32 then some 0
          else if code = 63 then some 127
          else if 64 ≤ code ∧ code ≤ 95 then some (code - 64)
          else if 97 ≤ code ∧ code ≤ 122 then some (code - 96)
          else none
        byte.map fun byte => (toU8 byte, 2 + digits + 3)
    else none
  else none

/-- `bytes` with each ctrl key `CSI code ; 5 u` as its control byte. The first argument bounds the
steps; the length of the bytes is enough. -/
def decodeControlKeys : Nat → List UInt8 → List UInt8
  | 0, _ | _, [] => []
  | fuel + 1, byte :: rest =>
    match controlKey (byte :: rest) with
    | some (control, n) => control :: decodeControlKeys fuel ((byte :: rest).drop n)
    | none => byte :: decodeControlKeys fuel rest

def cleanChars : List Char → List Char
  | [] => []
  | '\r' :: '\n' :: rest => '\n' :: cleanChars rest
  | '\r' :: rest => '\n' :: cleanChars rest
  | c :: rest =>
    if c = '\n' ∨ c = '\t' ∨ isControl c = false then c :: cleanChars rest else cleanChars rest

def cleanPaste (bytes : List UInt8) : String :=
  let decoded := if ESC ∈ bytes then decodeControlKeys bytes.length bytes else bytes
  String.ofList (cleanChars (fromUtf8Lossy decoded))

inductive Parsed where
  | event (event : Event)
  | answer (answer : Answer)
  deriving DecidableEq

/-- The bytes of a cut sequence, and the bytes of the open bracketed paste. -/
structure Parser where
  pending : List UInt8 := []
  paste : Option (List UInt8) := none
  deriving DecidableEq

end Yuke.Term
