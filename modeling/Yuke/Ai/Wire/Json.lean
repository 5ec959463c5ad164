import Yuke.Ai.Base64
import Yuke.Ai.Request
import Yuke.Protocol.Title

/-!
# JSON writers for the request serializers

Only control characters, quotes and backslashes are escaped. The buffer holds characters, and its
bytes are their UTF-8.
-/

set_option autoImplicit false

namespace Yuke.Ai

/-- What a write appends to the buffer, how it ends, and whether a value came before the next one at
its level. -/
structure Written (α : Type) where
  result : Except EncodeError α
  text : List Char
  comma : Bool

/-- A write reads whether a value came before at its level. A failed write leaves what it wrote. -/
def Write (α : Type) : Type := Bool → Written α

instance : Monad Write where
  pure a := fun comma => ⟨.ok a, [], comma⟩
  bind write next := fun comma =>
    match (write comma).result with
    | .ok a =>
      let more := next a (write comma).comma
      ⟨more.result, (write comma).text ++ more.text, more.comma⟩
    | .error error => ⟨.error error, (write comma).text, (write comma).comma⟩

/-- A writer of one JSON value tree. `comma` tells that a value came before at this level. -/
structure JsonWriter where
  out : List Char
  comma : Bool
  deriving DecidableEq

def JsonWriter.run {α : Type} (jw : JsonWriter) (write : Write α) :
    Except EncodeError α × JsonWriter :=
  ((write jw.comma).result, ⟨jw.out ++ (write jw.comma).text, (write jw.comma).comma⟩)

namespace Write

def fail {α : Type} (error : EncodeError) : Write α := fun comma => ⟨.error error, [], comma⟩

def lift {α : Type} (result : Except EncodeError α) : Write α := fun comma => ⟨result, [], comma⟩

def onlyIf (test : Bool) (write : Write Unit) : Write Unit := if test then write else pure ()

def ifSome {α : Type} (value : Option α) (write : α → Write Unit) : Write Unit :=
  match value with
  | some value => write value
  | none => pure ()

def valueStart (comma : Bool) : List Char := if comma then [','] else []

/-- The escape of a character: none, `u` for `\u00XX`, else the letter after the backslash. -/
def escape (c : Char) : Option Char :=
  if c.toNat = 0x08 then some 'b'
  else if c.toNat = 0x0c then some 'f'
  else if c = '\n' then some 'n'
  else if c = '\r' then some 'r'
  else if c = '\t' then some 't'
  else if c = '"' then some '"'
  else if c = '\\' then some '\\'
  else if c.toNat < 0x20 then some 'u'
  else none

def hex : List Char := "0123456789abcdef".toList

def escapeChar (c : Char) : List Char :=
  match escape c with
  | none => [c]
  | some e =>
    if e = 'u' then
      ['\\', 'u', '0', '0', hex.getD (c.toNat / 16) '0', hex.getD (c.toNat % 16) '0']
    else ['\\', e]

/-- The JSON string characters of `text`, without quotes. -/
def escapeInto (text : List Char) : List Char := text.flatMap escapeChar

/-- Write one value with the text `text`. -/
def token (text : List Char) : Write Unit := fun comma => ⟨.ok (), valueStart comma ++ text, true⟩

def opening (c : Char) : Write Unit := fun comma => ⟨.ok (), valueStart comma ++ [c], false⟩

def closing (c : Char) : Write Unit := fun _ => ⟨.ok (), [c], true⟩

def beginObject : Write Unit := opening '{'

def endObject : Write Unit := closing '}'

def beginArray : Write Unit := opening '['

def endArray : Write Unit := closing ']'

def key (name : String) : Write Unit := fun comma =>
  ⟨.ok (), valueStart comma ++ '"' :: (escapeInto name.toList ++ ['"', ':']), false⟩

/-- Write an object with the members of `body`. -/
def object (body : Write Unit) : Write Unit := do
  beginObject
  body
  endObject

/-- Write an array with the elements of `body`. -/
def array (body : Write Unit) : Write Unit := do
  beginArray
  body
  endArray

def member (name : String) (value : Write Unit) : Write Unit := do
  key name
  value

/-- Write the strings of `parts` as one JSON string. -/
def stringParts (parts : List String) : Write Unit :=
  token ('"' :: (parts.flatMap (fun part => escapeInto part.toList) ++ ['"']))

def string (text : String) : Write Unit := token ('"' :: (escapeInto text.toList ++ ['"']))

def uint (value : Nat) : Write Unit := token (toString value).toList

def int (value : Int) : Write Unit := token (toString value).toList

def null : Write Unit := token "null".toList

def floatText : F64 → List Char
  | .finite value =>
    (if value.negative then ['-'] else []) ++ (toString value.whole).toList ++
      (if value.fraction.isEmpty then []
        else '.' :: value.fraction.map fun digit : Fin 10 => Char.ofNat (0x30 + digit.val))
  | .infinity negative => (if negative then "-inf" else "inf").toList
  | .nan => "NaN".toList

def float (value : F64) : Write Unit := token (floatText value)

def boolean (value : Bool) : Write Unit := token (if value then "true" else "false").toList

/-- Write caller JSON text without a check. An empty text writes `{}`. -/
def raw (json : List Char) : Write Unit := token (if json.isEmpty then ['{', '}'] else json)

/-- Write a tool result text. An error result starts with `Error: `. -/
def toolText (text : String) (isError : Bool) : Write Unit :=
  stringParts [if isError then "Error: " else "", text]

/-- Write bytes as a base64 string. A `mime` makes the string a data URL. -/
def base64 (mime : Option String) (data : List UInt8) : Write Unit :=
  let url : List Char :=
    match mime with
    | some mime => "data:".toList ++ escapeInto mime.toList ++ ";base64,".toList
    | none => []
  token ('"' :: (url ++ encodeBase64 data ++ ['"']))

def fieldStr (name text : String) : Write Unit := member name (string text)

def fieldUint (name : String) (value : Nat) : Write Unit := member name (uint value)

def fieldBool (name : String) (value : Bool) : Write Unit := member name (boolean value)

def fieldRaw (name : String) (json : List Char) : Write Unit := member name (raw json)

/-- Write the member when `value` is present. -/
def fieldFloatOpt (name : String) (value : Option F64) : Write Unit :=
  ifSome value fun value => member name (float value)

end Write

/-- The arguments of a call when they are a JSON object, else `{}`. `isJson` tells whether a text is
one JSON value. -/
def callArguments (isJson : String → Bool) (text : String) : String :=
  let start := text.toList.dropWhile Protocol.isWhitespace
  if start.head? = some '{' && isJson text then text else "{}"

end Yuke.Ai
