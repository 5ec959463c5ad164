import Yuke.Shared.Json

/-!
# Values as JSON

How a derived serializer writes a value as JSON and reads it back. A codec has the law that a read
takes what the write wrote, so a codec of parts has it too.
-/

set_option autoImplicit false

namespace Yuke.Shared

structure Codec (α : Type) where
  write : α → Json
  read : Json → Option α
  read_write : ∀ value, read (write value) = some value

namespace Codec

attribute [simp] read_write

variable {α β : Type}

def codesOf (text : String) : List Nat := text.toList.map Char.toNat

def textOf (codes : List Nat) : Option String :=
  if ∀ code ∈ codes, code.isValidChar then some (String.ofList (codes.map Char.ofNat)) else none

theorem codesOf_injective : Function.Injective codesOf := by
  intro a b h
  have hchar : Function.Injective Char.toNat := by
    intro c d hcd
    rw [← Char.ofNat_toNat c, hcd, Char.ofNat_toNat]
  exact String.toList_injective (List.map_injective_iff.mpr hchar h)

@[simp] theorem textOf_codesOf (text : String) : textOf (codesOf text) = some text := by
  have hvalid : ∀ code ∈ codesOf text, code.isValidChar := by
    intro code hcode
    obtain ⟨c, -, rfl⟩ := List.mem_map.mp hcode
    exact c.valid
  have hback : (codesOf text).map Char.ofNat = text.toList := by
    rw [codesOf, List.map_map]
    have hid : Char.ofNat ∘ Char.toNat = id := by
      funext c
      exact Char.ofNat_toNat c
    rw [hid, List.map_id]
  rw [textOf, if_pos hvalid, hback, String.ofList_toList]

def readText : Json → Option String
  | .string codes => textOf codes
  | _ => none

def text : Codec String where
  write text := .string (codesOf text)
  read := readText
  read_write := textOf_codesOf

def readBool : Json → Option Bool
  | .bool flag => some flag
  | _ => none

def bool : Codec Bool where
  write := .bool
  read := readBool
  read_write _ := rfl

def readNatural : Json → Option Nat
  | .number text =>
    if text ≠ [] ∧ ∀ c ∈ text, c.isDigit = true then some (Nat.ofDigitChars 10 text 0) else none
  | _ => none

/-- An unsigned machine integer. The values are the ones that its type holds. -/
def natural : Codec Nat where
  write n := .number (Nat.toDigits 10 n)
  read := readNatural
  read_write n := by
    have hdigits : ∀ c ∈ Nat.toDigits 10 n, c.isDigit = true :=
      fun c hc => Nat.isDigit_of_mem_toDigits (by decide) (by decide) hc
    rw [readNatural, if_pos ⟨Nat.toDigits_ne_nil, hdigits⟩, Nat.ofDigitChars_ten_toDigits]

def map (codec : Codec α) (forth : β → α) (back : α → Option β)
    (h : ∀ b, back (forth b) = some b) : Codec β where
  write value := codec.write (forth value)
  read json := (codec.read json).bind back
  read_write value := by rw [codec.read_write, Option.bind_some, h]

def readList (read : Json → Option α) : Json → Option (List α)
  | .array items => items.mapM read
  | _ => none

def list (codec : Codec α) : Codec (List α) where
  write values := .array (values.map codec.write)
  read := readList codec.read
  read_write values := by
    induction values with
    | nil => rfl
    | cons value values ih =>
      rw [readList] at ih ⊢
      rw [List.map_cons, List.mapM_cons, codec.read_write, ih]
      rfl

def isNull : Json → Bool
  | .null => true
  | _ => false

def option (codec : Codec α) (h : ∀ value, isNull (codec.write value) = false) :
    Codec (Option α) where
  write
    | some value => codec.write value
    | none => .null
  read json := if isNull json then some none else (codec.read json).map some
  read_write
    | none => rfl
    | some value => by simp [h]

def readNamed (all : List α) (name : α → String) : Json → Option α
  | .string codes => all.find? fun value => codesOf (name value) = codes
  | _ => none

def named (all : List α) (name : α → String) (complete : ∀ value, value ∈ all)
    (distinct : Function.Injective name) : Codec α where
  write value := .string (codesOf (name value))
  read := readNamed all name
  read_write value := by
    have hall := complete value
    clear complete
    induction all with
    | nil => cases hall
    | cons first all ih =>
      rw [readNamed] at ih ⊢
      by_cases hsame : first = value
      · simp [hsame]
      · have hname : codesOf (name first) ≠ codesOf (name value) :=
          fun heq => hsame (distinct (codesOf_injective heq))
        rw [List.find?_cons_of_neg (by simpa using hname)]
        exact ih ((List.mem_cons.mp hall).resolve_left fun heq => hsame heq.symm)

abbrev Members : Type := List (List Nat × Json)

def member (name : String) (value : Json) : List Nat × Json := (codesOf name, value)

def valuesOf (name : String) (members : Members) : List Json :=
  members.filterMap fun entry => if entry.1 = codesOf name then some entry.2 else none

@[simp] theorem valuesOf_nil (name : String) : valuesOf name [] = [] := rfl

@[simp] theorem valuesOf_cons (name other : String) (value : Json) (members : Members) :
    valuesOf name (member other value :: members) =
      if other = name then value :: valuesOf name members else valuesOf name members := by
  by_cases hsame : other = name
  · simp [valuesOf, member, hsame]
  · have hcodes : codesOf other ≠ codesOf name := fun heq => hsame (codesOf_injective heq)
    simp [valuesOf, member, hsame, hcodes]

def field (codec : Codec α) (name : String) (members : Members) : Option α :=
  match valuesOf name members with
  | [value] => codec.read value
  | _ => none

def fieldOr (codec : Codec α) (default : α) (name : String) (members : Members) : Option α :=
  match valuesOf name members with
  | [] => some default
  | [value] => codec.read value
  | _ => none

def skip (test : Bool) (name : String) (value : Json) : Members :=
  if test then [] else [member name value]

def readObject (read : Members → Option α) : Json → Option α
  | .object members => read members
  | _ => none

def object (members : α → Members) (read : Members → Option α)
    (h : ∀ value, read (members value) = some value) : Codec α where
  write value := .object (members value)
  read := readObject read
  read_write := h

end Codec

end Yuke.Shared
