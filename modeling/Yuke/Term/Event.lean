import Mathlib

/-!
# The events of the terminal

The events that the parser reads from the bytes of the terminal.
-/

set_option autoImplicit false

namespace Yuke.Term

/-- The identity of a key. `char` is a key of one code point, also with modifiers. -/
inductive Code where
  | char (character : Char)
  | enter
  | tab
  | backspace
  | escape
  | insert
  | delete
  | left
  | right
  | up
  | down
  | pageUp
  | pageDown
  | home
  | «end»
  | menu
  | f (number : UInt8)
  deriving DecidableEq

structure Modifiers where
  bits : UInt8
  deriving DecidableEq

namespace Modifiers

def none : Modifiers := ⟨0⟩
def shift : Modifiers := ⟨1⟩
def alt : Modifiers := ⟨2⟩
def ctrl : Modifiers := ⟨4⟩
def capsLock : Modifiers := ⟨64⟩
def numLock : Modifiers := ⟨128⟩

def union (a b : Modifiers) : Modifiers := ⟨a.bits ||| b.bits⟩

/-- The set without the modifiers of `other`. -/
def without (a other : Modifiers) : Modifiers := ⟨a.bits &&& ~~~other.bits⟩

end Modifiers

/-- A key and the modifiers that the terminal reports with it. `text` is what the key types. A kitty
terminal gives `shifted`, the key with shift, and `baseLayout`, the key on a US layout. -/
structure Key where
  code : Code
  modifiers : Modifiers
  text : String
  shifted : Option Char
  baseLayout : Option Char
  deriving DecidableEq

def Key.new (code : Code) : Key := ⟨code, .none, "", .none, .none⟩

inductive Button where
  | left
  | middle
  | right
  | none
  | wheelUp
  | wheelDown
  | wheelLeft
  | wheelRight
  | extra (number : UInt8)
  deriving DecidableEq

inductive MouseKind where
  | press
  | release
  | motion
  | drag
  deriving DecidableEq

/-- A mouse report. The column and the row count from 0. -/
structure Mouse where
  column : UInt16
  row : UInt16
  button : Button
  kind : MouseKind
  modifiers : Modifiers
  deriving DecidableEq

/-- A 24-bit color. -/
structure Rgb where
  red : UInt8
  green : UInt8
  blue : UInt8
  deriving DecidableEq

inductive Event where
  | key (key : Key)
  | mouse (mouse : Mouse)
  | focusGained
  | focusLost
  | paste (text : String)
  | background (color : Rgb)
  | schemeChanged
  deriving DecidableEq

inductive Answer where
  | kittyKeyboard (flags : UInt8)
  | deviceAttributes
  deriving DecidableEq

end Yuke.Term
