import Mathlib

/-!
# The JSON tree of a payload

The tree keeps the members of an object in document order, and its readers are lenient.
-/

set_option autoImplicit false

namespace Yuke.Ai

inductive Value where
  | null
  | bool (flag : Bool)
  /-- an integer that fits `i64` -/
  | integer (n : Int)
  /-- an integer above the largest `i64` that fits `u64` -/
  | unsigned (n : Nat)
  | float (text : String)
  | string (text : String)
  | array (items : List Value)
  | object (members : List (String × Value))

namespace Value

/-- The first member `key` of an object. -/
def get (key : String) : Value → Option Value
  | .object members => (members.find? fun entry => entry.1 = key).map Prod.snd
  | _ => none

def asStr : Value → Option String
  | .string text => some text
  | _ => none

def asInt : Value → Option Int
  | .integer n => some n
  | _ => none

def isObject : Value → Bool
  | .object _ => true
  | _ => false

/-- The string of `key`, or `none` when it is absent or holds another type. -/
def getStr (value : Value) (key : String) : Option String := (value.get key).bind asStr

def getInt (value : Value) (key : String) : Option Int := (value.get key).bind asInt

def getIndex (value : Value) (key : String) : Option Nat :=
  (value.getInt key).bind fun n => if 0 ≤ n then some n.toNat else none

def getObject (value : Value) (key : String) : Option Value := (value.get key).filter isObject

/-- A token count. An absent, null, negative or malformed count is `none`. -/
def count (value : Value) (key : String) : Option Nat :=
  match value.get key with
  | some (.integer n) => if 0 ≤ n then some n.toNat else none
  | some (.unsigned n) => some n
  | _ => none

def asArray : Value → Option (List Value)
  | .array items => some items
  | _ => none

def getArray (value : Value) (key : String) : Option (List Value) :=
  (value.get key).bind asArray

def isNull : Value → Bool
  | .null => true
  | _ => false

end Value

end Yuke.Ai
