import Mathlib

/-!
# Bytes as text

Bytes that are no UTF-8 text become U+FFFD, one for each longest start of a character.
-/

set_option autoImplicit false

namespace Yuke.Shared

def isTrailing (b : UInt8) : Bool := 0x80 ≤ b && b ≤ 0xbf

/-- `b` can be the second byte of a character that starts with `a`. -/
def isSecond (a b : UInt8) : Bool :=
  if 0xc2 ≤ a && a ≤ 0xdf then isTrailing b
  else if a = 0xe0 then 0xa0 ≤ b && b ≤ 0xbf
  else if a = 0xed then 0x80 ≤ b && b ≤ 0x9f
  else if 0xe1 ≤ a && a ≤ 0xef then isTrailing b
  else if a = 0xf0 then 0x90 ≤ b && b ≤ 0xbf
  else if 0xf1 ≤ a && a ≤ 0xf3 then isTrailing b
  else if a = 0xf4 then 0x80 ≤ b && b ≤ 0x8f
  else false

/-- The code point of a first byte with the bits `n`, and of the bytes after it. -/
def codePoint (n : Nat) (trailing : List UInt8) : Char :=
  Char.ofNat (trailing.foldl (fun n b => n * 64 + b.toNat % 64) n)

def replacement : Char := Char.ofNat 0xfffd

def fromUtf8Lossy : List UInt8 → List Char
  | [] => []
  | a :: rest =>
    if a < 0x80 then Char.ofNat a.toNat :: fromUtf8Lossy rest
    else
      match rest with
      | [] => [replacement]
      | b :: rest₂ =>
        if isSecond a b = false then replacement :: fromUtf8Lossy (b :: rest₂)
        else if a < 0xe0 then codePoint (a.toNat % 32) [b] :: fromUtf8Lossy rest₂
        else
          match rest₂ with
          | [] => [replacement]
          | c :: rest₃ =>
            if isTrailing c = false then replacement :: fromUtf8Lossy (c :: rest₃)
            else if a < 0xf0 then codePoint (a.toNat % 16) [b, c] :: fromUtf8Lossy rest₃
            else
              match rest₃ with
              | [] => [replacement]
              | d :: rest₄ =>
                if isTrailing d = false then replacement :: fromUtf8Lossy (d :: rest₄)
                else codePoint (a.toNat % 8) [b, c, d] :: fromUtf8Lossy rest₄

example : fromUtf8Lossy [0x61, 0xf0, 0x9f, 0x62, 0xc3, 0xa9] = ['a', '\ufffd', 'b', 'é'] := by decide

end Yuke.Shared
