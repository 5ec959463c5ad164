import Mathlib

/-!
# The lower case of JavaScript texts

A text is a list of UTF-16 units, also with surrogates that have no partner. Its lower case is the
one of each code point, but a sigma at the end of a word has a lower case of its own.
-/

set_option autoImplicit false

namespace Yuke.Shared

def isHighSurrogate (u : UInt16) : Bool := 0xd800 ≤ u && u ≤ 0xdbff

def isLowSurrogate (u : UInt16) : Bool := 0xdc00 ≤ u && u ≤ 0xdfff

def isSurrogate (u : UInt16) : Bool := 0xd800 ≤ u && u ≤ 0xdfff

def pairCode (high low : UInt16) : ℕ :=
  0x10000 + (high.toNat - 0xd800) * 0x400 + (low.toNat - 0xdc00)

def codePoints : List UInt16 → List ℕ
  | [] => []
  | [u] => [u.toNat]
  | u :: v :: rest =>
    if isHighSurrogate u && isLowSurrogate v then pairCode u v :: codePoints rest
    else u.toNat :: codePoints (v :: rest)

def unitsOf (code : ℕ) : ℕ := if 0xffff < code then 2 else 1

theorem codePoints_of_plain {text : List UInt16} (h : ∀ u ∈ text, isSurrogate u = false) :
    codePoints text = text.map UInt16.toNat := by
  induction text with
  | nil => rfl
  | cons u rest ih =>
    have hrest := ih fun v hv => h v (List.mem_cons_of_mem _ hv)
    cases rest with
    | nil => rfl
    | cons v rest =>
      have hu := h u List.mem_cons_self
      have hhigh : isHighSurrogate u = false := by
        simp only [isSurrogate, isHighSurrogate, Bool.and_eq_false_iff, decide_eq_false_iff_not,
          UInt16.not_le, UInt16.lt_iff_toNat_lt, UInt16.reduceToNat] at hu ⊢
        omega
      rw [codePoints, hhigh, Bool.false_and, if_neg Bool.false_ne_true, hrest]
      rfl

/-- A capital sigma, its lower case, and its lower case at the end of a word. -/
def sigma : ℕ := 0x3a3
def smallSigma : UInt16 := 0x3c3
def finalSigma : UInt16 := 0x3c2

structure CaseTables where
  /-- The lower case of a code point without its neighbours. -/
  lower : ℕ → List UInt16
  cased : ℕ → Bool
  ignorable : ℕ → Bool
  lower_ne_nil : ∀ code, lower code ≠ []
  lower_sigma : lower sigma = [smallSigma]
  lower_smallSigma : lower smallSigma.toNat = [smallSigma]

namespace CaseTables

variable (tables : CaseTables)

def casedNext : List ℕ → Bool
  | [] => false
  | code :: rest => tables.cased code || (tables.ignorable code && casedNext rest)

/-- The condition `Final_Sigma`, with the code points before, the nearest first, and after. -/
def atWordEnd (before after : List ℕ) : Bool :=
  tables.casedNext before && !tables.casedNext after

/-- The lower case of each code point after the code points `before`, the nearest first. -/
def lowerFrom : List ℕ → List ℕ → List UInt16
  | _, [] => []
  | before, code :: after =>
    (if code = sigma ∧ tables.atWordEnd before after then [finalSigma] else tables.lower code) ++
      lowerFrom (code :: before) after

def toLowerCase (text : List UInt16) : List UInt16 := tables.lowerFrom [] (codePoints text)

def folded (text : List UInt16) : List (List UInt16) := (codePoints text).map tables.lower

def NoFinalFrom : List ℕ → List ℕ → Prop
  | _, [] => True
  | before, code :: after =>
    (code = sigma → tables.atWordEnd before after = false) ∧ NoFinalFrom (code :: before) after

def NoFinalSigma (text : List UInt16) : Prop := tables.NoFinalFrom [] (codePoints text)

theorem lowerFrom_of_noFinal {before codes : List ℕ} (h : tables.NoFinalFrom before codes) :
    tables.lowerFrom before codes = codes.flatMap tables.lower := by
  induction codes generalizing before with
  | nil => rfl
  | cons code after ih =>
    obtain ⟨hcode, hafter⟩ := h
    rw [lowerFrom, ih hafter, List.flatMap_cons, if_neg]
    rintro ⟨hsigma, hend⟩
    rw [hcode hsigma] at hend
    cases hend

theorem toLowerCase_of_noFinal {text : List UInt16} (h : tables.NoFinalSigma text) :
    tables.toLowerCase text = (tables.folded text).flatten := by
  rw [toLowerCase, lowerFrom_of_noFinal tables h, folded, List.flatMap_def]

theorem length_le_lowerFrom (before codes : List ℕ) :
    codes.length ≤ (tables.lowerFrom before codes).length := by
  induction codes generalizing before with
  | nil => exact le_rfl
  | cons code after ih =>
    have hafter := ih (code :: before)
    have hpos : 0 < (if code = sigma ∧ tables.atWordEnd before after then [finalSigma]
        else tables.lower code).length := by
      split
      · exact Nat.one_pos
      · exact List.length_pos_iff.mpr (tables.lower_ne_nil code)
    rw [lowerFrom, List.length_append, List.length_cons]
    omega

theorem lowerFrom_units {before codes : List ℕ}
    (h : (tables.lowerFrom before codes).length = codes.length) :
    List.Forall₂ (fun u code => [u] = tables.lower code ∨ code = sigma ∧ u = finalSigma)
      (tables.lowerFrom before codes) codes := by
  induction codes generalizing before with
  | nil => exact .nil
  | cons code after ih =>
    have hafter := tables.length_le_lowerFrom (code :: before) after
    rw [lowerFrom] at h ⊢
    rw [List.length_append, List.length_cons] at h
    split at h
    · next hfinal =>
      rw [if_pos hfinal, List.singleton_append]
      rw [List.length_singleton] at h
      exact .cons (.inr ⟨hfinal.1, rfl⟩) (ih (by omega))
    · next hfinal =>
      have hpos := List.length_pos_iff.mpr (tables.lower_ne_nil code)
      obtain ⟨u, hu⟩ := List.length_eq_one_iff.mp
        (show (tables.lower code).length = 1 by omega)
      rw [if_neg hfinal, hu, List.singleton_append]
      rw [hu, List.length_singleton] at h
      exact .cons (.inl hu.symm) (ih (by omega))

end CaseTables

end Yuke.Shared
