import Mathlib

/-!
# Spans of time

A span is a count of nanoseconds. A product with a binary64 number goes through seconds, and each
operation rounds to the nearest number, ties to even.
-/

set_option autoImplicit false

namespace Yuke.Shared

def roundEven (q : ℚ) : ℤ :=
  let rest := q - ⌊q⌋
  if rest < 1 / 2 then ⌊q⌋
  else if 1 / 2 < rest then ⌊q⌋ + 1
  else if ⌊q⌋ % 2 = 0 then ⌊q⌋
  else ⌊q⌋ + 1

/-- The exponent of the last place of a binary64 number near `q`. -/
def lastPlace (q : ℚ) : ℤ := max (Int.log 2 q - 52) (-1074)

/-- The nearest binary64 number, for a `q` below the largest one. -/
def binary64 (q : ℚ) : ℚ := roundEven (q / 2 ^ lastPlace q) * 2 ^ lastPlace q

def nanosPerSecond : Nat := 1000000000

/-- The largest span: a 64-bit count of seconds, and the nanoseconds below the next one. -/
def durationMax : Nat := 2 ^ 64 * nanosPerSecond - 1

structure Duration where
  nanos : Nat
  bound : nanos ≤ durationMax
  deriving DecidableEq

namespace Duration

theorem nanos_injective : Function.Injective Duration.nanos := by
  rintro ⟨nanos, _⟩ ⟨_, _⟩ rfl
  rfl

instance : LinearOrder Duration := LinearOrder.lift' nanos nanos_injective

theorem le_iff {a b : Duration} : a ≤ b ↔ a.nanos ≤ b.nanos := Iff.rfl

/-- The span of a 64-bit count of milliseconds. -/
def fromMillis (millis : UInt64) : Duration where
  nanos := millis.toNat * 1000000
  bound := by
    have hlt := millis.toNat_lt
    unfold durationMax nanosPerSecond
    omega

/-- The span of a 64-bit count of seconds. -/
def fromSecs (seconds : UInt64) : Duration where
  nanos := seconds.toNat * nanosPerSecond
  bound := by
    have hlt := seconds.toNat_lt
    unfold durationMax nanosPerSecond
    omega

def zero : Duration := ⟨0, Nat.zero_le _⟩

def checkedAdd (span other : Duration) : Option Duration :=
  if h : span.nanos ≤ durationMax - other.nanos then
    some ⟨span.nanos + other.nanos, by have hother := other.bound; omega⟩
  else none

def checkedMul (span : Duration) (factor : Nat) : Option Duration :=
  if h : span.nanos * factor ≤ durationMax then some ⟨span.nanos * factor, h⟩ else none

/-- The nearest span from `low` to `high`, when the bounds are in order. -/
def clamp (span low high : Duration) : Option Duration :=
  if low ≤ high then some (if span < low then low else if high < span then high else span) else none

theorem checkedAdd_eq_some {a b sum : Duration} :
    a.checkedAdd b = some sum ↔ a.nanos + b.nanos = sum.nanos := by
  unfold checkedAdd
  constructor
  · intro h
    split at h
    · cases h
      rfl
    · cases h
  · intro h
    have hbound := sum.bound
    rw [dif_pos (by omega), Option.some.injEq]
    exact nanos_injective h

theorem checkedAdd_eq_none {a b : Duration} :
    a.checkedAdd b = none ↔ durationMax < a.nanos + b.nanos := by
  have hbound := b.bound
  unfold checkedAdd
  split
  · next h =>
    constructor
    · intro hnone
      cases hnone
    · intro hlt
      omega
  · next h => exact ⟨fun _ => by omega, fun _ => rfl⟩

theorem exists_checkedMul {span : Duration} {factor : Nat}
    (h : span.nanos * factor ≤ durationMax) : ∃ product, span.checkedMul factor = some product := by
  unfold checkedMul
  rw [dif_pos h]
  exact ⟨_, rfl⟩

theorem exists_clamp (span : Duration) {low high : Duration} (h : low ≤ high) :
    ∃ near, span.clamp low high = some near ∧ low ≤ near ∧ near ≤ high := by
  rw [clamp, if_pos h]
  refine ⟨_, rfl, ?_⟩
  split_ifs with hlow hhigh
  · exact ⟨le_rfl, h⟩
  · exact ⟨h, le_rfl⟩
  · exact ⟨not_lt.mp hlow, not_lt.mp hhigh⟩

theorem max_nanos (a b : Duration) : (max a b).nanos = max a.nanos b.nanos := by
  rcases le_total a b with h | h
  · rw [max_eq_right h, max_eq_right (le_iff.mp h)]
  · rw [max_eq_left h, max_eq_left (le_iff.mp h)]

def saturatingMul (span : Duration) (factor : Nat) : Duration where
  nanos := min durationMax (span.nanos * factor)
  bound := Nat.min_le_left _ _

/-- The span without `nanos`, or zero. -/
def saturatingSub (span : Duration) (nanos : Nat) : Duration where
  nanos := span.nanos - nanos
  bound := (Nat.sub_le _ _).trans span.bound

theorem saturatingSub_le (span : Duration) (nanos : Nat) : span.saturatingSub nanos ≤ span :=
  Nat.sub_le _ _

/-- The seconds of a span as a binary64 number. -/
def asSeconds (span : Duration) : ℚ :=
  binary64 (binary64 (span.nanos / nanosPerSecond : Nat) +
    binary64 ((span.nanos % nanosPerSecond : Nat) / nanosPerSecond))

/-- The nanoseconds of the product with the binary64 number `x`. -/
def mulBinary64 (span : Duration) (x : ℚ) : Nat :=
  (roundEven (binary64 (x * span.asSeconds) * nanosPerSecond)).toNat

end Duration

end Yuke.Shared
