import Mathlib

/-!
# A streaming Wyhash

The hash keeps the last block in its buffer, because the final step reads it, and the bytes before a
short buffer stay at the end of the buffer.
-/

set_option autoImplicit false

namespace Yuke.Ai

namespace Wyhash

def secret (i : Nat) : UInt64 :=
  [0xa0761d6478bd642f, 0xe7037ed1a0b428db, 0x8ebc6af09c88c6e3, 0x589965cc75374cc3].getD i 0

/-- The halves of a product of 128 bits. -/
def mum (a b : UInt64) : UInt64 × UInt64 :=
  let product := a.toNat * b.toNat
  (UInt64.ofNat product, UInt64.ofNat (product >>> 64))

def mix (a b : UInt64) : UInt64 := (mum a b).1 ^^^ (mum a b).2

def fromLeBytes (bytes : List UInt8) : UInt64 :=
  bytes.foldr (fun byte n => n <<< 8 ||| byte.toUInt64) 0

def read8 (bytes : List UInt8) : UInt64 := fromLeBytes (bytes.take 8)

def read4 (bytes : List UInt8) : UInt64 := fromLeBytes (bytes.take 4)

def smallKey (input : List UInt8) : UInt64 × UInt64 :=
  let length := input.length
  if 4 ≤ length then
    let last := length - 4
    let quarter := length >>> 3 <<< 2
    (read4 input <<< 32 ||| read4 (input.drop quarter),
     read4 (input.drop last) <<< 32 ||| read4 (input.drop (last - quarter)))
  else if 0 < length then
    let byte := fun i => (input.getD i 0).toUInt64
    (byte 0 <<< 16 ||| byte (length >>> 1) <<< 8 ||| byte (length - 1), 0)
  else
    (0, 0)

structure Lanes where
  first : UInt64
  second : UInt64
  third : UInt64
  deriving DecidableEq

def lane (input : List UInt8) (i : Nat) (state : UInt64) : UInt64 :=
  let a := read8 (input.drop (16 * i))
  let b := read8 (input.drop (16 * i + 8))
  mix (a ^^^ secret (i + 1)) (b ^^^ state)

def Lanes.round (lanes : Lanes) (input : List UInt8) : Lanes where
  first := lane input 0 lanes.first
  second := lane input 1 lanes.second
  third := lane input 2 lanes.third

/-- Write `bytes` over the buffer from `start` on. -/
def copyInto (buf : List UInt8) (start : Nat) (bytes : List UInt8) : List UInt8 :=
  buf.take start ++ bytes ++ buf.drop (start + bytes.length)

end Wyhash

/-- A streaming Wyhash state. `buf` has the 48 bytes of a block. -/
structure Wyhash where
  state : Wyhash.Lanes
  totalLen : UInt64
  buf : List UInt8
  bufLen : Nat
  deriving DecidableEq

namespace Wyhash

def new (seed : UInt64) : Wyhash where
  state :=
    let first := seed ^^^ mix (seed ^^^ secret 0) (secret 1)
    ⟨first, first, first⟩
  totalLen := 0
  buf := List.replicate 48 0
  bufLen := 0

/-- Mix the blocks of `input` from `i` on, up to the last one. -/
def mixBlocks (input : List UInt8) (i : Nat) (lanes : Lanes) : Nat × Lanes :=
  if i + 48 < input.length then
    mixBlocks input (i + 48) (lanes.round ((input.drop i).take 48))
  else (i, lanes)
termination_by input.length - i

def fill (hash : Wyhash) (input : List UInt8) : Nat × Wyhash :=
  if 0 < hash.bufLen then
    let i := 48 - hash.bufLen
    let buf := copyInto hash.buf hash.bufLen (input.take i)
    (i, { hash with state := hash.state.round buf, buf := buf, bufLen := 0 })
  else (0, hash)

def keepRest (hash : Wyhash) (input : List UInt8) (i : Nat) : Wyhash :=
  let rest := input.drop i
  let missing := 16 - rest.length
  let buf :=
    if rest.length < 16 ∧ 48 ≤ i then
      copyInto hash.buf (48 - missing) ((input.take i).drop (i - missing))
    else hash.buf
  { hash with buf := copyInto buf 0 rest, bufLen := rest.length }

/-- Add `input`. -/
def write (hash : Wyhash) (input : List UInt8) : Wyhash :=
  let hash := { hash with totalLen := hash.totalLen + UInt64.ofNat input.length }
  if input.length ≤ 48 - hash.bufLen then
    { hash with
      buf := copyInto hash.buf hash.bufLen input
      bufLen := hash.bufLen + input.length }
  else
    let filled := hash.fill input
    let mixed := mixBlocks input filled.1 filled.2.state
    keepRest { filled.2 with state := mixed.2 } input mixed.1

/-- Mix the bytes of a last block, without its last 16 bytes or fewer. -/
def mixBody (body : List UInt8) (i : Nat) (state : UInt64) : UInt64 :=
  if i + 16 < body.length then
    mixBody body (i + 16)
      (mix (read8 (body.drop i) ^^^ secret 1) (read8 (body.drop (i + 8)) ^^^ state))
  else state
termination_by body.length - i

def mixEnd (words : UInt64 × UInt64) (state totalLen : UInt64) : UInt64 :=
  let key := mum (words.1 ^^^ secret 1) (words.2 ^^^ state)
  mix (key.1 ^^^ secret 0 ^^^ totalLen) (key.2 ^^^ secret 1)

/-- The last 16 bytes as two words. -/
def lastWords (input : List UInt8) : UInt64 × UInt64 :=
  (read8 (input.drop (input.length - 16)), read8 (input.drop (input.length - 8)))

def finish (hash : Wyhash) : UInt64 :=
  let held := hash.buf.take hash.bufLen
  if hash.totalLen ≤ 16 then mixEnd (smallKey held) hash.state.first hash.totalLen
  else
    let missing := 16 - hash.bufLen
    -- A short buffer reads the bytes before it, which the last full block left at its end.
    let input := if hash.bufLen < 16 then hash.buf.drop (48 - missing) ++ held else held
    let start := if hash.bufLen < 16 then missing else 0
    let first := hash.state.first ^^^ (hash.state.second ^^^ hash.state.third)
    mixEnd (lastWords input) (mixBody (input.drop start) 0 first) hash.totalLen

/-- Mix each block of `data` but the last one, and return the bytes of the last one. -/
def absorb (lanes : Lanes) (data : List UInt8) : Lanes × List UInt8 :=
  if 48 < data.length then absorb (lanes.round (data.take 48)) (data.drop 48)
  else (lanes, data)
termination_by data.length

/-- The hash of `data` in one pass. -/
def oneShot (seed : UInt64) (data : List UInt8) : UInt64 :=
  let start := (new seed).state
  let length := UInt64.ofNat data.length
  if data.length ≤ 16 then mixEnd (smallKey data) start.first length
  else
    let mixed := absorb start data
    let state := mixed.1.first ^^^ (mixed.1.second ^^^ mixed.1.third)
    mixEnd (lastWords data) (mixBody mixed.2 0 state) length

section Absorb

variable {lanes : Lanes} {data more : List UInt8}

theorem absorb_short (h : data.length ≤ 48) : absorb lanes data = (lanes, data) := by
  rw [absorb, if_neg (by omega)]

theorem absorb_long (h : 48 < data.length) :
    absorb lanes data = absorb (lanes.round (data.take 48)) (data.drop 48) := by
  rw [absorb, if_pos h]

theorem absorb_append (lanes : Lanes) (data more : List UInt8) :
    absorb lanes (data ++ more) = absorb (absorb lanes data).1 ((absorb lanes data).2 ++ more) := by
  induction lanes, data using absorb.induct with
  | case1 lanes data hlong ih =>
    have hlonger : 48 < (data ++ more).length := by
      rw [List.length_append]
      omega
    rw [absorb_long hlong, absorb_long hlonger, List.take_append_of_le_length hlong.le,
      List.drop_append_of_le_length hlong.le]
    exact ih
  | case2 lanes data hshort =>
    have hdata : absorb lanes data = (lanes, data) := absorb_short (Nat.le_of_not_lt hshort)
    rw [hdata]

theorem absorb_rest (lanes : Lanes) (data : List UInt8) :
    (absorb lanes data).2 <:+ data ∧ (absorb lanes data).2.length ≤ 48 ∧
      (0 < data.length → 0 < (absorb lanes data).2.length) := by
  induction lanes, data using absorb.induct with
  | case1 lanes data hlong ih =>
    obtain ⟨hsuffix, hle, hpos⟩ := ih
    rw [absorb_long hlong]
    refine ⟨hsuffix.trans (List.drop_suffix 48 data), hle, fun _ => hpos ?_⟩
    rw [List.length_drop]
    omega
  | case2 lanes data hshort =>
    rw [absorb_short (Nat.le_of_not_lt hshort)]
    exact ⟨List.suffix_refl data, Nat.le_of_not_lt hshort, id⟩

theorem mixBlocks_eq (input : List UInt8) (i : Nat) (lanes : Lanes) (hi : i ≤ input.length) :
    absorb lanes (input.drop i) =
        ((mixBlocks input i lanes).2, input.drop (mixBlocks input i lanes).1) ∧
      (mixBlocks input i lanes).1 ≤ input.length ∧
      ((mixBlocks input i lanes).1 = i ∨ i + 48 ≤ (mixBlocks input i lanes).1) := by
  induction i, lanes using mixBlocks.induct input with
  | case1 i lanes hlong ih =>
    obtain ⟨habsorb, hle, hmore⟩ := ih (by omega)
    have hdrop : 48 < (input.drop i).length := by
      rw [List.length_drop]
      omega
    rw [mixBlocks, if_pos hlong, absorb_long hdrop, List.drop_drop]
    exact ⟨habsorb, hle, .inr (by omega)⟩
  | case2 i lanes hshort =>
    have hdrop : (input.drop i).length ≤ 48 := by
      rw [List.length_drop]
      omega
    rw [mixBlocks, if_neg hshort, absorb_short hdrop]
    exact ⟨rfl, hi, .inl rfl⟩

end Absorb

section Copy

variable {buf bytes : List UInt8} {start : Nat}

theorem length_copyInto (h : start + bytes.length ≤ buf.length) :
    (copyInto buf start bytes).length = buf.length := by
  simp only [copyInto, List.length_append, List.length_take, List.length_drop]
  omega

theorem take_copyInto (h : start + bytes.length ≤ buf.length) :
    (copyInto buf start bytes).take (start + bytes.length) = buf.take start ++ bytes := by
  rw [copyInto, List.take_append_of_le_length (by simp; omega)]
  rw [List.take_of_length_le (by simp)]

theorem drop_copyInto {after : Nat} (h : start + bytes.length ≤ after) (hbuf : start ≤ buf.length) :
    (copyInto buf start bytes).drop after = buf.drop after := by
  rw [copyInto, List.drop_append, List.drop_of_length_le (by simp; omega), List.nil_append,
    List.drop_drop]
  congr 1
  simp only [List.length_append, List.length_take]
  omega

theorem copyInto_end (h : start + bytes.length = buf.length) :
    copyInto buf start bytes = buf.take start ++ bytes := by
  rw [copyInto, h, List.drop_length, List.append_nil]

theorem rtake_append {xs ys : List UInt8} {n : Nat} (h : n ≤ ys.length) :
    (xs ++ ys).rtake n = ys.rtake n := by
  rw [List.rtake, List.rtake, List.drop_append, List.drop_of_length_le (by simp; omega),
    List.nil_append]
  congr 1
  rw [List.length_append]
  omega

theorem rtake_of_suffix {xs ys : List UInt8} {n : Nat} (h : ys <:+ xs) (hn : n ≤ ys.length) :
    xs.rtake n = ys.rtake n := by
  obtain ⟨front, rfl⟩ := h
  exact rtake_append hn

end Copy

/-! ## What the state holds -/

/-- The state holds the bytes `data`: the lanes of their blocks, the rest, and the bytes before a short
rest. -/
structure Hashes (seed : UInt64) (data : List UInt8) (hash : Wyhash) : Prop where
  absorbed : absorb (new seed).state data = (hash.state, hash.buf.take hash.bufLen)
  total : hash.totalLen = UInt64.ofNat data.length
  length_buf : hash.buf.length = 48
  bufLen_le : hash.bufLen ≤ 48
  before : 48 < data.length → hash.bufLen < 16 →
    hash.buf.drop (32 + hash.bufLen) ++ hash.buf.take hash.bufLen = data.rtake 16

theorem hashes_new (seed : UInt64) : Hashes seed [] (new seed) where
  absorbed := absorb_short (by simp)
  total := rfl
  length_buf := List.length_replicate
  bufLen_le := Nat.zero_le _
  before h := absurd h (by simp)

namespace Hashes

variable {seed : UInt64} {data input : List UInt8} {hash : Wyhash}

theorem length_held (h : Hashes seed data hash) : (hash.buf.take hash.bufLen).length = hash.bufLen := by
  rw [List.length_take, h.length_buf]
  exact Nat.min_eq_left h.bufLen_le

theorem held_suffix (h : Hashes seed data hash) : hash.buf.take hash.bufLen <:+ data := by
  have hrest := (absorb_rest (new seed).state data).1
  rwa [h.absorbed] at hrest

theorem bufLen_eq (h : Hashes seed data hash) (hdata : data.length ≤ 48) :
    hash.bufLen = data.length := by
  have habsorbed := h.absorbed
  rw [absorb_short hdata] at habsorbed
  rw [← h.length_held]
  exact (congrArg (fun out : Lanes × List UInt8 => out.2.length) habsorbed).symm

theorem absorb_more (h : Hashes seed data hash) (input : List UInt8) :
    absorb (new seed).state (data ++ input) =
      absorb hash.state (hash.buf.take hash.bufLen ++ input) := by
  rw [absorb_append, h.absorbed]

theorem total_more (h : Hashes seed data hash) (input : List UInt8) :
    hash.totalLen + UInt64.ofNat input.length = UInt64.ofNat (data ++ input).length := by
  rw [h.total, List.length_append, UInt64.ofNat_add]

theorem write_fits (h : Hashes seed data hash) (hfits : input.length ≤ 48 - hash.bufLen) :
    Hashes seed (data ++ input) (hash.write input) := by
  have hbuf := h.length_buf
  have hle := h.bufLen_le
  have hcopy : hash.bufLen + input.length ≤ hash.buf.length := by omega
  have htake := take_copyInto hcopy
  rw [write, if_pos hfits]
  constructor
  · rw [h.absorb_more, htake]
    apply absorb_short
    rw [List.length_append, h.length_held]
    omega
  · exact h.total_more input
  · exact (length_copyInto hcopy).trans hbuf
  · exact hcopy.trans hbuf.le
  · intro hlong hshort
    dsimp only at hshort ⊢
    rw [List.length_append] at hlong
    have hdata : 48 < data.length := by
      by_contra hnot
      have := h.bufLen_eq (by omega)
      omega
    have hbefore := h.before hdata (by omega)
    rw [htake, drop_copyInto (by omega) (by omega)]
    have hend : (data ++ input).rtake 16 = (data.rtake 16 ++ input).drop input.length := by
      simp only [List.rtake, List.length_append]
      rw [← List.drop_append_of_le_length (by omega), List.drop_drop]
      congr 1
      omega
    have hwindow : input.length ≤ (hash.buf.drop (32 + hash.bufLen)).length := by
      rw [List.length_drop]
      omega
    rw [hend, ← hbefore, List.append_assoc, List.drop_append_of_le_length hwindow, List.drop_drop,
      Nat.add_assoc]

theorem fill_eq (h : Hashes seed data hash) (hlong : 48 - hash.bufLen < input.length) :
    (hash.fill input).1 ≤ input.length ∧ (hash.fill input).2.buf.length = 48 ∧
      absorb hash.state (hash.buf.take hash.bufLen ++ input) =
        absorb (hash.fill input).2.state (input.drop (hash.fill input).1) ∧
      (48 < (input.drop (hash.fill input).1).length ∨
        (hash.fill input).2.buf ++ input.drop (hash.fill input).1 =
          hash.buf.take hash.bufLen ++ input) := by
  have hbuf := h.length_buf
  have hle := h.bufLen_le
  unfold fill
  split
  · next hpos =>
    have hroom : (input.take (48 - hash.bufLen)).length = 48 - hash.bufLen := by
      rw [List.length_take]
      omega
    have hblock : copyInto hash.buf hash.bufLen (input.take (48 - hash.bufLen)) =
        hash.buf.take hash.bufLen ++ input.take (48 - hash.bufLen) := by
      apply copyInto_end
      omega
    have hlength : (hash.buf.take hash.bufLen ++ input.take (48 - hash.bufLen)).length = 48 := by
      rw [List.length_append, h.length_held, hroom]
      omega
    have hall : hash.buf.take hash.bufLen ++ input =
        (hash.buf.take hash.bufLen ++ input.take (48 - hash.bufLen)) ++
          input.drop (48 - hash.bufLen) := by
      rw [List.append_assoc, List.take_append_drop]
    dsimp only
    rw [hblock]
    refine ⟨hlong.le, hlength, ?_, .inr hall.symm⟩
    have hmore : 48 < (hash.buf.take hash.bufLen ++ input).length := by
      rw [List.length_append, h.length_held]
      omega
    rw [absorb_long hmore, hall, List.take_left' hlength, List.drop_left' hlength]
  · next hzero =>
    have hempty : hash.bufLen = 0 := by omega
    rw [hempty] at hlong
    refine ⟨Nat.zero_le _, hbuf, ?_, .inl hlong⟩
    rw [hempty, List.take_zero, List.nil_append, List.drop_zero]

theorem keepRest_hashes {i : Nat} (hbuf : hash.buf.length = 48) (hi : i ≤ input.length)
    (habsorb : absorb (new seed).state data = (hash.state, input.drop i))
    (htotal : hash.totalLen = UInt64.ofNat data.length) (hinput : input <:+ data)
    (hbefore : i < 48 → 48 < data.length → hash.buf ++ input.drop i <:+ data) :
    Hashes seed data (hash.keepRest input i) := by
  have hrest : (input.drop i).length ≤ 48 := by
    have hle := (absorb_rest (new seed).state data).2.1
    rwa [habsorb] at hle
  have hlast : ∀ {buf : List UInt8}, buf.length = 48 →
      (copyInto buf 0 (input.drop i)).take (input.drop i).length = input.drop i := by
    intro buf hlength
    have htake := @take_copyInto buf (input.drop i) 0 (by omega)
    rwa [Nat.zero_add, List.take_zero, List.nil_append] at htake
  have hwindow : (input.drop i).length < 16 → 48 ≤ i →
      ((input.take i).drop (i - (16 - (input.drop i).length))).length =
        16 - (input.drop i).length := by
    intro hshort hblock
    rw [List.length_drop, List.length_take]
    omega
  unfold keepRest
  dsimp only
  split
  · next hcase =>
    obtain ⟨hshort, hblock⟩ := hcase
    have hcopy := hwindow hshort hblock
    have hkept : (copyInto hash.buf (48 - (16 - (input.drop i).length))
        ((input.take i).drop (i - (16 - (input.drop i).length)))).length = 48 := by
      rw [length_copyInto (by omega), hbuf]
    refine ⟨?_, htotal, ?_, hrest, ?_⟩
    · rw [hlast hkept]
      exact habsorb
    · rw [length_copyInto (by omega), hkept]
    · intro _ _
      dsimp only
      rw [hlast hkept, drop_copyInto (by omega) (by omega), copyInto_end (by omega)]
      have hfront : (hash.buf.take (48 - (16 - (input.drop i).length))).length =
          32 + (input.drop i).length := by
        rw [List.length_take]
        omega
      have hwhole : (input.take i).drop (i - (16 - (input.drop i).length)) ++ input.drop i =
          input.drop (i - (16 - (input.drop i).length)) := by
        rw [← List.drop_append_of_le_length (by rw [List.length_take]; omega), List.take_append_drop]
      have hlength : (input.drop i).length = input.length - i := List.length_drop
      rw [List.drop_left' hfront, hwhole, rtake_of_suffix hinput (by omega), List.rtake]
      congr 1
      omega
  · next hcase =>
    refine ⟨?_, htotal, ?_, hrest, ?_⟩
    · rw [hlast hbuf]
      exact habsorb
    · rw [length_copyInto (by omega), hbuf]
    · intro hlong hshort
      dsimp only at hshort ⊢
      rw [hlast hbuf, drop_copyInto (by omega) (by omega)]
      have hend := hbefore (by omega) hlong
      have hlength : (hash.buf ++ input.drop i).length = 48 + (input.drop i).length := by
        rw [List.length_append, hbuf]
      rw [rtake_of_suffix hend (by omega), List.rtake, hlength,
        ← List.drop_append_of_le_length (by omega)]
      congr 1
      omega

theorem fill_total (hash : Wyhash) (input : List UInt8) (total : UInt64) :
    ({ hash with totalLen := total } : Wyhash).fill input =
      ((hash.fill input).1, ⟨(hash.fill input).2.state, total, (hash.fill input).2.buf,
        (hash.fill input).2.bufLen⟩) := by
  unfold fill
  dsimp only
  split
  · rfl
  · rfl

theorem write_hashes (h : Hashes seed data hash) (input : List UInt8) :
    Hashes seed (data ++ input) (hash.write input) := by
  by_cases hfits : input.length ≤ 48 - hash.bufLen
  · exact h.write_fits hfits
  obtain ⟨hi, hbuf, habsorb, hbefore⟩ := h.fill_eq (Nat.lt_of_not_le hfits)
  obtain ⟨hmixed, hle, hmore⟩ := mixBlocks_eq input (hash.fill input).1 (hash.fill input).2.state hi
  have hrest := (absorb_rest (hash.fill input).2.state (input.drop (hash.fill input).1)).2.1
  rw [hmixed] at hrest
  rw [write, if_neg hfits]
  dsimp only
  rw [fill_total]
  dsimp only
  apply keepRest_hashes
  · exact hbuf
  · exact hle
  · rw [h.absorb_more, habsorb, hmixed]
  · exact h.total_more input
  · exact List.suffix_append data input
  · intro hshort _
    -- Without a block of the input, the buffer holds the block before the rest.
    have hsame : (mixBlocks input (hash.fill input).1 (hash.fill input).2.state).1 =
        (hash.fill input).1 := by omega
    rw [hsame] at hrest ⊢
    rcases hbefore with hlong | hbefore
    · have hlong' : 48 < (input.drop (hash.fill input).1).length := hlong
      have hrest' : (input.drop (hash.fill input).1).length ≤ 48 := hrest
      omega
    · change (hash.fill input).2.buf ++ input.drop (hash.fill input).1 <:+ data ++ input
      rw [hbefore]
      obtain ⟨front, hfront⟩ := h.held_suffix
      exact ⟨front, by rw [← List.append_assoc, hfront]⟩

end Hashes

theorem lastWords_eq {input : List UInt8} (h : 16 ≤ input.length) :
    lastWords input = lastWords (input.rtake 16) := by
  have hlength : (input.rtake 16).length = 16 := by
    rw [List.rtake, List.length_drop]
    omega
  rw [lastWords, lastWords, hlength, List.rtake, List.drop_drop, List.drop_drop]
  congr 3
  omega

def digest (seed : UInt64) (data : List UInt8) : UInt64 :=
  let mixed := absorb (new seed).state data
  let length := UInt64.ofNat data.length
  if length ≤ 16 then mixEnd (smallKey mixed.2) mixed.1.first length
  else
    let state := mixed.1.first ^^^ (mixed.1.second ^^^ mixed.1.third)
    mixEnd (lastWords data) (mixBody mixed.2 0 state) length

theorem ofNat_le_of_le {n : Nat} (h : n ≤ 16) : UInt64.ofNat n ≤ 16 := by
  rw [UInt64.le_iff_toNat_le, UInt64.toNat_ofNat']
  exact (Nat.mod_le _ _).trans h

theorem ofNat_le_iff {n : Nat} (h : n < 2 ^ 64) : UInt64.ofNat n ≤ 16 ↔ n ≤ 16 := by
  rw [UInt64.le_iff_toNat_le, UInt64.toNat_ofNat', Nat.mod_eq_of_lt h]
  rfl

theorem Hashes.finish_eq {seed : UInt64} {data : List UInt8} {hash : Wyhash}
    (h : Hashes seed data hash) : hash.finish = digest seed data := by
  have hheld := h.length_held
  have hbuf := h.length_buf
  unfold finish digest
  rw [h.absorbed, h.total]
  dsimp only
  split
  · rfl
  next hlong =>
  have hdata : 16 < data.length := by
    by_contra hnot
    exact hlong (ofNat_le_of_le (Nat.le_of_not_lt hnot))
  by_cases hshort : hash.bufLen < 16
  · rw [if_pos hshort, if_pos hshort]
    have hblocks : 48 < data.length := by
      by_contra hnot
      have hall := h.bufLen_eq (Nat.le_of_not_lt hnot)
      omega
    have hbefore := h.before hblocks hshort
    have hstart : 48 - (16 - hash.bufLen) = 32 + hash.bufLen := by omega
    have hwindow : (hash.buf.drop (32 + hash.bufLen)).length = 16 - hash.bufLen := by
      rw [List.length_drop]
      omega
    rw [hstart, List.drop_left' hwindow, hbefore, ← lastWords_eq hdata.le]
  · rw [if_neg hshort, if_neg hshort, List.drop_zero, lastWords_eq hdata.le,
      @lastWords_eq (hash.buf.take hash.bufLen) (by omega),
      rtake_of_suffix h.held_suffix (by omega)]

theorem oneShot_eq {seed : UInt64} {data : List UInt8} (h : data.length < 2 ^ 64) :
    oneShot seed data = digest seed data := by
  unfold oneShot digest
  dsimp only
  by_cases hshort : data.length ≤ 16
  · have hdata : absorb (new seed).state data = ((new seed).state, data) :=
      absorb_short (by omega)
    rw [if_pos hshort, if_pos ((ofNat_le_iff h).mpr hshort), hdata]
  · rw [if_neg hshort, if_neg (mt (ofNat_le_iff h).mp hshort)]

theorem hashes_foldl (seed : UInt64) (pieces : List (List UInt8)) :
    Hashes seed pieces.flatten (pieces.foldl write (new seed)) := by
  induction pieces using List.reverseRecOn with
  | nil => exact hashes_new seed
  | append_singleton pieces last ih =>
    rw [List.foldl_append, List.flatten_append, List.flatten_singleton]
    exact ih.write_hashes last

/-- Each way to cut bytes into writes gives the digest of one write, which is the hash of the bytes in
one pass. A byte string has less than `2 ^ 64` bytes. -/
theorem finish_of_pieces (seed : UInt64) (pieces : List (List UInt8)) :
    (pieces.foldl write (new seed)).finish = ((new seed).write pieces.flatten).finish ∧
      (pieces.flatten.length < 2 ^ 64 →
        ((new seed).write pieces.flatten).finish = oneShot seed pieces.flatten) := by
  have hpieces := (hashes_foldl seed pieces).finish_eq
  have hwhole := ((hashes_new seed).write_hashes pieces.flatten).finish_eq
  rw [List.nil_append] at hwhole
  constructor
  · rw [hpieces, hwhole]
  · intro hlength
    rw [hwhole, oneShot_eq hlength]

theorem finish_of_pieces_abc :
    ([[0x61], [], [0x62, 0x63]].foldl write (new 2)).finish = oneShot 2 [0x61, 0x62, 0x63] ∧
      oneShot 2 [0x61, 0x62, 0x63] = 0x32dd92e4b2915153 :=
  ⟨(finish_of_pieces 2 [[0x61], [], [0x62, 0x63]]).1.trans
    ((finish_of_pieces 2 [[0x61], [], [0x62, 0x63]]).2 (by decide)), by decide +kernel⟩

end Wyhash

end Yuke.Ai
