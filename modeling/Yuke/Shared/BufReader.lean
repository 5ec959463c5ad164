import Mathlib

/-!
# A buffered reader and its lines

A reader shows the bytes of its buffer, and fills the buffer with one read when it is empty. How
many bytes a read gives is not known. A reader of lines must give the same lines for all of them.
-/

set_option autoImplicit false

namespace Yuke.Shared

variable {ε : Type}

/-- `rest` are the bytes that the reader did not consume, and the buffer holds the first `buffered`
of them. Read `i` fails, or gives `fills i` bytes more than one. At the end it gives no bytes. -/
structure BufReader (ε : Type) where
  rest : List UInt8
  buffered : ℕ
  turn : ℕ
  fills : ℕ → Except ε ℕ
  buffered_le : buffered ≤ rest.length

namespace BufReader

def new (bytes : List UInt8) (fills : ℕ → Except ε ℕ) : BufReader ε where
  rest := bytes
  buffered := 0
  turn := 0
  fills := fills
  buffered_le := Nat.zero_le _

def fillBuf (reader : BufReader ε) : Except ε (List UInt8 × BufReader ε) :=
  if 0 < reader.buffered then .ok (reader.rest.take reader.buffered, reader)
  else
    match reader.fills reader.turn with
    | .error error => .error error
    | .ok more =>
      let buffered := min (more + 1) reader.rest.length
      .ok (reader.rest.take buffered,
        { rest := reader.rest
          buffered := buffered
          turn := reader.turn + 1
          fills := reader.fills
          buffered_le := Nat.min_le_right .. })

def consume (reader : BufReader ε) (count : ℕ) : BufReader ε where
  rest := reader.rest.drop count
  buffered := reader.buffered - count
  turn := reader.turn
  fills := reader.fills
  buffered_le := by
    have := reader.buffered_le
    rw [List.length_drop]
    omega

@[simp] theorem consume_rest (reader : BufReader ε) (count : ℕ) :
    (reader.consume count).rest = reader.rest.drop count := rfl

@[simp] theorem consume_fills (reader : BufReader ε) (count : ℕ) :
    (reader.consume count).fills = reader.fills := rfl

structure Filled (reader : BufReader ε) (buffer : List UInt8) (filled : BufReader ε) : Prop where
  rest : filled.rest = reader.rest
  fills : filled.fills = reader.fills
  start : ∃ more, reader.rest = buffer ++ more
  nil : buffer = [] → reader.rest = []

theorem filled_of_fillBuf {reader filled : BufReader ε} {buffer : List UInt8}
    (h : reader.fillBuf = .ok (buffer, filled)) : Filled reader buffer filled := by
  unfold fillBuf at h
  split at h
  · next hpos =>
    cases h
    refine ⟨rfl, rfl, ⟨_, (List.take_append_drop ..).symm⟩, ?_⟩
    intro hnil
    have hlen := congrArg List.length hnil
    have hle := reader.buffered_le
    rw [List.length_take, List.length_nil] at hlen
    omega
  · split at h
    · cases h
    · cases h
      refine ⟨rfl, rfl, ⟨_, (List.take_append_drop ..).symm⟩, ?_⟩
      intro hnil
      have hlen := congrArg List.length hnil
      rw [List.length_take, List.length_nil] at hlen
      exact List.length_eq_zero_iff.mp (by omega)

def Steady (reader : BufReader ε) : Prop := ∀ i, ∃ more, reader.fills i = .ok more

theorem Steady.fillBuf {reader : BufReader ε} (h : reader.Steady) :
    ∃ buffer filled, reader.fillBuf = .ok (buffer, filled) := by
  unfold BufReader.fillBuf
  split
  · exact ⟨_, _, rfl⟩
  · obtain ⟨more, hmore⟩ := h reader.turn
    rw [hmore]
    exact ⟨_, _, rfl⟩

theorem Filled.steady {reader filled : BufReader ε} {buffer : List UInt8}
    (h : Filled reader buffer filled) (hsteady : reader.Steady) : filled.Steady := by
  intro i
  rw [h.fills]
  exact hsteady i

theorem Filled.length_consume_lt {reader filled : BufReader ε} {buffer : List UInt8}
    (h : Filled reader buffer filled) (hbuffer : buffer ≠ []) {count : ℕ} (hcount : 0 < count) :
    (filled.consume count).rest.length < reader.rest.length := by
  have hrest : reader.rest ≠ [] := by
    obtain ⟨more, hmore⟩ := h.start
    rw [hmore]
    exact List.append_ne_nil_of_left_ne_nil hbuffer _
  have := List.length_pos_iff.mpr hrest
  rw [consume_rest, h.rest, List.length_drop]
  omega

end BufReader

/-! ## Lines -/

/-- The index of the first `byte`. -/
def position (byte : UInt8) (bytes : List UInt8) : Option ℕ :=
  let before := (bytes.takeWhile (· ≠ byte)).length
  if before < bytes.length then some before else none

/-- The bytes before the first `byte`. -/
def lineOf (byte : UInt8) (bytes : List UInt8) : List UInt8 := bytes.takeWhile (· ≠ byte)

/-- The bytes after the first `byte`. -/
def afterLine (byte : UInt8) (bytes : List UInt8) : List UInt8 :=
  (bytes.dropWhile (· ≠ byte)).drop 1

theorem length_afterLine_lt {byte : UInt8} {bytes : List UInt8} (h : bytes ≠ []) :
    (afterLine byte bytes).length < bytes.length := by
  have hpos := List.length_pos_iff.mpr h
  have hle := (List.dropWhile_suffix (l := bytes) (· ≠ byte)).length_le
  rw [afterLine, List.length_drop]
  omega

/-- The lines of a file. The last line needs no `byte` at its end. -/
def linesOf (byte : UInt8) (bytes : List UInt8) : List (List UInt8) :=
  if _h : bytes = [] then [] else lineOf byte bytes :: linesOf byte (afterLine byte bytes)
termination_by bytes.length
decreasing_by exact length_afterLine_lt _h

section Lines

variable {byte : UInt8} {buffer more : List UInt8}

theorem position_none (h : position byte buffer = none) : ∀ b ∈ buffer, b ≠ byte := by
  unfold position at h
  dsimp only at h
  split at h
  · cases h
  · next hge =>
    have hprefix := List.takeWhile_prefix (l := buffer) (· ≠ byte)
    have hall := hprefix.eq_of_length_le (by omega)
    intro b hb
    rw [← hall] at hb
    simpa using List.mem_takeWhile_imp hb

theorem position_some {i : ℕ} (h : position byte buffer = some i) :
    ∃ after, buffer = lineOf byte buffer ++ byte :: after ∧ (lineOf byte buffer).length = i := by
  unfold position at h
  dsimp only at h
  split at h
  · next hlt =>
    cases h
    cases hdrop : buffer.dropWhile (· ≠ byte) with
    | nil =>
      have hsplit := List.takeWhile_append_dropWhile (p := (· ≠ byte)) (l := buffer)
      rw [hdrop, List.append_nil] at hsplit
      rw [hsplit] at hlt
      omega
    | cons b after =>
      have hb := List.head_dropWhile_not (p := (· ≠ byte)) (l := buffer) (by rw [hdrop]; simp)
      refine ⟨after, ?_, rfl⟩
      have hsplit := List.takeWhile_append_dropWhile (p := (· ≠ byte)) (l := buffer)
      simp only [hdrop, List.head_cons] at hb
      have heq : b = byte := by simpa using hb
      rw [hdrop, heq] at hsplit
      exact hsplit.symm
  · cases h

theorem lineOf_append (h : ∀ b ∈ buffer, b ≠ byte) :
    lineOf byte (buffer ++ more) = buffer ++ lineOf byte more :=
  List.takeWhile_append_of_pos (by simpa using h)

theorem afterLine_append (h : ∀ b ∈ buffer, b ≠ byte) :
    afterLine byte (buffer ++ more) = afterLine byte more := by
  rw [afterLine, List.dropWhile_append_of_pos (by simpa using h), afterLine]

theorem lineOf_end (h : ∀ b ∈ buffer, b ≠ byte) :
    lineOf byte (buffer ++ byte :: more) = buffer := by
  rw [lineOf_append h, lineOf, List.takeWhile_cons]
  simp

theorem afterLine_end (h : ∀ b ∈ buffer, b ≠ byte) :
    afterLine byte (buffer ++ byte :: more) = more := by
  rw [afterLine_append h, afterLine, List.dropWhile_cons]
  simp

theorem not_mem_lineOf (byte : UInt8) (bytes : List UInt8) : ∀ b ∈ lineOf byte bytes, b ≠ byte := by
  intro b hb
  simpa using List.mem_takeWhile_imp hb

end Lines

namespace BufReader

/-- Consume the bytes up to the first `byte`, and that one. -/
def skipUntil (byte : UInt8) (reader : BufReader ε) : Except ε (BufReader ε) :=
  match _h : reader.fillBuf with
  | .error error => .error error
  | .ok (buffer, filled) =>
    if _hbuffer : buffer = [] then .ok filled
    else
      match position byte buffer with
      | some i => .ok (filled.consume (i + 1))
      | none => skipUntil byte (filled.consume buffer.length)
termination_by reader.rest.length
decreasing_by
  exact (filled_of_fillBuf _h).length_consume_lt _hbuffer (List.length_pos_iff.mpr _hbuffer)

theorem skipUntil_rest {byte : UInt8} {reader after : BufReader ε}
    (h : reader.skipUntil byte = .ok after) :
    after.rest = afterLine byte reader.rest ∧ after.fills = reader.fills := by
  induction hlen : reader.rest.length using Nat.strong_induction_on generalizing reader with
  | _ length ih =>
    unfold skipUntil at h
    split at h
    · cases h
    · next buffer filled hfill =>
      have hfilled := filled_of_fillBuf hfill
      obtain ⟨more, hmore⟩ := hfilled.start
      split at h
      · next hnil =>
        cases h
        refine ⟨?_, hfilled.fills⟩
        rw [hfilled.rest, hfilled.nil hnil]
        rfl
      · next hne =>
        split at h
        · next i hposition =>
          obtain ⟨after, hbuffer, hi⟩ := position_some hposition
          cases h
          refine ⟨?_, hfilled.fills⟩
          rw [consume_rest, hfilled.rest, hmore, hbuffer, List.append_assoc, List.cons_append,
            afterLine_end (not_mem_lineOf byte buffer), ← hi, List.drop_length_add_append]
          rfl
        · next hposition =>
          have hlt := hfilled.length_consume_lt hne (List.length_pos_iff.mpr hne)
          obtain ⟨hrest, hfills⟩ := ih _ (hlen ▸ hlt) h rfl
          refine ⟨?_, hfills.trans hfilled.fills⟩
          rw [hrest, consume_rest, hfilled.rest, hmore, List.drop_left,
            afterLine_append (position_none hposition)]

theorem Steady.skipUntil {reader : BufReader ε} (h : reader.Steady) (byte : UInt8) :
    ∃ after, reader.skipUntil byte = .ok after := by
  induction hlen : reader.rest.length using Nat.strong_induction_on generalizing reader with
  | _ length ih =>
    unfold BufReader.skipUntil
    split
    · next error herror =>
      obtain ⟨buffer, filled, hfill⟩ := h.fillBuf
      rw [hfill] at herror
      cases herror
    · next buffer filled hfill =>
      have hfilled := filled_of_fillBuf hfill
      split
      · exact ⟨_, rfl⟩
      · next hne =>
        split
        · exact ⟨_, rfl⟩
        · have hlt := hfilled.length_consume_lt hne (List.length_pos_iff.mpr hne)
          exact ih _ (hlen ▸ hlt) (hfilled.steady h) rfl

end BufReader

end Yuke.Shared
