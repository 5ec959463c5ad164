import Yuke.Shared.Utf8Chars

/-!
# The kept output of a command

A command can print without end, so its capture keeps a head and a tail of the output, and a file
with all of it. The text for the model is the whole output, or the head, a marker, and the tail.
-/

set_option autoImplicit false

namespace Yuke.Js

open Yuke.Shared

def checkedSub (a b : Nat) : Option Nat := if b ≤ a then some (a - b) else none

structure Capture where
  head : List UInt8 := []
  tail : List UInt8 := []
  headRoom : Nat
  tailRoom : Nat
  cut : Nat := 0
  path : List Char
  file : Bool := false
  /-- A create or a write of the file failed. The file then stays incomplete. -/
  fileFailed : Bool := false
  deriving DecidableEq

structure Chunk where
  bytes : List UInt8
  opens : Bool := true
  writes : Bool := true
  deriving DecidableEq

namespace Capture

def new (maxBytes : Nat) (path : List Char) : Option Capture :=
  let tailRoom := maxBytes / 2
  (checkedSub maxBytes tailRoom).map fun headRoom => { headRoom, tailRoom, path }

def writeFile (capture : Capture) (chunk : Chunk) : Capture :=
  if capture.fileFailed then capture
  else if capture.file || chunk.opens then
    { capture with file := true, fileFailed := !chunk.writes }
  else { capture with fileFailed := true }

def add (capture : Capture) (chunk : Chunk) : Option Capture :=
  let capture := capture.writeFile chunk
  (checkedSub capture.headRoom capture.head.length).map fun room =>
    let toHead := min chunk.bytes.length room
    let tail := capture.tail ++ chunk.bytes.drop toHead
    let excess := tail.length - capture.tailRoom
    { capture with
      head := capture.head ++ chunk.bytes.take toHead
      tail := tail.drop excess
      cut := capture.cut + excess }

def fileText (capture : Capture) : List Char :=
  if capture.file && !capture.fileFailed then
    "Full output: ".toList ++ capture.path ++
      ". Read it with offset and limit, or run grep with exec.".toList
  else "yuke kept no copy of the full output.".toList

end Capture

/-- The marker at a cut of `cut` bytes, with its line ends. -/
def cutMarker (cut : Nat) (file : List Char) : List Char :=
  "\n[yuke cut ".toList ++ (toString cut).toList ++ " bytes here. ".toList ++ file ++ "]\n".toList

def trimHead (head : List UInt8) : List UInt8 :=
  match fromUtf8 head with
  | .incomplete validUpTo => head.take validUpTo
  | _ => head

def trimTail (tail : List UInt8) : List UInt8 := tail.dropWhile isTrailing

def Capture.finish (capture : Capture) : List Char :=
  if capture.cut = 0 then fromUtf8Lossy (capture.head ++ capture.tail)
  else
    fromUtf8Lossy (trimHead capture.head) ++ cutMarker capture.cut capture.fileText ++
      fromUtf8Lossy (trimTail capture.tail)

def captured (maxBytes : Nat) (path : List Char) (chunks : List Chunk) : Option Capture :=
  (Capture.new maxBytes path).bind fun capture => chunks.foldlM Capture.add capture

inductive Before (bytes : List UInt8) (cut : Nat) : List UInt8 → Prop where
  | whole (h : ∀ before c after, ¬ Crosses bytes cut before c after) :
      Before bytes cut (bytes.take cut)
  | crossed {before after : List UInt8} {c : Char} (h : Crosses bytes cut before c after) :
      Before bytes cut before

inductive After (bytes : List UInt8) (cut : Nat) : List UInt8 → Prop where
  | whole (h : ∀ before c after, ¬ Crosses bytes cut before c after) :
      After bytes cut (bytes.drop cut)
  | crossed {before after : List UInt8} {c : Char} (h : Crosses bytes cut before c after) :
      After bytes cut after

def headRoom (maxBytes : Nat) : Nat := maxBytes - maxBytes / 2

/-- The first byte of the tail of `output`. -/
def tailStart (output : List UInt8) (maxBytes : Nat) : Nat := output.length - maxBytes / 2

/-- `text` is the output under the limit. -/
structure Keeps (output : List UInt8) (maxBytes : Nat) (file text : List Char) : Prop where
  whole : output.length ≤ maxBytes → text = fromUtf8Lossy output
  trimmed : maxBytes < output.length → ∃ head tail,
    Before output (headRoom maxBytes) head ∧ After output (tailStart output maxBytes) tail ∧
    text = fromUtf8Lossy head ++ cutMarker (output.length - maxBytes) file ++ fromUtf8Lossy tail
  /-- A text loses characters at the cut, and gets no other character. -/
  plain : ∀ letters, output = encode letters → maxBytes < output.length →
    ∃ left cut right, letters = left ++ cut ++ right ∧
      text = left ++ cutMarker (output.length - maxBytes) file ++ right

def HeadClean (output : List UInt8) (cut : Nat) : Prop :=
  ((∀ before c after, ¬ Crosses output cut before c after) ∧
    ∀ validUpTo, fromUtf8 (output.take cut) ≠ .incomplete validUpTo) ∨
  ∃ text c after, Crosses output cut (encode text) c after

def TailClean (output : List UInt8) (cut : Nat) : Prop :=
  (∀ b rest, output.drop cut = b :: rest → isTrailing b = false) ∨
  ∃ before c after, Crosses output cut before c after ∧
    ∀ b rest, after = b :: rest → isTrailing b = false

def CutsClean (output : List UInt8) (maxBytes : Nat) : Prop :=
  output.length ≤ maxBytes ∨
  HeadClean output (headRoom maxBytes) ∧ TailClean output (tailStart output maxBytes)

/-- What the capture keeps of `output`. -/
structure Holds (maxBytes : Nat) (output : List UInt8) (capture : Capture) : Prop where
  headRoom : capture.headRoom = headRoom maxBytes
  tailRoom : capture.tailRoom = maxBytes / 2
  head : capture.head = output.take (Js.headRoom maxBytes)
  tail : capture.tail = output.drop (max (Js.headRoom maxBytes) (tailStart output maxBytes))
  cut : capture.cut = output.length - maxBytes

theorem take_congr {bytes : List UInt8} {m n : Nat}
    (h : m = n ∨ bytes.length ≤ m ∧ bytes.length ≤ n) : bytes.take m = bytes.take n := by
  rcases h with rfl | ⟨hm, hn⟩
  · rfl
  · rw [List.take_of_length_le hm, List.take_of_length_le hn]

theorem drop_congr {bytes : List UInt8} {m n : Nat}
    (h : m = n ∨ bytes.length ≤ m ∧ bytes.length ≤ n) : bytes.drop m = bytes.drop n := by
  rcases h with rfl | ⟨hm, hn⟩
  · rfl
  · rw [List.drop_eq_nil_of_le hm, List.drop_eq_nil_of_le hn]

theorem cut_count (room half count more : Nat) :
    count - (room + half) +
      (count - max room (count - half) + (more - min more (room - min room count)) - half) =
        count + more - (room + half) := by
  rcases Nat.le_total count room with h | h
  · have hall : min room count = count := Nat.min_eq_right h
    have hnone : count - max room (count - half) = 0 := by omega
    rw [hall, hnone]
    omega
  · have hfull : min room count = room := Nat.min_eq_left h
    rw [hfull, Nat.sub_self, Nat.min_zero, Nat.sub_zero]
    rcases Nat.le_total room (count - half) with h' | h'
    · rw [Nat.max_eq_right h']
      omega
    · rw [Nat.max_eq_left h']
      omega

theorem tail_count (room half count more : Nat) :
    let toHead := min more (room - min room count)
    let start := max room (count - half)
    let excess := count - start + (more - toHead) - half
    let start' := max room (count + more - half)
    (start + excess = start' ∨ count ≤ start + excess ∧ count ≤ start') ∧
      (toHead + (excess - (count - start)) = start' - count ∨
        more ≤ toHead + (excess - (count - start)) ∧ more ≤ start' - count) := by
  intro toHead start excess start'
  rcases Nat.le_total count room with h | h
  · -- The tail is empty, and the head takes the first bytes.
    have hall : min room count = count := Nat.min_eq_right h
    have hstart : start = room := Nat.max_eq_left (by omega)
    have htoHead : toHead = min more (room - count) := by rw [← hall]
    rcases Nat.le_total more (room - count) with h' | h' <;> omega
  · have hfull : min room count = room := Nat.min_eq_left h
    have htoHead : toHead = 0 := by omega
    rcases Nat.le_total room (count - half) with h' | h' <;> omega

theorem new_holds (maxBytes : Nat) (path : List Char) :
    ∃ capture, Capture.new maxBytes path = some capture ∧ Holds maxBytes [] capture := by
  have hle : maxBytes / 2 ≤ maxBytes := Nat.div_le_self ..
  refine ⟨{ headRoom := headRoom maxBytes, tailRoom := maxBytes / 2, path }, ?_, ?_⟩
  · simp [Capture.new, checkedSub, hle, headRoom]
  · constructor <;> simp

theorem writeFile_kept (capture : Capture) (chunk : Chunk) :
    (capture.writeFile chunk).head = capture.head ∧ (capture.writeFile chunk).tail = capture.tail ∧
    (capture.writeFile chunk).headRoom = capture.headRoom ∧
    (capture.writeFile chunk).tailRoom = capture.tailRoom ∧
    (capture.writeFile chunk).cut = capture.cut := by
  unfold Capture.writeFile
  split
  · exact ⟨rfl, rfl, rfl, rfl, rfl⟩
  · split <;> exact ⟨rfl, rfl, rfl, rfl, rfl⟩

theorem add_holds {maxBytes : Nat} {output : List UInt8} {capture : Capture}
    (h : Holds maxBytes output capture) (chunk : Chunk) :
    ∃ next, capture.add chunk = some next ∧ Holds maxBytes (output ++ chunk.bytes) next := by
  obtain ⟨hhead, htail, hheadRoom, htailRoom, hcut⟩ := writeFile_kept capture chunk
  have hroom : capture.head.length ≤ capture.headRoom := by
    rw [h.head, h.headRoom, List.length_take]
    exact Nat.min_le_left ..
  have hsum : headRoom maxBytes + maxBytes / 2 = maxBytes := by
    unfold headRoom
    omega
  have hheadLen : capture.head.length = min (headRoom maxBytes) output.length := by
    rw [h.head, List.length_take]
  have htailLen : capture.tail.length =
      output.length - max (headRoom maxBytes) (tailStart output maxBytes) := by
    rw [h.tail, List.length_drop]
  have hcutEq := h.cut
  unfold Capture.add checkedSub
  dsimp only
  rw [hhead, htail, hheadRoom, htailRoom, hcut, if_pos hroom, h.headRoom, h.tailRoom]
  refine ⟨_, rfl, ?_⟩
  unfold tailStart at htailLen
  constructor
  · rfl
  · rfl
  · dsimp only
    rw [List.take_append, ← h.head, hheadLen]
    congr 1
    refine take_congr ?_
    omega
  · dsimp only
    rw [List.drop_append, List.drop_append, List.drop_drop, h.tail, List.drop_drop, ← h.tail]
    unfold tailStart
    simp only [List.length_append, List.length_drop]
    rw [htailLen, hheadLen]
    obtain ⟨hold, hnew⟩ :=
      tail_count (headRoom maxBytes) (maxBytes / 2) output.length chunk.bytes.length
    rw [drop_congr hold, drop_congr hnew]
  · simp only [List.length_append, List.length_drop]
    rw [hcutEq, htailLen, hheadLen]
    have hcount := cut_count (headRoom maxBytes) (maxBytes / 2) output.length chunk.bytes.length
    rwa [hsum] at hcount

end Yuke.Js
