import Mathlib

/-!
# The end of a list, read from the log of its edits

An edit may cut the list, which keeps its last entries behind a new head, and then adds entries. A
log of edits gives the list when it is replayed from the first edit to the last. Its last entries
also follow from the log read backwards, without the lists in between.
-/

set_option autoImplicit false

namespace Yuke.Shared

variable {α : Type}

theorem rtake_append (xs ys : List α) (n : Nat) :
    (xs ++ ys).rtake n = xs.rtake (n - ys.length) ++ ys.rtake n := by
  have hcut : xs.length + ys.length - n - xs.length = ys.length - n := by omega
  rcases Nat.le_total n ys.length with h | h
  · have hall : xs.length ≤ xs.length + ys.length - n := by omega
    have hzero : n - ys.length = 0 := by omega
    simp [List.rtake, List.drop_append, hcut, List.drop_eq_nil_of_le hall, hzero]
  · have hn : xs.length + ys.length - n = xs.length - (n - ys.length) := by omega
    rw [List.rtake, List.length_append, List.drop_append, hcut, hn]
    rfl

@[simp] theorem length_rtake (xs : List α) (n : Nat) : (xs.rtake n).length = min n xs.length := by
  rw [List.rtake, List.length_drop]
  omega

theorem rtake_rtake (xs : List α) (m n : Nat) : (xs.rtake m).rtake n = xs.rtake (min n m) := by
  rw [List.rtake, length_rtake, List.rtake, List.rtake, List.drop_drop]
  congr 1
  omega

structure Edit (α : Type) where
  cut : Option (List α × Nat)
  added : List α

namespace Edit

def apply (edit : Edit α) (xs : List α) : List α :=
  (match edit.cut with
    | some (head, keep) => head ++ xs.rtake keep
    | none => xs) ++ edit.added

def replay (xs : List α) (edits : List (Edit α)) : List α :=
  edits.foldl (fun xs edit => edit.apply xs) xs

@[simp] theorem replay_nil (xs : List α) : replay xs [] = xs := rfl

theorem replay_append (xs : List α) (edits more : List (Edit α)) :
    replay xs (edits ++ more) = replay (replay xs edits) more := by
  simp [replay]

@[simp] theorem replay_concat (xs : List α) (edits : List (Edit α)) (edit : Edit α) :
    replay xs (edits ++ [edit]) = edit.apply (replay xs edits) := by
  simp [replay]

theorem replay_of_not_cut {xs : List α} {edits : List (Edit α)}
    (h : ∀ edit ∈ edits, edit.cut = none) :
    replay xs edits = xs ++ (edits.map Edit.added).flatten := by
  induction edits generalizing xs with
  | nil => simp
  | cons edit edits ih =>
    have hedit : edit.apply xs = xs ++ edit.added := by
      simp [apply, h edit List.mem_cons_self]
    have hrest : replay (edit.apply xs) edits = edit.apply xs ++ (edits.map Edit.added).flatten :=
      ih fun e he => h e (List.mem_cons_of_mem _ he)
    rw [replay, List.foldl_cons, ← replay, hrest, hedit]
    simp

/-- The last `count` entries of the replay of a log. The log comes newest edit first. -/
def last : List (Edit α) → Nat → List α
  | [], _ => []
  | edit :: older, count =>
    let part := edit.added.rtake count
    let missing := count - part.length
    match edit.cut with
    | none => last older missing ++ part
    | some (head, keep) =>
      let kept := last older (min missing keep)
      head.rtake (missing - kept.length) ++ kept ++ part

theorem last_eq (newest : List (Edit α)) (count : Nat) :
    last newest count = (replay [] newest.reverse).rtake count := by
  induction newest generalizing count with
  | nil => simp [last, List.rtake]
  | cons edit older ih =>
    have hmissing : count - min count edit.added.length = count - edit.added.length := by omega
    rw [List.reverse_cons, replay_concat, last, apply, rtake_append, length_rtake, hmissing]
    cases hcut : edit.cut with
    | none => simp only [ih]
    | some cut =>
      obtain ⟨head, keep⟩ := cut
      simp only [ih]
      rw [rtake_append, rtake_rtake, length_rtake, length_rtake, List.append_assoc,
        ← List.append_assoc]
      congr 3
      omega

theorem last_zero (newest : List (Edit α)) : last newest 0 = [] := by
  rw [last_eq, List.rtake, Nat.sub_zero, List.drop_length]

theorem replay_cut {older newer : List (Edit α)} {edit : Edit α} {head : List α} {keep : Nat}
    (hcut : edit.cut = some (head, keep)) (hnewer : ∀ e ∈ newer, e.cut = none) :
    replay [] (older ++ edit :: newer) =
      head ++ last older.reverse keep ++ ((edit :: newer).map Edit.added).flatten := by
  have hlast : last older.reverse keep = (replay [] older).rtake keep := by
    rw [last_eq, List.reverse_reverse]
  have hsplit : older ++ edit :: newer = (older ++ [edit]) ++ newer := by simp
  rw [hsplit, replay_append, replay_concat, replay_of_not_cut hnewer, apply, hcut, hlast]
  simp

end Edit

end Yuke.Shared
