import Yuke.Store.Rows
import Yuke.Shared.Rewind

/-!
# The load of a session

The load reads the context backwards from the newest replacement: its head, the blocks that it
keeps, and the blocks after it.
-/

set_option autoImplicit false

namespace Yuke.Store

open Yuke.Ai (Block)
open Yuke.Engine (Commit Replaced)
open Yuke.Protocol
open Yuke.Agent
open Yuke.Shared (Edit Increasing orderBy)

/-- A replacement on the walk: its head, the number of blocks still missing, and `collected` at that
point. -/
structure Head where
  blocks : List Block
  missing : Nat
  collectedBefore : Nat
  deriving DecidableEq

structure Walk where
  before : Nat
  count : Nat
  collected : Nat := 0
  parts : List (List Block) := []
  heads : List Head := []
  deriving DecidableEq

def Walk.take (walk : Walk) (row : EventRow) (blocks : List Block) : Walk :=
  let part := blocks.drop (blocks.length - walk.count)
  let count := walk.count - part.length
  let collected := walk.collected + part.length
  let walk := { walk with before := row.seq, count, collected, parts := walk.parts ++ [part] }
  match row.columns.head, row.columns.keep with
  | some head, some keep =>
    -- Before its blocks, a replacement commit has its head and at most `keep` earlier blocks.
    if 0 < count then
      { walk with heads := ⟨head, count, collected⟩ :: walk.heads, count := min count keep }
    else walk
  | _, _ => walk

@[simp] theorem Walk.take_before (walk : Walk) (row : EventRow) (blocks : List Block) :
    (walk.take row blocks).before = row.seq := by
  unfold Walk.take
  split
  · dsimp only
    split <;> rfl
  · rfl

def walkBack (db : Database) (session : SessionId) (walk : Walk) : Except SqlError Walk :=
  if 0 < walk.count then
    match _h : db.previousCommit session walk.before with
    | none => .ok walk
    | some row =>
      match required row.columns.blocks "blocks" with
      | .error error => .error error
      | .ok blocks => walkBack db session (walk.take row blocks)
  else .ok walk
termination_by walk.before
decreasing_by
  rw [Walk.take_before]
  exact Database.seq_lt_of_previousCommit _h

def popHeads : List Head → Nat → List (List Block) → List (List Block)
  | [], _, parts => parts
  | head :: heads, collected, parts =>
    let fromHead := head.missing - (collected - head.collectedBefore)
    let part := head.blocks.drop (head.blocks.length - fromHead)
    popHeads heads (collected + part.length) (parts ++ [part])

/-- The last `count` blocks of the context before event `before`, oldest first. -/
def kept (db : Database) (session : SessionId) (before count : Nat) :
    Except SqlError (List Block) := do
  let walk ← walkBack db session { before, count }
  return (popHeads walk.heads walk.collected walk.parts).reverse.flatten

def replacedStart (db : Database) (id : SessionId) (replacement : Option EventRow) :
    Except SqlError (List Block) :=
  match replacement with
  | some row =>
    match row.columns.head, row.columns.keep with
    | some head, some keep => do
      let blocks ← kept db id row.seq keep
      return head ++ blocks
    | _, _ => .ok []
  | none => .ok []

def newestTurn (newest : Option EventRow) : Except SqlError NewestTurn :=
  match newest with
  | none => .ok .empty
  | some row => do
    let ended ← turnEnd row.columns.endKind row.columns.endFinishReason row.columns.endMessage
    return .ofEnd ended

/-- Load session `id` with no lease, or `none` when the database has no such session. -/
def load (db : Database) (id : SessionId) : Except SqlError (Option Opened) :=
  match db.sessionRow id with
  | none => .ok none
  | some row => do
    let replacement := db.newestReplacement id
    let start ← replacedStart db id replacement
    let rows := db.commitsFrom id (replacement.elim 0 EventRow.seq)
    let blocks ← rows.mapM fun row => required row.columns.blocks "blocks"
    let newestTurn ← newestTurn rows.getLast?
    return some {
      id := id
      settings := row.settings
      prompt := row.prompt
      parent := row.parent
      context := start ++ blocks.flatten
      newestTurn := newestTurn
      inputTokens := (db.newestInputTokens id).join
      lease := none }

def EventColumns.edit (columns : EventColumns) : Edit Block where
  cut := columns.head.bind fun head => columns.keep.map fun keep => (head, keep)
  added := columns.blocks.getD []

def commitEdit (commit : Commit) : Edit Block where
  cut := commit.replaced.map fun replaced => (replaced.head, replaced.keep)
  added := commit.blocks

@[simp] theorem edit_commitParams (commit : Commit) (consumed : List ConsumedInput) :
    (commitParams commit consumed).edit = commitEdit commit := by
  unfold EventColumns.edit commitParams commitEdit
  cases commit.replaced <;> rfl

theorem apply_commitEdit (commit : Commit) (context : List Block) :
    (commitEdit commit).apply context = commit.apply context := by
  unfold commitEdit Edit.apply Commit.apply
  cases commit.replaced <;> rfl

/-- The blocks that the heads on the walk still give, once `collected` blocks are there. -/
def headBlocks : List Head → Nat → List Block
  | [], _ => []
  | head :: heads, collected =>
    let part := head.blocks.rtake (head.missing - (collected - head.collectedBefore))
    headBlocks heads (collected + part.length) ++ part

theorem flatten_popHeads (heads : List Head) (collected : Nat) (parts : List (List Block)) :
    (popHeads heads collected parts).reverse.flatten =
      headBlocks heads collected ++ parts.reverse.flatten := by
  induction heads generalizing collected parts with
  | nil => simp [popHeads, headBlocks]
  | cons head heads ih =>
    rw [popHeads, ih, headBlocks, List.reverse_append, List.reverse_singleton]
    simp [List.rtake]

/-- The end of the walk when the commits before it give the blocks `older`. -/
def Walk.close (walk : Walk) (older : List Block) : List Block :=
  headBlocks walk.heads (walk.collected + older.length) ++ older ++ walk.parts.reverse.flatten

theorem Walk.close_take (walk : Walk) (row : EventRow) (blocks : List Block)
    (hblocks : row.columns.blocks = some blocks) (newest : List (Edit Block)) :
    (walk.take row blocks).close (Edit.last newest (walk.take row blocks).count) =
      walk.close (Edit.last (row.columns.edit :: newest) walk.count) := by
  have hadded : row.columns.edit.added = blocks := by simp [EventColumns.edit, hblocks]
  have hpart : blocks.drop (blocks.length - walk.count) = blocks.rtake walk.count := rfl
  have hparts : ∀ part : List Block,
      (walk.parts ++ [part]).reverse.flatten = part ++ walk.parts.reverse.flatten := by
    simp
  unfold Walk.take
  rw [Edit.last, hadded, hpart]
  generalize blocks.rtake walk.count = part
  rcases hhead : row.columns.head with - | head <;> rcases hkeep : row.columns.keep with - | keep
  case some.some =>
    have hcut : row.columns.edit.cut = some (head, keep) := by
      simp [EventColumns.edit, hhead, hkeep]
    rw [hcut]
    dsimp only
    split
    · simp only [Walk.close, headBlocks, hparts]
      generalize Edit.last newest (min (walk.count - part.length) keep) = kept
      have hsub : walk.collected + part.length + kept.length - (walk.collected + part.length) =
          kept.length := by omega
      rw [hsub]
      generalize head.rtake (walk.count - part.length - kept.length) = fromHead
      have hlength : walk.collected + (fromHead ++ kept ++ part).length =
          walk.collected + part.length + kept.length + fromHead.length := by
        simp only [List.length_append]
        omega
      rw [hlength]
      simp
    · next hcount =>
      have hzero : walk.count - part.length = 0 := by omega
      have hhead0 : head.rtake 0 = [] := by simp [List.rtake]
      simp only [Walk.close, hparts, hzero, Nat.zero_min, Nat.zero_sub, Edit.last_zero, hhead0]
      simp
  all_goals
    have hcut : row.columns.edit.cut = none := by simp [EventColumns.edit, hhead, hkeep]
    rw [hcut]
    simp only [Walk.close, hparts]
    generalize Edit.last newest (walk.count - part.length) = kept
    have hlength : walk.collected + (kept ++ part).length =
        walk.collected + part.length + kept.length := by
      rw [List.length_append]
      omega
    rw [hlength]
    simp

theorem walkBack_close {db : Database} {session : SessionId}
    (hseq : Increasing EventRow.seq (db.commitsOf session))
    (hblocks : ∀ row ∈ db.commitsOf session, row.columns.blocks.isSome)
    {older newer : List EventRow} (hsplit : db.commitsOf session = older ++ newer) (walk : Walk)
    (hbefore : (db.commitsOf session).filter (·.seq < walk.before) = older) :
    ∃ last, walkBack db session walk = .ok last ∧
      last.close [] = walk.close (Edit.last (older.reverse.map (·.columns.edit)) walk.count) := by
  induction older using List.reverseRecOn generalizing newer walk with
  | nil =>
    have hnone : db.previousCommit session walk.before = none := by
      rw [Database.previousCommit, (hseq.filter _).head?_orderByDesc, hbefore]
      rfl
    refine ⟨walk, ?_, by simp [Edit.last]⟩
    rw [walkBack]
    split
    · split
      · rfl
      · next h => simp [hnone] at h
    · rfl
  | append_singleton older row ih =>
    rw [List.append_assoc, List.singleton_append] at hsplit
    have hmem : row ∈ db.commitsOf session := by simp [hsplit]
    obtain ⟨blocks, hrow⟩ := Option.isSome_iff_exists.mp (hblocks row hmem)
    by_cases hcount : 0 < walk.count
    · have hprevious : db.previousCommit session walk.before = some row := by
        rw [Database.previousCommit, (hseq.filter _).head?_orderByDesc, hbefore]
        simp
      have hnext : (db.commitsOf session).filter (·.seq < (walk.take row blocks).before) = older := by
        rw [Walk.take_before, hsplit]
        rw [hsplit] at hseq
        exact hseq.filter_lt
      obtain ⟨last, hlast, hclose⟩ := ih hsplit (walk.take row blocks) hnext
      refine ⟨last, ?_, ?_⟩
      · rw [walkBack, if_pos hcount]
        split
        · next h => simp [hprevious] at h
        · next found h =>
          have hfound : found = row := by simpa [hprevious] using h.symm
          subst hfound
          rw [hrow]
          exact hlast
      · rw [hclose, Walk.close_take walk row blocks hrow]
        simp
    · have hzero : walk.count = 0 := by omega
      refine ⟨walk, ?_, ?_⟩
      · rw [walkBack, if_neg hcount]
      · rw [hzero, Edit.last_zero]

theorem kept_eq {db : Database} {session : SessionId}
    (hseq : Increasing EventRow.seq (db.commitsOf session))
    (hblocks : ∀ row ∈ db.commitsOf session, row.columns.blocks.isSome)
    {older newer : List EventRow} {row : EventRow}
    (hsplit : db.commitsOf session = older ++ row :: newer) (count : Nat) :
    kept db session row.seq count = .ok (Edit.last (older.reverse.map (·.columns.edit)) count) := by
  have hbefore : (db.commitsOf session).filter (·.seq < row.seq) = older := by
    rw [hsplit]
    rw [hsplit] at hseq
    exact hseq.filter_lt
  obtain ⟨last, hlast, hclose⟩ := walkBack_close hseq hblocks hsplit { before := row.seq, count } hbefore
  have hend : last.close [] =
      (popHeads last.heads last.collected last.parts).reverse.flatten := by
    simp [Walk.close, flatten_popHeads]
  rw [kept, hlast, ok_bind, ← hend, hclose]
  simp [Walk.close, headBlocks]
  rfl

end Yuke.Store
