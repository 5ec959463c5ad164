import Yuke.Store.Context

/-!
# The load agrees with the replay

The rows of a session hold its saved events, and the load of the rows gives what the replay of the
events gives.
-/

set_option autoImplicit false

namespace Yuke.Store

open Yuke.Ai (Block)
open Yuke.Engine (Commit)
open Yuke.Protocol
open Yuke.Agent
open Yuke.Shared (Edit Increasing orderBy exists_split_of_getLast?_filter)

def commitOf : SessionEvent → Option (Commit × List ConsumedInput)
  | .commit commit consumed => some (commit, consumed)
  | .settings _ => none

def savedCommits (events : List SessionEvent) : List (Commit × List ConsumedInput) :=
  events.filterMap commitOf

@[simp] theorem savedCommits_concat_settings (events : List SessionEvent)
    (settings : SessionSettings) :
    savedCommits (events ++ [.settings settings]) = savedCommits events := by
  rw [savedCommits, List.filterMap_append, savedCommits]
  exact List.append_nil _

@[simp] theorem savedCommits_concat_commit (events : List SessionEvent) (commit : Commit)
    (consumed : List ConsumedInput) :
    savedCommits (events ++ [.commit commit consumed]) =
      savedCommits events ++ [(commit, consumed)] := by
  rw [savedCommits, List.filterMap_append]
  rfl

def counts (commit : Commit) : Bool := commit.answer.isSome || commit.replaced.isSome

theorem replayed_context (events : List SessionEvent) :
    (Replayed.of events).context =
      Edit.replay [] ((savedCommits events).map fun saved => commitEdit saved.1) := by
  induction events using List.reverseRecOn with
  | nil => rfl
  | append_singleton events event ih =>
    cases event with
    | settings settings => simpa [Replayed.next] using ih
    | commit commit consumed => simp [Replayed.next, ih, apply_commitEdit]

theorem replayed_newestTurn (events : List SessionEvent) :
    (Replayed.of events).newestTurn =
      (savedCommits events).getLast?.elim .empty fun saved => .ofEnd saved.1.end := by
  induction events using List.reverseRecOn with
  | nil => rfl
  | append_singleton events event ih =>
    cases event with
    | settings settings => simpa [Replayed.next] using ih
    | commit commit consumed => simp [Replayed.next]

theorem replayed_inputTokens (events : List SessionEvent) :
    (Replayed.of events).inputTokens =
      (((savedCommits events).filter fun saved => counts saved.1).getLast?.map fun saved =>
        saved.1.answer.bind fun answer => answer.usage.input).join := by
  induction events using List.reverseRecOn with
  | nil => rfl
  | append_singleton events event ih =>
    cases event with
    | settings settings => simpa [Replayed.next] using ih
    | commit commit consumed =>
      cases hanswer : commit.answer <;> cases hreplaced : commit.replaced <;>
        simp [Replayed.next, counts, inputTokensAfter, hanswer, hreplaced, ih]

/-! ## The rows of a session -/

/-- The numbers and the columns of the rows that save `events`. -/
def entries (events : List SessionEvent) : List (Nat × EventColumns) :=
  (events.zipIdx 1).map fun entry => (entry.2, columnsOf entry.1)

/-- The event rows of the session save `events`. -/
def Keeps (db : Database) (id : SessionId) (events : List SessionEvent) : Prop :=
  (db.eventsOf id).map (fun row => (row.seq, row.columns)) = entries events

theorem entries_concat (events : List SessionEvent) (event : SessionEvent) :
    entries (events ++ [event]) = entries events ++ [(events.length + 1, columnsOf event)] := by
  simp [entries, List.zipIdx_append, Nat.add_comm]

theorem map_columns_entries (events : List SessionEvent) :
    (entries events).map Prod.snd = events.map columnsOf := by
  simp only [entries, List.map_map]
  rw [← List.zipIdx_map_fst 1 events, List.map_map]
  simp [Function.comp_def]

namespace Keeps

variable {db : Database} {id : SessionId} {events : List SessionEvent}

theorem columns (h : Keeps db id events) :
    (db.eventsOf id).map EventRow.columns = events.map columnsOf := by
  rw [← map_columns_entries, ← h, List.map_map]
  rfl

theorem seqs (h : Keeps db id events) :
    (db.eventsOf id).map EventRow.seq = List.range' 1 events.length := by
  have hseq := congrArg (List.map Prod.fst) h
  rw [List.map_map] at hseq
  rw [← List.zipIdx_map_snd 1 events]
  simpa [entries, List.map_map, Function.comp_def] using hseq

theorem increasing (h : Keeps db id events) : Increasing EventRow.seq (db.eventsOf id) := by
  have hseqs : ((db.eventsOf id).map EventRow.seq).Pairwise (· < ·) := by
    rw [h.seqs]
    exact List.pairwise_lt_range'
  exact List.pairwise_map.mp hseqs

theorem commits (h : Keeps db id events) :
    (db.commitsOf id).map EventRow.columns =
      (savedCommits events).map fun saved => commitParams saved.1 saved.2 := by
  have hfilter : (db.commitsOf id).map EventRow.columns =
      (events.map columnsOf).filter fun columns => columns.kind = .commit := by
    rw [← h.columns, List.filter_map]
    rfl
  rw [hfilter]
  clear h hfilter
  induction events using List.reverseRecOn with
  | nil => rfl
  | append_singleton events event ih =>
    rw [List.map_append, List.filter_append, ih]
    cases event with
    | settings settings => simp [columnsOf]
    | commit commit consumed => simp [columnsOf, commitParams]

theorem commits_increasing (h : Keeps db id events) :
    Increasing EventRow.seq (db.commitsOf id) :=
  h.increasing.filter _

theorem mem_commits (h : Keeps db id events) {row : EventRow} (hrow : row ∈ db.commitsOf id) :
    ∃ commit consumed, row.columns = commitParams commit consumed := by
  have hmem := List.mem_map_of_mem (f := EventRow.columns) hrow
  rw [h.commits] at hmem
  obtain ⟨saved, _, hsaved⟩ := List.mem_map.mp hmem
  exact ⟨saved.1, saved.2, hsaved.symm⟩

theorem blocks_isSome (h : Keeps db id events) :
    ∀ row ∈ db.commitsOf id, row.columns.blocks.isSome := by
  intro row hrow
  obtain ⟨commit, consumed, hcolumns⟩ := h.mem_commits hrow
  rw [hcolumns]
  rfl

theorem edits (h : Keeps db id events) :
    (db.commitsOf id).map (·.columns.edit) =
      (savedCommits events).map fun saved => commitEdit saved.1 := by
  have hedits := congrArg (List.map EventColumns.edit) h.commits
  rw [List.map_map, List.map_map] at hedits
  rw [← Function.comp_def, hedits]
  exact List.map_congr_left fun saved _ => edit_commitParams saved.1 saved.2

theorem context (h : Keeps db id events) :
    ∃ start older newer, db.commitsOf id = older ++ newer ∧
      replacedStart db id (db.newestReplacement id) = .ok start ∧
      db.commitsFrom id ((db.newestReplacement id).elim 0 EventRow.seq) = newer ∧
      (newer = [] → older = []) ∧
      start ++ (newer.map (·.columns.edit.added)).flatten = (Replayed.of events).context := by
  have hnewest : db.newestReplacement id =
      ((db.commitsOf id).filter fun row => row.columns.keep.isSome).getLast? := by
    rw [Database.newestReplacement, (h.commits_increasing.filter _).head?_orderByDesc]
  have hfrom : ∀ first, db.commitsFrom id first =
      (db.commitsOf id).filter fun row => first ≤ row.seq := by
    intro first
    rw [Database.commitsFrom, (h.commits_increasing.filter _).orderBy_eq]
  have hcut : ∀ row ∈ db.commitsOf id, row.columns.keep.isSome = false →
      row.columns.edit.cut = none := by
    intro row _ hkeep
    have hnone : row.columns.keep = none := by simpa using hkeep
    simp [EventColumns.edit, hnone]
  rw [replayed_context, ← h.edits]
  cases hreplacement : db.newestReplacement id with
  | none =>
    rw [hreplacement] at hnewest
    have hempty : (db.commitsOf id).filter (fun row => row.columns.keep.isSome) = [] :=
      List.getLast?_eq_none_iff.mp hnewest.symm
    refine ⟨[], [], db.commitsOf id, rfl, rfl, ?_, fun _ => rfl, ?_⟩
    · rw [hfrom]
      exact List.filter_eq_self.mpr fun row _ => by simp
    · rw [Edit.replay_of_not_cut]
      · simp [Function.comp_def]
      · intro edit hedit
        obtain ⟨row, hrow, rfl⟩ := List.mem_map.mp hedit
        exact hcut row hrow (by simpa using List.filter_eq_nil_iff.mp hempty row hrow)
  | some row =>
    rw [hreplacement] at hnewest
    obtain ⟨older, newer, hsplit, hkeep, hnewer⟩ :=
      exists_split_of_getLast?_filter hnewest.symm
    have hmem : row ∈ db.commitsOf id := by simp [hsplit]
    obtain ⟨commit, consumed, hcolumns⟩ := h.mem_commits hmem
    obtain ⟨replaced, hreplaced⟩ : ∃ replaced, commit.replaced = some replaced := by
      cases hr : commit.replaced with
      | none => simp [hcolumns, commitParams, hr] at hkeep
      | some replaced => exact ⟨replaced, rfl⟩
    have hhead : row.columns.head = some replaced.head := by
      simp [hcolumns, commitParams, hreplaced]
    have hcount : row.columns.keep = some replaced.keep := by
      simp [hcolumns, commitParams, hreplaced]
    have hedit : row.columns.edit.cut = some (replaced.head, replaced.keep) := by
      simp [EventColumns.edit, hhead, hcount]
    have hkept := kept_eq h.commits_increasing h.blocks_isSome hsplit replaced.keep
    refine ⟨replaced.head ++ Edit.last (older.reverse.map (·.columns.edit)) replaced.keep,
      older, row :: newer, hsplit, ?_, ?_, by simp, ?_⟩
    · simp only [replacedStart, hhead, hcount, hkept, ok_bind]
      rfl
    · rw [hfrom, hsplit]
      have hseq := h.commits_increasing
      rw [hsplit] at hseq
      exact hseq.filter_ge
    · have hmap : (older ++ row :: newer).map (·.columns.edit) =
          older.map (·.columns.edit) ++ row.columns.edit :: newer.map (·.columns.edit) := by
        simp
      have hlater : ∀ edit ∈ newer.map (·.columns.edit), edit.cut = none := by
        intro edit hedit
        obtain ⟨after, hafter, rfl⟩ := List.mem_map.mp hedit
        exact hcut after (by simp [hsplit, hafter]) (hnewer after hafter)
      rw [hsplit, hmap, Edit.replay_cut hedit hlater, ← List.map_reverse]
      simp [Function.comp_def]

theorem newestTurn (h : Keeps db id events) :
    Store.newestTurn (db.commitsOf id).getLast? = .ok (Replayed.of events).newestTurn := by
  have hlast := congrArg List.getLast? h.commits
  rw [List.getLast?_map, List.getLast?_map] at hlast
  rw [replayed_newestTurn]
  cases hsaved : (savedCommits events).getLast? with
  | none =>
    rw [hsaved] at hlast
    rw [Option.map_eq_none_iff.mp hlast]
    rfl
  | some saved =>
    rw [hsaved] at hlast
    obtain ⟨row, hrow, hcolumns⟩ := Option.map_eq_some_iff.mp hlast
    have hturn := turnEnd_endColumns saved.1.end
    simp only [hrow, Store.newestTurn, hcolumns, commitParams, hturn]
    rfl

theorem inputTokens (h : Keeps db id events) :
    (db.newestInputTokens id).join = (Replayed.of events).inputTokens := by
  have hfilter : ((db.commitsOf id).filter fun row =>
        row.columns.model.isSome || row.columns.keep.isSome).map EventRow.columns =
      ((savedCommits events).filter fun saved => counts saved.1).map
        fun saved => commitParams saved.1 saved.2 := by
    have hmap := congrArg (List.filter fun columns : EventColumns =>
      columns.model.isSome || columns.keep.isSome) h.commits
    rw [List.filter_map, List.filter_map] at hmap
    simpa [Function.comp_def, commitParams, counts] using hmap
  have hlast := congrArg List.getLast? hfilter
  rw [List.getLast?_map, List.getLast?_map] at hlast
  have htokens := congrArg (Option.map EventColumns.inputTokens) hlast
  rw [Option.map_map, Option.map_map] at htokens
  rw [replayed_inputTokens, Database.newestInputTokens,
    (h.commits_increasing.filter _).head?_orderByDesc]
  change (Option.map (EventColumns.inputTokens ∘ EventRow.columns) _).join = _
  rw [htokens]
  congr 2
  funext saved
  cases hanswer : saved.1.answer <;> simp [commitParams, hanswer]

theorem load (h : Keeps db id events) {row : SessionRow} (hrow : db.sessionRow id = some row) :
    Store.load db id = .ok (some {
      id := id
      settings := row.settings
      prompt := row.prompt
      parent := row.parent
      context := (Replayed.of events).context
      newestTurn := (Replayed.of events).newestTurn
      inputTokens := (Replayed.of events).inputTokens
      lease := none }) := by
  obtain ⟨start, older, newer, hsplit, hstart, hfrom, hempty, hcontext⟩ := h.context
  have hblocks : newer.mapM (fun row => required row.columns.blocks "blocks") =
      .ok (newer.map (·.columns.edit.added)) := by
    have hsome : ∀ row ∈ newer, row.columns.blocks.isSome := fun row hrow =>
      h.blocks_isSome row (by simp [hsplit, hrow])
    clear hsplit hfrom hempty hcontext
    induction newer with
    | nil => rfl
    | cons row newer ih =>
      obtain ⟨blocks, hrow⟩ := Option.isSome_iff_exists.mp (hsome row List.mem_cons_self)
      rw [List.mapM_cons, ih fun r hr => hsome r (List.mem_cons_of_mem _ hr), hrow]
      simp [required, EventColumns.edit, hrow]
  have hlast : newer.getLast? = (db.commitsOf id).getLast? := by
    rcases List.eq_nil_or_concat newer with hnil | ⟨front, last, hconcat⟩
    · rw [hsplit, hempty hnil, hnil]
      rfl
    · rw [hsplit, hconcat]
      simp
  simp only [Store.load, hrow, hstart, hfrom, hblocks, hlast, h.newestTurn, h.inputTokens,
    hcontext, ok_bind]
  rfl

end Keeps

end Yuke.Store
