import Yuke.Agent.History
import Yuke.Store.Sound

/-!
# The cut of a fork

A fork copies the events up to the end of a completed turn, or the settings before the first commit.
Both stores find the same cut.
-/

set_option autoImplicit false

namespace Yuke.Store

open Yuke.Engine (Commit)
open Yuke.Protocol
open Yuke.Agent
open Yuke.Shared (Increasing orderBy orderByDesc)

/-- Whether event `n` ends a completed turn. -/
def EndsCompletedTurn (events : List SessionEvent) (n : Nat) : Prop :=
  0 < n ∧ ∃ commit consumed finishReason, events[n - 1]? = some (.commit commit consumed) ∧
    commit.end = some (.outcome (.completed finishReason))

/-- The events that a fork copies are the first `cut` ones. -/
inductive Cuts (events : List SessionEvent) : Option EventNumber → Nat → Prop where
  | through {n : EventNumber} : EndsCompletedTurn events n.number → Cuts events (some n) n.number
  | newest {cut : Nat} : EndsCompletedTurn events cut →
    (∀ n, EndsCompletedTurn events n → n ≤ cut) → Cuts events none cut
  | first {cut : Nat} : (∀ n, ¬ EndsCompletedTurn events n) → cut ≤ events.length →
    (∀ event ∈ events.take cut, commitOf event = none) →
    (∀ event, events[cut]? = some event → (commitOf event).isSome) → Cuts events none cut

theorem EndsCompletedTurn.le {events : List SessionEvent} {n : Nat} (h : EndsCompletedTurn events n) :
    n ≤ events.length := by
  obtain ⟨hpos, commit, consumed, _, hevent, _⟩ := h
  have hlt := (List.getElem?_eq_some_iff.mp hevent).1
  omega

namespace Cuts

variable {events : List SessionEvent} {through : Option EventNumber} {cut : Nat}

theorem le (h : Cuts events through cut) : cut ≤ events.length := by
  cases h with
  | through h => exact h.le
  | newest h _ => exact h.le
  | first _ h _ _ => exact h

theorem pos (h : Cuts events through cut)
    (hfirst : ∃ settings, events.head? = some (.settings settings)) : 0 < cut := by
  cases h with
  | through h => exact h.1
  | newest h _ => exact h.1
  | first _ _ _ hnext =>
    obtain ⟨settings, hsettings⟩ := hfirst
    rw [List.head?_eq_getElem?] at hsettings
    apply Nat.pos_of_ne_zero
    intro hzero
    subst hzero
    have hcommit := hnext _ hsettings
    cases hcommit

theorem newestTurn (h : Cuts events through cut) :
    (Replayed.of (events.take cut)).newestTurn = .empty ∨ ∃ finishReason,
      (Replayed.of (events.take cut)).newestTurn = .ended (.outcome (.completed finishReason)) := by
  have hends : EndsCompletedTurn events cut → ∃ finishReason,
      (Replayed.of (events.take cut)).newestTurn = .ended (.outcome (.completed finishReason)) := by
    intro ⟨hpos, commit, consumed, finishReason, hevent, hend⟩
    have hsplit : events.take cut = events.take (cut - 1) ++ [.commit commit consumed] := by
      have hsucc : cut = cut - 1 + 1 := by omega
      rw [hsucc, List.take_add_one, hevent]
      rfl
    refine ⟨finishReason, ?_⟩
    rw [hsplit, Replayed.of_concat, Replayed.next, hend]
    rfl
  cases h with
  | through h => exact .inr (hends h)
  | newest h _ => exact .inr (hends h)
  | first _ _ hnone _ =>
    left
    have hempty : savedCommits (events.take cut) = [] := by
      apply List.filterMap_eq_nil_iff.mpr
      exact hnone
    rw [replayed_newestTurn, hempty]
    rfl

theorem openCalls (h : Cuts events through cut) (hhistory : DriverHistory events) :
    Yuke.Agent.openCalls (Replayed.of (events.take cut)).context = [] := by
  have hfront : events.take cut <+: events := List.take_prefix cut events
  have hcloses := hhistory.closesAll (events.take cut) hfront
  apply openCalls_of_paired
  apply hcloses.ended
  rcases h.newestTurn with hempty | ⟨finishReason, hended⟩
  · rw [hempty]
    rfl
  · rw [hended]
    rfl

end Cuts

/-! ## The cut in the database -/

namespace Keeps

variable {db : Database} {id : SessionId} {events : List SessionEvent}

theorem event_of_mem (h : Keeps db id events) {row : EventRow} (hrow : row ∈ db.eventsOf id) :
    0 < row.seq ∧ ∃ event, events[row.seq - 1]? = some event ∧ row.columns = columnsOf event := by
  have hentry : (row.seq, row.columns) ∈ entries events := by
    rw [← h]
    exact List.mem_map_of_mem hrow
  obtain ⟨⟨event, n⟩, hmem, heq⟩ := List.mem_map.mp hentry
  obtain ⟨hseq, hcolumns⟩ := Prod.mk.inj heq
  obtain ⟨hle, hevent⟩ := List.mk_mem_zipIdx_iff_le_and_getElem?_sub.mp hmem
  rw [← hseq]
  exact ⟨hle, event, hevent, hcolumns.symm⟩

theorem row_of_event (h : Keeps db id events) {n : Nat} {event : SessionEvent} (hpos : 0 < n)
    (hevent : events[n - 1]? = some event) :
    ∃ row ∈ db.eventsOf id, row.seq = n ∧ row.columns = columnsOf event := by
  have hentry : (n, columnsOf event) ∈ entries events := by
    apply List.mem_map.mpr
    exact ⟨(event, n), List.mk_mem_zipIdx_iff_le_and_getElem?_sub.mpr ⟨hpos, hevent⟩, rfl⟩
  rw [← h] at hentry
  obtain ⟨row, hrow, heq⟩ := List.mem_map.mp hentry
  obtain ⟨hseq, hcolumns⟩ := Prod.mk.inj heq
  exact ⟨row, hrow, hseq, hcolumns⟩

theorem kind_columnsOf (event : SessionEvent) :
    (columnsOf event).kind = .commit ↔ (commitOf event).isSome := by
  cases event with
  | settings settings => simp [columnsOf, commitOf]
  | commit commit consumed => simp [columnsOf, commitParams, commitOf]

theorem endKind_columnsOf (commit : Commit) (consumed : List ConsumedInput) :
    (columnsOf (.commit commit consumed)).endKind = some completedKind ↔
      ∃ finishReason, commit.end = some (.outcome (.completed finishReason)) := by
  change (endColumns commit.end).1 = some completedKind ↔ _
  rcases commit.end with - | (finishReason | - | -) | message <;>
    simp [endColumns, completedKind, stoppedKind, cancelledKind, failedKind]

theorem endsCompletedTurn_iff (h : Keeps db id events) (n : Nat) :
    EndsCompletedTurn events n ↔
      ∃ row ∈ db.commitsOf id, row.seq = n ∧ row.columns.endKind = some completedKind := by
  constructor
  · intro ⟨hpos, commit, consumed, finishReason, hevent, hend⟩
    obtain ⟨row, hrow, hseq, hcolumns⟩ := h.row_of_event hpos hevent
    refine ⟨row, List.mem_filter.mpr ⟨hrow, ?_⟩, hseq, ?_⟩
    · rw [hcolumns]
      rfl
    · rw [hcolumns]
      exact (endKind_columnsOf commit consumed).mpr ⟨finishReason, hend⟩
  · intro ⟨row, hrow, hseq, hend⟩
    obtain ⟨hmem, hkind⟩ := List.mem_filter.mp hrow
    obtain ⟨hpos, event, hevent, hcolumns⟩ := h.event_of_mem hmem
    subst hseq
    rw [hcolumns] at hend hkind
    cases event with
    | settings settings => cases of_decide_eq_true hkind
    | commit commit consumed =>
      obtain ⟨finishReason, hend⟩ := (endKind_columnsOf commit consumed).mp hend
      exact ⟨hpos, commit, consumed, finishReason, hevent, hend⟩

theorem mem_commits_iff (h : Keeps db id events) (n : Nat) :
    (∃ row ∈ db.commitsOf id, row.seq = n) ↔
      0 < n ∧ ∃ event, events[n - 1]? = some event ∧ (commitOf event).isSome := by
  constructor
  · intro ⟨row, hrow, hseq⟩
    obtain ⟨hmem, hkind⟩ := List.mem_filter.mp hrow
    obtain ⟨hpos, event, hevent, hcolumns⟩ := h.event_of_mem hmem
    subst hseq
    rw [hcolumns] at hkind
    exact ⟨hpos, event, hevent, (kind_columnsOf event).mp (of_decide_eq_true hkind)⟩
  · intro ⟨hpos, event, hevent, hcommit⟩
    obtain ⟨row, hrow, hseq, hcolumns⟩ := h.row_of_event hpos hevent
    refine ⟨row, List.mem_filter.mpr ⟨hrow, ?_⟩, hseq⟩
    rw [hcolumns]
    exact decide_eq_true ((kind_columnsOf event).mpr hcommit)

theorem forkCut (h : Keeps db id events) {row : SessionRow} (hrow : db.sessionRow id = some row)
    (hne : events ≠ []) : ∃ cut, db.forkCut id = some (some cut) ∧ Cuts events none cut := by
  simp only [Database.forkCut, hrow, Option.map_some]
  cases hended : (((db.commitsOf id).filter fun row =>
      row.columns.endKind = some completedKind).map EventRow.seq).max? with
  | some cut =>
    refine ⟨cut, rfl, ?_⟩
    obtain ⟨hmem, hmax⟩ := List.max?_eq_some_iff.mp hended
    have hiff : ∀ n, EndsCompletedTurn events n ↔ n ∈ ((db.commitsOf id).filter fun row =>
        row.columns.endKind = some completedKind).map EventRow.seq := by
      intro n
      rw [h.endsCompletedTurn_iff]
      simp only [List.mem_map, List.mem_filter, decide_eq_true_eq]
      constructor
      · intro ⟨row, hrow, hseq, hend⟩
        exact ⟨row, ⟨hrow, hend⟩, hseq⟩
      · intro ⟨row, ⟨hrow, hend⟩, hseq⟩
        exact ⟨row, hrow, hseq, hend⟩
    apply Cuts.newest
    · exact (hiff cut).mpr hmem
    · intro n hn
      exact hmax n ((hiff n).mp hn)
  | none =>
    have hnone : ∀ n, ¬ EndsCompletedTurn events n := by
      intro n hn
      obtain ⟨row, hrow, _, hend⟩ := (h.endsCompletedTurn_iff n).mp hn
      rw [List.max?_eq_none_iff, List.map_eq_nil_iff, List.filter_eq_nil_iff] at hended
      exact hended row hrow (decide_eq_true hend)
    cases hfirst : ((db.commitsOf id).map EventRow.seq).min? with
    | some first =>
      refine ⟨first - 1, rfl, ?_⟩
      obtain ⟨hmem, hmin⟩ := List.min?_eq_some_iff.mp hfirst
      obtain ⟨hpos, event, hevent, hcommit⟩ := (h.mem_commits_iff first).mp (List.mem_map.mp hmem)
      have hlt := (List.getElem?_eq_some_iff.mp hevent).1
      apply Cuts.first hnone
      · omega
      · intro other hother
        obtain ⟨i, hi, hget⟩ := List.getElem_of_mem hother
        rw [List.length_take] at hi
        rw [List.getElem_take] at hget
        by_contra hsome
        have hbefore : i + 1 ∈ (db.commitsOf id).map EventRow.seq := by
          apply List.mem_map.mpr
          apply (h.mem_commits_iff (i + 1)).mpr
          refine ⟨Nat.succ_pos i, other, ?_, Option.isSome_iff_ne_none.mpr hsome⟩
          rw [Nat.add_sub_cancel, ← hget]
          exact List.getElem?_eq_getElem _
        have hle := hmin _ hbefore
        omega
      · intro other hother
        rw [hevent] at hother
        cases hother
        exact hcommit
    | none =>
      have hcommits : ∀ event ∈ events, commitOf event = none := by
        intro event hevent
        obtain ⟨i, hi, hget⟩ := List.getElem_of_mem hevent
        by_contra hsome
        have hrow := (h.mem_commits_iff (i + 1)).mpr ⟨Nat.succ_pos i, event, by
          rw [Nat.add_sub_cancel, ← hget]
          exact List.getElem?_eq_getElem _, Option.isSome_iff_ne_none.mpr hsome⟩
        rw [List.min?_eq_none_iff, List.map_eq_nil_iff] at hfirst
        obtain ⟨row, hrow, _⟩ := hrow
        rw [hfirst] at hrow
        cases hrow
      have hnewest : ((db.eventsOf id).map EventRow.seq).max? = some events.length := by
        have hpos := List.length_pos_iff.mpr hne
        rw [h.seqs, List.max?_eq_some_iff]
        simp only [List.mem_range'_1]
        exact ⟨by omega, fun b hb => by omega⟩
      refine ⟨events.length, by rw [hnewest]; rfl, ?_⟩
      apply Cuts.first hnone le_rfl
      · intro event hevent
        exact hcommits event (List.mem_of_mem_take hevent)
      · intro event hevent
        simp at hevent

theorem forkPoint (h : Keeps db id events) {row : SessionRow} (hrow : db.sessionRow id = some row)
    (hne : events ≠ []) (through : Option EventNumber)
    (hlength : events.length ≤ largestSeq) :
    (∃ cut, db.forkPoint id through = .ok cut ∧ Cuts events through cut) ∨
      (db.forkPoint id through = .error .notACompletedTurn ∧
        ∃ n ∈ through, ¬ EndsCompletedTurn events n.number) := by
  have hhas : db.hasSession id = true := by
    rw [Database.hasSession_iff, hrow]
    rfl
  cases through with
  | some n =>
    have hany : db.endsCompletedTurn id n.number = true ↔ EndsCompletedTurn events n.number := by
      rw [h.endsCompletedTurn_iff, Database.endsCompletedTurn, List.any_eq_true]
      simp only [decide_eq_true_eq]
    by_cases hends : EndsCompletedTurn events n.number
    · left
      refine ⟨n.number, ?_, .through hends⟩
      have hle := hends.le.trans hlength
      simp [Database.forkPoint, Database.ensureSession, hhas, Nat.not_lt.mpr hle, hany.mpr hends]
    · right
      refine ⟨?_, n, rfl, hends⟩
      have hfalse : db.endsCompletedTurn id n.number = false := by
        rw [Bool.eq_false_iff]
        intro htrue
        exact hends (hany.mp htrue)
      simp [Database.forkPoint, Database.ensureSession, hhas, hfalse]
  | none =>
    left
    obtain ⟨cut, hcut, hcuts⟩ := h.forkCut hrow hne
    refine ⟨cut, ?_, hcuts⟩
    rw [Database.forkPoint, hcut]
    rfl

end Keeps

namespace Database

variable {db : Database} {source id : SessionId} {events : List SessionEvent}

/-- The rows of a fork with the first `cut` events. -/
def copiesOf (db : Database) (source id : SessionId) (cut : Nat) : List EventRow :=
  (((db.eventsOf source).take cut).zipIdx (db.lastEvent + 1)).map fun entry =>
    { entry.1 with id := entry.2, sessionId := id }

theorem filter_seq_le (h : Keeps db source events) (cut : Nat) :
    (db.eventsOf source).filter (fun row => row.seq ≤ cut) = (db.eventsOf source).take cut := by
  have hseqs := h.seqs
  have hlength : (db.eventsOf source).length = events.length := by
    simpa using congrArg List.length hseqs
  have hget : ∀ i (hi : i < (db.eventsOf source).length), ((db.eventsOf source)[i]).seq = i + 1 := by
    intro i hi
    have hi' : i < ((db.eventsOf source).map EventRow.seq).length := by simpa using hi
    have hmap : ((db.eventsOf source).map EventRow.seq)[i] = i + 1 := by
      simp only [hseqs, List.getElem_range']
      omega
    simpa using hmap
  rw [← List.take_append_drop cut (db.eventsOf source), List.filter_append,
    List.take_append_drop]
  have htake : ((db.eventsOf source).take cut).filter (fun row => row.seq ≤ cut) =
      (db.eventsOf source).take cut := by
    apply List.filter_eq_self.mpr
    intro row hrow
    obtain ⟨i, hi, rfl⟩ := List.getElem_of_mem hrow
    rw [List.length_take] at hi
    rw [List.getElem_take, hget]
    apply decide_eq_true
    omega
  have hdrop : ((db.eventsOf source).drop cut).filter (fun row => row.seq ≤ cut) = [] := by
    apply List.filter_eq_nil_iff.mpr
    intro row hrow hle
    obtain ⟨i, hi, rfl⟩ := List.getElem_of_mem hrow
    have hle := of_decide_eq_true hle
    rw [List.getElem_drop, hget] at hle
    omega
  rw [htake, hdrop, List.append_nil]

theorem keeps_take (h : Keeps db source events) (cut : Nat) :
    ((db.eventsOf source).take cut).map (fun row => (row.seq, row.columns)) =
      entries (events.take cut) := by
  rw [List.map_take, h, entries, entries, ← List.map_take]
  congr 1
  apply List.ext_getElem?
  intro i
  simp only [List.getElem?_zipIdx, List.getElem?_take]
  split
  · rfl
  · rfl

theorem settingsAt_eq (h : Keeps db source events) (cut : Nat) :
    db.settingsAt source cut = (Replayed.of (events.take cut)).settings := by
  have hsub : Increasing EventRow.seq (((db.eventsOf source).take cut).filter fun row =>
      row.columns.kind = .settings) :=
    (h.increasing.sublist (List.take_sublist _ _)).filter _
  have hfilter : ((db.eventsOf source).filter fun row =>
      decide (row.columns.kind = .settings ∧ row.seq ≤ cut)) =
      ((db.eventsOf source).take cut).filter fun row => row.columns.kind = .settings := by
    rw [← filter_seq_le h, List.filter_filter]
    simp only [Bool.decide_and]
  rw [settingsAt, hfilter, hsub.head?_orderByDesc]
  have hkeeps := keeps_take h cut
  generalize (db.eventsOf source).take cut = rows at hkeeps ⊢
  generalize events.take cut = copied at hkeeps ⊢
  clear hsub hfilter
  induction copied using List.reverseRecOn generalizing rows with
  | nil =>
    rw [List.map_eq_nil_iff.mp hkeeps]
    rfl
  | append_singleton copied event ih =>
    rw [entries_concat] at hkeeps
    obtain ⟨before, last, rfl, hbefore, hlast⟩ := List.map_eq_append_iff.mp hkeeps
    obtain ⟨row, rfl, hrow⟩ := List.map_eq_singleton_iff.mp hlast
    obtain ⟨_, hcolumns⟩ := Prod.mk.inj hrow
    rw [Replayed.of_concat, List.filter_append]
    cases event with
    | settings settings =>
      simp [hcolumns, columnsOf, Replayed.next]
    | commit commit consumed =>
      have hkind : row.columns.kind = .commit := by rw [hcolumns]; rfl
      simpa [hkind, Replayed.next] using ih before hbefore

/-! ## The new session -/

/-- The row of a fork with the first `cut` events. -/
def forkRow (db : Database) (row : SessionRow) (id : SessionId) (cut now : Nat) : SessionRow where
  id := id
  prompt := row.prompt
  settings := (db.settingsAt row.id cut).getD row.settings
  title := (row.title.bind fun title => SessionTitle.fromText s!"Fork — {title}").map SessionTitle.text
  forkOf := some row.id
  parent := none
  createdAt := now
  updatedAt := now
  newestEvent := db.lastEvent + cut

def forked (db : Database) (row : SessionRow) (id : SessionId) (cut now : Nat) : Database :=
  { db with
    sessions := db.sessions ++ [db.forkRow row id cut now]
    events := db.events ++ db.copiesOf row.id id cut
    lastEvent := db.lastEvent + cut }

variable {row : SessionRow} {cut now : Nat}

theorem length_copiesOf (h : Keeps db source events) (hcut : cut ≤ events.length) (id : SessionId) :
    (db.copiesOf source id cut).length = cut := by
  have hlength : (db.eventsOf source).length = events.length := by
    simpa using congrArg List.length h.seqs
  rw [copiesOf, List.length_map, List.length_zipIdx, List.length_take, hlength]
  omega

theorem getElem_copiesOf {i : Nat} (hi : i < (db.copiesOf source id cut).length) :
    ((db.copiesOf source id cut)[i]).id = db.lastEvent + 1 + i ∧
      ((db.copiesOf source id cut)[i]).sessionId = id := by
  simp [copiesOf]

theorem increasing_copiesOf : Increasing EventRow.id (db.copiesOf source id cut) := by
  apply List.pairwise_iff_getElem.mpr
  intro i j hi hj hij
  rw [(getElem_copiesOf hi).1, (getElem_copiesOf hj).1]
  omega

theorem bounds_copiesOf (h : Keeps db source events) (hcut : cut ≤ events.length) (id : SessionId) :
    ∀ copy ∈ db.copiesOf source id cut, db.lastEvent < copy.id ∧ copy.id ≤ db.lastEvent + cut ∧
      copy.sessionId = id := by
  intro copy hcopy
  obtain ⟨i, hi, rfl⟩ := List.getElem_of_mem hcopy
  obtain ⟨hid, hsession⟩ := getElem_copiesOf hi
  rw [length_copiesOf h hcut id] at hi
  rw [hid, hsession]
  exact ⟨by omega, by omega, rfl⟩

theorem keeps_copiesOf (h : Keeps db source events) (cut : Nat) (id : SessionId) :
    (db.copiesOf source id cut).map (fun row => (row.seq, row.columns)) =
      entries (events.take cut) := by
  rw [← keeps_take h, copiesOf, List.map_map]
  have hfst := List.zipIdx_map_fst (db.lastEvent + 1) ((db.eventsOf source).take cut)
  conv_rhs => rw [← hfst, List.map_map]
  rfl

theorem fits_forkRow (h : Fits (db.eventsOf source) row events) (hid : row.id = source)
    (hpos : 0 < cut) (hcut : cut ≤ events.length) (id : SessionId) (now : Nat) :
    Fits (db.copiesOf source id cut) (db.forkRow row id cut now) (events.take cut) := by
  have hkeeps : Keeps db source events := h.keeps
  obtain ⟨settings, hfirst⟩ := h.first
  have hhead : (events.take cut).head? = some (.settings settings) := by
    rw [List.head?_take, if_neg hpos.ne']
    exact hfirst
  constructor
  · exact keeps_copiesOf hkeeps cut id
  · exact ⟨settings, hhead⟩
  · have hsome : (Replayed.of (events.take cut)).settings.isSome := by
      cases hcopied : events.take cut with
      | nil => simp [hcopied] at hhead
      | cons event rest =>
        rw [hcopied, List.head?_cons] at hhead
        cases hhead
        exact Replayed.foldl_settings_isSome rfl rest
    obtain ⟨newest, hnewest⟩ := Option.isSome_iff_exists.mp hsome
    rw [forkRow, hid, settingsAt_eq hkeeps, hnewest]
    rfl
  · have hlength := length_copiesOf hkeeps hcut id
    have hlt : cut - 1 < (db.copiesOf source id cut).length := by omega
    rw [List.getLast?_eq_getElem?, hlength, List.getElem?_eq_getElem hlt, Option.map_some,
      (getElem_copiesOf hlt).1]
    congr 1
    change db.lastEvent + 1 + (cut - 1) = db.lastEvent + cut
    omega
  · intro text htext
    obtain ⟨title, _, rfl⟩ := Option.map_eq_some_iff.mp htext
    exact ⟨title, rfl⟩
  · intro other hother
    exact h.cwd other (List.mem_of_mem_take hother)

theorem sound_forked (h : Sound db) (hfits : Fits (db.eventsOf source) row events)
    (hrow : row.id = source) (hid : db.hasSession id = false) (hpos : 0 < cut)
    (hcut : cut ≤ events.length) (hroom : db.lastEvent + cut ≤ largestSeq) :
    Sound (db.forked row id cut now) := by
  have hkeeps : Keeps db source events := hfits.keeps
  subst hrow
  apply h.add (db.forkRow row id cut now)
  · exact hid
  · exact increasing_copiesOf
  · exact bounds_copiesOf hkeeps hcut id
  · rw [length_copiesOf hkeeps hcut id]
  · exact hroom
  · exact ⟨_, fits_forkRow hfits rfl hpos hcut id now⟩

theorem sessions_updateSession_new {change : SessionRow → SessionRow}
    (hid : db.hasSession row.id = false) :
    (db.sessions ++ [row]).map (fun other => if other.id = row.id then change other else other) =
      db.sessions ++ [change row] := by
  rw [List.map_append, List.map_singleton, if_pos rfl]
  congr 1
  apply List.map_congr_left (g := id) _ |>.trans (List.map_id _)
  intro other hother
  rw [if_neg]
  · rfl
  · intro heq
    have hhas : db.hasSession row.id = true := by
      rw [hasSession, List.any_eq_true]
      exact ⟨other, hother, by simp [heq]⟩
    rw [hid] at hhas
    cases hhas

theorem newestEvent_copiesOf (h : Sound db) (hkeeps : Keeps db source events)
    (hid : db.hasSession id = false) (hpos : 0 < cut) (hcut : cut ≤ events.length) :
    ∃ last, (orderByDesc EventRow.seq ((db.events ++ db.copiesOf source id cut).filter fun row =>
      row.sessionId = id)).head? = some last ∧ last.id = db.lastEvent + cut := by
  have hbounds := bounds_copiesOf hkeeps hcut id
  have hevents : (db.events ++ db.copiesOf source id cut).filter (fun row => row.sessionId = id) =
      db.copiesOf source id cut := by
    have hold := h.eventsOf_nil hid
    rw [eventsOf] at hold
    rw [List.filter_append, hold, List.nil_append]
    apply List.filter_eq_self.mpr
    intro copy hcopy
    exact decide_eq_true (hbounds copy hcopy).2.2
  have hlength := length_copiesOf hkeeps hcut id
  have hlt : cut - 1 < (db.copiesOf source id cut).length := by omega
  have hseqs : Increasing EventRow.seq (db.copiesOf source id cut) := by
    have hmap : (db.copiesOf source id cut).map EventRow.seq =
        ((db.eventsOf source).take cut).map EventRow.seq := by
      have hcopies := (keeps_copiesOf hkeeps cut id).trans (keeps_take hkeeps cut).symm
      have hfst := congrArg (List.map Prod.fst) hcopies
      simpa [List.map_map, Function.comp_def] using hfst
    have hsource := List.pairwise_map.mpr (hkeeps.increasing.sublist (List.take_sublist cut _))
    rw [← hmap] at hsource
    exact List.pairwise_map.mp hsource
  refine ⟨(db.copiesOf source id cut)[cut - 1], ?_, ?_⟩
  · rw [hevents, hseqs.head?_orderByDesc, List.getLast?_eq_getElem?, hlength,
      List.getElem?_eq_getElem hlt]
  · rw [(getElem_copiesOf hlt).1]
    omega

theorem copyRows_eq (h : Sound db) (hrow : db.sessionRow source = some row)
    (hkeeps : Keeps db source events) (hid : db.hasSession id = false) (hpos : 0 < cut)
    (hcut : cut ≤ events.length) :
    db.copyRows source id cut now = do
      checkId (db.lastEvent + cut)
      return db.forked row id cut now := by
  obtain ⟨_, rfl⟩ := Sound.mem_of_sessionRow hrow
  have hlength := length_copiesOf hkeeps hcut id
  have hrows : orderBy EventRow.seq ((db.eventsOf row.id).filter fun row => row.seq ≤ cut) =
      (db.eventsOf row.id).take cut := by
    rw [filter_seq_le hkeeps]
    exact (hkeeps.increasing.sublist (List.take_sublist _ _)).orderBy_eq
  generalize hadded : { db.forkRow row id cut now with newestEvent := 0 } = added
  have hcopied : (db.addSession added).copyEvents row.id id cut =
      { db with
        sessions := db.sessions ++ [added]
        events := db.events ++ db.copiesOf row.id id cut
        lastEvent := db.lastEvent + cut } := by
    rw [copyEvents, eventsOf_addSession, hrows]
    have htake : ((db.eventsOf row.id).take cut).length = cut := by
      rw [copiesOf, List.length_map, List.length_zipIdx] at hlength
      exact hlength
    rw [htake]
    rfl
  have hplaced : ((db.addSession added).copyEvents row.id id cut).placeFork id =
      db.forked row id cut now := by
    obtain ⟨last, hlast, hlastId⟩ := newestEvent_copiesOf h hkeeps hid hpos hcut
    have hadded' : added.id = id := by rw [← hadded, forkRow]
    have hid' : db.hasSession added.id = false := by rw [hadded', hid]
    have hnewest : ((db.addSession added).copyEvents row.id id cut).newestEvent id = some last := by
      rw [hcopied]
      exact hlast
    rw [placeFork, hnewest, hcopied]
    simp only [updateSession]
    rw [← hadded', sessions_updateSession_new hid', hlastId, ← hadded]
    rfl
  rw [copyRows, hrow]
  simp only [copySession, hid, Bool.false_eq_true, if_false]
  have hfork : (db.addSession {
      id := id
      prompt := row.prompt
      settings := (db.settingsAt row.id cut).getD row.settings
      title := (row.title.bind fun title =>
        SessionTitle.fromText s!"Fork — {title}").map SessionTitle.text
      forkOf := some row.id
      parent := none
      createdAt := now
      updatedAt := now
      newestEvent := 0 }) = db.addSession added := by
    rw [← hadded]
    rfl
  rw [hfork, hplaced, hcopied]

end Database

end Yuke.Store
