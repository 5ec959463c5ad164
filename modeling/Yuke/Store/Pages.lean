import Yuke.Shared.Paging
import Yuke.Store.Reached

/-!
# Pages of both stores

A walk over the pages of a list gives each session once, and the pages before an event give each event
once.
-/

set_option autoImplicit false

namespace Yuke.Store

open Yuke.Protocol
open Yuke.Agent
open Yuke.Shared (Descending Increasing Keyset PageWalk mapM_of_forall₂ orderBy orderByDesc)

def sessionPages (list : Option ListPosition → Except StoreError SessionPage)
    (after : Option ListPosition) : Option (List SessionSummary × Option (Option ListPosition)) :=
  match list after with
  | .ok page => some (page.sessions, page.next.map some)
  | .error _ => none

def eventPages (load : EventPage → Except StoreError Loaded) (limit : Nat)
    (before : Option EventNumber) : Option (List StoredEvent × Option (Option EventNumber)) :=
  match load (.before before limit) with
  | .ok loaded => some (loaded.events, loaded.events.head?.map fun first => some first.eventNumber)
  | .error _ => none

def ListsOnce {ρ : Type} (list : Option ListPosition → Except StoreError SessionPage)
    (rows : List ρ) (newest : ρ → Nat) (summary : ρ → Except StoreError SessionSummary) : Prop :=
  ∃ pages order, PageWalk (sessionPages list) none pages ∧ order.Perm rows ∧ Descending newest order ∧
    order.mapM summary = .ok pages.flatten

def numbered (events : List SessionEvent) : List StoredEvent :=
  (events.zipIdx 1).map fun entry => ⟨⟨entry.2⟩, entry.1⟩

def CoversEvents (load : EventPage → Except StoreError Loaded) (limit : Nat)
    (events : List SessionEvent) : Prop :=
  ∃ pages, PageWalk (eventPages load limit) none pages ∧ pages.reverse.flatten = numbered events

/-! ## Pages of events -/

section

variable {events : List StoredEvent}

/-- The events have the numbers 1, 2, 3, and so on. -/
def Numbered (events : List StoredEvent) : Prop :=
  events.map StoredEvent.eventNumber = (List.range' 1 events.length).map .mk

theorem Numbered.getElem (h : Numbered events) {i : Nat} (hi : i < events.length) :
    events[i].eventNumber.number = i + 1 := by
  have hmap : (events.map StoredEvent.eventNumber)[i]? = some ⟨i + 1⟩ := by
    rw [Numbered] at h
    rw [h, List.getElem?_map, List.getElem?_range' hi, Nat.one_mul, Nat.add_comm]
    rfl
  rw [List.getElem?_map, List.getElem?_eq_getElem hi] at hmap
  exact congrArg EventNumber.number (Option.some.inj hmap)

theorem Numbered.increasing (h : Numbered events) :
    Increasing (fun stored => stored.eventNumber.number) events := by
  apply List.pairwise_iff_getElem.mpr
  intro i j hi hj hij
  have hfirst := h.getElem hi
  have hsecond := h.getElem hj
  change events[i].eventNumber.number < events[j].eventNumber.number
  omega

theorem Numbered.filter_lt (h : Numbered events) (n : Nat) :
    events.filter (fun stored => stored.eventNumber.number < n) = events.take (n - 1) := by
  conv_lhs => rw [← List.take_append_drop (n - 1) events]
  have htake : (events.take (n - 1)).filter (fun stored => stored.eventNumber.number < n) =
      events.take (n - 1) := by
    apply List.filter_eq_self.mpr
    intro stored hstored
    obtain ⟨i, hi, rfl⟩ := List.getElem_of_mem hstored
    rw [List.length_take] at hi
    rw [List.getElem_take, h.getElem]
    apply decide_eq_true
    omega
  have hdrop : (events.drop (n - 1)).filter (fun stored => stored.eventNumber.number < n) = [] := by
    apply List.filter_eq_nil_iff.mpr
    intro stored hstored hlt
    obtain ⟨i, hi, rfl⟩ := List.getElem_of_mem hstored
    have hlt := of_decide_eq_true hlt
    rw [List.getElem_drop, h.getElem] at hlt
    omega
  rw [List.filter_append, htake, hdrop, List.append_nil]

def beforeNumber (before : Option EventNumber) (n : Nat) : Bool :=
  before.all fun before => n < before.number

theorem pageOf_before (h : Numbered events) (before : Option EventNumber) (limit : Nat) :
    MemoryStore.pageOf events (.before before limit) =
      ((events.reverse.filter fun stored =>
        beforeNumber before stored.eventNumber.number).take limit).reverse := by
  have hreverse : ∀ front : List StoredEvent, (front.reverse.take limit).reverse =
      front.drop (front.length - limit) := by
    intro front
    rw [List.take_reverse, List.reverse_reverse]
  cases before with
  | none =>
    have hall : events.reverse.filter (fun stored =>
        beforeNumber none stored.eventNumber.number) = events.reverse :=
      List.filter_eq_self.mpr fun _ _ => rfl
    rw [hall, hreverse, MemoryStore.pageOf]
    simp
  | some before =>
    have hfront : events.reverse.filter (fun stored =>
        beforeNumber (some before) stored.eventNumber.number) =
        (events.take (before.number - 1)).reverse := by
      rw [List.filter_reverse, ← h.filter_lt]
      rfl
    have hmin : events.take (min (before.number - 1) events.length) =
        events.take (before.number - 1) := by
      rw [← List.take_take, List.take_length]
    rw [hfront, hreverse, MemoryStore.pageOf]
    simp only [Option.elim_some, hmin, List.length_take]

theorem keyset_events (h : Numbered events) {limit : Nat} (hlimit : 1 ≤ limit)
    {load : EventPage → Except StoreError Loaded}
    (hload : ∀ before, ∃ pending, load (.before before limit) =
      .ok ⟨MemoryStore.pageOf events (.before before limit), pending⟩) :
    Keyset (eventPages load limit) events.reverse (fun stored => stored.eventNumber.number)
      beforeNumber (fun n => some ⟨n⟩) limit List.reverse := by
  constructor
  · exact Descending.reverse h.increasing
  · intro before
    obtain ⟨pending, hpage⟩ := hload before
    rw [pageOf_before h] at hpage
    generalize hrows : events.reverse.filter (fun stored =>
      beforeNumber before stored.eventNumber.number) = rows at hpage ⊢
    refine ⟨_, by rw [eventPages, hpage], ?_, ?_⟩
    · intro hnone
      rw [Option.map_eq_none_iff, List.head?_eq_none_iff, List.reverse_eq_nil_iff] at hnone
      have hlength := congrArg List.length hnone
      rw [List.length_take, List.length_nil] at hlength
      omega
    · intro following hfollowing
      obtain ⟨first, hfirst, rfl⟩ := Option.map_eq_some_iff.mp hfollowing
      rw [List.head?_reverse] at hfirst
      exact ⟨first, hfirst, rfl⟩
  · intro last _ row _
    rfl
  · intro before last _ row _ hlt hbefore
    cases before with
    | none => rfl
    | some before =>
      have hlast := of_decide_eq_true hbefore
      apply decide_eq_true
      omega

theorem coversEvents (h : Numbered events) {limit : Nat} (hlimit : 1 ≤ limit)
    {load : EventPage → Except StoreError Loaded}
    (hload : ∀ before, ∃ pending, load (.before before limit) =
      .ok ⟨MemoryStore.pageOf events (.before before limit), pending⟩) :
    ∃ pages, PageWalk (eventPages load limit) none pages ∧ pages.reverse.flatten = events := by
  obtain ⟨chunks, hwalk, hflat⟩ := (keyset_events h hlimit hload).walk none
  refine ⟨chunks.map List.reverse, hwalk, ?_⟩
  have hall : events.reverse.filter (fun stored =>
      beforeNumber none stored.eventNumber.number) = events.reverse :=
    List.filter_eq_self.mpr fun _ _ => rfl
  rw [← List.reverse_flatten, hflat, hall, List.reverse_reverse]

end

theorem numbered_numbered (events : List SessionEvent) : Numbered (numbered events) := by
  rw [Numbered, numbered, List.map_map, List.length_map, List.length_zipIdx,
    ← List.zipIdx_map_snd 1 events, List.map_map]
  rfl

theorem numbered_content {events : List StoredEvent} (h : Numbered events) :
    numbered (events.map StoredEvent.event) = events := by
  apply List.ext_getElem
  · simp [numbered]
  · intro i hi hi'
    have hnumber := h.getElem hi'
    simp only [numbered, List.getElem_map, List.getElem_zipIdx]
    rw [Nat.add_comm, ← hnumber]

namespace Keeps

variable {store : SqliteStore} {id : SessionId} {events : List SessionEvent}

theorem forall₂_numbered {db : Database} (h : Keeps db id events) :
    List.Forall₂ (fun row stored => storedEvent row = .ok stored) (db.eventsOf id)
      (numbered events) := by
  have hlength : (db.eventsOf id).length = (numbered events).length := by
    have hseqs := congrArg List.length h.seqs
    simpa [numbered] using hseqs
  apply List.forall₂_iff_get.mpr
  refine ⟨hlength, ?_⟩
  intro i hi hi'
  have hentry : ((db.eventsOf id)[i].seq, (db.eventsOf id)[i].columns) =
      ((numbered events)[i].eventNumber.number, columnsOf (numbered events)[i].event) := by
    have hmap : ((db.eventsOf id).map fun row => (row.seq, row.columns))[i]? =
        (entries events)[i]? := by rw [h]
    have hevents : i < events.length := by simpa [numbered] using hi'
    simpa [entries, numbered, hi, hevents] using hmap
  obtain ⟨hseq, hcolumns⟩ := Prod.mk.inj hentry
  rw [List.get_eq_getElem, List.get_eq_getElem, storedEvent_columnsOf hcolumns, hseq]

theorem eventsPage_eq {db : Database} (h : Keeps db id events) (bound limit : Nat) :
    db.eventsPage id 0 bound (limit : Int) =
      ((db.eventsOf id).take (bound - 1)).drop (((db.eventsOf id).take (bound - 1)).length - limit) := by
  have hfilter : (db.eventsOf id).filter (fun row => 0 < row.seq ∧ row.seq < bound) =
      (db.eventsOf id).take (bound - 1) := by
    rw [← Database.filter_seq_le h]
    apply List.filter_congr
    intro row hrow
    have hpos := (h.event_of_mem hrow).1
    apply decide_eq_decide.mpr
    omega
  have hfront := h.increasing.sublist (List.take_sublist (bound - 1) _)
  simp only [Database.eventsPage]
  rw [hfilter, hfront.orderByDesc_eq, if_neg (Int.not_lt.mpr (Int.natCast_nonneg limit)),
    Int.toNat_natCast, List.take_reverse]
  exact (hfront.sublist (List.drop_sublist _ _)).orderBy_reverse

theorem load_before (h : Keeps store.database id events) (hid : store.database.hasSession id = true)
    (hlength : events.length < largestSeq) (before : Option EventNumber) (limit : Nat) :
    store.load id (.before before limit) =
      .ok ⟨MemoryStore.pageOf (numbered events) (.before before limit),
        store.database.pendingOf id⟩ := by
  have hrows : (store.database.eventsOf id).length = events.length := by
    simpa using congrArg List.length h.seqs
  have hnumbered : (numbered events).length = events.length := by simp [numbered]
  have hpage : store.database.eventsPage id 0
      (before.elim largestSeq fun number => min number.number largestSeq)
      (min limit largestSeq : Nat) =
      ((store.database.eventsOf id).take
        (before.elim events.length fun number => min (number.number - 1) events.length)).drop
        ((before.elim events.length fun number => min (number.number - 1) events.length) - limit) := by
    rw [h.eventsPage_eq, List.length_take, hrows]
    cases before with
    | none =>
      simp only [Option.elim_none]
      rw [List.take_of_length_le (by omega), List.take_of_length_le (by omega)]
      congr 1
      omega
    | some before =>
      simp only [Option.elim_some]
      have htake : (store.database.eventsOf id).take (min before.number largestSeq - 1) =
          (store.database.eventsOf id).take (min (before.number - 1) events.length) := by
        rw [List.take_eq_take_iff]
        omega
      rw [htake]
      congr 1
      omega
  have hread := Yuke.Shared.mapM_of_forall₂ ((List.forall₂_take (before.elim events.length fun
    number => min (number.number - 1) events.length) h.forall₂_numbered) |> List.forall₂_drop
    ((before.elim events.length fun number => min (number.number - 1) events.length) - limit))
  unfold SqliteStore.load
  simp only [Database.ensureSession, hid, if_true]
  rw [hpage, MemoryStore.pageOf, hnumbered]
  change (failed (List.mapM storedEvent _) >>= fun events => _) = _
  rw [hread]
  rfl

end Keeps

def afterPosition (after : Option ListPosition) (n : Nat) : Bool :=
  after.all fun after => n < after.position

section

variable {ρ : Type} {rows : List ρ} {newest : ρ → Nat}
  {summary : ρ → Except StoreError SessionSummary} {limit : Nat}

def pageAfter (rows : List ρ) (newest : ρ → Nat) (render : ρ → SessionSummary) (limit : Nat)
    (after : Option ListPosition) : SessionPage :=
  let left := (orderByDesc newest rows).filter fun row => afterPosition after (newest row)
  { sessions := (left.take limit).map render
    next := if limit < left.length then (left.take limit).getLast?.map fun row => ⟨newest row⟩
      else none }

theorem keyset_sessions (hnewest : (rows.map newest).Nodup) (hlimit : 1 ≤ limit)
    {list : Option ListPosition → Except StoreError SessionPage} {render : ρ → SessionSummary}
    (hlist : ∀ after, list after = .ok (pageAfter rows newest render limit after)) :
    Keyset (sessionPages list) (orderByDesc newest rows) newest afterPosition (fun n => some ⟨n⟩)
      limit (List.map render) := by
  constructor
  · exact .of_orderByDesc hnewest
  · intro after
    generalize hleft : (orderByDesc newest rows).filter (fun row =>
      afterPosition after (newest row)) = left
    refine ⟨_, by rw [sessionPages, hlist, pageAfter, hleft], ?_, ?_⟩
    · intro hnone
      by_contra hmore
      rw [if_pos (by omega), Option.map_eq_none_iff, Option.map_eq_none_iff,
        List.getLast?_eq_none_iff] at hnone
      have hlength := congrArg List.length hnone
      rw [List.length_take, List.length_nil] at hlength
      omega
    · intro following hfollowing
      split at hfollowing
      · obtain ⟨position, hposition, rfl⟩ := Option.map_eq_some_iff.mp hfollowing
        obtain ⟨last, hlast, rfl⟩ := Option.map_eq_some_iff.mp hposition
        exact ⟨last, hlast, rfl⟩
      · cases hfollowing
  · intro last _ row _
    rfl
  · intro after last _ row _ hlt hafter
    cases after with
    | none => rfl
    | some after =>
      have hlast := of_decide_eq_true hafter
      apply decide_eq_true
      omega

theorem listsOnce_of_pages (hnewest : (rows.map newest).Nodup) (hlimit : 1 ≤ limit)
    (render : ρ → SessionSummary) {list : Option ListPosition → Except StoreError SessionPage}
    (hlist : ∀ after, list after = .ok (pageAfter rows newest render limit after))
    (hrender : ∀ row ∈ rows, summary row = .ok (render row)) :
    ListsOnce list rows newest summary := by
  obtain ⟨chunks, hwalk, hflat⟩ := (keyset_sessions hnewest hlimit hlist).walk none
  have hall : (orderByDesc newest rows).filter (fun row => afterPosition none (newest row)) =
      orderByDesc newest rows := List.filter_eq_self.mpr fun _ _ => rfl
  have hperm : (orderByDesc newest rows).Perm rows := List.mergeSort_perm rows _
  refine ⟨_, orderByDesc newest rows, hwalk, hperm, .of_orderByDesc hnewest, ?_⟩
  rw [← List.map_flatten, hflat, hall]
  apply mapM_of_forall₂
  rw [List.forall₂_map_right_iff, List.forall₂_same]
  intro row hrow
  exact hrender row (hperm.mem_iff.mp hrow)

end

end Yuke.Store
