import Yuke.Js.Timers

/-!
# Runs of the timer loop

The log alone says which timers wait and when they are due. Each entry of the log is allowed after
the entries before it.
-/

set_option autoImplicit false

namespace Yuke.Js

open Yuke.Shared

namespace TimerEntry

def isRound : TimerEntry → Bool
  | .round _ => true
  | .set .. | .cleared _ | .started .. | .finished .. | .ended => false

def isStart (id : Nat) : TimerEntry → Bool
  | .started other _ _ => other = id
  | .set .. | .cleared _ | .round _ | .finished .. | .ended => false

def about : TimerEntry → Option Nat
  | .set id _ _ | .cleared id | .started id _ _ | .finished id _ => some id
  | .round _ | .ended => none

end TimerEntry

def dueOf : List TimerEntry → Nat → Option Nat
  | [], _ => none
  | .set id due _ :: log, timer => if id = timer then some due else dueOf log timer
  | .cleared id :: log, timer => if id = timer then none else dueOf log timer
  | .started id _ _ :: log, timer => if id = timer then none else dueOf log timer
  | .finished id again :: log, timer => if id = timer then again else dueOf log timer
  | .round _ :: log, timer => dueOf log timer
  | .ended :: log, timer => dueOf log timer

def roundOf (log : List TimerEntry) : List TimerEntry := log.takeWhile fun e => !e.isRound

/-- The entries since the last start of `id`. -/
def sinceStart (id : Nat) (log : List TimerEntry) : List TimerEntry :=
  log.takeWhile fun e => !e.isStart id

/-- A callback starts for a timer that waits and that nothing cleared, a timeout only once, not
before its due time, after the earlier ones of its round, and not in the round of its set. -/
structure StartsAsSet (before : List TimerEntry) (id due now : Nat) : Prop where
  not_cleared : .cleared id ∉ before
  once : (∃ d, .set id d false ∈ before) → ∀ d t, .started id d t ∉ before
  waits : dueOf before id = some due
  not_early : due ≤ now
  in_order : ∀ id' due' now', .started id' due' now' ∈ roundOf before →
    due' < due ∨ due' = due ∧ id' < id
  not_new : ∀ d again, .set id d again ∉ roundOf before

def RoundDone (before : List TimerEntry) : Prop :=
  ∀ now older, before = roundOf before ++ .round now :: older →
    ∀ id due, dueOf older id = some due → due ≤ now →
      (∃ t, .started id due t ∈ roundOf before) ∨ .cleared id ∈ roundOf before

/-- What may happen after `before`. -/
def AllowedAfter (before : List TimerEntry) : TimerEntry → Prop
  | .set id _ _ => ∀ d again, .set id d again ∉ before
  | .cleared _ | .round _ => True
  | .started id due now => StartsAsSet before id due now
  | .finished id again =>
    (again.isSome = true ↔ (∃ d, .set id d true ∈ before) ∧ .cleared id ∉ sinceStart id before)
  | .ended => RoundDone before

def AsSet (log : List TimerEntry) : Prop := ∀ e before, e :: before <:+ log → AllowedAfter before e

theorem AsSet.cons {log : List TimerEntry} (h : AsSet log) {e : TimerEntry}
    (he : AllowedAfter log e) : AsSet (e :: log) := by
  intro e' before hsuffix
  rcases List.suffix_cons_iff.mp hsuffix with heq | hsuffix
  · cases heq
    exact he
  · exact h e' before hsuffix

theorem dueOf_cons {e : TimerEntry} {id : Nat} (h : e.about ≠ some id) (log : List TimerEntry) :
    dueOf (e :: log) id = dueOf log id := by
  cases e with
  | round now => rfl
  | ended => rfl
  | set other due again =>
    rw [dueOf, if_neg]
    exact fun heq => h (by rw [TimerEntry.about, heq])
  | cleared other =>
    rw [dueOf, if_neg]
    exact fun heq => h (by rw [TimerEntry.about, heq])
  | started other due now =>
    rw [dueOf, if_neg]
    exact fun heq => h (by rw [TimerEntry.about, heq])
  | finished other again =>
    rw [dueOf, if_neg]
    exact fun heq => h (by rw [TimerEntry.about, heq])

theorem roundOf_cons {e : TimerEntry} (h : e.isRound = false) (log : List TimerEntry) :
    roundOf (e :: log) = e :: roundOf log := by
  rw [roundOf, List.takeWhile_cons_of_pos (by rw [h]; rfl), ← roundOf]

theorem sinceStart_cons {e : TimerEntry} {id : Nat} (h : e.isStart id = false)
    (log : List TimerEntry) : sinceStart id (e :: log) = e :: sinceStart id log := by
  rw [sinceStart, List.takeWhile_cons_of_pos (by rw [h]; rfl), ← sinceStart]

section Map

variable {Callback Value : Type}

theorem lookup_filter (waiting : List (Nat × Timer Callback Value)) (id other : Nat) :
    (waiting.filter fun entry => entry.1 ≠ id).lookup other =
      if other = id then none else waiting.lookup other := by
  induction waiting with
  | nil => simp
  | cons entry waiting ih =>
    by_cases hid : entry.1 = id
    · rw [List.filter_cons_of_neg (by simpa using hid), ih, List.lookup_cons]
      split_ifs with hother
      · rfl
      · rw [hid, beq_false_of_ne hother]
    · rw [List.filter_cons_of_pos (by simpa using hid), List.lookup_cons, List.lookup_cons, ih]
      split_ifs with hother
      · rw [hother, beq_false_of_ne fun heq => hid heq.symm]
      · rfl

namespace Timers

theorem remove_lookup (s : Timers Callback Value) (id other : Nat) :
    (s.remove id).waiting.lookup other = if other = id then none else s.waiting.lookup other :=
  lookup_filter s.waiting id other

theorem insert_lookup (s : Timers Callback Value) (id : Nat) (timer : Timer Callback Value)
    (other : Nat) :
    (s.insert id timer).waiting.lookup other =
      if other = id then some timer else s.waiting.lookup other := by
  rw [insert, List.lookup_cons, lookup_filter]
  split_ifs with hother
  · rw [hother, beq_self_eq_true]
  · rw [beq_false_of_ne hother]

theorem remove_nodup {s : Timers Callback Value} (h : (s.waiting.map Prod.fst).Nodup) (id : Nat) :
    ((s.remove id).waiting.map Prod.fst).Nodup :=
  h.sublist (List.filter_sublist.map Prod.fst)

theorem insert_nodup {s : Timers Callback Value} (h : (s.waiting.map Prod.fst).Nodup) (id : Nat)
    (timer : Timer Callback Value) : ((s.insert id timer).waiting.map Prod.fst).Nodup := by
  rw [insert, List.map_cons, List.nodup_cons]
  refine ⟨?_, remove_nodup h id⟩
  intro hmem
  obtain ⟨entry, hentry, heq⟩ := List.mem_map.mp hmem
  have hne := (List.mem_filter.mp hentry).2
  simp [heq] at hne

theorem lookup_of_mem {waiting : List (Nat × Timer Callback Value)}
    (h : (waiting.map Prod.fst).Nodup) {id : Nat} {timer : Timer Callback Value}
    (hmem : (id, timer) ∈ waiting) : waiting.lookup id = some timer := by
  induction waiting with
  | nil => cases hmem
  | cons entry waiting ih =>
    rw [List.map_cons, List.nodup_cons] at h
    rw [List.lookup_cons]
    rcases List.mem_cons.mp hmem with rfl | hmem
    · rw [beq_self_eq_true]
    · have hne : id ≠ entry.1 := by
        intro heq
        exact h.1 (heq ▸ List.mem_map_of_mem hmem)
      rw [beq_false_of_ne hne]
      exact ih h.2 hmem

theorem mem_of_lookup {waiting : List (Nat × Timer Callback Value)} {id : Nat}
    {timer : Timer Callback Value} (h : waiting.lookup id = some timer) : (id, timer) ∈ waiting := by
  obtain ⟨before, after, rfl, _⟩ := List.lookup_eq_some_iff.mp h
  exact List.mem_append_right _ List.mem_cons_self

theorem mem_dueIds {s : Timers Callback Value} (h : (s.waiting.map Prod.fst).Nodup) (now id : Nat) :
    id ∈ s.dueIds now ↔ ∃ timer, s.waiting.lookup id = some timer ∧ timer.due ≤ now := by
  rw [dueIds, List.mem_map]
  simp only [List.mem_mergeSort, List.mem_map, List.mem_filter, decide_eq_true_eq]
  constructor
  · rintro ⟨_, ⟨⟨other, timer⟩, ⟨hmem, hdue⟩, rfl⟩, rfl⟩
    exact ⟨timer, lookup_of_mem h hmem, hdue⟩
  · rintro ⟨timer, hlookup, hdue⟩
    exact ⟨(timer.due, id), ⟨(id, timer), ⟨mem_of_lookup hlookup, hdue⟩, rfl⟩, rfl⟩

theorem notAfter_iff {a b : Nat × Nat} :
    notAfter a b = true ↔ a.1 < b.1 ∨ a.1 = b.1 ∧ a.2 ≤ b.2 := by
  simp [notAfter]

theorem dueIds_sorted {s : Timers Callback Value} (h : (s.waiting.map Prod.fst).Nodup) (now : Nat) :
    (s.dueIds now).Pairwise fun a b => ∀ timer timer', s.waiting.lookup a = some timer →
      s.waiting.lookup b = some timer' →
        timer.due < timer'.due ∨ timer.due = timer'.due ∧ a < b := by
  let due := (s.waiting.filter fun entry => entry.2.due ≤ now).map fun entry =>
    (entry.2.due, entry.1)
  have hmem : ∀ pair ∈ due.mergeSort notAfter, ∀ timer, s.waiting.lookup pair.2 = some timer →
      timer.due = pair.1 := by
    intro pair hpair timer hlookup
    obtain ⟨entry, hentry, rfl⟩ := List.mem_map.mp (List.mem_mergeSort.mp hpair)
    rw [lookup_of_mem h (List.mem_of_mem_filter hentry), Option.some.injEq] at hlookup
    rw [hlookup]
  have hsorted : (due.mergeSort notAfter).Pairwise fun a b => notAfter a b = true := by
    apply List.pairwise_mergeSort
    · intro a b c
      rw [notAfter_iff, notAfter_iff, notAfter_iff]
      omega
    · intro a b
      rw [Bool.or_eq_true, notAfter_iff, notAfter_iff]
      omega
  have hids : ((due.mergeSort notAfter).map Prod.snd).Nodup := by
    apply ((List.mergeSort_perm due notAfter).map Prod.snd).nodup_iff.mpr
    rw [List.map_map]
    exact h.sublist (List.filter_sublist.map Prod.fst)
  rw [dueIds, List.pairwise_map]
  apply List.Pairwise.imp_of_mem _ (hsorted.and (List.pairwise_map.mp hids))
  intro a b ha hb hab timer timer' hlookup hlookup'
  have hne : a.2 ≠ b.2 := hab.2
  rw [hmem a ha timer hlookup, hmem b hb timer' hlookup']
  rcases notAfter_iff.mp hab.1 with hlt | ⟨heq, hle⟩
  · exact .inl hlt
  · exact .inr ⟨heq, by omega⟩

theorem clearId_lookup (s : Timers Callback Value) (id other : Nat) :
    (s.clearId id).waiting.lookup other = if other = id then none else s.waiting.lookup other := by
  unfold clearId
  split
  · exact remove_lookup s id other
  · next hnone =>
    have hsame : s.waiting.lookup other = if other = id then none else s.waiting.lookup other := by
      split_ifs with heq
      · rw [heq, hnone]
      · rfl
    split
    · exact hsame
    · exact hsame

theorem clearId_nodup {s : Timers Callback Value} (h : (s.waiting.map Prod.fst).Nodup) (id : Nat) :
    ((s.clearId id).waiting.map Prod.fst).Nodup := by
  unfold clearId
  split
  · exact remove_nodup h id
  · split
    · exact h
    · exact h

theorem clearId_lastId (s : Timers Callback Value) (id : Nat) :
    (s.clearId id).lastId = s.lastId := by
  unfold clearId
  split
  · rfl
  · split
    · rfl
    · rfl

end Timers

end Map

/-- A round with the ids that it has left, `older` before its start at `now`. -/
structure InRound (lastId : Nat) (log older : List TimerEntry) (now : Nat) (ids : List Nat) :
    Prop where
  log_eq : log = roundOf log ++ .round now :: older
  waits : ∀ id ∈ ids, id ≤ lastId ∧ ∃ due, dueOf older id = some due ∧ due ≤ now ∧
    (dueOf log id = some due ∨ dueOf log id = none ∧ .cleared id ∈ roundOf log)
  not_new : ∀ id ∈ ids, ∀ d again, .set id d again ∉ roundOf log
  sorted : ids.Pairwise fun a b => ∀ da db, dueOf older a = some da → dueOf older b = some db →
    da < db ∨ da = db ∧ a < b
  later : ∀ id due t, .started id due t ∈ roundOf log → ∀ id' ∈ ids, ∀ due',
    dueOf older id' = some due' → due < due' ∨ due = due' ∧ id < id'
  complete : ∀ id due, dueOf older id = some due → due ≤ now →
    id ∈ ids ∨ (∃ t, .started id due t ∈ roundOf log) ∨ .cleared id ∈ roundOf log

section Round

variable {lastId now : Nat} {log older : List TimerEntry} {ids : List Nat}

theorem InRound.cons (h : InRound lastId log older now ids) {e : TimerEntry}
    (hround : e.isRound = false) (habout : ∀ id ∈ ids, e.about ≠ some id)
    (hstart : ∀ id due t, e = .started id due t → ∀ id' ∈ ids, ∀ due',
      dueOf older id' = some due' → due < due' ∨ due = due' ∧ id < id') :
    InRound lastId (e :: log) older now ids := by
  have hcons := roundOf_cons hround log
  constructor
  · rw [hcons, List.cons_append, ← h.log_eq]
  · intro id hid
    obtain ⟨hle, due, hdue, hnow, hwaits⟩ := h.waits id hid
    refine ⟨hle, due, hdue, hnow, ?_⟩
    rw [dueOf_cons (habout id hid), hcons]
    rcases hwaits with hwaits | ⟨hnone, hcleared⟩
    · exact .inl hwaits
    · exact .inr ⟨hnone, .tail _ hcleared⟩
  · intro id hid d again hmem
    rw [hcons] at hmem
    rcases List.mem_cons.mp hmem with rfl | hmem
    · exact habout id hid rfl
    · exact h.not_new id hid d again hmem
  · exact h.sorted
  · intro id due t hmem
    rw [hcons] at hmem
    rcases List.mem_cons.mp hmem with rfl | hmem
    · exact hstart id due t rfl
    · exact h.later id due t hmem
  · intro id due hdue hnow
    rw [hcons]
    rcases h.complete id due hdue hnow with hid | ⟨t, hstarted⟩ | hcleared
    · exact .inl hid
    · exact .inr (.inl ⟨t, .tail _ hstarted⟩)
    · exact .inr (.inr (.tail _ hcleared))

theorem InRound.cleared (h : InRound lastId log older now ids) (cleared : Nat) :
    InRound lastId (.cleared cleared :: log) older now ids := by
  have hcons : roundOf (.cleared cleared :: log) = .cleared cleared :: roundOf log :=
    roundOf_cons rfl log
  constructor
  · rw [hcons, List.cons_append, ← h.log_eq]
  · intro id hid
    obtain ⟨hle, due, hdue, hnow, hwaits⟩ := h.waits id hid
    refine ⟨hle, due, hdue, hnow, ?_⟩
    rw [dueOf, hcons]
    split_ifs with heq
    · exact .inr ⟨rfl, heq ▸ List.mem_cons_self⟩
    · rcases hwaits with hwaits | ⟨hnone, hcleared⟩
      · exact .inl hwaits
      · exact .inr ⟨hnone, .tail _ hcleared⟩
  · intro id hid d again hmem
    rw [hcons] at hmem
    rcases List.mem_cons.mp hmem with heq | hmem
    · cases heq
    · exact h.not_new id hid d again hmem
  · exact h.sorted
  · intro id due t hmem
    rw [hcons] at hmem
    rcases List.mem_cons.mp hmem with heq | hmem
    · cases heq
    · exact h.later id due t hmem
  · intro id due hdue hnow
    rw [hcons]
    rcases h.complete id due hdue hnow with hid | ⟨t, hstarted⟩ | hcleared
    · exact .inl hid
    · exact .inr (.inl ⟨t, .tail _ hstarted⟩)
    · exact .inr (.inr (.tail _ hcleared))

theorem InRound.skip {id : Nat} (h : InRound lastId log older now (id :: ids))
    (hnone : dueOf log id = none) : InRound lastId log older now ids := by
  constructor
  · exact h.log_eq
  · exact fun other hother => h.waits other (.tail _ hother)
  · exact fun other hother => h.not_new other (.tail _ hother)
  · exact (List.pairwise_cons.mp h.sorted).2
  · exact fun other due t hmem id' hid' => h.later other due t hmem id' (.tail _ hid')
  · intro other due hdue hnow
    rcases h.complete other due hdue hnow with hid | hrest
    · rcases List.mem_cons.mp hid with rfl | hid
      · obtain ⟨_, due', _, _, hwaits⟩ := h.waits other List.mem_cons_self
        rcases hwaits with hwaits | ⟨_, hcleared⟩
        · rw [hnone] at hwaits
          cases hwaits
        · exact .inr (.inr hcleared)
      · exact .inl hid
    · exact .inr hrest

theorem InRound.start {id due t : Nat} (h : InRound lastId log older now (id :: ids))
    (hdue : dueOf log id = some due) :
    InRound lastId (.started id due t :: log) older now ids ∧ id ∉ ids ∧ due ≤ now := by
  obtain ⟨_, due', holder, hnow, hwaits⟩ := h.waits id List.mem_cons_self
  obtain rfl : due' = due := by
    rcases hwaits with hwaits | ⟨hnone, _⟩
    · rw [hdue, Option.some.injEq] at hwaits
      exact hwaits.symm
    · rw [hdue] at hnone
      cases hnone
  have hcons : roundOf (.started id due' t :: log) = .started id due' t :: roundOf log :=
    roundOf_cons rfl log
  obtain ⟨hfirst, hrest⟩ := List.pairwise_cons.mp h.sorted
  have hnot : id ∉ ids := by
    intro hmem
    have hself := hfirst id hmem due' due' holder holder
    omega
  refine ⟨?_, hnot, hnow⟩
  constructor
  · rw [hcons, List.cons_append, ← h.log_eq]
  · intro other hother
    obtain ⟨hle, d, hd, hdnow, hother'⟩ := h.waits other (.tail _ hother)
    refine ⟨hle, d, hd, hdnow, ?_⟩
    have hne : TimerEntry.about (.started id due' t) ≠ some other := by
      intro heq
      cases heq
      exact hnot hother
    rw [dueOf_cons hne, hcons]
    rcases hother' with hother' | ⟨hnone, hcleared⟩
    · exact .inl hother'
    · exact .inr ⟨hnone, .tail _ hcleared⟩
  · intro other hother d again hmem
    rw [hcons] at hmem
    rcases List.mem_cons.mp hmem with heq | hmem
    · cases heq
    · exact h.not_new other (.tail _ hother) d again hmem
  · exact hrest
  · intro other d t' hmem id' hid' d' hd'
    rw [hcons] at hmem
    rcases List.mem_cons.mp hmem with heq | hmem
    · cases heq
      exact hfirst id' hid' _ _ holder hd'
    · exact h.later other d t' hmem id' (.tail _ hid') d' hd'
  · intro other d hd hdnow
    rw [hcons]
    rcases h.complete other d hd hdnow with hid | ⟨t', hstarted⟩ | hcleared
    · rcases List.mem_cons.mp hid with rfl | hid
      · rw [holder, Option.some.injEq] at hd
        exact .inr (.inl ⟨t, hd ▸ List.mem_cons_self⟩)
      · exact .inl hid
    · exact .inr (.inl ⟨t', .tail _ hstarted⟩)
    · exact .inr (.inr (.tail _ hcleared))

theorem InRound.done (h : InRound lastId log older now []) : RoundDone log := by
  intro now' older' heq id due hdue hnow
  have hsame := List.append_cancel_left (h.log_eq.symm.trans heq)
  cases hsame
  rcases h.complete id due hdue hnow with hid | hrest
  · cases hid
  · exact hrest

end Round

section Invariant

variable {Callback Value : Type}

structure Agree (timers : Timers Callback Value) (log : List TimerEntry) : Prop where
  nodup : (timers.waiting.map Prod.fst).Nodup
  book : ∀ id, (timers.waiting.lookup id).map Timer.due = dueOf log id
  kind : ∀ id timer, timers.waiting.lookup id = some timer →
    ∃ d, .set id d timer.interval.isSome ∈ log
  fresh : ∀ id d again, .set id d again ∈ log → 1 ≤ id ∧ id ≤ timers.lastId
  same : ∀ id d d' again again', .set id d again ∈ log → .set id d' again' ∈ log → again = again'
  cleared : ∀ id, .cleared id ∈ log → id ≤ timers.lastId ∧ timers.waiting.lookup id = none
  once : ∀ id d d' t, .set id d false ∈ log → .started id d' t ∈ log →
    timers.waiting.lookup id = none
  started : ∀ id d t, .started id d t ∈ log → id ≤ timers.lastId
  asSet : AsSet log

/-- The callback of the timer `id` runs. A clear of the timer takes the mark. -/
structure Running (timers : Timers Callback Value) (log : List TimerEntry) (id : Nat)
    (timer : Timer Callback Value) (ids : List Nat) : Prop where
  gone : timers.waiting.lookup id = none
  kind : ∃ d, .set id d timer.interval.isSome ∈ log
  started : ∃ d t, .started id d t ∈ log
  mark : timers.firing = some id ∧ .cleared id ∉ log ∨
    timers.firing = none ∧ .cleared id ∈ sinceStart id log
  apart : id ∉ ids

def PlaceOk (s : FireLoop Callback Value) : Prop :=
  match s.place with
  | .look | .idle | .sleep _ => s.timers.firing = none
  | .round ids => s.timers.firing = none ∧ ∃ now older, now ≤ s.now ∧
      InRound s.timers.lastId s.log older now ids
  | .running id timer ids => Running s.timers s.log id timer ids ∧ ∃ now older, now ≤ s.now ∧
      InRound s.timers.lastId s.log older now ids

structure Inv (s : FireLoop Callback Value) : Prop where
  agree : Agree s.timers s.log
  place : PlaceOk s

theorem Agree.lookup_le {timers : Timers Callback Value} {log : List TimerEntry}
    (h : Agree timers log) {id : Nat} {timer : Timer Callback Value}
    (hlookup : timers.waiting.lookup id = some timer) : id ≤ timers.lastId := by
  obtain ⟨d, hset⟩ := h.kind id timer hlookup
  exact (h.fresh id d _ hset).2

theorem Agree.round {timers : Timers Callback Value} {log : List TimerEntry}
    (h : Agree timers log) (now : Nat) :
    InRound timers.lastId (.round now :: log) log now (timers.dueIds now) := by
  have hnil : roundOf (.round now :: log) = [] := rfl
  have hbook : ∀ id due, dueOf log id = some due ↔
      ∃ timer, timers.waiting.lookup id = some timer ∧ timer.due = due := by
    intro id due
    rw [← h.book, Option.map_eq_some_iff]
  constructor
  · rw [hnil]
    rfl
  · intro id hid
    obtain ⟨timer, hlookup, hdue⟩ := (Timers.mem_dueIds h.nodup now id).mp hid
    have hwaits := (hbook id timer.due).mpr ⟨timer, hlookup, rfl⟩
    exact ⟨h.lookup_le hlookup, timer.due, hwaits, hdue, .inl hwaits⟩
  · intro id _ d again hmem
    rw [hnil] at hmem
    cases hmem
  · apply (Timers.dueIds_sorted h.nodup now).imp
    intro a b hab da db ha hb
    obtain ⟨timer, hlookup, rfl⟩ := (hbook a da).mp ha
    obtain ⟨timer', hlookup', rfl⟩ := (hbook b db).mp hb
    exact hab timer timer' hlookup hlookup'
  · intro id due t hmem
    rw [hnil] at hmem
    cases hmem
  · intro id due hdue hnow
    obtain ⟨timer, hlookup, rfl⟩ := (hbook id due).mp hdue
    exact .inl ((Timers.mem_dueIds h.nodup now id).mpr ⟨timer, hlookup, hnow⟩)

theorem Agree.note {timers : Timers Callback Value} {log : List TimerEntry} (h : Agree timers log)
    {e : TimerEntry} (habout : e.about = none) (hallowed : AllowedAfter log e) :
    Agree timers (e :: log) := by
  have hne : ∀ id, e.about ≠ some id := by
    intro id heq
    rw [habout] at heq
    cases heq
  have hmem : ∀ {other}, other ∈ e :: log → other.about ≠ none → other ∈ log := by
    intro other hother hsome
    rcases List.mem_cons.mp hother with rfl | hother
    · exact absurd habout hsome
    · exact hother
  constructor
  · exact h.nodup
  · intro id
    rw [dueOf_cons (hne id)]
    exact h.book id
  · intro id timer hlookup
    obtain ⟨d, hset⟩ := h.kind id timer hlookup
    exact ⟨d, .tail _ hset⟩
  · intro id d again hset
    exact h.fresh id d again (hmem hset (by simp [TimerEntry.about]))
  · intro id d d' again again' hset hset'
    exact h.same id d d' again again' (hmem hset (by simp [TimerEntry.about]))
      (hmem hset' (by simp [TimerEntry.about]))
  · intro id hcleared
    exact h.cleared id (hmem hcleared (by simp [TimerEntry.about]))
  · intro id d d' t hset hstarted
    exact h.once id d d' t (hmem hset (by simp [TimerEntry.about]))
      (hmem hstarted (by simp [TimerEntry.about]))
  · intro id d t hstarted
    exact h.started id d t (hmem hstarted (by simp [TimerEntry.about]))
  · exact h.asSet.cons hallowed

theorem Agree.change {timers timers' : Timers Callback Value} {log : List TimerEntry}
    (h : Agree timers log) {e : TimerEntry} {id : Nat} (habout : e.about = some id)
    (hnodup : (timers'.waiting.map Prod.fst).Nodup) (hlast : timers.lastId ≤ timers'.lastId)
    (hid : 1 ≤ id ∧ id ≤ timers'.lastId)
    (hother : ∀ other, other ≠ id → timers'.waiting.lookup other = timers.waiting.lookup other)
    (hself : (timers'.waiting.lookup id).map Timer.due = dueOf (e :: log) id)
    (hkind : ∀ timer, timers'.waiting.lookup id = some timer →
      ∃ d, .set id d timer.interval.isSome ∈ e :: log)
    (hcleared : .cleared id ∈ e :: log → timers'.waiting.lookup id = none)
    (honce : ∀ d d' t, .set id d false ∈ e :: log → .started id d' t ∈ e :: log →
      timers'.waiting.lookup id = none)
    (hallowed : AllowedAfter log e) : Agree timers' (e :: log) := by
  have hold : ∀ {other}, other ∈ e :: log → other.about ≠ some id → other ∈ log := by
    intro other hmem hne
    rcases List.mem_cons.mp hmem with rfl | hmem
    · exact absurd habout hne
    · exact hmem
  have hne : ∀ {other}, other ≠ id → e.about ≠ some other := by
    intro other hother heq
    rw [habout, Option.some.injEq] at heq
    exact hother heq.symm
  constructor
  · exact hnodup
  · intro other
    by_cases heq : other = id
    · rw [heq]
      exact hself
    · rw [hother other heq, dueOf_cons (hne heq)]
      exact h.book other
  · intro other timer hlookup
    by_cases heq : other = id
    · subst heq
      exact hkind timer hlookup
    · rw [hother other heq] at hlookup
      obtain ⟨d, hset⟩ := h.kind other timer hlookup
      exact ⟨d, .tail _ hset⟩
  · intro other d again hset
    by_cases heq : other = id
    · exact heq ▸ hid
    · have hfresh := h.fresh other d again (hold hset (by simpa [TimerEntry.about] using heq))
      omega
  · intro other d d' again again' hset hset'
    rcases List.mem_cons.mp hset with rfl | hbefore
    · rcases List.mem_cons.mp hset' with heq | hbefore
      · cases heq
        rfl
      · exact absurd hbefore (hallowed d' again')
    · rcases List.mem_cons.mp hset' with rfl | hbefore'
      · exact absurd hbefore (hallowed d again)
      · exact h.same other d d' again again' hbefore hbefore'
  · intro other hclear
    by_cases heq : other = id
    · subst heq
      exact ⟨hid.2, hcleared hclear⟩
    · obtain ⟨hle, hnone⟩ :=
        h.cleared other (hold hclear (by simpa [TimerEntry.about] using heq))
      rw [hother other heq]
      exact ⟨hle.trans hlast, hnone⟩
  · intro other d d' t hset hstarted
    by_cases heq : other = id
    · subst heq
      exact honce d d' t hset hstarted
    · rw [hother other heq]
      exact h.once other d d' t (hold hset (by simpa [TimerEntry.about] using heq))
        (hold hstarted (by simpa [TimerEntry.about] using heq))
  · intro other d t hstarted
    by_cases heq : other = id
    · exact heq ▸ hid.2
    · exact (h.started other d t (hold hstarted (by simpa [TimerEntry.about] using heq))).trans hlast
  · exact h.asSet.cons hallowed

theorem Agree.set {timers : Timers Callback Value} {log : List TimerEntry} (h : Agree timers log)
    (now : Nat) (callback : Callback) (delay : Option Number) (arguments : List Value)
    (again : Bool) :
    Agree (timers.set now callback delay arguments again)
      (.set (timers.lastId + 1) (now + delayOf delay) again :: log) := by
  have hlookup : ∀ id, (timers.set now callback delay arguments again).waiting.lookup id =
      if id = timers.lastId + 1 then
        some ⟨now + delayOf delay, callback, arguments, if again then some (delayOf delay) else none⟩
      else timers.waiting.lookup id := by
    intro id
    exact Timers.insert_lookup { timers with lastId := timers.lastId + 1 } _ _ id
  have hlast : (timers.set now callback delay arguments again).lastId = timers.lastId + 1 := rfl
  have hnew : ∀ d again', .set (timers.lastId + 1) d again' ∉ log := by
    intro d again' hset
    have hle := (h.fresh _ d again' hset).2
    omega
  apply h.change rfl
  · exact Timers.insert_nodup (s := { timers with lastId := timers.lastId + 1 }) h.nodup _ _
  · omega
  · omega
  · intro other hne
    rw [hlookup, if_neg hne]
  · rw [hlookup, if_pos rfl, dueOf, if_pos rfl]
    rfl
  · intro timer htimer
    rw [hlookup, if_pos rfl, Option.some.injEq] at htimer
    refine ⟨now + delayOf delay, ?_⟩
    rw [← htimer]
    cases again with
    | false => exact List.mem_cons_self
    | true => exact List.mem_cons_self
  · intro hcleared
    rcases List.mem_cons.mp hcleared with heq | hcleared
    · cases heq
    · have hle := (h.cleared _ hcleared).1
      omega
  · intro d d' t _ hstarted
    rcases List.mem_cons.mp hstarted with heq | hstarted
    · cases heq
    · have hle := h.started _ d' t hstarted
      omega
  · exact hnew

theorem Agree.clear {timers : Timers Callback Value} {log : List TimerEntry} (h : Agree timers log)
    {id : Nat} (hid : 1 ≤ id ∧ id ≤ timers.lastId) :
    Agree (timers.clearId id) (.cleared id :: log) := by
  have hnone : (timers.clearId id).waiting.lookup id = none := by
    rw [Timers.clearId_lookup, if_pos rfl]
  apply h.change rfl
  · exact Timers.clearId_nodup h.nodup id
  · rw [Timers.clearId_lastId]
  · rw [Timers.clearId_lastId]
    exact hid
  · intro other hne
    rw [Timers.clearId_lookup, if_neg hne]
  · rw [hnone, dueOf, if_pos rfl]
    rfl
  · intro timer htimer
    rw [hnone] at htimer
    cases htimer
  · intro _
    exact hnone
  · intro _ _ _ _ _
    exact hnone
  · exact trivial

theorem Agree.clear_none {timers : Timers Callback Value} {log : List TimerEntry}
    (h : Agree timers log) {id : Nat} (hid : ¬ (1 ≤ id ∧ id ≤ timers.lastId))
    (hfiring : timers.firing ≠ some id) : timers.clearId id = timers := by
  have hnone : timers.waiting.lookup id = none := by
    cases hlookup : timers.waiting.lookup id with
    | none => rfl
    | some timer =>
      obtain ⟨d, hset⟩ := h.kind id timer hlookup
      exact absurd (h.fresh id d _ hset) hid
  rw [Timers.clearId, hnone]
  exact if_neg hfiring

theorem Agree.start {timers timers' : Timers Callback Value} {log : List TimerEntry}
    (h : Agree timers log) {id : Nat} {timer : Timer Callback Value}
    (hstart : timers.start id = some (timer, timers')) {lastId now t : Nat}
    {older : List TimerEntry} {ids : List Nat} (hround : InRound lastId log older now (id :: ids))
    (ht : now ≤ t) : Agree timers' (.started id timer.due t :: log) := by
  unfold Timers.start at hstart
  split at hstart
  · cases hstart
  · next found hlookup =>
    cases hstart
    have hdue : dueOf log id = some timer.due := by
      rw [← h.book, hlookup]
      rfl
    obtain ⟨d, hset⟩ := h.kind id timer hlookup
    have hnone : (timers.remove id).waiting.lookup id = none := by
      rw [Timers.remove_lookup, if_pos rfl]
    have hallowed : StartsAsSet log id timer.due t := by
      obtain ⟨_, _, hnow⟩ := hround.start (t := t) hdue
      obtain ⟨_, due, holder, _, hwaits⟩ := hround.waits id List.mem_cons_self
      have hsame : due = timer.due := by
        rw [hdue] at hwaits
        rcases hwaits with heq | ⟨heq, _⟩
        · cases heq
          rfl
        · cases heq
      constructor
      · intro hcleared
        rw [(h.cleared id hcleared).2] at hlookup
        cases hlookup
      · rintro ⟨d', htimeout⟩ d'' t' hstarted
        rw [h.once id d' d'' t' htimeout hstarted] at hlookup
        cases hlookup
      · exact hdue
      · exact hnow.trans ht
      · intro id' due' now' hstarted
        rw [← hsame]
        exact hround.later id' due' now' hstarted id List.mem_cons_self due holder
      · intro d' again
        exact hround.not_new id List.mem_cons_self d' again
    apply h.change rfl
    · exact Timers.remove_nodup h.nodup id
    · exact le_rfl
    · exact h.fresh id d _ hset
    · intro other hne
      exact (Timers.remove_lookup timers id other).trans (if_neg hne)
    · rw [dueOf, if_pos rfl]
      exact congrArg (Option.map Timer.due) hnone
    · intro found hfound
      rw [hnone] at hfound
      cases hfound
    · intro _
      exact hnone
    · intro _ _ _ _ _
      exact hnone
    · exact hallowed

theorem finish_lookup (timers : Timers Callback Value) (now id : Nat)
    (timer : Timer Callback Value) (other : Nat) :
    (timers.finish now id timer).waiting.lookup other =
      if other = id ∧ timer.interval.isSome = true ∧ timers.firing = some id then
        some { timer with due := now + timer.interval.getD 0 }
      else timers.waiting.lookup other := by
  unfold Timers.finish
  cases hinterval : timer.interval with
  | none =>
    rw [if_neg]
    rintro ⟨_, hsome, _⟩
    cases hsome
  | some interval =>
    dsimp only
    by_cases hfiring : timers.firing = some id
    · rw [if_pos hfiring]
      refine (Timers.insert_lookup { timers with firing := none } _ _ other).trans ?_
      by_cases heq : other = id
      · rw [if_pos heq, if_pos ⟨heq, rfl, hfiring⟩]
        rfl
      · rw [if_neg heq, if_neg fun h => heq h.1]
    · rw [if_neg hfiring, if_neg fun h => hfiring h.2.2]

theorem finish_nodup {timers : Timers Callback Value}
    (h : (timers.waiting.map Prod.fst).Nodup) (now id : Nat) (timer : Timer Callback Value) :
    ((timers.finish now id timer).waiting.map Prod.fst).Nodup := by
  unfold Timers.finish
  cases timer.interval with
  | none => exact h
  | some interval =>
    dsimp only
    split
    · exact Timers.insert_nodup (s := { timers with firing := none }) h _ _
    · exact h

theorem finish_lastId (timers : Timers Callback Value) (now id : Nat)
    (timer : Timer Callback Value) : (timers.finish now id timer).lastId = timers.lastId := by
  unfold Timers.finish
  cases timer.interval with
  | none => rfl
  | some interval =>
    dsimp only
    split
    · rfl
    · rfl

theorem finish_firing (timers : Timers Callback Value) (now id : Nat)
    (timer : Timer Callback Value) : (timers.finish now id timer).firing = none := by
  unfold Timers.finish
  cases timer.interval with
  | none => rfl
  | some interval =>
    dsimp only
    split
    · rfl
    · rfl

theorem sinceStart_subset {id : Nat} {log : List TimerEntry} {e : TimerEntry}
    (h : e ∈ sinceStart id log) : e ∈ log :=
  (List.takeWhile_sublist _).subset h

theorem Agree.finish {timers : Timers Callback Value} {log : List TimerEntry}
    (h : Agree timers log) {id : Nat} {timer : Timer Callback Value} {ids : List Nat}
    (hrunning : Running timers log id timer ids) (now : Nat) :
    Agree (timers.finish now id timer)
      (.finished id (((timers.finish now id timer).waiting.lookup id).map Timer.due) :: log) := by
  obtain ⟨d, hset⟩ := hrunning.kind
  have hfirst : ∀ {e : TimerEntry} {again}, e ∈ .finished id again :: log →
      (∀ again', e ≠ .finished id again') → e ∈ log := by
    intro e again hmem hne
    rcases List.mem_cons.mp hmem with rfl | hmem
    · exact absurd rfl (hne again)
    · exact hmem
  have hself : (timers.finish now id timer).waiting.lookup id =
      if timer.interval.isSome = true ∧ timers.firing = some id then
        some { timer with due := now + timer.interval.getD 0 }
      else none := by
    rw [finish_lookup, hrunning.gone]
    simp only [true_and]
  apply h.change rfl
  · exact finish_nodup h.nodup now id timer
  · rw [finish_lastId]
  · rw [finish_lastId]
    exact h.fresh id d _ hset
  · intro other hne
    rw [finish_lookup, if_neg fun hself => hne hself.1]
  · rw [dueOf, if_pos rfl]
  · intro found hfound
    rw [hself] at hfound
    split_ifs at hfound with hagain
    cases hfound
    exact ⟨d, .tail _ hset⟩
  · intro hcleared
    have hbefore := hfirst hcleared (by simp)
    rw [hself, if_neg]
    rintro ⟨_, hfiring⟩
    rcases hrunning.mark with ⟨_, hnot⟩ | ⟨hnone, _⟩
    · exact hnot hbefore
    · rw [hnone] at hfiring
      cases hfiring
  · intro d' d'' t htimeout _
    have hkind := h.same id d' d _ _ (hfirst htimeout (by simp)) hset
    rw [hself, if_neg]
    rintro ⟨hsome, _⟩
    rw [hsome] at hkind
    cases hkind
  · rw [AllowedAfter, Option.isSome_map, hself]
    constructor
    · intro hsome
      split_ifs at hsome with hagain
      · refine ⟨⟨d, hagain.1 ▸ hset⟩, ?_⟩
        rcases hrunning.mark with ⟨_, hnot⟩ | ⟨hnone, _⟩
        · exact fun hcleared => hnot (sinceStart_subset hcleared)
        · rw [hnone] at hagain
          cases hagain.2
      · cases hsome
    · rintro ⟨⟨d', hinterval⟩, hnot⟩
      have hkind := h.same id d' d _ _ hinterval hset
      rcases hrunning.mark with ⟨hfiring, _⟩ | ⟨_, hcleared⟩
      · rw [if_pos ⟨hkind.symm, hfiring⟩]
        rfl
      · exact absurd hcleared hnot

theorem InRound.mono {lastId lastId' now : Nat} {log older : List TimerEntry} {ids : List Nat}
    (h : InRound lastId log older now ids) (hle : lastId ≤ lastId') :
    InRound lastId' log older now ids := by
  refine { h with waits := ?_ }
  intro id hid
  obtain ⟨hid, hrest⟩ := h.waits id hid
  exact ⟨hid.trans hle, hrest⟩

theorem Running.set {timers : Timers Callback Value} {log : List TimerEntry} {id : Nat}
    {timer : Timer Callback Value} {ids : List Nat} (h : Running timers log id timer ids)
    (hagree : Agree timers log) (now : Nat) (callback : Callback) (delay : Option Number)
    (arguments : List Value) (again : Bool) :
    Running (timers.set now callback delay arguments again)
      (.set (timers.lastId + 1) (now + delayOf delay) again :: log) id timer ids := by
  obtain ⟨d, hset⟩ := h.kind
  obtain ⟨d', t, hstarted⟩ := h.started
  have hle := (hagree.fresh id d _ hset).2
  constructor
  · refine (Timers.insert_lookup { timers with lastId := timers.lastId + 1 } _ _ id).trans ?_
    rw [if_neg (by omega)]
    exact h.gone
  · exact ⟨d, .tail _ hset⟩
  · exact ⟨d', t, .tail _ hstarted⟩
  · rw [sinceStart_cons rfl]
    rcases h.mark with ⟨hfiring, hnot⟩ | ⟨hnone, hcleared⟩
    · refine .inl ⟨hfiring, ?_⟩
      intro hmem
      rcases List.mem_cons.mp hmem with heq | hmem
      · cases heq
      · exact hnot hmem
    · exact .inr ⟨hnone, .tail _ hcleared⟩
  · exact h.apart

theorem clearId_firing (timers : Timers Callback Value) (id : Nat) :
    (timers.clearId id).firing =
      if timers.waiting.lookup id = none ∧ timers.firing = some id then none else timers.firing := by
  unfold Timers.clearId
  split
  · next timer hlookup =>
    rw [hlookup, if_neg]
    · rfl
    · rintro ⟨hnone, _⟩
      cases hnone
  · next hnone =>
    by_cases hfiring : timers.firing = some id
    · rw [if_pos hfiring, if_pos ⟨hnone, hfiring⟩]
    · rw [if_neg hfiring, if_neg fun h => hfiring h.2]

theorem Running.clear {timers : Timers Callback Value} {log : List TimerEntry} {id : Nat}
    {timer : Timer Callback Value} {ids : List Nat} (h : Running timers log id timer ids)
    (cleared : Nat) : Running (timers.clearId cleared) (.cleared cleared :: log) id timer ids := by
  obtain ⟨d, hset⟩ := h.kind
  obtain ⟨d', t, hstarted⟩ := h.started
  constructor
  · rw [Timers.clearId_lookup, h.gone, ite_self]
  · exact ⟨d, .tail _ hset⟩
  · exact ⟨d', t, .tail _ hstarted⟩
  · rw [clearId_firing, sinceStart_cons rfl]
    rcases h.mark with ⟨hfiring, hnot⟩ | ⟨hnone, hmem⟩
    · by_cases heq : cleared = id
      · subst heq
        rw [if_pos ⟨h.gone, hfiring⟩]
        exact .inr ⟨rfl, List.mem_cons_self⟩
      · rw [if_neg]
        · refine .inl ⟨hfiring, ?_⟩
          intro hmem
          rcases List.mem_cons.mp hmem with hsame | hmem
          · cases hsame
            exact heq rfl
          · exact hnot hmem
        · rintro ⟨_, hsame⟩
          rw [hfiring, Option.some.injEq] at hsame
          exact heq hsame.symm
    · rw [hnone, ite_self]
      exact .inr ⟨rfl, .tail _ hmem⟩
  · exact h.apart

variable {s t : FireLoop Callback Value}

theorem Inv.setTimer (h : Inv s) (hscripts : s.scripts = true) (callback : Callback)
    (delay : Option Number) (arguments : List Value) (again : Bool) :
    Inv (s.setTimer callback delay arguments again) := by
  obtain ⟨timers, place, now, log⟩ := s
  refine ⟨h.agree.set now callback delay arguments again, ?_⟩
  have hplace := h.place
  cases place with
  | look => exact hplace
  | idle => exact hplace
  | sleep due => exact hplace
  | round ids => cases hscripts
  | running id timer ids =>
    obtain ⟨hrunning, began, older, hbegan, hround⟩ := hplace
    refine ⟨hrunning.set h.agree now callback delay arguments again, began, older, hbegan, ?_⟩
    apply (hround.mono (Nat.le_succ _)).cons rfl
    · intro other hother heq
      have hle := (hround.waits other hother).1
      cases heq
      exact absurd hle (Nat.not_le.mpr (Nat.lt_succ_self _))
    · intro other due t heq
      cases heq

theorem Inv.clearTimer (h : Inv s) (hscripts : s.scripts = true) (id : Nat) :
    Inv (s.clearTimer id) := by
  obtain ⟨timers, place, now, log⟩ := s
  have hplace := h.place
  by_cases hid : 1 ≤ id ∧ id ≤ timers.lastId
  · have hnone : timers.firing = none → (timers.clearId id).firing = none := by
      intro hnone
      rw [clearId_firing, hnone, ite_self]
    unfold FireLoop.clearTimer
    dsimp only
    rw [if_pos hid]
    refine ⟨h.agree.clear hid, ?_⟩
    cases place with
    | look => exact hnone hplace
    | idle => exact hnone hplace
    | sleep due => exact hnone hplace
    | round ids => cases hscripts
    | running other timer ids =>
      obtain ⟨hrunning, began, older, hbegan, hround⟩ := hplace
      refine ⟨hrunning.clear id, began, older, hbegan, ?_⟩
      rw [Timers.clearId_lastId]
      exact hround.cleared id
  · have hfiring : timers.firing ≠ some id := by
      cases place with
      | look => exact fun hsome => by cases hplace.symm.trans hsome
      | idle => exact fun hsome => by cases hplace.symm.trans hsome
      | sleep due => exact fun hsome => by cases hplace.symm.trans hsome
      | round ids => cases hscripts
      | running other timer ids =>
        obtain ⟨hrunning, _⟩ := hplace
        obtain ⟨d, hset⟩ := hrunning.kind
        intro hsome
        rcases hrunning.mark with ⟨hmark, _⟩ | ⟨hmark, _⟩
        · cases hmark.symm.trans hsome
          exact hid (h.agree.fresh _ d _ hset)
        · cases hmark.symm.trans hsome
    unfold FireLoop.clearTimer
    dsimp only
    rw [if_neg hid, h.agree.clear_none hid hfiring]
    exact h

theorem Inv.nextId (h : Inv s) {ids : List Nat} (hplace : s.place = .round ids) :
    Inv (s.nextId ids) := by
  obtain ⟨timers, place, now, log⟩ := s
  cases hplace
  obtain ⟨hnone, began, older, hbegan, hround⟩ := h.place
  cases ids with
  | nil => exact ⟨h.agree.note rfl hround.done, hnone⟩
  | cons id ids =>
    unfold FireLoop.nextId
    dsimp only
    cases hstart : timers.start id with
    | none =>
      refine ⟨h.agree, hnone, began, older, hbegan, hround.skip ?_⟩
      dsimp only at hround ⊢
      rw [← h.agree.book]
      dsimp only
      unfold Timers.start at hstart
      split at hstart
      · next hlookup =>
        rw [hlookup]
        rfl
      · cases hstart
    | some found =>
      obtain ⟨timer, timers'⟩ := found
      refine ⟨h.agree.start hstart hround hbegan, ?_⟩
      unfold Timers.start at hstart
      split at hstart
      · cases hstart
      · next hlookup =>
        cases hstart
        have hdue : dueOf log id = some timer.due := by
          rw [← h.agree.book]
          dsimp only
          rw [hlookup]
          rfl
        obtain ⟨hnext, hapart, _⟩ := hround.start (t := now) hdue
        obtain ⟨d, hset⟩ := h.agree.kind id timer hlookup
        refine ⟨?_, began, older, hbegan, hnext⟩
        constructor
        · exact (Timers.remove_lookup timers id id).trans (if_pos rfl)
        · exact ⟨d, .tail _ hset⟩
        · exact ⟨timer.due, now, List.mem_cons_self⟩
        · refine .inl ⟨rfl, ?_⟩
          intro hmem
          rcases List.mem_cons.mp hmem with heq | hmem
          · cases heq
          · have hgone := (h.agree.cleared id hmem).2
            dsimp only at hgone
            rw [hgone] at hlookup
            cases hlookup
        · exact hapart

theorem Inv.finishTimer (h : Inv s) {id : Nat} {timer : Timer Callback Value} {ids : List Nat}
    (hplace : s.place = .running id timer ids) : Inv (s.finishTimer id timer ids) := by
  obtain ⟨timers, place, now, log⟩ := s
  cases hplace
  obtain ⟨hrunning, began, older, hbegan, hround⟩ := h.place
  refine ⟨h.agree.finish hrunning now, finish_firing _ _ _ _, began, older, hbegan, ?_⟩
  refine InRound.cons ?_ rfl ?_ ?_
  · refine hround.mono (le_of_eq ?_)
    exact (finish_lastId timers now id timer).symm
  · intro other hother heq
    cases heq
    exact hrunning.apart hother
  · intro other due t heq
    cases heq

theorem Inv.step (h : Inv s) {e : TimerEvent Callback Value} (hstep : s.step e = some t) :
    Inv t := by
  cases e with
  | pass nanos =>
    cases hstep
    refine ⟨h.agree, ?_⟩
    have hplace := h.place
    obtain ⟨timers, place, now, log⟩ := s
    cases place with
    | look => exact hplace
    | idle => exact hplace
    | sleep due => exact hplace
    | round ids =>
      obtain ⟨hnone, began, older, hbegan, hround⟩ := hplace
      exact ⟨hnone, began, older, hbegan.trans (Nat.le_add_right _ _), hround⟩
    | running id timer ids =>
      obtain ⟨hrunning, began, older, hbegan, hround⟩ := hplace
      exact ⟨hrunning, began, older, hbegan.trans (Nat.le_add_right _ _), hround⟩
  | set callback delay arguments again =>
    rw [FireLoop.step] at hstep
    split at hstep
    · next hscripts =>
      cases hstep
      exact h.setTimer hscripts callback delay arguments again
    · cases hstep
  | clear value =>
    rw [FireLoop.step] at hstep
    split at hstep
    · next hscripts =>
      split at hstep
      · cases hstep
        exact h
      · next id _ =>
        cases hstep
        exact h.clearTimer hscripts id
    · cases hstep
  | look =>
    obtain ⟨timers, place, now, log⟩ := s
    cases place with
    | look =>
      rw [FireLoop.step] at hstep
      dsimp only at hstep
      split at hstep
      · cases hstep
        exact ⟨h.agree, h.place⟩
      · cases hstep
        exact ⟨h.agree, h.place⟩
    | idle => cases hstep
    | sleep due => cases hstep
    | round ids => cases hstep
    | running id timer ids => cases hstep
  | wake =>
    obtain ⟨timers, place, now, log⟩ := s
    have hwoken : PlaceOk (⟨timers, .look, now, log⟩ : FireLoop Callback Value) →
        Inv (⟨{ timers with changed := false }, .look, now, log⟩ : FireLoop Callback Value) := by
      intro hfiring
      obtain ⟨hnodup, hbook, hkind, hfresh, hsame, hcleared, honce, hstarted, hset⟩ := h.agree
      exact ⟨⟨hnodup, hbook, hkind, hfresh, hsame, hcleared, honce, hstarted, hset⟩, hfiring⟩
    cases place with
    | look => cases hstep
    | idle =>
      rw [FireLoop.step] at hstep
      dsimp only at hstep
      split at hstep
      · cases hstep
        exact hwoken h.place
      · cases hstep
    | sleep due =>
      rw [FireLoop.step] at hstep
      dsimp only at hstep
      split at hstep
      · cases hstep
        exact hwoken h.place
      · cases hstep
    | round ids => cases hstep
    | running id timer ids => cases hstep
  | due =>
    obtain ⟨timers, place, now, log⟩ := s
    cases place with
    | look => cases hstep
    | idle => cases hstep
    | sleep due =>
      rw [FireLoop.step] at hstep
      dsimp only at hstep
      split at hstep
      · cases hstep
        exact ⟨h.agree.note rfl trivial, h.place, now, log, le_rfl, h.agree.round now⟩
      · cases hstep
    | round ids => cases hstep
    | running id timer ids => cases hstep
  | next =>
    obtain ⟨timers, place, now, log⟩ := s
    cases place with
    | look => cases hstep
    | idle => cases hstep
    | sleep due => cases hstep
    | round ids =>
      cases hstep
      exact h.nextId rfl
    | running id timer ids => cases hstep
  | finish =>
    obtain ⟨timers, place, now, log⟩ := s
    cases place with
    | look => cases hstep
    | idle => cases hstep
    | sleep due => cases hstep
    | round ids => cases hstep
    | running id timer ids =>
      cases hstep
      exact h.finishTimer rfl

theorem inv_start (now : Nat) : Inv ({ now := now } : FireLoop Callback Value) := by
  refine ⟨?_, rfl⟩
  constructor
  · exact List.nodup_nil
  · intro id
    rfl
  · intro id timer hlookup
    cases hlookup
  · intro id d again hset
    cases hset
  · intro id d d' again again' hset
    cases hset
  · intro id hcleared
    cases hcleared
  · intro id d d' t hset
    cases hset
  · intro id d t hstarted
    cases hstarted
  · intro e before hsuffix
    exact absurd (List.suffix_nil.mp hsuffix) (List.cons_ne_nil _ _)

end Invariant

/-- In every run, the timers fire as set, and those wait that the log says. -/
theorem timers_fire {Callback Value : Type} (now : Nat) (events : List (TimerEvent Callback Value))
    (s : FireLoop Callback Value) (h : Steps (outcome FireLoop.step) { now := now } events s) :
    AsSet s.log ∧ ∀ id, (s.timers.waiting.lookup id).map Timer.due = dueOf s.log id := by
  have hinv : Inv s := h.keeps (inv_start now) fun _ _ _ hinv hstep => hinv.step hstep
  exact ⟨hinv.agree.asSet, hinv.agree.book⟩

def clearedRun : List (TimerEvent Unit Unit) :=
  [.set () none [] true, .look, .due, .next, .clear (some (.finite 1)), .finish, .next]

def clearedTimer : Timers Unit Unit :=
  { lastId := 1, waiting := [(1, ⟨0, (), [], some 0⟩)], changed := true }

theorem clearedRun_steps : Steps (outcome FireLoop.step) { now := 0 } clearedRun
    { timers := { lastId := 1, changed := true }
      now := 0
      log := [.ended, .finished 1 none, .cleared 1, .started 1 0 0, .round 0, .set 1 0 true] } := by
  have hdue : clearedTimer.dueIds 0 = [1] := by simp [Timers.dueIds, clearedTimer]
  have hround : outcome FireLoop.step
      { timers := clearedTimer, place := .sleep 0, now := 0, log := [.set 1 0 true] } .due
      { timers := clearedTimer, place := .round [1], now := 0
        log := [.round 0, .set 1 0 true] } := by
    rw [outcome, FireLoop.step]
    dsimp only
    rw [if_pos le_rfl, hdue]
  apply Steps.cons rfl
  apply Steps.cons rfl
  apply Steps.cons hround
  apply Steps.cons rfl
  apply Steps.cons rfl
  apply Steps.cons rfl
  apply Steps.cons rfl
  exact .start

/-- The interval of that run does not wait again. -/
theorem timers_fire_cleared :
    AsSet [.ended, .finished 1 none, .cleared 1, .started 1 0 0, .round 0, .set 1 0 true] :=
  (timers_fire 0 clearedRun _ clearedRun_steps).1

end Yuke.Js
