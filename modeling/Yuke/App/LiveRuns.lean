import Yuke.Shared.Steps
import Yuke.App.Live

/-!
# What an idle session has handled

An accept stores a wake, so a run of the turns starts after each accepted input. The mark of a run
counts the inputs that were accepted when it started, and an accept during the run leaves a wake.
-/

set_option autoImplicit false

namespace Yuke.App.Live

open Yuke.Protocol Yuke.Shared

/-- The input is consumed, removed, or still pending after a run that started later and told the
observer of its failure. -/
def Handled (s : State) (id : InputId) : Prop :=
  id ∈ s.consumed ∨ id ∈ s.removed ∨ (id ∈ s.pending ∧
    ∃ run ∈ s.runs, id ∈ run.accepted ∧ ∃ error ∈ s.notices, run.stop = .failed error)

def Task.accepted? : Task → Option (List InputId)
  | .asking accepted | .answered accepted _ | .locking accepted | .recovering accepted |
    .preparing accepted | .turning accepted => some accepted
  | .waiting | .ended => none

def Task.InTurn : Task → Prop
  | .preparing _ | .turning _ => True
  | _ => False

variable {s s' : State} {event : Event} {id : InputId} {accepted : List InputId}

structure Later (s s' : State) : Prop where
  consumed : ∀ id ∈ s.consumed, id ∈ s'.consumed
  removed : ∀ id ∈ s.removed, id ∈ s'.removed
  pending : ∀ id ∈ s.pending, id ∈ s'.pending ∨ id ∈ s'.consumed ∨ id ∈ s'.removed
  runs : ∀ run ∈ s.runs, run ∈ s'.runs
  notices : ∀ error ∈ s.notices, error ∈ s'.notices
  accepted : s.accepted <+: s'.accepted
  closed : s.closed = true → s'.closed = true

theorem Later.refl (s : State) : Later s s :=
  ⟨fun _ h => h, fun _ h => h, fun _ h => .inl h, fun _ h => h, fun _ h => h, List.prefix_rfl,
    fun h => h⟩

theorem Later.trans {s'' : State} (h : Later s s') (h' : Later s' s'') : Later s s'' := by
  refine ⟨fun id hid => h'.consumed id (h.consumed id hid), fun id hid =>
    h'.removed id (h.removed id hid), fun id hid => ?_, fun run hrun => h'.runs run (h.runs run hrun),
    fun error herror => h'.notices error (h.notices error herror), h.accepted.trans h'.accepted,
    fun hclosed => h'.closed (h.closed hclosed)⟩
  rcases h.pending id hid with hpending | hconsumed | hremoved
  · exact h'.pending id hpending
  · exact .inr (.inl (h'.consumed id hconsumed))
  · exact .inr (.inr (h'.removed id hremoved))

theorem Handled.later (h : Handled s id) (hlater : Later s s') : Handled s' id := by
  rcases h with hconsumed | hremoved | ⟨hpending, run, hrun, hin, error, herror, hstop⟩
  · exact .inl (hlater.consumed id hconsumed)
  · exact .inr (.inl (hlater.removed id hremoved))
  · rcases hlater.pending id hpending with hpending | hconsumed | hremoved
    · exact .inr (.inr ⟨hpending, run, hlater.runs run hrun, hin, error,
        hlater.notices error herror, hstop⟩)
    · exact .inl hconsumed
    · exact .inr (.inl hremoved)

theorem later_endRun (stop : RunEnd) : Later s (s.endRun accepted stop) := by
  refine ⟨fun _ h => h, fun _ h => h, fun _ h => .inl h, fun _ h => ?_, fun _ h => h,
    List.prefix_rfl, fun h => h⟩
  exact List.mem_append_left _ h

theorem later_fail (error : String) : Later s (s.fail accepted error) := by
  refine ⟨fun _ h => h, fun _ h => h, fun _ h => .inl h, fun _ h => ?_, fun _ h => ?_,
    List.prefix_rfl, fun h => h⟩
  · exact List.mem_append_left _ h
  · exact List.mem_append_left _ h

theorem later_same (hconsumed : s'.consumed = s.consumed) (hremoved : s'.removed = s.removed)
    (hpending : s'.pending = s.pending) (hruns : s'.runs = s.runs)
    (hnotices : s'.notices = s.notices) (haccepted : s'.accepted = s.accepted)
    (hclosed : s'.closed = s.closed) : Later s s' := by
  constructor
  · intro id hid
    rwa [hconsumed]
  · intro id hid
    rwa [hremoved]
  · intro id hid
    rw [hpending]
    exact .inl hid
  · intro run hrun
    rwa [hruns]
  · intro error herror
    rwa [hnotices]
  · rw [haccepted]
  · intro h
    rwa [hclosed]

theorem later_startTurn (model : Except String Unit) : Later s (s.startTurn accepted model) := by
  have hfree : Later s { s with lock := .free } := later_same rfl rfl rfl rfl rfl rfl rfl
  cases model with
  | error error => exact hfree.trans (later_fail error)
  | ok _ =>
    unfold State.startTurn
    simp only
    split
    · exact hfree.trans (later_endRun .closed)
    · exact later_same rfl rfl rfl rfl rfl rfl rfl

theorem step_later (hstep : s.step event = some s') : Later s s' := by
  cases event with
  | save id =>
    simp only [State.step] at hstep
    split_ifs at hstep
    cases hstep
    refine ⟨fun _ h => h, fun _ h => h, fun _ h => ?_, fun _ h => h, fun _ h => h,
      List.prefix_rfl, fun h => h⟩
    exact .inl (List.mem_append_left _ h)
  | accept id =>
    simp only [State.step] at hstep
    split_ifs at hstep
    cases hstep
    exact ⟨fun _ h => h, fun _ h => h, fun _ h => .inl h, fun _ h => h, fun _ h => h,
      List.prefix_append _ _, fun h => h⟩
  | remove id =>
    simp only [State.step] at hstep
    split_ifs at hstep
    · cases hstep
      refine ⟨fun _ h => h, fun _ h => List.mem_append_left _ h, fun other h => ?_, fun _ h => h,
        fun _ h => h, List.prefix_rfl, fun h => h⟩
      by_cases heq : other = id
      · right
        right
        rw [heq]
        simp
      · left
        exact (List.mem_erase_of_ne heq).mpr h
    · cases hstep
      exact .refl s
  | cancel | hold | view | wake =>
    cases hstep
    first
      | exact later_same rfl rfl rfl rfl rfl rfl rfl
      | (split <;> exact later_same rfl rfl rfl rfl rfl rfl rfl)
  | release stale =>
    simp only [State.step] at hstep
    split_ifs at hstep
    cases hstep
    exact later_same rfl rfl rfl rfl rfl rfl rfl
  | stop =>
    cases hstep
    exact ⟨fun _ h => h, fun _ h => h, fun _ h => .inl h, fun _ h => h, fun _ h => h,
      List.prefix_rfl, fun _ => rfl⟩
  | run =>
    simp only [State.step] at hstep
    split at hstep
    · split_ifs at hstep
      cases hstep
      exact later_same rfl rfl rfl rfl rfl rfl rfl
    · cases hstep
  | leave =>
    simp only [State.step] at hstep
    split at hstep
    · split_ifs at hstep
      cases hstep
      exact later_same rfl rfl rfl rfl rfl rfl rfl
    · cases hstep
  | read failure =>
    simp only [State.step] at hstep
    split at hstep
    · cases hstep
      exact later_same rfl rfl rfl rfl rfl rfl rfl
    · cases hstep
  | resume =>
    simp only [State.step] at hstep
    split at hstep
    · cases hstep
      exact later_fail _
    · cases hstep
      exact later_endRun .empty
    · cases hstep
      exact later_same rfl rfl rfl rfl rfl rfl rfl
    · cases hstep
  | lock model =>
    simp only [State.step] at hstep
    split at hstep
    · split_ifs at hstep
      · cases hstep
        exact later_same rfl rfl rfl rfl rfl rfl rfl
      · cases hstep
        have hheld : Later s { s with lock := .task } := later_same rfl rfl rfl rfl rfl rfl rfl
        exact hheld.trans (later_startTurn model)
    · cases hstep
  | recover result =>
    simp only [State.step] at hstep
    split at hstep
    · split at hstep
      · cases hstep
        have hfree : Later s { s with lock := .free } := later_same rfl rfl rfl rfl rfl rfl rfl
        exact hfree.trans (later_fail _)
      · cases hstep
        have hfresh : Later s { s with stale := false } := later_same rfl rfl rfl rfl rfl rfl rfl
        exact hfresh.trans (later_startTurn _)
    · cases hstep
  | prepare result =>
    simp only [State.step] at hstep
    split at hstep
    · split at hstep
      · cases hstep
        exact later_same rfl rfl rfl rfl rfl rfl rfl
      · cases hstep
        have hfinished : Later s (s.finishTurn s.stale) :=
          later_same rfl rfl rfl rfl rfl rfl rfl
        exact hfinished.trans (later_fail _)
    · cases hstep
  | commit inputs =>
    simp only [State.step] at hstep
    split at hstep
    · split_ifs at hstep
      cases hstep
      refine ⟨fun _ h => List.mem_append_left _ h, fun _ h => h, fun id h => ?_, fun _ h => h,
        fun _ h => h, List.prefix_rfl, fun h => h⟩
      by_cases hmem : id ∈ inputs
      · exact .inr (.inl (List.mem_append_right _ hmem))
      · left
        exact List.mem_filter.mpr ⟨h, by simpa using hmem⟩
    · cases hstep
  | turnEnd result stale =>
    simp only [State.step] at hstep
    split at hstep
    · cases hstep
      have hfinished : Later s (s.finishTurn stale) := later_same rfl rfl rfl rfl rfl rfl rfl
      refine hfinished.trans ?_
      cases result with
      | done | round | noInput => exact later_same rfl rfl rfl rfl rfl rfl rfl
      | store error => exact later_fail error
      | stale error => exact later_fail error
      | inputHook error => exact later_fail error
    · cases hstep
  | idle call =>
    simp only [State.step] at hstep
    split_ifs at hstep
    cases hstep
    exact later_same rfl rfl rfl rfl rfl rfl rfl
  | idleReturn call =>
    simp only [State.step] at hstep
    split at hstep
    · split_ifs at hstep
      cases hstep
      exact later_same rfl rfl rfl rfl rfl rfl rfl
    · cases hstep

structure Running (s : State) (accepted : List InputId) : Prop where
  start : accepted <+: s.accepted
  /-- An accept after the start stored a wake. -/
  current : s.wake = false → accepted = s.accepted

structure Inv (s : State) : Prop where
  kept : ∀ id, id ∈ s.accepted ∨ id ∈ s.saved → id ∈ s.pending ∨ id ∈ s.consumed ∨ id ∈ s.removed
  running : ∀ accepted, s.task.accepted? = some accepted → Running s accepted
  empty : ∀ accepted, s.task = .answered accepted (.ok false) →
    ∀ id ∈ accepted, id ∈ s.consumed ∨ id ∈ s.removed
  handled : s.closed = false → ∃ accepted, accepted <+: s.accepted ∧
    s.handled = accepted.length ∧ ∀ id ∈ accepted, Handled s id
  waiting : s.task = .waiting → s.wake = false → ∀ id ∈ s.accepted, Handled s id
  turn : s.turn.isSome ↔ s.task.InTurn
  idles : ∀ call accepted, s.idles call = some accepted → accepted <+: s.accepted

theorem Inv.other (h : Inv s) (hlater : Later s s') (htask : s'.task = s.task)
    (hhandled : s'.handled = s.handled) (hidles : s'.idles = s.idles)
    (hturn : s'.turn.isSome = s.turn.isSome)
    (hkept : ∀ id, id ∈ s'.accepted ∨ id ∈ s'.saved →
      id ∈ s'.pending ∨ id ∈ s'.consumed ∨ id ∈ s'.removed)
    (hwake : s'.wake = false → s.wake = false ∧ s'.accepted = s.accepted) : Inv s' := by
  constructor
  · exact hkept
  · intro accepted htask'
    rw [htask] at htask'
    have hrunning := h.running accepted htask'
    constructor
    · exact hrunning.start.trans hlater.accepted
    · intro hnone
      obtain ⟨hold, hsame⟩ := hwake hnone
      rw [hsame]
      exact hrunning.current hold
  · intro accepted htask' id hid
    rw [htask] at htask'
    rcases h.empty accepted htask' id hid with hconsumed | hremoved
    · exact .inl (hlater.consumed id hconsumed)
    · exact .inr (hlater.removed id hremoved)
  · intro hopen
    have hold : s.closed = false := by
      cases hclosed : s.closed with
      | false => rfl
      | true =>
        rw [hlater.closed hclosed] at hopen
        cases hopen
    obtain ⟨accepted, hstart, hlength, hall⟩ := h.handled hold
    rw [hhandled]
    exact ⟨accepted, hstart.trans hlater.accepted, hlength, fun id hid => (hall id hid).later hlater⟩
  · intro hwaiting hnone id hid
    rw [htask] at hwaiting
    obtain ⟨hold, hsame⟩ := hwake hnone
    rw [hsame] at hid
    exact (h.waiting hwaiting hold id hid).later hlater
  · rw [htask, hturn]
    exact h.turn
  · intro call accepted hcall
    rw [hidles] at hcall
    exact (h.idles call accepted hcall).trans hlater.accepted

theorem Inv.goOn (h : Inv s) (htask : s.task.accepted? = some accepted) {task : Task}
    (hnext : task.accepted? = some accepted) {lock : Lock} {stale : Bool} {turn : Option Bool}
    (hturn : turn.isSome ↔ task.InTurn)
    (hempty : task = .answered accepted (.ok false) →
      ∀ id ∈ accepted, id ∈ s.consumed ∨ id ∈ s.removed) :
    Inv { s with task := task, lock := lock, stale := stale, turn := turn } := by
  have hrunning := h.running accepted htask
  constructor
  · exact h.kept
  · intro other hother
    have heq : accepted = other := Option.some.inj (hnext.symm.trans hother)
    subst heq
    exact ⟨hrunning.start, hrunning.current⟩
  · intro other hother
    have hsome : task.accepted? = some other := by
      have heq : task = .answered other (.ok false) := hother
      rw [heq]
      rfl
    have heq : accepted = other := Option.some.inj (hnext.symm.trans hsome)
    subst heq
    exact hempty hother
  · exact h.handled
  · intro hwaiting
    have heq : task = .waiting := hwaiting
    rw [heq] at hnext
    cases hnext
  · exact hturn
  · exact h.idles

theorem Inv.endRun (h : Inv s) (htask : s.task.accepted? = some accepted) {stop : RunEnd}
    {lock : Lock} {stale : Bool} {turn : Option Bool} {notices : List String}
    (hturn : turn = none)
    (hstop : s.closed = false → (∃ error ∈ notices, stop = .failed error) ∨
      ∀ id ∈ accepted, id ∈ s.consumed ∨ id ∈ s.removed) :
    Inv ({ s with lock := lock, stale := stale, turn := turn, notices := notices }.endRun
      accepted stop) := by
  have hrunning := h.running accepted htask
  have hall : s.closed = false → ∀ id ∈ accepted,
      Handled ({ s with lock := lock, stale := stale, turn := turn, notices := notices }.endRun
        accepted stop) id := by
    intro hopen id hid
    rcases hstop hopen with ⟨error, herror, hfailed⟩ | hgone
    · rcases h.kept id (.inl (hrunning.start.subset hid)) with hpending | hconsumed | hremoved
      · right
        right
        exact ⟨hpending, ⟨accepted, stop⟩, by simp [State.endRun], hid, error, herror, hfailed⟩
      · exact .inl hconsumed
      · exact .inr (.inl hremoved)
    · rcases hgone id hid with hconsumed | hremoved
      · exact .inl hconsumed
      · exact .inr (.inl hremoved)
  have htask' : ∀ task, (if s.closed = true ∧ ¬ s.wake = true then Task.ended else .waiting) = task →
      task = .ended ∨ (task = .waiting ∧ ¬ (s.closed = true ∧ ¬ s.wake = true)) := by
    intro task heq
    split_ifs at heq with hclosed
    · exact .inl heq.symm
    · exact .inr ⟨heq.symm, hclosed⟩
  constructor
  · exact h.kept
  · intro other hother
    rcases htask' _ rfl with hended | ⟨hwaiting, _⟩
    · simp only [State.endRun, hended] at hother
      cases hother
    · simp only [State.endRun, hwaiting] at hother
      cases hother
  · intro other hother
    rcases htask' _ hother with hended | ⟨hwaiting, _⟩
    · cases hended
    · cases hwaiting
  · intro hopen
    exact ⟨accepted, hrunning.start, rfl, hall hopen⟩
  · intro hwaiting hnone id hid
    rcases htask' _ hwaiting with hended | ⟨_, hopen⟩
    · cases hended
    · have hwake : s.wake = false := hnone
      have hclosed : s.closed = false := by
        cases hclosed : s.closed with
        | false => rfl
        | true => exact absurd ⟨hclosed, by simp [hwake]⟩ hopen
      refine hall hclosed id ?_
      rw [hrunning.current hwake]
      exact hid
  · constructor
    · intro hsome
      have hnone : turn.isSome = true := hsome
      rw [hturn] at hnone
      cases hnone
    · intro hin
      rcases htask' _ rfl with hended | ⟨hwaiting, _⟩
      · simp only [State.endRun, hended] at hin
        cases hin
      · simp only [State.endRun, hwaiting] at hin
        cases hin
  · exact h.idles

theorem Inv.turn_none (h : Inv s) (hturn : ¬ s.task.InTurn) : s.turn = none := by
  cases hsome : s.turn with
  | none => rfl
  | some _ =>
    refine absurd (h.turn.mp ?_) hturn
    rw [hsome]
    rfl

theorem Inv.fail (h : Inv s) (htask : s.task.accepted? = some accepted) {lock : Lock} {stale : Bool}
    {turn : Option Bool} (hturn : turn = none) (error : String) :
    Inv ({ s with lock := lock, stale := stale, turn := turn }.fail accepted error) := by
  refine h.endRun htask hturn ?_
  intro _
  left
  exact ⟨error, by simp, rfl⟩

theorem Inv.startTurn (h : Inv s) (htask : s.task.accepted? = some accepted)
    (hturn : ¬ s.task.InTurn) {lock : Lock} {stale : Bool} (model : Except String Unit) :
    Inv ({ s with lock := lock, stale := stale }.startTurn accepted model) := by
  have hnone := h.turn_none hturn
  cases model with
  | error error => exact h.fail htask hnone error
  | ok _ =>
    unfold State.startTurn
    simp only
    split
    · next hclosed =>
      refine h.endRun htask hnone ?_
      intro hopen
      rw [hopen] at hclosed
      cases hclosed
    · refine h.goOn htask rfl ?_ ?_
      · exact iff_of_true rfl trivial
      · intro heq
        cases heq

theorem accepted_of_task {task : Task} (h : s.task = task) (hsome : task.accepted? = some accepted) :
    s.task.accepted? = some accepted := by
  rw [h]
  exact hsome

theorem inv_step (h : Inv s) (hstep : s.step event = some s') : Inv s' := by
  have hlater := step_later hstep
  cases event with
  | save id =>
    simp only [State.step] at hstep
    split_ifs at hstep
    cases hstep
    refine h.other hlater rfl rfl rfl rfl ?_ fun hnone => ⟨hnone, rfl⟩
    intro other hother
    have hold : other ∈ s.accepted ∨ other ∈ s.saved → other ∈ s.pending ++ [id] ∨
        other ∈ s.consumed ∨ other ∈ s.removed := by
      intro hmem
      rcases h.kept other hmem with hpending | hgone
      · exact .inl (List.mem_append_left _ hpending)
      · exact .inr hgone
    rcases hother with haccepted | hsaved
    · exact hold (.inl haccepted)
    · rcases List.mem_append.mp hsaved with hsaved | hnew
      · exact hold (.inr hsaved)
      · exact .inl (List.mem_append_right _ hnew)
  | accept id =>
    simp only [State.step] at hstep
    split_ifs at hstep with hsaved
    cases hstep
    refine h.other hlater rfl rfl rfl rfl ?_ fun hnone => (nomatch hnone)
    intro other hother
    rcases hother with haccepted | hsaved'
    · rcases List.mem_append.mp haccepted with haccepted | hnew
      · exact h.kept other (.inl haccepted)
      · rw [List.mem_singleton] at hnew
        rw [hnew]
        exact h.kept id (.inr hsaved)
    · exact h.kept other (.inr (List.mem_of_mem_erase hsaved'))
  | remove id =>
    simp only [State.step] at hstep
    split_ifs at hstep
    · cases hstep
      refine h.other hlater rfl rfl rfl rfl ?_ fun hnone => ⟨hnone, rfl⟩
      intro other hother
      rcases h.kept other hother with hpending | hconsumed | hremoved
      · exact hlater.pending other hpending
      · exact .inr (.inl hconsumed)
      · exact .inr (.inr (List.mem_append_left _ hremoved))
    · cases hstep
      exact h
  | cancel =>
    cases hstep
    exact h.other hlater rfl rfl rfl (by simp) h.kept fun hnone => ⟨hnone, rfl⟩
  | hold =>
    simp only [State.step] at hstep
    cases hstep
    split
    · exact h.other (later_same rfl rfl rfl rfl rfl rfl rfl) rfl rfl rfl rfl h.kept
        fun hnone => ⟨hnone, rfl⟩
    · exact h
  | release stale =>
    simp only [State.step] at hstep
    split_ifs at hstep
    cases hstep
    exact h.other hlater rfl rfl rfl rfl h.kept fun hnone => ⟨hnone, rfl⟩
  | view =>
    cases hstep
    exact h
  | wake =>
    cases hstep
    exact h.other hlater rfl rfl rfl rfl h.kept fun hnone => (nomatch hnone)
  | stop =>
    cases hstep
    exact h.other hlater rfl rfl rfl (by simp) h.kept fun hnone => ⟨hnone, rfl⟩
  | run =>
    simp only [State.step] at hstep
    split at hstep
    · next hwaiting =>
      split_ifs at hstep
      cases hstep
      have hturn := h.turn
      rw [hwaiting] at hturn
      constructor
      · exact h.kept
      · intro accepted haccepted
        cases haccepted
        exact ⟨List.prefix_rfl, fun _ => rfl⟩
      · intro accepted heq
        cases heq
      · exact h.handled
      · intro heq
        cases heq
      · exact hturn
      · exact h.idles
    · cases hstep
  | leave =>
    simp only [State.step] at hstep
    split at hstep
    · next hwaiting =>
      split_ifs at hstep
      cases hstep
      have hturn := h.turn
      rw [hwaiting] at hturn
      constructor
      · exact h.kept
      · intro accepted haccepted
        cases haccepted
      · intro accepted heq
        cases heq
      · exact h.handled
      · intro heq
        cases heq
      · exact hturn
      · exact h.idles
    · cases hstep
  | read failure =>
    simp only [State.step] at hstep
    split at hstep
    · next accepted hasking =>
      cases hstep
      have htask := accepted_of_task hasking (rfl : (Task.asking accepted).accepted? = some accepted)
      have hturn := h.turn
      rw [hasking] at hturn
      refine h.goOn htask rfl hturn ?_
      intro heq id hid
      have hstart := (h.running accepted htask).start.subset hid
      cases failure with
      | some error => cases heq
      | none =>
        have hempty : s.pending = [] := by
          have hnot : (!s.pending.isEmpty) = false := by
            injection heq with _ heq
            exact Except.ok.inj heq
          simpa using hnot
        rcases h.kept id (.inl hstart) with hpending | hgone
        · rw [hempty] at hpending
          cases hpending
        · exact hgone
    · cases hstep
  | resume =>
    simp only [State.step] at hstep
    split at hstep
    · next accepted error hanswered =>
      cases hstep
      have htask := accepted_of_task hanswered
        (rfl : (Task.answered accepted (.error error)).accepted? = some accepted)
      refine h.fail htask (h.turn_none ?_) error
      rw [hanswered]
      exact id
    · next accepted hanswered =>
      cases hstep
      have htask := accepted_of_task hanswered
        (rfl : (Task.answered accepted (.ok false)).accepted? = some accepted)
      refine h.endRun htask (h.turn_none ?_) ?_
      · rw [hanswered]
        exact id
      · intro _
        right
        exact h.empty accepted hanswered
    · next accepted hanswered =>
      cases hstep
      have htask := accepted_of_task hanswered
        (rfl : (Task.answered accepted (.ok true)).accepted? = some accepted)
      have hturn := h.turn
      rw [hanswered] at hturn
      refine h.goOn htask rfl hturn ?_
      intro heq
      cases heq
    · cases hstep
  | lock model =>
    simp only [State.step] at hstep
    split at hstep
    · next accepted hlocking =>
      have htask := accepted_of_task hlocking
        (rfl : (Task.locking accepted).accepted? = some accepted)
      have hturn := h.turn
      rw [hlocking] at hturn
      split_ifs at hstep
      · cases hstep
        refine h.goOn htask rfl hturn ?_
        intro heq
        cases heq
      · cases hstep
        refine h.startTurn htask ?_ model
        rw [hlocking]
        exact id
    · cases hstep
  | recover result =>
    simp only [State.step] at hstep
    split at hstep
    · next accepted hrecovering =>
      have htask := accepted_of_task hrecovering
        (rfl : (Task.recovering accepted).accepted? = some accepted)
      have hturn : ¬ s.task.InTurn := by
        rw [hrecovering]
        exact id
      split at hstep
      · next error =>
        cases hstep
        exact h.fail htask (h.turn_none hturn) error
      · next model =>
        cases hstep
        exact h.startTurn htask hturn model
    · cases hstep
  | prepare result =>
    simp only [State.step] at hstep
    split at hstep
    · next accepted hpreparing =>
      have htask := accepted_of_task hpreparing
        (rfl : (Task.preparing accepted).accepted? = some accepted)
      have hturn := h.turn
      rw [hpreparing] at hturn
      split at hstep
      · cases hstep
        refine h.goOn htask rfl hturn ?_
        intro heq
        cases heq
      · next error =>
        cases hstep
        exact h.fail htask rfl error
    · cases hstep
  | commit inputs =>
    simp only [State.step] at hstep
    split at hstep
    · split_ifs at hstep
      cases hstep
      refine h.other hlater rfl rfl rfl rfl ?_ fun hnone => ⟨hnone, rfl⟩
      intro other hother
      rcases h.kept other hother with hpending | hconsumed | hremoved
      · exact hlater.pending other hpending
      · exact .inr (.inl (List.mem_append_left _ hconsumed))
      · exact .inr (.inr hremoved)
    · cases hstep
  | turnEnd result stale =>
    simp only [State.step] at hstep
    split at hstep
    · next accepted hturning =>
      cases hstep
      have htask := accepted_of_task hturning
        (rfl : (Task.turning accepted).accepted? = some accepted)
      have hagain : Inv { s.finishTurn stale with task := .asking accepted } := by
        refine h.goOn htask rfl ?_ ?_
        · exact iff_of_false (fun hsome => nomatch hsome) id
        · intro heq
          cases heq
      cases result with
      | done | round | noInput => exact hagain
      | store error => exact h.fail htask rfl error
      | stale error => exact h.fail htask rfl error
      | inputHook error => exact h.fail htask rfl error
    · cases hstep
  | idle call =>
    simp only [State.step] at hstep
    split_ifs at hstep
    cases hstep
    constructor
    · exact h.kept
    · intro accepted htask
      exact ⟨(h.running accepted htask).start, (h.running accepted htask).current⟩
    · exact h.empty
    · exact h.handled
    · exact h.waiting
    · exact h.turn
    · intro other accepted hcall
      by_cases heq : other = call
      · subst heq
        have hsame : s.accepted = accepted := by simpa using hcall
        rw [hsame]
      · exact h.idles other accepted (by simpa [heq] using hcall)
  | idleReturn call =>
    simp only [State.step] at hstep
    split at hstep
    · split_ifs at hstep
      cases hstep
      constructor
      · exact h.kept
      · intro accepted htask
        exact ⟨(h.running accepted htask).start, (h.running accepted htask).current⟩
      · exact h.empty
      · exact h.handled
      · exact h.waiting
      · exact h.turn
      · intro other accepted hcall
        by_cases heq : other = call
        · subst heq
          simp at hcall
        · exact h.idles other accepted (by simpa [heq] using hcall)
    · cases hstep

theorem inv_start (pending : List InputId) : Inv (start pending) := by
  constructor
  · intro id hid
    rcases hid with hid | hid
    · cases hid
    · cases hid
  · intro accepted htask
    cases htask
  · intro accepted htask
    cases htask
  · intro _
    exact ⟨[], List.prefix_rfl, rfl, fun id hid => nomatch hid⟩
  · intro _ _ id hid
    cases hid
  · exact iff_of_false (fun hsome => nomatch hsome) id
  · intro call accepted hcall
    cases hcall

theorem run_inv {pending : List InputId} {events : List Event}
    (hrun : Steps (outcome State.step) (start pending) events s) : Inv s :=
  hrun.keeps (inv_start pending) fun _ _ _ h hstep => inv_step h hstep

/-- A call of `idle` returns on an open session with no turn and each earlier input handled, and a
task that waits without a wake leaves no accepted input behind. -/
theorem idle_handled {pending : List InputId} {events : List Event}
    (hrun : Steps (outcome State.step) (start pending) events s) :
    (∀ call accepted s', s.idles call = some accepted → s.step (.idleReturn call) = some s' →
      s.closed = false → ¬ s.task.InTurn ∧ ∀ id ∈ accepted, Handled s id) ∧
      (s.task = .waiting → s.wake = false → ∀ id ∈ s.accepted, Handled s id) := by
  have h := run_inv hrun
  constructor
  · intro call accepted s' hcall hstep hopen
    simp only [State.step, hcall] at hstep
    split_ifs at hstep with hreturns
    rcases hreturns with hclosed | ⟨hlength, hturn⟩
    · rw [hopen] at hclosed
      cases hclosed
    · constructor
      · intro hin
        have hsome := h.turn.mpr hin
        rw [hturn] at hsome
        cases hsome
      · obtain ⟨marked, hstart, hmarked, hall⟩ := h.handled hopen
        have hwithin : accepted <+: marked := by
          refine List.prefix_of_prefix_length_le (h.idles call accepted hcall) hstart ?_
          omega
        intro id hid
        exact hall id (hwithin.subset hid)
  · exact h.waiting

/-- Input 1 waits in the inbox, and input 2 is accepted while the first turn runs. -/
def lateAccept : List Event :=
  [.save ⟨2⟩, .wake, .run, .read none, .resume, .lock (.ok ()), .prepare (.ok ()), .accept ⟨2⟩, .idle 0,
    .commit [⟨1⟩, ⟨2⟩], .turnEnd .done false, .read none, .resume, .run, .read none, .resume]

theorem idle_handled_late_accept : ∃ s s',
    Steps (outcome State.step) (start [⟨1⟩]) lateAccept s ∧
      s.step (.idleReturn 0) = some s' ∧ s.wake = false ∧ s.runs.length = 2 ∧
      ¬ s.task.InTurn ∧ (∀ id ∈ [(⟨2⟩ : InputId)], Handled s id) ∧ ∀ id ∈ s.accepted, Handled s id := by
  have hrun : ∃ s s', lateAccept.foldlM State.step (start [⟨1⟩]) = some s ∧
      s.step (.idleReturn 0) = some s' ∧ s.idles 0 = some [⟨2⟩] ∧ s.closed = false ∧
      s.task = .waiting ∧ s.wake = false ∧ s.runs.length = 2 :=
    ⟨_, _, rfl, rfl, rfl, rfl, rfl, rfl, rfl⟩
  obtain ⟨s, s', hrun, hreturn, hcall, hopen, htask, hwake, hruns⟩ := hrun
  have hlaw := idle_handled (.of_foldlM hrun)
  obtain ⟨hturn, hall⟩ := hlaw.1 0 [⟨2⟩] s' hcall hreturn hopen
  exact ⟨s, s', .of_foldlM hrun, hreturn, hwake, hruns, hturn, hall, hlaw.2 htask hwake⟩

end Yuke.App.Live
