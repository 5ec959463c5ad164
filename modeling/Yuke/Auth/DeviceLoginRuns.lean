import Yuke.Auth.DeviceLogin

/-!
# Runs of a device login

From the second check on, the delays stay near the limit, so only the sum of the first check can
overflow.
-/

set_option autoImplicit false

namespace Yuke.Auth

open Yuke.Shared

variable {Grant : Type}

def Polled.isSlowDown : Polled Grant → Bool
  | .slowDown => true
  | .approved _ | .pending | .transient | .failed _ => false

/-- The shortest wait after the answers of `polls`, in nanoseconds. -/
def leastWait (interval : Duration) (polls : List (Poll Grant)) : Nat :=
  max interval.nanos MIN_INTERVAL.nanos +
    SLOW_DOWN_STEP.nanos * polls.countP fun poll => poll.answer.isSlowDown

/-- Each wait was long enough for the answers before it, a wait after a transient failure was not
too long, and no wait was to end after the limit. -/
structure Waited (interval : Duration) (waits : List Wait) (polls : List (Poll Grant)) : Prop where
  first : polls.length ≤ waits.length
  long : ∀ i wait, waits[i]? = some wait → leastWait interval (polls.take i) ≤ wait.delay.nanos
  backed_off : ∀ i wait poll, waits[i + 1]? = some wait → polls[i]? = some poll →
    poll.answer = .transient →
      wait.delay.nanos ≤ max (leastWait interval (polls.take (i + 1))) MAX_BACKOFF.nanos
  in_limit : ∀ wait ∈ waits, wait.elapsed.nanos + wait.delay.nanos ≤ LOGIN_LIMIT.nanos
  few : waits.length ≤ 900

/-- A login that did not panic, waited as it must before each poll, and ended in time: without any
wait, or with the poll after its last wait. -/
structure Polite (interval : Duration) (s : PollLogin Grant) : Prop where
  not_panicked : s.ended ≠ some .panicked
  waited : Waited interval s.waits s.polls
  soon : s.ended.isSome = true → s.waits = [] ∨ ∃ poll, s.polls.getLast? = some poll ∧
    s.elapsed.nanos ≤ LOGIN_LIMIT.nanos + poll.late + poll.took

theorem nanos_limit : LOGIN_LIMIT.nanos = 900 * nanosPerSecond := rfl

theorem nanos_step : SLOW_DOWN_STEP.nanos = 5 * nanosPerSecond := rfl

theorem nanos_min : MIN_INTERVAL.nanos = 1 * nanosPerSecond := rfl

theorem nanos_backoff : MAX_BACKOFF.nanos = 60 * nanosPerSecond := rfl

theorem leastWait_concat (interval : Duration) (polls : List (Poll Grant)) (poll : Poll Grant) :
    leastWait interval (polls ++ [poll]) = leastWait interval polls +
      if poll.answer.isSlowDown then SLOW_DOWN_STEP.nanos else 0 := by
  unfold leastWait
  rw [List.countP_append, List.countP_singleton, Nat.mul_add]
  split
  · rw [Nat.mul_one, Nat.add_assoc]
  · rw [Nat.mul_zero, Nat.add_zero]
    rfl

theorem leastWait_nil (interval : Duration) :
    leastWait interval ([] : List (Poll Grant)) = max interval.nanos MIN_INTERVAL.nanos := by
  rw [leastWait, List.countP_nil, Nat.mul_zero, Nat.add_zero]

theorem le_leastWait (interval : Duration) (polls : List (Poll Grant)) :
    nanosPerSecond ≤ leastWait interval polls := by
  have h := nanos_min
  unfold leastWait
  omega

theorem Waited.poll {given : Duration} {waits : List Wait} {polls : List (Poll Grant)}
    (h : Waited given waits polls) (hlength : waits.length = polls.length + 1)
    (poll : Poll Grant) : Waited given waits (polls ++ [poll]) := by
  have htake : ∀ i wait, waits[i]? = some wait → i ≤ polls.length := by
    intro i wait hwait
    have hi := (List.getElem?_eq_some_iff.mp hwait).1
    omega
  constructor
  · rw [List.length_append, List.length_singleton, hlength]
  · intro i wait hwait
    rw [List.take_append_of_le_length (htake i wait hwait)]
    exact h.long i wait hwait
  · intro i wait other hwait hother htransient
    have hi := htake (i + 1) wait hwait
    rw [List.getElem?_append_left (by omega)] at hother
    rw [List.take_append_of_le_length hi]
    exact h.backed_off i wait other hwait hother htransient
  · exact h.in_limit
  · exact h.few

structure Polling (given : Duration) (first : Elapsed) (s : PollLogin Grant) : Prop where
  waited : Waited given s.waits s.polls
  waits : s.waits.length = s.polls.length + if s.waiting then 1 else 0
  interval : s.interval.nanos = leastWait given s.polls
  delay : s.interval.nanos ≤ s.delay.nanos
  backoff : s.backoff.nanos ≤ s.delay.nanos
  backs_off : ∀ poll, s.polls.getLast? = some poll → poll.answer = .transient →
    s.delay.nanos ≤ max s.interval.nanos MAX_BACKOFF.nanos
  clock : s.polls.length * nanosPerSecond ≤ s.elapsed.nanos
  waiting : s.waiting = true → s.elapsed.nanos + s.delay.nanos ≤ LOGIN_LIMIT.nanos
  first : s.polls = [] → s.delay.nanos = max given.nanos MIN_INTERVAL.nanos ∧ s.elapsed = first
  later : s.polls ≠ [] → s.delay.nanos ≤ 965 * nanosPerSecond
  soon : s.waiting = false → s.polls = [] ∨ ∃ poll, s.polls.getLast? = some poll ∧
    s.elapsed.nanos ≤ LOGIN_LIMIT.nanos + poll.late + poll.took

section Steps

variable {given : Duration} {first : Elapsed} {s : PollLogin Grant}

theorem polling_start (given : Duration) (first : Elapsed) :
    Polling given first (PollLogin.start given first : PollLogin Grant) := by
  have hmax : (max given MIN_INTERVAL).nanos = max given.nanos MIN_INTERVAL.nanos :=
    Duration.max_nanos _ _
  constructor
  · constructor
    · exact le_rfl
    · intro i wait hwait
      cases hwait
    · intro i wait poll hwait
      cases hwait
    · intro wait hwait
      cases hwait
    · exact Nat.zero_le _
  · rfl
  · rw [PollLogin.start, leastWait_nil]
    exact hmax
  · exact le_rfl
  · exact Nat.zero_le _
  · intro poll hpoll
    cases hpoll
  · rw [PollLogin.start, List.length_nil, Nat.zero_mul]
    exact Nat.zero_le _
  · intro hwaiting
    cases hwaiting
  · intro _
    exact ⟨hmax, rfl⟩
  · intro hne
    exact absurd rfl hne
  · intro _
    exact .inl rfl

theorem Polling.fits (h : Polling given first s)
    (hfirst : first.nanos + max given.nanos MIN_INTERVAL.nanos ≤ durationMax) :
    s.elapsed.nanos + s.delay.nanos ≤ durationMax := by
  by_cases hnil : s.polls = []
  · obtain ⟨hdelay, helapsed⟩ := h.first hnil
    rw [hdelay, helapsed]
    exact hfirst
  · have hdelay := h.later hnil
    have helapsed := s.elapsed.bound
    unfold nanosPerSecond at hdelay helapsed
    unfold durationMax nanosPerSecond
    omega

theorem Polling.wait (h : Polling given first s) (hwaiting : s.waiting = false)
    (hlimit : s.elapsed.nanos + s.delay.nanos ≤ LOGIN_LIMIT.nanos) :
    Polling given first
      { s with waiting := true, waits := s.waits ++ [⟨s.elapsed, s.delay⟩] } := by
  have hlength : s.waits.length = s.polls.length := by
    rw [h.waits, hwaiting]
    rfl
  have hnew : ∀ i wait, (s.waits ++ [⟨s.elapsed, s.delay⟩])[i]? = some wait →
      s.waits[i]? = some wait ∨ i = s.polls.length ∧ wait = ⟨s.elapsed, s.delay⟩ := by
    intro i wait hwait
    rcases Nat.lt_trichotomy i s.waits.length with hi | hi | hi
    · rw [List.getElem?_append_left hi] at hwait
      exact .inl hwait
    · subst hi
      rw [List.getElem?_concat_length, Option.some.injEq] at hwait
      exact .inr ⟨hlength, hwait.symm⟩
    · rw [List.getElem?_eq_none (by simp; omega)] at hwait
      cases hwait
  have hsecond := le_leastWait given s.polls
  have hinterval := h.interval
  have hdelay := h.delay
  have hclock := h.clock
  constructor
  · constructor
    · dsimp only
      rw [List.length_append]
      omega
    · intro i wait hwait
      rcases hnew i wait hwait with hwait | ⟨rfl, rfl⟩
      · exact h.waited.long i wait hwait
      · rw [List.take_length]
        dsimp only
        omega
    · intro i wait poll hwait hpoll htransient
      rcases hnew (i + 1) wait hwait with hwait | ⟨hi, rfl⟩
      · exact h.waited.backed_off i wait poll hwait hpoll htransient
      · rw [hi, List.take_length, ← hinterval]
        apply h.backs_off poll _ htransient
        rw [List.getLast?_eq_getElem?, ← hi]
        exact hpoll
    · intro wait hwait
      rcases List.mem_append.mp hwait with hwait | hwait
      · exact h.waited.in_limit wait hwait
      · rw [List.mem_singleton.mp hwait]
        exact hlimit
    · dsimp only
      rw [List.length_append, List.length_singleton, hlength]
      rw [nanos_limit] at hlimit
      unfold nanosPerSecond at *
      omega
  · dsimp only
    rw [List.length_append, hlength]
    rfl
  · exact hinterval
  · exact hdelay
  · exact h.backoff
  · exact h.backs_off
  · exact hclock
  · intro _
    exact hlimit
  · exact h.first
  · exact h.later
  · intro hfalse
    cases hfalse

theorem Polling.poll (h : Polling given first s) (hwaiting : s.waiting = true) {poll : Poll Grant}
    {now : Elapsed} (hnow : now.nanos = s.elapsed.nanos + s.delay.nanos + poll.late + poll.took)
    {interval backoff delay : Duration}
    (hinterval : interval.nanos =
      s.interval.nanos + if poll.answer.isSlowDown then SLOW_DOWN_STEP.nanos else 0)
    (hdelay : interval.nanos ≤ delay.nanos) (hbackoff : backoff.nanos ≤ delay.nanos)
    (hmax : delay.nanos ≤ max interval.nanos MAX_BACKOFF.nanos) :
    Polling given first
      { s with
        waiting := false, elapsed := now, polls := s.polls ++ [poll]
        interval := interval, backoff := backoff, delay := delay } := by
  have hlength : s.waits.length = s.polls.length + 1 := by
    rw [h.waits, hwaiting]
    rfl
  have hlimit := h.waiting hwaiting
  have hleast : interval.nanos = leastWait given (s.polls ++ [poll]) := by
    rw [hinterval, h.interval, leastWait_concat]
  constructor
  · exact h.waited.poll hlength poll
  · dsimp only
    rw [List.length_append, hlength]
    rfl
  · exact hleast
  · exact hdelay
  · exact hbackoff
  · intro _ _ _
    exact hmax
  · have hsecond := le_leastWait given s.polls
    have hold := h.interval
    have hlong := h.delay
    have hclock := h.clock
    dsimp only
    rw [List.length_append, List.length_singleton, hnow, Nat.add_mul, Nat.one_mul]
    omega
  · intro hfalse
    cases hfalse
  · intro hnil
    exact absurd hnil (by simp)
  · intro _
    have hlong := h.delay
    have hstep : interval.nanos ≤ s.interval.nanos + SLOW_DOWN_STEP.nanos := by
      rw [hinterval]
      split
      · exact le_rfl
      · omega
    rw [nanos_limit] at hlimit
    rw [nanos_step] at hstep
    rw [nanos_backoff] at hmax
    dsimp only
    unfold nanosPerSecond at *
    omega
  · intro _
    refine .inr ⟨poll, List.getLast?_concat .., ?_⟩
    dsimp only
    omega

theorem Polling.ended (h : Polling given first s) (hwaiting : s.waiting = false)
    (result : Except String Grant) : Polite given { s with ended := some (.returned result) } := by
  constructor
  · intro hpanic
    cases hpanic
  · exact h.waited
  · intro _
    rcases h.soon hwaiting with hnil | hlast
    · refine .inl (List.eq_nil_of_length_eq_zero ?_)
      dsimp only
      rw [h.waits, hnil, hwaiting]
      rfl
    · exact .inr hlast

end Steps

def Good (given : Duration) (first : Elapsed) (s : PollLogin Grant) : Prop :=
  s.ended = none ∧ Polling given first s ∨ s.ended.isSome = true ∧ Polite given s

section Runs

variable {given : Duration} {first : Elapsed} {s t : PollLogin Grant}

theorem Good.polite (h : Good given first s) : Polite given s := by
  rcases h with ⟨hended, hpolling⟩ | ⟨_, hpolite⟩
  · constructor
    · rw [hended]
      intro hpanic
      cases hpanic
    · exact hpolling.waited
    · rw [hended]
      intro hsome
      cases hsome
  · exact hpolite

theorem Polling.check (h : Polling given first s) (hended : s.ended = none)
    (hwaiting : s.waiting = false)
    (hfirst : first.nanos + max given.nanos MIN_INTERVAL.nanos ≤ durationMax) :
    Good given first s.check := by
  have hfits := h.fits hfirst
  unfold PollLogin.check
  cases hsum : s.elapsed.span.checkedAdd s.delay with
  | none =>
    have hover : durationMax < s.elapsed.nanos + s.delay.nanos :=
      Duration.checkedAdd_eq_none.mp hsum
    omega
  | some sum =>
    have hnanos : s.elapsed.nanos + s.delay.nanos = sum.nanos :=
      Duration.checkedAdd_eq_some.mp hsum
    dsimp only
    split
    · exact .inr ⟨rfl, h.ended hwaiting _⟩
    · next hlimit =>
      have hle : sum.nanos ≤ LOGIN_LIMIT.nanos := Duration.le_iff.mp (not_lt.mp hlimit)
      exact .inl ⟨hended, h.wait hwaiting (by omega)⟩

theorem slowDown_eq {interval : Duration}
    (h : s.interval.checkedAdd SLOW_DOWN_STEP = some interval) :
    s.slowDown = { s with backoff := .zero, interval := interval, delay := interval } := by
  rw [PollLogin.slowDown, h]

theorem backOff_eq {double backoff : Duration} (hdouble : s.backoff.checkedMul 2 = some double)
    (hclamp : double.clamp s.interval (max MAX_BACKOFF s.interval) = some backoff) :
    s.backOff = { s with backoff := backoff, delay := backoff } := by
  rw [PollLogin.backOff, hdouble]
  dsimp only
  rw [hclamp]

theorem Polling.answered (h : Polling given first s) (hended : s.ended = none)
    (hwaiting : s.waiting = true) {poll : Poll Grant} {now : Elapsed}
    (hnow : now.nanos = s.elapsed.nanos + s.delay.nanos + poll.late + poll.took) :
    Good given first
      (PollLogin.answered { s with waiting := false, elapsed := now, polls := s.polls ++ [poll] }
        poll.answer) := by
  have hlimit := h.waiting hwaiting
  have hdelay := h.delay
  have hbackoff := h.backoff
  have hsmall : LOGIN_LIMIT.nanos * 2 ≤ durationMax := by
    rw [nanos_limit]
    unfold durationMax nanosPerSecond
    omega
  have hover : ∀ result : Except String Grant,
      Polite given { s with
        waiting := false, elapsed := now, polls := s.polls ++ [poll]
        ended := some (.returned result) } := by
    intro result
    constructor
    · intro hpanic
      cases hpanic
    · apply h.waited.poll
      rw [h.waits, hwaiting, if_pos rfl]
    · intro _
      refine .inr ⟨poll, List.getLast?_concat .., ?_⟩
      dsimp only
      omega
  cases hanswer : poll.answer with
  | approved grant => exact .inr ⟨rfl, hover _⟩
  | failed error => exact .inr ⟨rfl, hover _⟩
  | pending =>
    refine .inl ⟨hended, h.poll hwaiting hnow ?_ ?_ ?_ ?_⟩
    · rw [hanswer, Polled.isSlowDown, if_neg Bool.false_ne_true, Nat.add_zero]
    · exact le_rfl
    · exact Nat.zero_le _
    · exact le_max_left _ _
  | slowDown =>
    obtain ⟨interval, hsum⟩ : ∃ interval, s.interval.checkedAdd SLOW_DOWN_STEP = some interval := by
      rw [← Option.ne_none_iff_exists']
      intro hnone
      have hmany := Duration.checkedAdd_eq_none.mp hnone
      rw [nanos_step] at hmany
      rw [nanos_limit] at hsmall hlimit
      unfold nanosPerSecond at *
      omega
    have hnanos := Duration.checkedAdd_eq_some.mp hsum
    rw [PollLogin.answered, slowDown_eq (s := { s with
      waiting := false, elapsed := now, polls := s.polls ++ [poll] }) hsum]
    refine .inl ⟨hended, h.poll hwaiting hnow ?_ ?_ ?_ ?_⟩
    · rw [hanswer, Polled.isSlowDown, if_pos rfl]
      exact hnanos.symm
    · exact le_rfl
    · exact Nat.zero_le _
    · exact le_max_left _ _
  | transient =>
    have hmax : (max MAX_BACKOFF s.interval).nanos = max s.interval.nanos MAX_BACKOFF.nanos := by
      rw [Duration.max_nanos, max_comm]
    obtain ⟨double, hdouble⟩ : ∃ double, s.backoff.checkedMul 2 = some double :=
      Duration.exists_checkedMul (by omega)
    obtain ⟨backoff, hclamp, hlow, hhigh⟩ :=
      Duration.exists_clamp double (le_max_right MAX_BACKOFF s.interval)
    rw [PollLogin.answered, backOff_eq (s := { s with
      waiting := false, elapsed := now, polls := s.polls ++ [poll] }) hdouble hclamp]
    refine .inl ⟨hended, h.poll hwaiting hnow ?_ ?_ ?_ ?_⟩
    · rw [hanswer, Polled.isSlowDown, if_neg Bool.false_ne_true, Nat.add_zero]
    · exact Duration.le_iff.mp hlow
    · exact le_rfl
    · exact hmax ▸ Duration.le_iff.mp hhigh

theorem Good.step {e : PollEvent Grant} (h : Good given first s) (hstep : s.step e = some t)
    (hfirst : first.nanos + max given.nanos MIN_INTERVAL.nanos ≤ durationMax) :
    Good given first t := by
  cases e with
  | check =>
    rw [PollLogin.step] at hstep
    split at hstep
    · next hevent =>
      cases hstep
      have hended := Option.isNone_iff_eq_none.mp hevent.1
      rcases h with ⟨_, hpolling⟩ | ⟨hsome, _⟩
      · exact hpolling.check hended hevent.2 hfirst
      · rw [hended] at hsome
        cases hsome
    · cases hstep
  | poll poll now =>
    rw [PollLogin.step] at hstep
    split at hstep
    · next hevent =>
      cases hstep
      have hended := Option.isNone_iff_eq_none.mp hevent.1
      rcases h with ⟨_, hpolling⟩ | ⟨hsome, _⟩
      · exact hpolling.answered hended hevent.2.1 hevent.2.2
      · rw [hended] at hsome
        cases hsome
    · cases hstep

theorem Polling.goes_on (h : Polling given first s) (hended : s.ended = none) :
    ∃ e, (s.step e).isSome = true := by
  cases hwaiting : s.waiting with
  | false =>
    refine ⟨.check, ?_⟩
    rw [PollLogin.step, if_pos ⟨by rw [hended]; rfl, hwaiting⟩]
    rfl
  | true =>
    have hlimit := h.waiting hwaiting
    have hbound : s.elapsed.nanos + s.delay.nanos < 2 ^ 63 * nanosPerSecond := by
      rw [nanos_limit] at hlimit
      unfold nanosPerSecond at *
      omega
    refine ⟨.poll ⟨0, 0, .pending⟩ ⟨s.elapsed.nanos + s.delay.nanos, hbound⟩, ?_⟩
    rw [PollLogin.step, if_pos ⟨by rw [hended]; rfl, hwaiting, rfl⟩]
    rfl

end Runs

/-- How far a login got: each event starts a wait, gives a poll or ends the login. -/
def progress (s : PollLogin Grant) : Nat :=
  s.waits.length + s.polls.length + if s.ended.isSome then 1 else 0

theorem progress_check (s : PollLogin Grant) (hended : s.ended = none) :
    progress s + 1 ≤ progress s.check := by
  have hold : progress s = s.waits.length + s.polls.length := by
    rw [progress, hended]
    rfl
  rw [hold, PollLogin.check]
  split
  · exact le_of_eq rfl
  · split
    · exact le_of_eq rfl
    · rw [progress, List.length_append, List.length_singleton]
      dsimp only
      omega

theorem progress_answered (s : PollLogin Grant) (hended : s.ended = none) (answer : Polled Grant) :
    progress s ≤ progress (s.answered answer) := by
  have hsame : ∀ t : PollLogin Grant, t.waits = s.waits → t.polls = s.polls →
      progress s ≤ progress t := by
    intro t hwaits hpolls
    unfold progress
    rw [hwaits, hpolls, hended]
    exact Nat.le_add_right _ _
  cases answer with
  | approved grant => exact hsame _ rfl rfl
  | pending => exact hsame _ rfl rfl
  | failed error => exact hsame _ rfl rfl
  | slowDown =>
    rw [PollLogin.answered, PollLogin.slowDown]
    split
    · exact hsame _ rfl rfl
    · exact hsame _ rfl rfl
  | transient =>
    rw [PollLogin.answered, PollLogin.backOff]
    split
    · exact hsame _ rfl rfl
    · split
      · exact hsame _ rfl rfl
      · exact hsame _ rfl rfl

theorem progress_step {s t : PollLogin Grant} {e : PollEvent Grant} (h : s.step e = some t) :
    progress s + 1 ≤ progress t := by
  cases e with
  | check =>
    rw [PollLogin.step] at h
    split at h
    · next hevent =>
      cases h
      exact progress_check s (Option.isNone_iff_eq_none.mp hevent.1)
    · cases h
  | poll poll now =>
    rw [PollLogin.step] at h
    split at h
    · next hevent =>
      cases h
      have hpolled : progress s + 1 = progress { s with
          waiting := false, elapsed := now, polls := s.polls ++ [poll] } := by
        unfold progress
        rw [List.length_append, List.length_singleton]
        dsimp only
        omega
      rw [hpolled]
      apply progress_answered
      exact Option.isNone_iff_eq_none.mp hevent.1
    · cases h

theorem length_le_progress {s t : PollLogin Grant} {events : List (PollEvent Grant)}
    (h : Steps (outcome PollLogin.step) s events t) : events.length ≤ progress t := by
  induction h with
  | start => exact Nat.zero_le _
  | step _ hnext ih =>
    have hone := progress_step hnext
    rw [List.length_append, List.length_singleton]
    omega

theorem start_panics {given : Duration} {first : Elapsed}
    (hover : durationMax < first.nanos + max given.nanos MIN_INTERVAL.nanos) :
    Steps (outcome PollLogin.step) (.start given first : PollLogin Grant) [.check]
      (PollLogin.start given first).panic := by
  have hsum : first.span.checkedAdd (max given MIN_INTERVAL) = none := by
    apply Duration.checkedAdd_eq_none.mpr
    rw [Duration.max_nanos]
    exact hover
  have hcheck : (PollLogin.start given first : PollLogin Grant).check =
      (PollLogin.start given first).panic := by
    unfold PollLogin.check
    simp only [PollLogin.start, hsum]
  apply Steps.step .start
  rw [outcome, PollLogin.step, if_pos ⟨rfl, rfl⟩, hcheck]

/-- In every run a login does not panic, waits as it must, and ends after at most 900 polls, if and
only if the sum of its first check fits in a span. -/
theorem pollLogin_iff (value : Option Json) (first : Elapsed) :
    (∀ events (s : PollLogin Grant),
      Steps (outcome PollLogin.step) (.start (interval value) first) events s →
        Polite (interval value) s ∧ events.length ≤ 1801 ∧
          (s.ended = none → ∃ e, (s.step e).isSome = true)) ↔
      first.nanos + max (interval value).nanos MIN_INTERVAL.nanos ≤ durationMax := by
  constructor
  · intro h
    by_contra hover
    exact (h _ _ (start_panics (not_le.mp hover))).1.not_panicked rfl
  · intro hfirst events s hrun
    have hgood : Good (interval value) first s :=
      hrun.keeps (.inl ⟨rfl, polling_start _ _⟩) fun _ _ _ h hnext => h.step hnext hfirst
    have hpolite := hgood.polite
    refine ⟨hpolite, ?_, ?_⟩
    · have hlength := length_le_progress hrun
      have hpolls := hpolite.waited.first
      have hwaits := hpolite.waited.few
      have hend : (if s.ended.isSome then 1 else 0) ≤ 1 := by
        split
        · exact le_rfl
        · exact Nat.zero_le _
      unfold progress at hlength
      omega
    · intro hended
      rcases hgood with ⟨_, hpolling⟩ | ⟨hsome, _⟩
      · exact hpolling.goes_on hended
      · rw [hended] at hsome
        cases hsome

def largestInterval : Json := .number "18446744073709551615".toList

def oneSecond : Elapsed := ⟨nanosPerSecond, by decide⟩

/-- The largest interval panics once the start took a second. -/
theorem pollLogin_panics : ∃ s : PollLogin Unit,
    Steps (outcome PollLogin.step) (.start (interval (some largestInterval)) oneSecond) [.check] s ∧
      s.ended = some .panicked := by
  have hinterval : interval (some largestInterval) = Duration.fromSecs 18446744073709551615 := by
    decide +kernel
  refine ⟨(PollLogin.start (interval (some largestInterval)) oneSecond).panic, ?_, rfl⟩
  apply start_panics
  rw [hinterval]
  decide +kernel

end Yuke.Auth
