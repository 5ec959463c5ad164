import Yuke.Ai.Reply
import Yuke.Engine.Drive

/-!
# The attempts of a request

The driver sends a request in attempts. Each attempt reads a reply to its end, and the retry policy
decides about the next one. The driver never repeats an attempt that gave an event.
-/

set_option autoImplicit false

namespace Yuke.Engine

open Yuke.Ai Yuke.Shared

/-- What the attempts wait for: the transport, the rest of a body, a draw, and each wait of the driver
that is not about the reply. `ready` is a result of the reply that needs no body, and `rest` a read
that does not race the cancel. -/
inductive ReplyWait where
  | open (request : Request)
  | read
  | ready
  | rest
  | jitter
  | turn (a : Await)

def ReplyWait.Reply : ReplyWait → Type
  | .open _ => Raced Opening
  | .read => Raced Filled
  | .ready => Raced Unit
  | .rest => Filled
  | .jitter => Jitter
  | .turn a => a.Reply

abbrev Replying (α : Type) : Type := Program ReplyWait ReplyWait.Reply α

def wait (w : ReplyWait) : Replying w.Reply := .perform w

structure Attempt where
  reply : Option Reply := none
  error : Option AttemptError := none

def eventOf : Option (Except Failure Event) → Option Event
  | some (.ok event) => some event
  | some (.error _) | none => none

def drain : Nat → Reply → Replying Reply
  | 0, _ => .cut
  | fuel + 1, reply =>
    match reply.stream.state with
    | .ended => return reply
    | .failed _ =>
      match reply.next .done with
      | none => .cut
      | some (_, reply) => drain fuel reply
    | .streaming => do
      let filled ← wait .rest
      match reply.next filled with
      | none => .cut
      | some (_, reply) => drain fuel reply

section

variable (policy : Policy) (describe : AttemptError → DynError)

/-- Answer a wait of the driver by the reply of the attempt, or by the world. `describe` is the text
of a failed attempt. A wait without its reply, and an event of a block that never started, panic. -/
def attempt (drainFuel : Nat) (a : Await) (current : Attempt) : Replying (a.Reply × Attempt) :=
  match a with
  | ⟨_, .openReply request⟩ => do
    match ← wait (.open request) with
    | .cancelled => return (.cancelled, current)
    | .done opening => return (.done (), { current with reply := some (.open opening) })
  | ⟨_, .nextEvent⟩ =>
    match current.reply with
    | none => .cut
    | some reply =>
      match reply.stream.state with
      | .streaming => do
        match ← wait .read with
        | .cancelled => return (.cancelled, current)
        | .done filled =>
          match reply.next filled with
          | none => .cut
          | some (out, reply) => return (.done (eventOf out), { current with reply := some reply })
      | .failed _ | .ended => do
        match ← wait .ready with
        | .cancelled => return (.cancelled, current)
        | .done () =>
          match reply.next .done with
          | none => .cut
          | some (out, reply) => return (.done (eventOf out), { current with reply := some reply })
  | ⟨_, .cancelReply⟩ =>
    match current.reply with
    | none => .cut
    | some reply => return (reply.cancel, current)
  | ⟨_, .finishReply⟩ =>
    match current.reply with
    | none => .cut
    | some reply => do
      let reply ← drain drainFuel reply
      match reply.ended with
      | none => .cut
      | some (.ok completion) => return (.ok completion, current)
      | some (.error error) => return (.error (describe error), { current with error := some error })
  | ⟨_, .retryDelay _ number⟩ =>
    match current.error with
    | none => .cut
    | some error => do
      let jitter ← wait .jitter
      -- The source counts the attempts in 32 bits and saturates.
      let delay := retryDecide policy error (min number u32Max) jitter
      return (delay.map Duration.nanos, current)
  | ⟨held, other⟩ => do
    let reply ← wait (.turn ⟨held, other⟩)
    return (reply, current)

/-- Send `request` to `model` over replies of the transport. -/
def sendAttempts (request : Request) (model : Model) (readFuel fuel : Nat) :
    Replying (Sent × Attempt) :=
  (TurnParts.send request model readFuel fuel 1).handle (attempt policy describe readFuel) {}

end

/-! ## The log of a request -/

abbrev Entry : Type := (w : ReplyWait) × w.Reply

namespace Entry

def opens : Entry → Bool
  | ⟨.open _, _⟩ => true
  | _ => false

def shows : Entry → Bool
  | ⟨.turn ⟨_, .event (.model _)⟩, _⟩ => true
  | _ => false

def vetoes : Entry → Bool
  | ⟨.open _, .done (.head head _ _)⟩ => head.shouldRetry = some false
  | _ => false

def overflows : Entry → Bool
  | ⟨.open _, .done (.head head _ kind)⟩ => head.status ≠ 200 ∧ kind = .contextOverflow
  | ⟨.read, .done (.failed failure _)⟩ => failure = .provider .contextOverflow
  | _ => false

def asks : Entry → Option (Option UInt64)
  | ⟨.open _, .done (.head head _ _)⟩ => some head.retryAfterMs
  | ⟨.open _, _⟩ => some none
  | _ => none

end Entry

def serverDelay (log : List Entry) : Option UInt64 := (log.reverse.findSome? Entry.asks).join

/-- No attempt gave an event, and none failed for good. -/
structure Quiet (log : List Entry) : Prop where
  unshown : log.any Entry.shows = false
  unvetoed : log.any Entry.vetoes = false
  fits : log.any Entry.overflows = false

def RetryAllowed (policy : Policy) (log : List Entry) : ReplyWait → Prop
  | .open _ => log.countP Entry.opens < policy.maxAttempts ∧ Quiet log
  | .turn ⟨_, .sleep delay⟩ =>
    (∀ millis, serverDelay log = some millis → (Duration.fromMillis millis).nanos ≤ delay) ∧
      delay ≤ (max policy.cap policy.retryAfterCap).nanos
  | _ => True

structure Entry.Silent (entry : Entry) : Prop where
  opens : entry.opens = false
  shows : entry.shows = false
  vetoes : entry.vetoes = false
  overflows : entry.overflows = false
  asks : entry.asks = none

section Log

variable {log : List Entry} {entry : Entry}

theorem any_concat (p : Entry → Bool) : (log ++ [entry]).any p = (log.any p || p entry) := by
  rw [List.any_append, List.any_cons, List.any_nil, Bool.or_false]

theorem any_concat_of_false {p : Entry → Bool} (h : p entry = false) :
    (log ++ [entry]).any p = log.any p := by
  rw [any_concat, h, Bool.or_false]

theorem countP_concat_of_false {p : Entry → Bool} (h : p entry = false) :
    (log ++ [entry]).countP p = log.countP p := by
  rw [List.countP_append, List.countP_cons_of_neg (by rw [h]; decide), List.countP_nil, Nat.add_zero]

theorem countP_concat_of_true {p : Entry → Bool} (h : p entry = true) :
    (log ++ [entry]).countP p = log.countP p + 1 := by
  rw [List.countP_append, List.countP_cons_of_pos h, List.countP_nil]

theorem serverDelay_concat_of_none (h : entry.asks = none) : serverDelay (log ++ [entry]) = serverDelay log := by
  simp [serverDelay, h]

theorem serverDelay_concat_of_some {delay : Option UInt64} (h : entry.asks = some delay) :
    serverDelay (log ++ [entry]) = delay := by
  simp [serverDelay, h]

theorem silent_turn (a : Await) (reply : a.Reply) (hmodel : ∀ event, a.wait ≠ .event (.model event)) :
    Entry.Silent ⟨.turn a, reply⟩ where
  opens := rfl
  shows := by
    obtain ⟨held, wait⟩ := a
    cases wait with
    | event event =>
      cases event with
      | model event => exact absurd rfl (hmodel event)
      | _ => rfl
    | _ => rfl
  vetoes := rfl
  overflows := rfl
  asks := rfl

/-- The log before an attempt with the number `number`. -/
structure Fresh (policy : Policy) (log : List Entry) (number : Nat) : Prop where
  opens : log.countP Entry.opens + 1 = number
  bound : number ≤ policy.maxAttempts
  quiet : Quiet log

/-- The log while the reply of the attempt `number` is read. -/
structure Reading (log : List Entry) (number : Nat) (reply : Reply) : Prop where
  opens : log.countP Entry.opens = number
  shown : log.any Entry.shows = true → reply.stream.info.outputSeen = true
  vetoed : log.any Entry.vetoes = true → reply.stream.info.shouldRetry = some false
  overflowed : log.any Entry.overflows = true →
    reply.stream.state = .failed (.provider .contextOverflow) ∨
      (reply.stream.state = .ended ∧ reply.end = .failed (.provider .contextOverflow))
  asked : serverDelay log = reply.stream.info.retryAfterMs

variable {policy : Policy} {number : Nat} {reply : Reply}

theorem Quiet.silent (h : Quiet log) (hentry : entry.Silent) : Quiet (log ++ [entry]) where
  unshown := (any_concat_of_false hentry.shows).trans h.unshown
  unvetoed := (any_concat_of_false hentry.vetoes).trans h.unvetoed
  fits := (any_concat_of_false hentry.overflows).trans h.fits

theorem Fresh.silent (h : Fresh policy log number) (hentry : entry.Silent) :
    Fresh policy (log ++ [entry]) number where
  opens := by
    rw [countP_concat_of_false hentry.opens]
    exact h.opens
  bound := h.bound
  quiet := h.quiet.silent hentry

theorem Reading.silent (h : Reading log number reply) (hentry : entry.Silent) :
    Reading (log ++ [entry]) number reply where
  opens := (countP_concat_of_false hentry.opens).trans h.opens
  shown := by
    rw [any_concat_of_false hentry.shows]
    exact h.shown
  vetoed := by
    rw [any_concat_of_false hentry.vetoes]
    exact h.vetoed
  overflowed := by
    rw [any_concat_of_false hentry.overflows]
    exact h.overflowed
  asked := (serverDelay_concat_of_none hentry.asks).trans h.asked

theorem RetryAllowed.silent {held : List Block} {delay : Nat}
    (h : RetryAllowed policy log (.turn ⟨held, .sleep delay⟩)) (hentry : entry.Silent) :
    RetryAllowed policy (log ++ [entry]) (.turn ⟨held, .sleep delay⟩) := by
  refine ⟨?_, h.2⟩
  rw [serverDelay_concat_of_none hentry.asks]
  exact h.1

theorem Fresh.opened (h : Fresh policy log number) (request : Request) (opening : Opening) :
    Reading (log ++ [⟨.open request, .done opening⟩]) number (.open opening) where
  opens := (countP_concat_of_true rfl).trans h.opens
  shown := by
    rw [any_concat_of_false rfl, h.quiet.unshown]
    exact fun hshown => by cases hshown
  vetoed := by
    rw [any_concat, h.quiet.unvetoed, Bool.false_or]
    cases opening with
    | fault fault => exact fun hveto => by cases hveto
    | head head body kind =>
      intro hveto
      have hshould : head.shouldRetry = some false := of_decide_eq_true hveto
      simp only [Reply.open, Stream.open]
      split <;> exact hshould
  overflowed := by
    rw [any_concat, h.quiet.fits, Bool.false_or]
    cases opening with
    | fault fault => exact fun hoverflow => by cases hoverflow
    | head head body kind =>
      intro hoverflow
      obtain ⟨hstatus, rfl⟩ : head.status ≠ 200 ∧ kind = .contextOverflow :=
        of_decide_eq_true hoverflow
      simp only [Reply.open, Stream.open]
      rw [if_pos hstatus]
      exact .inl rfl
  asked := by
    cases opening with
    | fault fault => exact serverDelay_concat_of_some rfl
    | head head body kind =>
      refine (serverDelay_concat_of_some rfl).trans ?_
      simp only [Reply.open, Stream.open]
      split <;> rfl

theorem Reading.shows (h : Reading log number reply) (hseen : reply.stream.info.outputSeen = true)
    (held : List Block) (event : Event) :
    Reading (log ++ [⟨.turn ⟨held, .event (.model event)⟩, ()⟩]) number reply where
  opens := (countP_concat_of_false rfl).trans h.opens
  shown := fun _ => hseen
  vetoed := by
    rw [any_concat_of_false rfl]
    exact h.vetoed
  overflowed := by
    rw [any_concat_of_false rfl]
    exact h.overflowed
  asked := (serverDelay_concat_of_none rfl).trans h.asked

structure Stepped (log : List Entry) (number : Nat) (out : Option (Except Failure Event))
    (reply : Reply) : Prop where
  reading : Reading log number reply
  seen : ∀ event, eventOf out = some event → reply.stream.info.outputSeen = true
  ended : eventOf out = none → reply.stream.state = .ended

theorem Reading.read (h : Reading log number reply) (hstate : reply.stream.state = .streaming)
    {filled : Filled} {out : Option (Except Failure Event)} {reply' : Reply}
    (hnext : reply.next filled = some (out, reply')) :
    Stepped (log ++ [⟨.read, .done filled⟩]) number out reply' := by
  have hfits : log.any Entry.overflows = false := by
    by_contra hoverflow
    rcases h.overflowed (Bool.eq_true_of_not_eq_false hoverflow) with hfailed | ⟨hended, _⟩
    · rw [hstate] at hfailed
      cases hfailed
    · rw [hstate] at hended
      cases hended
  have hopens : List.countP Entry.opens (log ++ [⟨.read, .done filled⟩]) = number :=
    (countP_concat_of_false rfl).trans h.opens
  have hasked : serverDelay (log ++ [⟨.read, .done filled⟩]) = reply.stream.info.retryAfterMs :=
    (serverDelay_concat_of_none rfl).trans h.asked
  have hvetoed : List.any (log ++ [⟨.read, .done filled⟩]) Entry.vetoes = true →
      reply.stream.info.shouldRetry = some false := by
    rw [any_concat_of_false rfl]
    exact h.vetoed
  have hshown : List.any (log ++ [⟨.read, .done filled⟩]) Entry.shows = true →
      reply.stream.info.outputSeen = true := by
    rw [any_concat_of_false rfl]
    exact h.shown
  unfold Reply.next Stream.next at hnext
  rw [hstate] at hnext
  cases filled with
  | event event =>
    obtain ⟨kept, _, hkept⟩ := Option.map_eq_some_iff.mp hnext
    cases hkept
    refine ⟨⟨hopens, fun _ => rfl, hvetoed, ?_, hasked⟩, fun _ _ => rfl, fun hnone => by cases hnone⟩
    rw [any_concat_of_false rfl, hfits]
    exact fun hoverflow => by cases hoverflow
  | done =>
    cases hnext
    refine ⟨⟨hopens, hshown, hvetoed, ?_, hasked⟩, fun _ hsome => (by cases hsome), fun _ => rfl⟩
    rw [any_concat_of_false rfl, hfits]
    exact fun hoverflow => by cases hoverflow
  | failed failure payload =>
    cases hnext
    refine ⟨⟨hopens, hshown, hvetoed, ?_, hasked⟩, fun _ hsome => (by cases hsome), fun _ => rfl⟩
    rw [any_concat, hfits, Bool.false_or]
    intro hoverflow
    have hcause : failure = .provider .contextOverflow := of_decide_eq_true hoverflow
    exact .inr ⟨rfl, by rw [hcause]⟩

theorem Reading.ready (h : Reading log number reply) (hstate : reply.stream.state ≠ .streaming)
    {out : Option (Except Failure Event)} {reply' : Reply}
    (hnext : reply.next .done = some (out, reply')) :
    Stepped (log ++ [⟨.ready, .done ()⟩]) number out reply' := by
  have hready : Entry.Silent ⟨.ready, .done ()⟩ := ⟨rfl, rfl, rfl, rfl, rfl⟩
  obtain ⟨hopens, hshown, hvetoed, hoverflowed, hasked⟩ := h.silent hready
  unfold Reply.next Stream.next at hnext
  cases hcurrent : reply.stream.state with
  | streaming => exact absurd hcurrent hstate
  | failed failure =>
    rw [hcurrent] at hnext hoverflowed
    cases hnext
    refine ⟨⟨hopens, hshown, hvetoed, fun hoverflow => .inr ⟨rfl, ?_⟩, hasked⟩,
      fun _ hsome => (by cases hsome), fun _ => rfl⟩
    rcases hoverflowed hoverflow with hfailed | ⟨hended, _⟩
    · cases hfailed
      rfl
    · cases hended
  | ended =>
    rw [hcurrent] at hnext
    cases hnext
    exact ⟨⟨hopens, hshown, hvetoed, hoverflowed, hasked⟩, fun _ hsome => (by cases hsome),
      fun _ => hcurrent⟩

theorem Reading.retried (h : Reading log number reply) (hended : reply.stream.state = .ended)
    {error : AttemptError} (herror : reply.ended = some (.error error)) {jitter : Jitter}
    {delay : Duration} (hdelay : retryDecide policy error (min number u32Max) jitter = some delay) :
    Fresh policy log (number + 1) ∧
      (∀ millis, serverDelay log = some millis → (Duration.fromMillis millis).nanos ≤ delay.nanos) ∧
      delay.nanos ≤ (max policy.cap policy.retryAfterCap).nanos := by
  have hpermitted := retryDecide_permitted hdelay
  unfold Reply.ended at herror
  cases hend : reply.end with
  | «open» | done => simp [hend] at herror
  | failed cause =>
    rw [hend] at herror
    cases herror
    have hbound := policy.bound
    have hbelow : min number u32Max < policy.maxAttempts := hpermitted.below
    refine ⟨⟨by rw [h.opens], by omega, ⟨?_, ?_, ?_⟩⟩, ?_, hpermitted.capped⟩
    · by_contra hshown
      have hseen := h.shown (Bool.eq_true_of_not_eq_false hshown)
      have hunseen : reply.stream.info.outputSeen = false := hpermitted.unseen
      rw [hseen] at hunseen
      cases hunseen
    · by_contra hvetoed
      exact hpermitted.unvetoed (h.vetoed (Bool.eq_true_of_not_eq_false hvetoed))
    · by_contra hoverflow
      rcases h.overflowed (Bool.eq_true_of_not_eq_false hoverflow) with hfailed | ⟨_, hcause⟩
      · rw [hended] at hfailed
        cases hfailed
      · rw [hend] at hcause
        cases hcause
        exact hpermitted.fits rfl
    · intro millis hmillis
      rw [h.asked] at hmillis
      exact hpermitted.asked millis hmillis

end Log

/-! ## The runs of a request -/

section Runs

variable {policy : Policy} {describe : AttemptError → DynError} {log : List Entry}
variable {number drainFuel : Nat} {reply : Reply}

theorem drain_ended (hended : reply.stream.state = .ended) (fuel : Nat) :
    drain (fuel + 1) reply = .done reply := by
  rw [drain, hended]
  rfl

theorem turn_holds {α : Type} {held : List Block} {w : Wait} {current : Attempt}
    {next : w.Reply → Driving α} {post : α × Attempt → List Entry → Prop}
    (hpass : attempt policy describe drainFuel ⟨held, w⟩ current =
      wait (.turn ⟨held, w⟩) >>= fun reply => pure (reply, current))
    (hallowed : RetryAllowed policy log (.turn ⟨held, w⟩))
    (hnext : ∀ reply, ((next reply).handle (attempt policy describe drainFuel) current).Holds
      (Program.logContract (RetryAllowed policy)) post (log ++ [⟨.turn ⟨held, w⟩, reply⟩])) :
    (Program.handle (attempt policy describe drainFuel) (.call ⟨held, w⟩ next) current).Holds
      (Program.logContract (RetryAllowed policy)) post log := by
  change (attempt policy describe drainFuel ⟨held, w⟩ current >>= _).Holds _ _ _
  rw [hpass]
  refine ⟨hallowed, ?_⟩
  rintro reply _ rfl
  exact hnext reply

theorem answered_holds {α : Type} {held : List Block} {w : Wait} {current current' : Attempt}
    {next : w.Reply → Driving α} {post : α × Attempt → List Entry → Prop} {reply : w.Reply}
    (hanswer : attempt policy describe drainFuel ⟨held, w⟩ current = pure (reply, current'))
    (hnext : ((next reply).handle (attempt policy describe drainFuel) current').Holds
      (Program.logContract (RetryAllowed policy)) post log) :
    (Program.handle (attempt policy describe drainFuel) (.call ⟨held, w⟩ next) current).Holds
      (Program.logContract (RetryAllowed policy)) post log := by
  change (attempt policy describe drainFuel ⟨held, w⟩ current >>= _).Holds _ _ _
  rw [hanswer]
  exact hnext

def NextPost (number : Nat) (error : Option AttemptError)
    (out : Raced (Option Event) × Attempt) (log : List Entry) : Prop :=
  match out.1 with
  | .cancelled => out.2.reply.isSome
  | .done event => ∃ reply, out.2 = ⟨some reply, error⟩ ∧ Reading log number reply ∧
      (∀ given, event = some given → reply.stream.info.outputSeen = true) ∧
      (event = none → reply.stream.state = .ended)

theorem next_holds {held : List Block} {error : Option AttemptError}
    (h : Reading log number reply) :
    (attempt policy describe drainFuel ⟨held, .nextEvent⟩ ⟨some reply, error⟩).Holds
      (Program.logContract (RetryAllowed policy)) (NextPost number error) log := by
  have hstep : ∀ {filled : Filled} {log' : List Entry},
      (∀ out reply', reply.next filled = some (out, reply') → Stepped log' number out reply') →
      Program.Holds (Program.logContract (RetryAllowed policy)) (NextPost number error)
        (match reply.next filled with
          | none => .cut
          | some (out, reply') =>
            pure ((.done (eventOf out) : Raced (Option Event)), (⟨some reply', error⟩ : Attempt)))
        log' := by
    intro filled log' hstepped
    cases hnext : reply.next filled with
    | none => trivial
    | some next =>
      obtain ⟨out, reply'⟩ := next
      obtain ⟨hreading, hseen, hended⟩ := hstepped out reply' hnext
      exact ⟨reply', rfl, hreading, hseen, hended⟩
  unfold attempt
  dsimp only
  cases hstate : reply.stream.state with
  | streaming =>
    refine ⟨trivial, ?_⟩
    rintro given _ rfl
    cases given with
    | cancelled => rfl
    | done filled => exact hstep fun out reply' hnext => h.read hstate hnext
  | failed | ended =>
    refine ⟨trivial, ?_⟩
    rintro given _ rfl
    cases given with
    | cancelled => rfl
    | done filled => exact hstep fun out reply' hnext => h.ready (by simp [hstate]) hnext

theorem readAttempt_holds {held : List Block} {error : Option AttemptError} (fuel : Nat)
    (h : Reading log number reply) :
    ((TurnParts.readReply held fuel).handle (attempt policy describe drainFuel)
        ⟨some reply, error⟩).Holds (Program.logContract (RetryAllowed policy))
      (fun out log' => out.1 = none → ∃ reply', out.2 = ⟨some reply', error⟩ ∧
        Reading log' number reply' ∧ reply'.stream.state = .ended) log := by
  induction fuel generalizing log reply with
  | zero => trivial
  | succ fuel ih =>
    refine (next_holds h).bind ?_
    rintro ⟨given, current⟩ log' hpost
    cases given with
    | cancelled =>
      obtain ⟨reply', hreply⟩ := Option.isSome_iff_exists.mp hpost
      obtain ⟨_, error'⟩ := current
      cases hreply
      refine answered_holds (w := .cancelReply) rfl ?_
      refine turn_holds (w := .event (.responseCancelled _)) rfl trivial ?_
      rintro ⟨⟩ hnone
      cases hnone
    | done event =>
      obtain ⟨reply', hcurrent, hreading, hseen, hended⟩ := hpost
      cases hcurrent
      cases event with
      | none => exact fun _ => ⟨reply', rfl, hreading, hended rfl⟩
      | some event =>
        refine turn_holds (w := .event (.model event)) rfl trivial ?_
        rintro ⟨⟩
        exact ih (hreading.shows (hseen event rfl) held event)

theorem turn_fresh {α : Type} {held : List Block} {w : Wait} {current : Attempt}
    {next : w.Reply → Driving α} {post : α × Attempt → List Entry → Prop}
    (h : Fresh policy log number)
    (hpass : attempt policy describe drainFuel ⟨held, w⟩ current =
      wait (.turn ⟨held, w⟩) >>= fun reply => pure (reply, current))
    (hallowed : RetryAllowed policy log (.turn ⟨held, w⟩))
    (hmodel : ∀ event, w ≠ .event (.model event))
    (hnext : ∀ reply log', Fresh policy log' number →
      ((next reply).handle (attempt policy describe drainFuel) current).Holds
        (Program.logContract (RetryAllowed policy)) post log') :
    (Program.handle (attempt policy describe drainFuel) (.call ⟨held, w⟩ next) current).Holds
      (Program.logContract (RetryAllowed policy)) post log :=
  turn_holds hpass hallowed fun reply => hnext reply _ (h.silent (silent_turn _ _ hmodel))

theorem open_holds {α : Type} {held : List Block} {request : Request} {current : Attempt}
    {next : Raced Unit → Driving α} {post : α × Attempt → List Entry → Prop}
    (h : Fresh policy log number)
    (hcancel : ∀ log', ((next .cancelled).handle (attempt policy describe drainFuel) current).Holds
      (Program.logContract (RetryAllowed policy)) post log')
    (hopened : ∀ reply log', Reading log' number reply →
      ((next (.done ())).handle (attempt policy describe drainFuel)
        { current with reply := some reply }).Holds
          (Program.logContract (RetryAllowed policy)) post log') :
    (Program.handle (attempt policy describe drainFuel) (.call ⟨held, .openReply request⟩ next)
      current).Holds (Program.logContract (RetryAllowed policy)) post log := by
  have hopens := h.opens
  have hbound := h.bound
  refine ⟨⟨by omega, h.quiet⟩, ?_⟩
  rintro given _ rfl
  cases given with
  | cancelled => exact hcancel _
  | done opening => exact hopened _ _ (h.opened request opening)

theorem finish_holds {α : Type} {held : List Block} {error : Option AttemptError}
    {next : Except DynError Completion → Driving α} {post : α × Attempt → List Entry → Prop}
    (hended : reply.stream.state = .ended)
    (hok : ∀ completion, ((next (.ok completion)).handle (attempt policy describe drainFuel)
      ⟨some reply, error⟩).Holds (Program.logContract (RetryAllowed policy)) post log)
    (herror : ∀ failed, reply.ended = some (.error failed) →
      ((next (.error (describe failed))).handle (attempt policy describe drainFuel)
        ⟨some reply, some failed⟩).Holds (Program.logContract (RetryAllowed policy)) post log) :
    (Program.handle (attempt policy describe drainFuel) (.call ⟨held, .finishReply⟩ next)
      ⟨some reply, error⟩).Holds (Program.logContract (RetryAllowed policy)) post log := by
  cases drainFuel with
  | zero => trivial
  | succ drainFuel =>
    cases hend : reply.ended with
    | none =>
      have hcut : attempt policy describe (drainFuel + 1) ⟨held, .finishReply⟩
          ⟨some reply, error⟩ = .cut := by
        simp [attempt, drain_ended hended, hend]
      change (attempt policy describe (drainFuel + 1) ⟨held, .finishReply⟩ _ >>= _).Holds _ _ _
      rw [hcut]
      trivial
    | some result =>
      cases result with
      | ok completion =>
        refine answered_holds ?_ (hok completion)
        simp [attempt, drain_ended hended, hend]
      | error failed =>
        refine answered_holds ?_ (herror failed hend)
        simp [attempt, drain_ended hended, hend]

theorem delay_holds {α : Type} {held : List Block} {text : DynError} {failed : AttemptError}
    {next : Option Nat → Driving α} {post : α × Attempt → List Entry → Prop}
    (h : Reading log number reply) (hended : reply.stream.state = .ended)
    (herror : reply.ended = some (.error failed))
    (hstop : ∀ log', ((next none).handle (attempt policy describe drainFuel)
      ⟨some reply, some failed⟩).Holds (Program.logContract (RetryAllowed policy)) post log')
    (hretry : ∀ delay log', Fresh policy log' (number + 1) →
      (∀ held, RetryAllowed policy log' (.turn ⟨held, .sleep delay⟩)) →
      ((next (some delay)).handle (attempt policy describe drainFuel)
        ⟨some reply, some failed⟩).Holds (Program.logContract (RetryAllowed policy)) post log') :
    (Program.handle (attempt policy describe drainFuel) (.call ⟨held, .retryDelay text number⟩ next)
      ⟨some reply, some failed⟩).Holds (Program.logContract (RetryAllowed policy)) post log := by
  refine ⟨trivial, ?_⟩
  rintro jitter _ rfl
  have hsilent : Entry.Silent ⟨.jitter, jitter⟩ := ⟨rfl, rfl, rfl, rfl, rfl⟩
  change ((next ((retryDecide policy failed (min number u32Max) jitter).map
    Duration.nanos)).handle _ _).Holds _ _ _
  cases hdelay : retryDecide policy failed (min number u32Max) jitter with
  | none => exact hstop _
  | some delay =>
    obtain ⟨hfresh, hasked, hcapped⟩ := (h.silent hsilent).retried hended herror hdelay
    exact hretry _ _ hfresh fun _ => ⟨hasked, hcapped⟩

theorem sendAttempts_holds (request : Request) (model : Model) (readFuel fuel : Nat) {current : Attempt}
    (h : Fresh policy log number) :
    ((TurnParts.send request model readFuel fuel number).handle
        (attempt policy describe drainFuel) current).Holds
      (Program.logContract (RetryAllowed policy)) (fun _ _ => True) log := by
  induction fuel generalizing log number current with
  | zero => trivial
  | succ fuel ih =>
    unfold TurnParts.send
    refine turn_fresh (w := .credential model.source) h rfl trivial (by simp) ?_
    rintro ((error | credential) | _) log hfresh
    · trivial
    · refine turn_fresh (w := .encode model.target credential request) hfresh rfl trivial
        (by simp) ?_
      rintro (error | _) log hfresh
      · trivial
      refine turn_fresh (w := .event .responseStarted) hfresh rfl trivial (by simp) ?_
      rintro ⟨⟩ log hfresh
      refine open_holds hfresh ?_ ?_
      · intro log
        refine turn_holds (w := .event (.responseCancelled [])) rfl trivial ?_
        rintro ⟨⟩
        trivial
      intro reply log hreading
      change ((TurnParts.readReply request.blocks readFuel >>= _).handle _ _).Holds _ _ _
      rw [Program.handle_bind]
      refine (readAttempt_holds readFuel hreading).bind ?_
      rintro ⟨kept, read⟩ log hread
      cases kept with
      | some kept => trivial
      | none =>
        obtain ⟨reply, hreply, hreading, hended⟩ := hread rfl
        cases hreply
        refine finish_holds hended (fun _ => trivial) ?_
        intro failed herror
        refine turn_holds (w := .event (.responseFailed (describe failed))) rfl trivial ?_
        rintro ⟨⟩
        refine delay_holds (hreading.silent (silent_turn _ _ (by simp))) hended herror
          (fun _ => trivial) ?_
        intro delay log hfresh hallowed
        refine turn_holds (w := .event (.retryScheduled delay (describe failed))) rfl trivial ?_
        rintro ⟨⟩
        have hscheduled := silent_turn ⟨request.blocks, .event (.retryScheduled delay
          (describe failed))⟩ () (by simp)
        refine turn_fresh (w := .sleep delay) (hfresh.silent hscheduled) rfl
          ((hallowed _).silent hscheduled) (by simp) ?_
        rintro (_ | _) log hfresh
        · exact ih hfresh
        · trivial
    · trivial

structure Bounded (policy : Policy) (trace : List Entry) : Prop where
  attempts : trace.countP Entry.opens ≤ policy.maxAttempts
  final : ∀ before after, trace = before ++ after →
    before.any (fun entry => entry.shows || entry.vetoes || entry.overflows) = true →
    after.any Entry.opens = false
  waits : ∀ before held delay reply after,
    trace = before ++ ⟨.turn ⟨held, .sleep delay⟩, reply⟩ :: after →
    (∀ millis, serverDelay before = some millis → (Duration.fromMillis millis).nanos ≤ delay) ∧
      delay ≤ (max policy.cap policy.retryAfterCap).nanos

theorem Quiet.any (h : Quiet log) :
    log.any (fun entry => entry.shows || entry.vetoes || entry.overflows) = false := by
  have hshows := h.unshown
  have hvetoes := h.unvetoed
  have hfits := h.fits
  rw [List.any_eq_false] at hshows hvetoes hfits ⊢
  intro entry hentry
  simp [hshows entry hentry, hvetoes entry hentry, hfits entry hentry]

theorem bounded_of_allowed {trace : List Entry}
    (h : ∀ before entry after, trace = before ++ entry :: after →
      RetryAllowed policy before entry.1) : Bounded policy trace where
  attempts := by
    induction trace using List.reverseRecOn with
    | nil => simp
    | append_singleton trace entry ih =>
      have hbefore := ih fun before other after heq => h before other (after ++ [entry]) (by
        rw [heq, List.append_assoc, List.cons_append])
      rw [List.countP_append]
      cases hopens : entry.opens with
      | false => simpa [hopens] using hbefore
      | true =>
        have hallowed := h trace entry [] rfl
        obtain ⟨w, reply⟩ := entry
        cases w with
        | «open» request =>
          have hlt := hallowed.1
          simp [Entry.opens]
          omega
        | _ => cases hopens
  final := by
    intro before after heq hfinal
    rw [List.any_eq_false]
    intro entry hentry hopens
    obtain ⟨middle, rest, rfl⟩ := List.append_of_mem hentry
    have hallowed := h (before ++ middle) entry rest (by rw [heq, List.append_assoc])
    obtain ⟨w, reply⟩ := entry
    cases w with
    | «open» request =>
      have hquiet := hallowed.2.any
      rw [List.any_append, hfinal, Bool.true_or] at hquiet
      cases hquiet
    | _ => cases hopens
  waits := fun before held delay reply after heq => h before _ after heq

/-- In each run of a request, whatever the transport, the caller and the draws reply, no attempt follows a final one, and each wait keeps to the bounds. -/
theorem attempts_bounded (policy : Policy) (describe : AttemptError → DynError)
    (request : Request) (model : Model) (readFuel fuel : Nat) {trace : List Entry}
    {rest : Replying (Sent × Attempt)} {σ : Type} {s t : σ}
    {answers : σ → (w : ReplyWait) → w.Reply → σ → Prop}
    (hrun : Program.Run answers (sendAttempts policy describe request model readFuel fuel) s trace
      rest t) :
    Bounded policy trace ∧ ∀ w next, rest = .call w next → RetryAllowed policy trace w := by
  have hfresh : Fresh policy [] 1 := ⟨rfl, policy.positive, ⟨rfl, rfl, rfl⟩⟩
  have hholds : (sendAttempts policy describe request model readFuel fuel).Holds
      (Program.logContract (RetryAllowed policy)) (fun _ _ => True) [] :=
    sendAttempts_holds request model readFuel fuel hfresh
  obtain ⟨hrest, hbefore⟩ := hholds.every_run hrun
  refine ⟨bounded_of_allowed hbefore, ?_⟩
  rintro w next rfl
  exact hrest.1

end Runs

/-- A world whose first attempt cannot connect. The next one gives one event, and then its stream
ends early. The state counts the attempts and the reads. -/
def flakyWorld (s : Nat × Nat) : (w : ReplyWait) → w.Reply × (Nat × Nat)
  | .open _ =>
    (.done (if s.1 = 0 then .fault .connectFailed else .head { status := 200 } [] .badStatus),
     (s.1 + 1, s.2))
  | .read =>
    (.done (if s.2 = 0 then .event (.blockStarted 0 .text) else .failed .incompleteStream none),
     (s.1, s.2 + 1))
  | .ready => (.done (), s)
  | .rest => (.done, s)
  | .jitter => (⟨0, le_rfl, one_pos⟩, s)
  | .turn a => (calmReply ⟨[], .stop, "stop", {}⟩ a, s)

def flakyModel : Model := ⟨⟨"model", { baseUrl := "https://host/v1" }, .openaiChat {}, false⟩, ⟨0⟩, none⟩

def flakyRun : List Entry × Replying (Sent × Attempt) × Nat × Nat :=
  (sendAttempts default (fun _ => { text := "failed" }) { blocks := [] } flakyModel 5 5).follow
    flakyWorld 30 (0, 0)

theorem flakyRun_run :
    Program.Run (fun s w reply s' => flakyWorld s w = (reply, s'))
      (sendAttempts default (fun _ => { text := "failed" }) { blocks := [] } flakyModel 5 5) (0, 0)
      flakyRun.1 flakyRun.2.1 flakyRun.2.2 :=
  Program.run_follow (fun _ _ => rfl) 30 _ _

theorem attempts_bounded_flaky :
    flakyRun.1.countP Entry.opens = 2 ∧ flakyRun.1.any Entry.shows = true ∧
      Bounded default flakyRun.1 :=
  ⟨rfl, rfl, (attempts_bounded default _ _ _ 5 5 flakyRun_run).1⟩

end Yuke.Engine
