import Yuke.Ai.Retry

/-!
# One attempt, read to its end

A stream gives the events of one attempt, and a reply keeps what they say. The caller of a reply
gets each event, and at the end the completion or the failure.
-/

set_option autoImplicit false

namespace Yuke.Ai

structure Head where
  status : Nat
  requestId : Option String := none
  retryAfterMs : Option UInt64 := none
  shouldRetry : Option Bool := none

/-- What the transport gives. `body` and `kind` are the answer of a status other than 200. -/
inductive Opening where
  | fault (fault : Fault)
  | head (head : Head) (body : List UInt8) (kind : ProviderKind)

/-- What the rest of the body gives: the next event, the end of the answer, or a failure with the
payload that named it. -/
inductive Filled where
  | event (event : Event)
  | done
  | failed (failure : Failure) (payload : Option (List UInt8))

inductive StreamState where
  | streaming
  /-- The next call returns this failure, then the stream ends. -/
  | failed (failure : Failure)
  | ended
  deriving DecidableEq

structure Stream where
  info : AttemptInfo := {}
  state : StreamState := .streaming
  deriving DecidableEq

def Stream.open : Opening → Stream
  | .fault fault => { state := .failed (.transport fault) }
  | .head head body kind =>
    let info : AttemptInfo := {
      status := head.status
      requestId := head.requestId
      retryAfterMs := head.retryAfterMs
      shouldRetry := head.shouldRetry }
    if head.status ≠ 200 then
      { info := { info with errorBody := body }, state := .failed (.provider kind) }
    else
      { info := info }

/-- The next event, the one failure that ends a failed attempt, or `none` after the end. A stream
that reads takes `filled` from its body. -/
def Stream.next (stream : Stream) (filled : Filled) : Option (Except Failure Event) × Stream :=
  match stream.state with
  | .ended => (none, stream)
  | .failed failure => (some (.error failure), { stream with state := .ended })
  | .streaming =>
    match filled with
    | .event event =>
      (some (.ok event), { stream with info := { stream.info with outputSeen := true } })
    | .done => (none, { stream with state := .ended })
    | .failed failure payload =>
      (some (.error failure), {
        info := { stream.info with errorBody := payload.or stream.info.errorBody }
        state := .ended })

inductive Part where
  | open (kind : BlockKind) (text : String)
  | stopped (content : Content)
  deriving DecidableEq

/-- The end of an attempt. A `done` holds no content yet. -/
inductive End where
  | open
  | done (completion : Completion)
  | failed (failure : Failure)
  deriving DecidableEq

structure Reply where
  stream : Stream
  parts : List Part := []
  «end» : End := .open
  deriving DecidableEq

def Reply.open (opening : Opening) : Reply where
  stream := .open opening

/-- The text of an open block joins `more`. -/
def Part.push (more : String) : Part → Part
  | .open kind text => .open kind (text ++ more)
  | .stopped content => .stopped content

/-- An open block stops with its text and `result`. -/
def Part.stop (result : BlockResult) : Part → Part
  | .open _ text =>
    .stopped <| match result with
      | .text => .text text
      | .refusal => .refusal text
      | .reasoning replay => .reasoning ⟨text, replay⟩
      | .toolCall call => .toolCall call
  | .stopped content => .stopped content

/-- Change the part of `block`. A block that never started panics. -/
def partAt (parts : List Part) (block : BlockId) (change : Part → Part) : Option (List Part) :=
  if block < parts.length then some (parts.modify block change) else none

def keep (parts : List Part) (ended : End) : Event → Option (List Part × End)
  | .blockStarted _ kind => some (parts ++ [.open kind ""], ended)
  | .textDelta block text | .refusalDelta block text | .reasoningDelta block text =>
    (partAt parts block (.push text)).map fun parts => (parts, ended)
  -- The text already joins its sections, and a stopped call carries its arguments.
  | .reasoningSectionStarted _ | .toolInputDelta _ _ => some (parts, ended)
  | .blockStopped block result =>
    (partAt parts block (.stop result)).map fun parts => (parts, ended)
  | .done finishReason rawFinishReason usage =>
    some (parts, .done ⟨[], finishReason, rawFinishReason, usage⟩)

def Reply.next (reply : Reply) (filled : Filled) : Option (Option (Except Failure Event) × Reply) :=
  let out := reply.stream.next filled
  match out.1 with
  | none => some (none, { reply with stream := out.2 })
  | some (.error failure) =>
    some (some (.error failure), { reply with stream := out.2, «end» := .failed failure })
  | some (.ok event) =>
    (keep reply.parts reply.end event).map fun kept =>
      (some (.ok event), ⟨out.2, kept.1, kept.2⟩)

def complete (parts : List Part) : List Content :=
  parts.filterMap fun
    | .open _ _ => none
    | .stopped content => some content

/-- The text of a block, or its complete call. A call that was cut off in its arguments does not
exist, and no provider state survives. -/
def Part.partial? : Part → Option Partial
  | .stopped (.toolCall call) => some (.toolCall call)
  | .open .toolCall _ => none
  | .open .text text | .stopped (.text text) => if text = "" then none else some (.text text)
  | .open .refusal text | .stopped (.refusal text) =>
    if text = "" then none else some (.refusal text)
  | .open .reasoning text | .stopped (.reasoning ⟨text, _⟩) =>
    if text = "" then none else some (.reasoning text)

def partialOf (parts : List Part) : List PartialBlock :=
  parts.zipIdx.filterMap fun (part, block) => part.partial?.map fun content => ⟨block, content⟩

def Reply.cancel (reply : Reply) : List PartialBlock := partialOf reply.parts

/-- The end of a reply whose stream ended. It ends with a `done` or a failure. -/
def Reply.ended (reply : Reply) : Option (Except AttemptError Completion) :=
  match reply.end with
  | .done completion => some (.ok { completion with content := complete reply.parts })
  | .failed cause =>
    some (.error ⟨cause, reply.stream.info, (partialOf reply.parts).map PartialBlock.content⟩)
  | .open => none

/-- The answer of a response whose stream gives `events` and then ends. -/
def answerOf (opening : Opening) (events : List Event) : Option (Except AttemptError Completion) :=
  (events.foldlM (fun reply event => (Reply.next reply (.event event)).map Prod.snd)
    (Reply.open opening)).bind fun reply => (reply.next .done).bind fun last => last.2.ended

def keepAll (kept : List Part × End) (events : List Event) : Option (List Part × End) :=
  events.foldlM (fun kept event => keep kept.1 kept.2 event) kept

theorem keepAll_append (kept : List Part × End) (events more : List Event) :
    keepAll kept (events ++ more) = (keepAll kept events).bind fun kept => keepAll kept more :=
  List.foldlM_append

theorem answerOf_keepAll {events : List Event} {stream : Stream} {parts : List Part} {ended : End}
    (hstream : stream.state = .streaming) {last : List Part × End}
    (h : keepAll (parts, ended) events = some last) :
    ∃ stream', stream'.state = .streaming ∧
      events.foldlM (fun reply event => (Reply.next reply (.event event)).map Prod.snd)
        ⟨stream, parts, ended⟩ = some ⟨stream', last.1, last.2⟩ := by
  induction events generalizing stream parts ended with
  | nil =>
    cases h
    exact ⟨stream, hstream, rfl⟩
  | cons event events ih =>
    rw [keepAll, List.foldlM_cons] at h
    obtain ⟨⟨parts', ended'⟩, hkeep, hrest⟩ := Option.bind_eq_some_iff.mp h
    have hnext : Reply.next ⟨stream, parts, ended⟩ (.event event) = some (some (.ok event),
        ⟨{ stream with info := { stream.info with outputSeen := true } }, parts', ended'⟩) := by
      unfold Reply.next Stream.next
      simp only [hstream]
      simp only at hkeep
      rw [hkeep]
      rfl
    obtain ⟨stream', hstream', hfold⟩ :=
      @ih { stream with info := { stream.info with outputSeen := true } } parts' ended' hstream hrest
    refine ⟨stream', hstream', ?_⟩
    rw [List.foldlM_cons, hnext]
    exact hfold

theorem answerOf_done {head : Head} (hstatus : head.status = 200) (body : List UInt8)
    (kind : ProviderKind) {events : List Event} {parts : List Part} {completion : Completion}
    (h : keepAll ([], .open) events = some (parts, .done completion)) :
    answerOf (.head head body kind) events =
      some (.ok { completion with content := complete parts }) := by
  have hopen : (Stream.open (.head head body kind)).state = .streaming := by
    simp [Stream.open, hstatus]
  obtain ⟨stream, hstream, hfold⟩ := answerOf_keepAll hopen h
  have hdone : Reply.next ⟨stream, parts, .done completion⟩ .done =
      some (none, ⟨{ stream with state := .ended }, parts, .done completion⟩) := by
    unfold Reply.next Stream.next
    simp only [hstream]
  unfold answerOf
  have hreply : Reply.open (.head head body kind) =
      ⟨Stream.open (.head head body kind), [], .open⟩ := rfl
  rw [hreply, hfold, Option.bind_some, hdone]
  rfl

end Yuke.Ai
