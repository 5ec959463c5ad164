import Yuke.Ai.Stream.AnthropicSteps

/-!
# The usage of an Anthropic answer

Each count of the usage is the largest one that the payloads carried, so neither their order nor a
repetition changes it.
-/

set_option autoImplicit false

namespace Yuke.Ai.AnthropicStream

open Yuke.Shared

def usages (reader : PayloadReader) (payloads : List String) : List Value :=
  payloads.flatMap fun data => (startUsage reader data).toList ++ (deltaUsage reader data).toList

/-- The usage objects of the `message_delta` payloads. -/
def deltaUsages (reader : PayloadReader) (payloads : List String) : List Value :=
  payloads.flatMap fun data => (deltaUsage reader data).toList

/-- The largest count `key` of the usage objects. -/
def largestCount (key : String) (usages : List Value) : Option Nat :=
  largest (usages.map fun usage => usage.count key)

/-- The usage of an answer with the usage objects `all`, of which `deltas` came with the deltas. -/
def totalUsage (all deltas : List Value) : Usage where
  input := promptTokens (largestCount "input_tokens" all)
    (largestCount "cache_read_input_tokens" all) (largestCount "cache_creation_input_tokens" all)
  output := largestCount "output_tokens" deltas
  reasoning := largest (deltas.map thinkingTokens)
  cacheRead := largestCount "cache_read_input_tokens" all
  cacheWrite := largestCount "cache_creation_input_tokens" all

theorem largest_map_congr {f : Value → Option Nat} {xs ys : List Value}
    (h : ∀ usage, usage ∈ xs ↔ usage ∈ ys) : largest (xs.map f) = largest (ys.map f) := by
  apply largest_congr
  intro count
  simp only [List.mem_map, h]

theorem totalUsage_congr {all all' deltas deltas' : List Value}
    (hall : ∀ usage, usage ∈ all ↔ usage ∈ all')
    (hdeltas : ∀ usage, usage ∈ deltas ↔ usage ∈ deltas') :
    totalUsage all deltas = totalUsage all' deltas' := by
  unfold totalUsage largestCount
  simp only [largest_map_congr hall, largest_map_congr hdeltas]

theorem promptTokens_eq_none {uncached cacheRead cacheWrite : Option Nat} :
    promptTokens uncached cacheRead cacheWrite = none ↔ uncached = none := by
  cases uncached with
  | none => simp [promptTokens]
  | some count => simp [promptTokens]

theorem promptTokens_some (uncached : Nat) (cacheRead cacheWrite : Option Nat) :
    promptTokens (some uncached) cacheRead cacheWrite =
      some (min (uncached + cacheRead.getD 0 + cacheWrite.getD 0) u64Max) := by
  simp only [promptTokens, saturatingAdd, Option.map_some, Option.some.injEq]
  omega

def tallies (reader : PayloadReader) (payloads : List String) : Tally :=
  payloads.foldr (fun data rest => (payloadTally reader data).join rest) {}

theorem tallies_eq (reader : PayloadReader) (payloads : List String) :
    tallies reader payloads =
      { uncached := largestCount "input_tokens" (usages reader payloads)
        output := largestCount "output_tokens" (deltaUsages reader payloads)
        reasoning := largest ((deltaUsages reader payloads).map thinkingTokens)
        cacheRead := largestCount "cache_read_input_tokens" (usages reader payloads)
        cacheWrite := largestCount "cache_creation_input_tokens" (usages reader payloads) } := by
  induction payloads with
  | nil => rfl
  | cons data payloads ih =>
    unfold tallies at ih ⊢
    rw [List.foldr_cons, ih]
    unfold payloadTally
    simp only [usages, deltaUsages, List.flatMap_cons, largestCount, List.map_append,
      largest_append]
    cases startUsage reader data with
    | none =>
      cases deltaUsage reader data with
      | none => simp [Tally.join]
      | some usage => simp [Tally.join, outputTally, promptTally]
    | some started =>
      cases deltaUsage reader data with
      | none => simp [Tally.join, promptTally]
      | some usage => simp [Tally.join, outputTally, promptTally, Tally.max_max]

theorem Reducer.Step.usage {reducer next : Reducer} {starts spoken : Option (Nat × String)}
    (h : reducer.Step starts spoken next) :
    next.tally = reducer.tally ∧ (reducer.Settled → next.Settled) := by
  cases h with
  | ignored => exact ⟨rfl, id⟩
  | started block text hopen hrefusal => exact ⟨rfl, id⟩
  | unheard spoken hspoken => exact ⟨rfl, id⟩
  | said index id block text hslot hblock => exact ⟨rfl, fun h => h⟩
  | stated id block next events hblock hkind htext hopen hevents => exact ⟨rfl, fun h => h⟩
  | stopped id block hblock => exact ⟨rfl, fun h => h⟩
  | ended hopen => exact ⟨rfl, fun h => h⟩

theorem decode_tally {reader : PayloadReader} {reducer next : Reducer} {data : String}
    (h : Reducer.decode reader reducer data = .ok (next, none)) :
    next.tally = reducer.tally.join (payloadTally reader data) ∧
      (reducer.Settled → next.Settled) := by
  rcases decode_cases h with ⟨hnothing, hstep⟩ | ⟨-, -, hcounted⟩
  · rw [hnothing, Tally.join_empty]
    exact hstep.usage
  · exact ⟨hcounted.tally, hcounted.settled⟩

theorem decodeAll_tally {reader : PayloadReader} {reducer last : Reducer} {payloads : List String}
    {events : List Event} (h : decodeAll reader reducer payloads = .ok (last, events))
    (hsettled : reducer.Settled) :
    last.tally = reducer.tally.join (tallies reader payloads) ∧ last.Settled := by
  induction payloads generalizing reducer events with
  | nil =>
    cases h
    exact ⟨(Tally.join_empty _).symm, hsettled⟩
  | cons data payloads ih =>
    obtain ⟨next, rest, hdecode, hrest, rfl⟩ := decodeAll_cons h
    obtain ⟨htally, hkept⟩ := decode_tally hdecode
    obtain ⟨hlast, hended⟩ := ih hrest (hkept hsettled)
    refine ⟨?_, hended⟩
    rw [hlast, htally, Tally.join_assoc]
    rfl

theorem decodeAll_usage {reader : PayloadReader} {origin : Origin} {limits : ResponseLimits}
    {payloads : List String} {reducer : Reducer} {events : List Event}
    (h : decodeAll reader (.new origin limits) payloads = .ok (reducer, events)) :
    reducer.draft.usage = totalUsage (usages reader payloads) (deltaUsages reader payloads) := by
  obtain ⟨htally, hsettled⟩ := decodeAll_tally h rfl
  have hnew : (Reducer.new origin limits).tally = {} := rfl
  rw [hnew, Tally.empty_join, tallies_eq] at htally
  have huncached := congrArg Tally.uncached htally
  have houtput := congrArg Tally.output htally
  have hreasoning := congrArg Tally.reasoning htally
  have hread := congrArg Tally.cacheRead htally
  have hwrite := congrArg Tally.cacheWrite htally
  simp only [Reducer.tally] at huncached houtput hreasoning hread hwrite
  unfold Reducer.Settled at hsettled
  rw [huncached, hread, hwrite] at hsettled
  cases husage : reducer.draft.usage with
  | mk input output reasoning cacheRead cacheWrite =>
    rw [husage] at houtput hreasoning hread hwrite hsettled
    simp only at houtput hreasoning hread hwrite hsettled
    rw [houtput, hreasoning, hread, hwrite, hsettled]
    rfl

/-! ## The end of an answer -/

theorem decode_done {reader : PayloadReader} {reducer next : Reducer} {data : String}
    (h : Reducer.decode reader { reducer with draft := reducer.draft.clearEvents } data =
      .ok (next, none)) :
    .done ∈ next.draft.events ∧ next.draft.done = true ∨
      .done ∉ next.draft.events ∧ next.draft.done = reducer.draft.done := by
  rcases decode_cases h with ⟨-, hstep⟩ | ⟨-, -, hcounted⟩
  · generalize textStart reader data = starts at hstep
    generalize textDelta reader data = spoken at hstep
    cases hstep with
    | ignored => exact .inr ⟨by simp [Draft.clearEvents], rfl⟩
    | started block text hopen hrefusal =>
      right
      refine ⟨?_, rfl⟩
      simp only [Draft.clearEvents]
      split
      · simp
      · simp
    | unheard spoken hspoken => exact .inr ⟨by simp [Draft.clearEvents], rfl⟩
    | said index id block text hslot hblock =>
      exact .inr ⟨by simp [Draft.clearEvents, Draft.push], rfl⟩
    | stated id block next events hblock hkind htext hopen hevents =>
      right
      refine ⟨?_, rfl⟩
      rcases hevents with rfl | ⟨fragment, rfl⟩
      · simp [Draft.clearEvents]
      · simp [Draft.clearEvents]
    | stopped id block hblock =>
      exact .inr ⟨by simp [Draft.clearEvents, Draft.push, Draft.setBlock], rfl⟩
    | ended hopen => exact .inl ⟨by simp [Draft.finish], rfl⟩
  · right
    rw [hcounted.events, hcounted.done]
    exact ⟨by simp [Draft.clearEvents], rfl⟩

theorem done_of_event {draft : Draft} {reason : FinishReason} {raw : String} {usage : Usage}
    (h : Event.done reason raw usage ∈ draft.events.filterMap draft.event) :
    .done ∈ draft.events ∧ usage = draft.usage := by
  obtain ⟨pending, hpending, hevent⟩ := List.mem_filterMap.mp h
  cases pending with
  | started block kind => cases hevent
  | delta block kind text =>
    cases kind with
    | text => cases hevent
    | refusal => cases hevent
    | reasoning => cases hevent
    | toolCall => cases hevent
  | sectionStarted block => cases hevent
  | stopped block =>
    obtain ⟨found, -, hfound⟩ := Option.map_eq_some_iff.mp hevent
    cases hfound
  | done =>
    cases hevent
    exact ⟨hpending, rfl⟩

theorem decodeAll_done {reader : PayloadReader} {reducer last : Reducer} {payloads : List String}
    {events : List Event} (h : decodeAll reader reducer payloads = .ok (last, events)) :
    (reducer.draft.done = true → last.draft.done = true) ∧
      ∀ reason raw usage, .done reason raw usage ∈ events → last.draft.done = true := by
  induction payloads generalizing reducer events with
  | nil =>
    cases h
    exact ⟨id, fun _ _ _ hno => absurd hno List.not_mem_nil⟩
  | cons data payloads ih =>
    obtain ⟨next, rest, hdecode, hrest, rfl⟩ := decodeAll_cons h
    obtain ⟨hkeeps, hevents⟩ := ih hrest
    have hdone := decode_done hdecode
    refine ⟨fun hended => hkeeps ?_, fun reason raw usage hevent => ?_⟩
    · rcases hdone with ⟨-, hended'⟩ | ⟨-, hsame⟩
      · exact hended'
      · exact hsame.trans hended
    · rcases List.mem_append.mp hevent with hevent | hevent
      · rcases hdone with ⟨-, hended⟩ | ⟨hno, -⟩
        · exact hkeeps hended
        · exact absurd (done_of_event hevent).1 hno
      · exact hevents reason raw usage hevent

theorem Answered.ends_last {reader : PayloadReader} {origin : Origin} {limits : ResponseLimits}
    {payloads : List String} {reducer : Reducer} {events : List Event}
    (h : Answered reader origin limits payloads reducer events) :
    ∃ init last before earlier, payloads = init ++ [last] ∧
      decodeAll reader (.new origin limits) init = .ok (before, earlier) ∧
      Reducer.decode reader { before with draft := before.draft.clearEvents } last =
        .ok (reducer, none) ∧
      events = earlier ++ reducer.draft.events.filterMap reducer.draft.event ∧
      before.draft.done = false ∧ .done ∈ reducer.draft.events := by
  have hrun := h.run
  rcases List.eq_nil_or_concat payloads with rfl | ⟨init, last, rfl⟩
  · cases hrun
    cases h.ended
  · rw [List.concat_eq_append] at hrun h
    obtain ⟨before, earlier, later, hbefore, hlater, rfl⟩ := decodeAll_append hrun
    obtain ⟨next, rest, hdecode, hnil, rfl⟩ := decodeAll_cons hlater
    cases hnil
    have hopen := h.open_before init last before earlier rfl hbefore
    refine ⟨init, last, before, earlier, List.concat_eq_append, hbefore, hdecode, ?_, hopen, ?_⟩
    · rw [List.append_nil]
    · rcases decode_done hdecode with ⟨hdone, -⟩ | ⟨-, hsame⟩
      · exact hdone
      · have hended := h.ended
        rw [hsame, hopen] at hended
        cases hended

theorem done_usage {reader : PayloadReader} {origin : Origin} {limits : ResponseLimits}
    {payloads : List String} {reducer : Reducer} {events : List Event}
    (h : Answered reader origin limits payloads reducer events) :
    (∃ reason raw usage, .done reason raw usage ∈ events) ∧
      ∀ reason raw usage, .done reason raw usage ∈ events →
        usage = totalUsage (usages reader payloads) (deltaUsages reader payloads) := by
  have hrun := h.run
  obtain ⟨init, last, before, earlier, rfl, hbefore, hdecode, rfl, hopen, hdone⟩ := h.ends_last
  constructor
  · refine ⟨reducer.draft.finishReason, reducer.draft.rawFinishReason, reducer.draft.usage, ?_⟩
    apply List.mem_append_right
    exact List.mem_filterMap.mpr ⟨.done, hdone, rfl⟩
  · intro reason raw usage hevent
    rcases List.mem_append.mp hevent with hevent | hevent
    · have hno := (decodeAll_done hbefore).2 reason raw usage hevent
      rw [hopen] at hno
      cases hno
    · rw [(done_of_event hevent).2]
      exact decodeAll_usage hrun

def startPayload : String :=
  "\x7b\"type\":\"message_start\",\"message\":\x7b\"usage\":\x7b\"output_tokens\":5\x7d\x7d\x7d"

def stopPayload : String := "\x7b\"type\":\"message_stop\"\x7d"

def startUsageObject : Value := .object [("output_tokens", .integer 5)]

def twoEvents : PayloadReader where
  blockDelta _ := none
  parse data :=
    if data = stopPayload then some (.object [("type", .string "message_stop")])
    else if data = startPayload then
      some (.object [("type", .string "message_start"),
        ("message", .object [("usage", startUsageObject)])])
    else none

def twoEventsEnd : Reducer :=
  { (Reducer.new ⟨"m", ""⟩ {}) with
    draft := { (Reducer.new ⟨"m", ""⟩ {}).draft with events := [.done], done := true } }

theorem answered_twoEvents :
    Answered twoEvents ⟨"m", ""⟩ {} [startPayload, stopPayload] twoEventsEnd
      [.done .unknown "" {}] where
  run := by rfl
  ended := rfl
  open_before init last before earlier hpayloads hrun := by
    obtain rfl : init = [startPayload] := by
      have hdrop := congrArg List.dropLast hpayloads
      simpa using hdrop.symm
    cases hrun
    rfl

end Yuke.Ai.AnthropicStream
