import Yuke.Ai.Stream.OpenaiChatRuns

/-!
# The details of an answer in a later request

The end mark stores the merged entries in the reasoning block, and a later message to the same origin
has them in order.
-/

set_option autoImplicit false

namespace Yuke.Ai.OpenaiChatStream

open Yuke.Shared
open Yuke.Ai.Write
open AnthropicStream (required)
open OpenaiChat (detailValues hasDetail entries isToolCall text? writeAnswer replayMembers
  assistantMessageValue answerValues contentValue callValues says_writeAnswer)

/-! ## The end mark -/

def stopped (block : DraftBlock) : DraftBlock := { block with state := .stopped }

theorem closeBlocks {draft : Draft} {before rest : List DraftBlock}
    (hblocks : draft.blocks = before ++ rest) (hopen : ∀ block ∈ rest, block.state = .open) :
    (List.range' before.length rest.length).foldlM (Draft.closeBlock .keep) draft =
      .ok { draft with
        blocks := before ++ rest.map stopped
        events := draft.events ++ (List.range' before.length rest.length).map Pending.stopped } := by
  induction rest generalizing draft before with
  | nil => simp [← hblocks, pure, Except.pure]
  | cons block rest ih =>
    have hblock : draft.blocks[before.length]? = some block := by simp [hblocks]
    have hstate := hopen block List.mem_cons_self
    have hstop : Draft.closeBlock .keep draft before.length = .ok { draft with
        blocks := before ++ stopped block :: rest
        events := draft.events ++ [.stopped before.length] } := by
      have hfound : draft.openBlock before.length = .ok block := by
        simp [Draft.openBlock, hblock, hstate]
      have hset : draft.blocks.set before.length (stopped block) = before ++ stopped block :: rest := by
        simp [hblocks]
      unfold Draft.closeBlock
      rw [hblock]
      simp only [hstate, ne_eq, not_true_eq_false, if_false, reduceCtorEq, false_and]
      rw [Draft.stop, hfound]
      simp only [Draft.setBlock, Draft.push, bind, Except.bind, pure, Except.pure]
      rw [← hset]
      rfl
    rw [List.length_cons, List.range'_succ, List.foldlM_cons, hstop]
    have hrest := @ih { draft with
        blocks := before ++ stopped block :: rest
        events := draft.events ++ [.stopped before.length] } (before ++ [stopped block])
      (by simp) (fun more hmore => hopen more (List.mem_cons_of_mem _ hmore))
    rw [List.length_append, List.length_singleton] at hrest
    simp only [bind, Except.bind]
    rw [hrest]
    simp

def contentOf (result : BlockResult) : Part → Content
  | .open _ text =>
    match result with
    | .text => .text text
    | .refusal => .refusal text
    | .reasoning replay => .reasoning ⟨text, replay⟩
    | .toolCall call => .toolCall call
  | .stopped content => content

theorem stop_eq (result : BlockResult) (part : Part) :
    part.stop result = .stopped (contentOf result part) := by
  cases part with
  | «open» kind text => rfl
  | stopped content => rfl

def contents (draft : Draft) (parts : List Part) : List Content :=
  List.zipWith (fun block part => contentOf (draft.result block) part) draft.blocks parts

theorem modify_length (change : Part → Part) (first : List Part) (part : Part) (rest : List Part) :
    (first ++ part :: rest).modify first.length change = first ++ change part :: rest := by
  induction first with
  | nil => rfl
  | cons head first ih => simp [ih]

theorem keepAll_stops {last : Draft} (ended : End) {before rest : List DraftBlock}
    (hblocks : last.blocks = before ++ rest) {first more : List Part}
    (hfirst : first.length = before.length) (hmore : more.length = rest.length) :
    keepAll (first ++ more, ended)
        (((List.range' before.length rest.length).map Pending.stopped).filterMap last.event) =
      some (first ++ List.zipWith (fun block part => part.stop (last.result block)) rest more,
        ended) := by
  induction rest generalizing before first more with
  | nil =>
    obtain rfl := List.eq_nil_of_length_eq_zero hmore
    rfl
  | cons block rest ih =>
    cases more with
    | nil => cases hmore
    | cons part more =>
      have hevent : last.event (.stopped before.length) =
          some (.blockStopped before.length (last.result block)) := by
        simp [Draft.event, hblocks]
      have hpart : partAt (first ++ part :: more) before.length (.stop (last.result block)) =
          some (first ++ part.stop (last.result block) :: more) := by
        unfold partAt
        rw [if_pos (by simp [← hfirst]), ← hfirst, modify_length]
      have hrest := @ih (before ++ [block]) (by simp [hblocks])
        (first ++ [part.stop (last.result block)]) more (by simp [hfirst]) (Nat.succ.inj hmore)
      rw [List.length_append, List.length_singleton, List.append_assoc, List.append_assoc] at hrest
      rw [List.length_cons, List.range'_succ, List.map_cons, List.filterMap_cons, hevent, keepAll,
        List.foldlM_cons]
      simp only [keep, hpart, Option.map_some, Option.bind_eq_bind, Option.bind_some]
      exact hrest

theorem complete_stops (draft : Draft) (blocks : List DraftBlock) (parts : List Part) :
    complete (List.zipWith (fun block part => part.stop (draft.result block)) blocks parts) =
      List.zipWith (fun block part => contentOf (draft.result block) part) blocks parts := by
  induction blocks generalizing parts with
  | nil => rfl
  | cons block blocks ih =>
    cases parts with
    | nil => rfl
    | cons part parts =>
      rw [List.zipWith_cons_cons, List.zipWith_cons_cons, stop_eq, ← ih parts]
      rfl

/-- The blocks that the end mark stops: the reasoning block has the merged entries. -/
structure Stored (reducer : Reducer) (blocks : List DraftBlock) : Prop where
  unseen : reducer.detailsSeen = false → blocks = reducer.draft.blocks
  seen : reducer.detailsSeen = true → ∃ (id : Nat) (block : DraftBlock),
    reducer.channels .reasoning = some id ∧ reducer.draft.blocks[id]? = some block ∧
      blocks = reducer.draft.blocks.set id { block with
        replay := some .openrouterDetails
        bytes := block.bytes ++ detailsText reducer.details }

theorem Stored.length {reducer : Reducer} {blocks : List DraftBlock} (h : Stored reducer blocks) :
    blocks.length = reducer.draft.blocks.length := by
  cases hseen : reducer.detailsSeen with
  | false => rw [h.unseen hseen]
  | true =>
    obtain ⟨id, block, -, -, hset⟩ := h.seen hseen
    rw [hset, List.length_set]

theorem storeDetails_ok {reducer reducer' : Reducer}
    (hopen : ∀ block ∈ reducer.draft.blocks, block.state = .open)
    (h : reducer.storeDetails = .ok reducer') :
    Stored reducer reducer'.draft.blocks ∧ reducer'.draft.events = reducer.draft.events ∧
      reducer'.draft.origin = reducer.draft.origin ∧
      ∀ block ∈ reducer'.draft.blocks, block.state = .open := by
  unfold Reducer.storeDetails at h
  cases hseen : reducer.detailsSeen with
  | false =>
    rw [hseen] at h
    cases h
    refine ⟨⟨fun _ => rfl, fun hno => ?_⟩, rfl, rfl, hopen⟩
    rw [hseen] at hno
    cases hno
  | true =>
    rw [hseen] at h
    simp only [Bool.not_true, Bool.false_eq_true, if_false] at h
    obtain ⟨id, hid, hrest⟩ := bind_eq_ok.mp h
    obtain ⟨block, hblock, hrest⟩ := bind_eq_ok.mp hrest
    split at hrest
    · cases hrest
    · cases hrest
      obtain ⟨hfound, hstate⟩ := Draft.openBlock_ok hblock
      have hchannel : reducer.channels .reasoning = some id := by
        cases hslot : reducer.channels .reasoning with
        | none =>
          rw [hslot] at hid
          cases hid
        | some other =>
          rw [hslot] at hid
          cases hid
          rfl
      refine ⟨⟨fun hno => ?_, fun _ => ⟨id, block, hchannel, hfound, rfl⟩⟩, rfl, rfl, ?_⟩
      · rw [hseen] at hno
        cases hno
      · intro other hother
        rcases List.mem_or_eq_of_mem_set hother with hother | rfl
        · exact hopen other hother
        · exact hstate

theorem closeAndFinish_ok {draft last : Draft} (hopen : ∀ block ∈ draft.blocks, block.state = .open)
    (h : draft.closeAndFinish .keep = .ok last) :
    last.origin = draft.origin ∧ last.blocks = draft.blocks.map stopped ∧
      last.events = draft.events ++
        ((List.range' 0 draft.blocks.length).map Pending.stopped ++ [.done]) := by
  obtain ⟨closed, hclosed, hfinish⟩ := bind_eq_ok.mp h
  have hclose := @closeBlocks draft [] draft.blocks rfl hopen
  rw [List.length_nil] at hclose
  rw [hclose] at hclosed
  cases hclosed
  cases hfinish
  exact ⟨rfl, rfl, List.append_assoc ..⟩

theorem keepAll_ended {last : Draft} {parts : List Part}
    (hlength : parts.length = last.blocks.length)
    (hevents : last.events = (List.range' 0 last.blocks.length).map Pending.stopped ++ [.done]) :
    ∃ parts' completion, keepAll (parts, .open) (last.events.filterMap last.event) =
      some (parts', .done completion) ∧ complete parts' = contents last parts := by
  have hstops := @keepAll_stops last .open [] last.blocks rfl [] parts rfl hlength
  rw [List.nil_append, List.length_nil] at hstops
  refine ⟨_, ⟨[], last.finishReason, last.rawFinishReason, last.usage⟩, ?_,
    complete_stops last last.blocks parts⟩
  rw [hevents, List.filterMap_append, keepAll_append, hstops, Option.bind_some]
  rfl

theorem onDone_ok {reducer reducer' : Reducer} {parts : List Part} (h : Reading reducer parts)
    (hevents : reducer.draft.events = []) (hnext : reducer.onDone = .ok reducer') :
    ∃ blocks, Stored reducer blocks ∧ reducer'.draft.origin = reducer.draft.origin ∧
      reducer'.draft.blocks = blocks.map stopped ∧
      ∃ parts' completion,
        keepAll (parts, .open) (reducer'.draft.events.filterMap reducer'.draft.event) =
          some (parts', .done completion) ∧ complete parts' = contents reducer'.draft parts := by
  obtain ⟨stored, hstored, hrest⟩ := bind_eq_ok.mp hnext
  obtain ⟨draft, hdraft, hok⟩ := bind_eq_ok.mp hrest
  cases hok
  have hopen : ∀ block ∈ reducer.draft.blocks, block.state = .open := by
    intro block hblock
    obtain ⟨id, hid⟩ := List.mem_iff_getElem?.mp hblock
    exact (h.part id block hid).1
  obtain ⟨hblocks, hstoredEvents, horigin, hstoredOpen⟩ := storeDetails_ok hopen hstored
  obtain ⟨hsame, hstops, hlast⟩ := closeAndFinish_ok hstoredOpen hdraft
  refine ⟨stored.draft.blocks, hblocks, hsame.trans horigin, hstops, ?_⟩
  apply keepAll_ended
  · rw [hstops, List.length_map, hblocks.length, h.length]
  · rw [hstops, List.length_map, hlast, hstoredEvents, hevents, List.nil_append]

def statesOf (blocks : List Block) : List ReasoningReplay :=
  blocks.filterMap fun
    | .reasoning reasoning => reasoning.replay
    | .userText _ | .media _ | .toolResult _ | .assistantText _ | .toolCall _ => none

def stateOf (origin : Origin) (block : DraftBlock) : Option ReasoningReplay :=
  match block.kind with
  | .reasoning => block.replay.map fun kind => ⟨origin, kind, block.bytes⟩
  | .text | .refusal | .toolCall => none

theorem statesOf_contents {draft : Draft} {parts : List Part}
    (hopen : ∀ part ∈ parts, ∃ kind text, part = .open kind text)
    (hlength : parts.length = draft.blocks.length) :
    statesOf ((contents draft parts).map Content.toBlock) =
      draft.blocks.filterMap (stateOf draft.origin) := by
  unfold contents
  generalize hblocks : draft.blocks = blocks at hlength
  clear hblocks
  induction blocks generalizing parts with
  | nil => rfl
  | cons block blocks ih =>
    cases parts with
    | nil => cases hlength
    | cons part parts =>
      obtain ⟨kind, text, rfl⟩ := hopen part List.mem_cons_self
      have hrest := ih (fun more hmore => hopen more (List.mem_cons_of_mem _ hmore))
        (Nat.succ.inj hlength)
      rw [List.zipWith_cons_cons, List.map_cons, statesOf, List.filterMap_cons,
        List.filterMap_cons]
      unfold statesOf at hrest
      rw [hrest]
      cases hkind : block.kind with
      | text => simp [Draft.result, contentOf, Content.toBlock, stateOf, hkind]
      | refusal => simp [Draft.result, contentOf, Content.toBlock, stateOf, hkind]
      | toolCall => simp [Draft.result, contentOf, Content.toBlock, stateOf, hkind]
      | reasoning => simp [Draft.result, contentOf, Content.toBlock, stateOf, hkind]

theorem filterMap_eq_nil {blocks : List DraftBlock} (origin : Origin)
    (h : ∀ block ∈ blocks, block.kind = .reasoning → block.replay = none) :
    blocks.filterMap (stateOf origin) = [] := by
  rw [List.filterMap_eq_nil_iff]
  intro block hblock
  unfold stateOf
  cases hkind : block.kind with
  | reasoning => simp [h block hblock hkind]
  | text => rfl
  | refusal => rfl
  | toolCall => rfl

theorem states_stored {reducer : Reducer} {parts : List Part} (h : Reading reducer parts)
    {blocks : List DraftBlock} (hstored : Stored reducer blocks) (origin : Origin) :
    (blocks.map stopped).filterMap (stateOf origin) =
      if reducer.detailsSeen then [⟨origin, .openrouterDetails, detailsText reducer.details⟩]
      else [] := by
  have hstopped : (blocks.map stopped).filterMap (stateOf origin) =
      blocks.filterMap (stateOf origin) := by
    rw [List.filterMap_map]
    rfl
  have hfresh : ∀ block ∈ reducer.draft.blocks, block.kind = .reasoning → block.replay = none := by
    intro block hblock hkind
    obtain ⟨id, hid⟩ := List.mem_iff_getElem?.mp hblock
    exact (h.reasoning id block hid hkind).2.2
  rw [hstopped]
  cases hseen : reducer.detailsSeen with
  | false =>
    rw [hstored.unseen hseen]
    exact filterMap_eq_nil origin hfresh
  | true =>
    obtain ⟨id, block, hchannel, hblock, rfl⟩ := hstored.seen hseen
    obtain ⟨found, hfound, hkind⟩ := h.channel .reasoning id hchannel
    rw [hblock] at hfound
    cases hfound
    obtain ⟨hlt, heq⟩ := List.getElem?_eq_some_iff.mp hblock
    have hbytes := (h.reasoning id block hblock hkind).2.1
    rw [List.set_eq_take_append_cons_drop, if_pos hlt, List.filterMap_append, List.filterMap_cons,
      filterMap_eq_nil origin fun other hother => hfresh other (List.mem_of_mem_take hother),
      filterMap_eq_nil origin fun other hother => hfresh other (List.mem_of_mem_drop hother)]
    simp [stateOf, hkind, hbytes]

theorem answered_states {reader : PayloadReader} {origin : Origin} {limits : ResponseLimits}
    {payloads : List String} {events : List Event}
    (h : Answered reader origin limits payloads events) {head : Head} (hstatus : head.status = 200)
    (body : List UInt8) (kind : ProviderKind) :
    (fragments reader payloads).foldlM (onDetail limits.maxBlocks) [] =
        .ok (merged (fragments reader payloads)) ∧
      ∃ completion, answerOf (.head head body kind) events = some (.ok completion) ∧
        statesOf completion.intoBlocks =
          if carries reader payloads then
            [⟨origin, .openrouterDetails, detailsText (merged (fragments reader payloads))⟩]
          else [] := by
  obtain ⟨last, hrun⟩ := h.run
  obtain ⟨before, earlier, hbefore, hdecode, rfl⟩ := decodeAll_snoc hrun
  obtain ⟨parts, hkeep, hreading, hlimits, horigin, hdetails, hseen⟩ :=
    (reading_new origin limits).decodeAll h.unended hbefore
  have hmerged := details_eq_merged hdetails
  rw [hmerged] at hdetails
  refine ⟨hdetails, ?_⟩
  unfold Reducer.decode at hdecode
  rw [if_pos rfl] at hdecode
  obtain ⟨ended, hended, hok⟩ := bind_eq_ok.mp hdecode
  cases hok
  have hcleared : Reading { before with draft := before.draft.clearEvents } parts :=
    hreading.of_eq rfl rfl rfl
  obtain ⟨blocks, hstored, hsame, hblocks, parts', completion, hlast, hcomplete⟩ :=
    onDone_ok hcleared rfl hended
  have hall : keepAll ([], .open)
      (earlier ++ last.draft.events.filterMap last.draft.event) =
      some (parts', .done completion) := by
    rw [keepAll_append, hkeep, Option.bind_some, hlast]
  refine ⟨_, answerOf_done hstatus body kind hall, ?_⟩
  have hopen : ∀ part ∈ parts, ∃ kind text, part = .open kind text := by
    intro part hpart
    obtain ⟨id, hid⟩ := List.mem_iff_getElem?.mp hpart
    have hlt := (List.getElem?_eq_some_iff.mp hid).1
    rw [hreading.length] at hlt
    obtain ⟨-, text, htext⟩ := hreading.part id _ (List.getElem?_eq_getElem hlt)
    rw [hid] at htext
    exact ⟨_, text, Option.some.inj htext⟩
  have hlength : parts.length = last.draft.blocks.length := by
    rw [hblocks, List.length_map, hstored.length, hreading.length]
    rfl
  rw [Completion.intoBlocks]
  simp only
  rw [hcomplete, statesOf_contents hopen hlength, hblocks, states_stored hcleared hstored, hsame]
  simp only [Draft.clearEvents]
  rw [horigin, hseen, hmerged]
  rfl

/-! ## The answer in a later message -/

/-- What a later message to `target` takes of a state. -/
def stateValues (target : Target) (state : ReasoningReplay) : List Json :=
  (Reasoning.replayTo ⟨"", some state⟩ target).elim [] fun replay => entries replay.2

theorem flatMap_detailValues (target : Target) (blocks : List Block) :
    blocks.flatMap (detailValues target) = (statesOf blocks).flatMap (stateValues target) := by
  induction blocks with
  | nil => rfl
  | cons block blocks ih =>
    rw [List.flatMap_cons, ih]
    cases block with
    | reasoning reasoning =>
      obtain ⟨text, state⟩ := reasoning
      cases state with
      | none => rfl
      | some state => rfl
    | userText text => rfl
    | media media => rfl
    | toolResult result => rfl
    | assistantText text => rfl
    | toolCall call => rfl

theorem any_hasDetail (target : Target) (blocks : List Block) :
    blocks.any (hasDetail target) =
      (statesOf blocks).any fun state => (Reasoning.replayTo ⟨"", some state⟩ target).isSome := by
  induction blocks with
  | nil => rfl
  | cons block blocks ih =>
    rw [List.any_cons, ih]
    cases block with
    | reasoning reasoning =>
      obtain ⟨text, state⟩ := reasoning
      cases state with
      | none => rfl
      | some state => rfl
    | userText text => rfl
    | media media => rfl
    | toolResult result => rfl
    | assistantText text => rfl
    | toolCall call => rfl

theorem mem_statesOf {blocks : List Block} {reasoning : Reasoning}
    (h : Block.reasoning reasoning ∈ blocks) {state : ReasoningReplay}
    (hstate : state ∈ reasoning.replay) : state ∈ statesOf blocks :=
  List.mem_filterMap.mpr ⟨.reasoning reasoning, h, hstate⟩

theorem statesOf_append (blocks more : List Block) :
    statesOf (blocks ++ more) = statesOf blocks ++ statesOf more := List.filterMap_append

theorem replayTo_origin {target : Target} {origin : Origin} (horigin : origin.matches target = true)
    (htarget : target.wire.protocol = .openaiChat) (details : List Detail) :
    Reasoning.replayTo ⟨"", some ⟨origin, .openrouterDetails, detailsText details⟩⟩ target =
      some (.openrouterDetails, detailsText details) := by
  unfold Reasoning.replayTo
  simp only
  rw [if_pos ⟨horigin, htarget.symm, fun hno => by cases hno.1⟩]

theorem entries_detailsText (details : List Detail) :
    entries (detailsText details) = details.map Detail.value := by
  unfold entries
  rw [parse_detailsText]

/-- The members of the name `name`. -/
def membersOf (name : String) (members : JsonMembers) : List Json :=
  (members.filter fun entry => entry.1 = codes name.toList).map Prod.snd

theorem membersOf_append (name : String) (members more : JsonMembers) :
    membersOf name (members ++ more) = membersOf name members ++ membersOf name more := by
  rw [membersOf, List.filter_append, List.map_append]
  rfl

theorem membersOf_same (name : String) (value : Json) : membersOf name [field name value] = [value] := by
  simp [membersOf, field]

theorem membersOf_other {name other : String} (h : codes other.toList ≠ codes name.toList)
    (value : Json) : membersOf name [field other value] = [] := by
  simp [membersOf, field, h]

def Arrays (blocks : List Block) : Prop :=
  ∀ state ∈ statesOf blocks, state.kind = .openrouterDetails →
    ∃ items, Json.parse state.data.toList = some (.array items)

theorem message_details {isJson : String → Bool}
    (hjson : ∀ text, isJson text = true ↔ (Json.parse text.toList).isSome)
    {target : Target} {origin : Origin} (horigin : origin.matches target = true)
    (htarget : target.wire.protocol = .openaiChat) {before answer after : List Block}
    {details : List Detail}
    (hanswer : statesOf answer = [⟨origin, .openrouterDetails, detailsText details⟩])
    (hbefore : Arrays before) (hafter : Arrays after)
    (hspoken : (before ++ answer ++ after).any
      fun block => (text? block).isSome || isToolCall block) (comma : Bool) :
    ∃ text members,
      writeAnswer isJson target .reasoningDetails (before ++ answer ++ after) comma =
        ⟨.ok (), valueStart comma ++ text, true⟩ ∧
      Json.Reads text (.object members) ∧
      membersOf "reasoning_details" members = [.array (before.flatMap (detailValues target) ++
        details.map Detail.value ++ after.flatMap (detailValues target))] := by
  have hstates : statesOf (before ++ answer ++ after) = statesOf before ++
      [⟨origin, .openrouterDetails, detailsText details⟩] ++ statesOf after := by
    rw [statesOf_append, statesOf_append, hanswer]
  have harrays : ∀ reasoning, Block.reasoning reasoning ∈ before ++ answer ++ after →
      ∀ state ∈ reasoning.replay, state.kind = .openrouterDetails →
        ∃ items, Json.parse state.data.toList = some (.array items) := by
    intro reasoning hreasoning state hstate hkind
    have hmem := mem_statesOf hreasoning hstate
    rw [hstates, List.mem_append, List.mem_append, List.mem_singleton] at hmem
    rcases hmem with (hmem | rfl) | hmem
    · exact hbefore state hmem hkind
    · exact ⟨_, parse_detailsText details⟩
    · exact hafter state hmem hkind
  have hvalue : SaysValue (writeAnswer isJson target .reasoningDetails (before ++ answer ++ after))
      (.ok (assistantMessageValue target .reasoningDetails (before ++ answer ++ after))) := by
    have hsays := says_writeAnswer hjson htarget .reasoningDetails harrays
    unfold answerValues at hsays
    rw [if_pos hspoken] at hsays
    exact hsays
  obtain ⟨hok, hcomma, text, hreads, htext⟩ := hvalue.ok comma
  have hany : (before ++ answer ++ after).any (hasDetail target) = true := by
    rw [any_hasDetail, hstates, List.any_append, List.any_append, List.any_cons,
      replayTo_origin horigin htarget]
    simp
  have hentries : (before ++ answer ++ after).flatMap (detailValues target) =
      before.flatMap (detailValues target) ++ details.map Detail.value ++
        after.flatMap (detailValues target) := by
    rw [List.flatMap_append, List.flatMap_append, flatMap_detailValues target answer, hanswer]
    simp [stateValues, replayTo_origin horigin htarget, entries_detailsText]
  refine ⟨text, _, ?_, hreads, ?_⟩
  · rw [← hok, ← hcomma, ← htext]
  · unfold replayMembers
    simp only
    rw [if_pos hany, hentries, membersOf_append, membersOf_append, membersOf_same]
    have hhead : membersOf "reasoning_details" [field "role" (str "assistant"),
        field "content" (contentValue (before ++ answer ++ after))] = [] := by
      have hrole := @membersOf_other "reasoning_details" "role" (by decide) (str "assistant")
      have hcontent := @membersOf_other "reasoning_details" "content" (by decide)
        (contentValue (before ++ answer ++ after))
      rw [← List.singleton_append, membersOf_append, hrole, hcontent]
      rfl
    have htail : membersOf "reasoning_details"
        (if (before ++ answer ++ after).any isToolCall then
          [field "tool_calls" (.array ((before ++ answer ++ after).flatMap callValues))]
        else []) = [] := by
      split
      · exact membersOf_other (by decide) _
      · rfl
    rw [hhead, htail]
    rfl

namespace OneEntry

def payload : String :=
  "\x7b\"choices\":[\x7b\"delta\":\x7b\"reasoning_details\":" ++
    "[\x7b\"type\":\"reasoning.text\",\"text\":\"a\"\x7d]\x7d\x7d]\x7d"

def entry : Value := .object [("type", .string "reasoning.text"), ("text", .string "a")]

def root : Value :=
  .object [("choices", .array [.object [("delta", .object [("reasoning_details", .array [entry])])]])]

def reader : PayloadReader where
  chunk _ := none
  parse data := if data = payload then some root else none

def events : List Event :=
  [.blockStarted 0 .reasoning,
    .blockStopped 0 (.reasoning (some ⟨⟨"m", ""⟩, .openrouterDetails,
      detailsText [.new .text entry]⟩)), .done .unknown "" {}]

theorem answered : Answered reader ⟨"m", ""⟩ {} [payload] events where
  run := ⟨_, by rfl⟩
  unended := by decide

end OneEntry

end Yuke.Ai.OpenaiChatStream
