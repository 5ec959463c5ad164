import Yuke.Ai.Reply
import Yuke.Ai.Stream.OpenaiChatDetails
import Yuke.Ai.Wire.OpenaiChatSays
import Yuke.Shared.Log

/-!
# The answer of a Chat stream

Every block of the stream is open until its end mark, which stops them in order. So an answer has one
content for each block, and one reasoning block at most.
-/

set_option autoImplicit false

namespace Yuke.Ai.OpenaiChatStream

open Yuke.Shared
open AnthropicStream (required)

/-- The events since `draft` turn `parts` into `parts'`. -/
def Heard (draft : Draft) (parts : List Part) (draft' : Draft) (parts' : List Part) : Prop :=
  ∃ events, draft'.events = draft.events ++ events ∧ ∀ (last : Draft) (ended : End),
    keepAll (parts, ended) (events.filterMap last.event) = some (parts', ended)

theorem heard_same {draft draft' : Draft} (h : draft'.events = draft.events) (parts : List Part) :
    Heard draft parts draft' parts := by
  refine ⟨[], ?_, ?_⟩
  · rw [h, List.append_nil]
  · intro last ended
    rfl

theorem Heard.trans {first second third : Draft} {parts parts' parts'' : List Part}
    (h : Heard first parts second parts') (h' : Heard second parts' third parts'') :
    Heard first parts third parts'' := by
  obtain ⟨events, hevents, hkeep⟩ := h
  obtain ⟨more, hmore, hkeep'⟩ := h'
  refine ⟨events ++ more, by rw [hmore, hevents, List.append_assoc], ?_⟩
  intro last ended
  rw [List.filterMap_append, keepAll_append, hkeep, Option.bind_some, hkeep']

structure Reading (reducer : Reducer) (parts : List Part) : Prop where
  length : parts.length = reducer.draft.blocks.length
  part : ∀ (id : Nat) block, reducer.draft.blocks[id]? = some block →
    block.state = .open ∧ ∃ text, parts[id]? = some (.open block.kind text)
  reasoning : ∀ (id : Nat) block, reducer.draft.blocks[id]? = some block →
    block.kind = .reasoning →
      reducer.channels .reasoning = some id ∧ block.bytes = "" ∧ block.replay = none
  channel : ∀ kind (id : Nat), reducer.channels kind = some id →
    ∃ block, reducer.draft.blocks[id]? = some block ∧ block.kind = kind
  tool : ∀ index (id : Nat), (index, id) ∈ reducer.tools →
    ∃ block, reducer.draft.blocks[id]? = some block ∧ block.kind = .toolCall

theorem reading_new (origin : Origin) (limits : ResponseLimits) :
    Reading (.new origin limits) [] where
  length := rfl
  part _ _ h := by cases h
  reasoning _ _ h := by cases h
  channel _ _ h := by cases h
  tool _ _ h := by cases h

structure Step (reducer : Reducer) (parts : List Part) (reducer' : Reducer) (parts' : List Part) :
    Prop where
  heard : Heard reducer.draft parts reducer'.draft parts'
  reading : Reading reducer' parts'
  limits : reducer'.draft.limits = reducer.draft.limits
  origin : reducer'.draft.origin = reducer.draft.origin

structure Quiet (reducer reducer' : Reducer) : Prop where
  details : reducer'.details = reducer.details
  seen : reducer'.detailsSeen = reducer.detailsSeen

theorem Step.trans {first second third : Reducer} {parts parts' parts'' : List Part}
    (h : Step first parts second parts') (h' : Step second parts' third parts'') :
    Step first parts third parts'' :=
  ⟨h.heard.trans h'.heard, h'.reading, h'.limits.trans h.limits, h'.origin.trans h.origin⟩

theorem Quiet.trans {first second third : Reducer} (h : Quiet first second)
    (h' : Quiet second third) : Quiet first third :=
  ⟨h'.details.trans h.details, h'.seen.trans h.seen⟩

theorem Reading.step_refl {reducer : Reducer} {parts : List Part} (h : Reading reducer parts) :
    Step reducer parts reducer parts := ⟨heard_same rfl parts, h, rfl, rfl⟩

theorem quiet_refl (reducer : Reducer) : Quiet reducer reducer := ⟨rfl, rfl⟩

section Steps

variable {reducer : Reducer} {parts : List Part} (h : Reading reducer parts)
include h

theorem Reading.delta {id : Nat} {block : DraftBlock} {kind : BlockKind}
    (hblock : reducer.draft.blocks[id]? = some block) (hkind : block.kind = kind) (text : String) :
    ∃ parts', Step reducer parts
      { reducer with draft := reducer.draft.push (.delta id kind text) } parts' := by
  have hlt : id < parts.length := by
    rw [h.length]
    exact (List.getElem?_eq_some_iff.mp hblock).1
  by_cases htool : kind = .toolCall
  · refine ⟨parts, ⟨⟨[.delta id kind text], rfl, ?_⟩, ?_, rfl, rfl⟩⟩
    · intro last ended
      rw [htool]
      rfl
    · exact ⟨h.length, h.part, h.reasoning, h.channel, h.tool⟩
  · refine ⟨parts.modify id (.push text), ⟨⟨[.delta id kind text], rfl, ?_⟩, ?_, rfl, rfl⟩⟩
    · intro last ended
      have hat : partAt parts id (.push text) = some (parts.modify id (.push text)) := if_pos hlt
      cases kind with
      | toolCall => exact absurd rfl htool
      | text => simp [Draft.event, keepAll, keep, hat]
      | refusal => simp [Draft.event, keepAll, keep, hat]
      | reasoning => simp [Draft.event, keepAll, keep, hat]
    · refine ⟨?_, ?_, h.reasoning, h.channel, h.tool⟩
      · rw [List.length_modify]
        exact h.length
      · intro other found hfound
        obtain ⟨hopen, said, hpart⟩ := h.part other found hfound
        refine ⟨hopen, ?_⟩
        rw [List.getElem?_modify, hpart]
        by_cases hsame : id = other
        · exact ⟨said ++ text, by simp [hsame, Part.push]⟩
        · exact ⟨said, by simp [hsame]⟩

theorem Reading.setTool {id : Nat} {block block' : DraftBlock}
    (hblock : reducer.draft.blocks[id]? = some block) (hkind : block.kind = .toolCall)
    (hkind' : block'.kind = .toolCall) (hopen : block'.state = .open) :
    Reading { reducer with draft := reducer.draft.setBlock id block' } parts := by
  have hlt : id < reducer.draft.blocks.length := (List.getElem?_eq_some_iff.mp hblock).1
  have hset : ∀ (other : Nat) found, (reducer.draft.blocks.set id block')[other]? = some found →
      (other = id ∧ found = block') ∨ reducer.draft.blocks[other]? = some found := by
    intro other found hfound
    by_cases hsame : id = other
    · subst hsame
      rw [List.getElem?_set_self hlt] at hfound
      exact .inl ⟨rfl, (Option.some.inj hfound).symm⟩
    · rw [List.getElem?_set_ne hsame] at hfound
      exact .inr hfound
  have hkept : ∀ (other : Nat) found, reducer.draft.blocks[other]? = some found →
      ∃ found', (reducer.draft.blocks.set id block')[other]? = some found' ∧
        found'.kind = found.kind := by
    intro other found hfound
    by_cases hsame : id = other
    · subst hsame
      rw [hblock] at hfound
      cases hfound
      exact ⟨block', List.getElem?_set_self hlt, hkind'.trans hkind.symm⟩
    · exact ⟨found, by rw [List.getElem?_set_ne hsame]; exact hfound, rfl⟩
  refine ⟨?_, ?_, ?_, ?_, ?_⟩
  · exact h.length.trans List.length_set.symm
  · intro other found hfound
    rcases hset other found hfound with ⟨rfl, rfl⟩ | hfound
    · obtain ⟨-, text, hpart⟩ := h.part other block hblock
      exact ⟨hopen, text, by rw [hkind', ← hkind]; exact hpart⟩
    · exact h.part other found hfound
  · intro other found hfound hreasoning
    rcases hset other found hfound with ⟨rfl, rfl⟩ | hfound
    · rw [hkind'] at hreasoning
      cases hreasoning
    · exact h.reasoning other found hfound hreasoning
  · intro kind other hchannel
    obtain ⟨found, hfound, hfoundKind⟩ := h.channel kind other hchannel
    obtain ⟨found', hfound', hsame⟩ := hkept other found hfound
    exact ⟨found', hfound', hsame.trans hfoundKind⟩
  · intro index other htool
    obtain ⟨found, hfound, hfoundKind⟩ := h.tool index other htool
    obtain ⟨found', hfound', hsame⟩ := hkept other found hfound
    exact ⟨found', hfound', hsame.trans hfoundKind⟩

theorem Reading.start {kind : BlockKind} {id : BlockId} {draft : Draft}
    (hstart : reducer.draft.start kind = .ok (id, draft))
    {channels : BlockKind → Option BlockId} {tools : List (Nat × BlockId)}
    (hreasoning : kind = .reasoning → reducer.channels .reasoning = none ∧
      channels .reasoning = some id)
    (hother : kind ≠ .reasoning → channels .reasoning = reducer.channels .reasoning)
    (hchannel : ∀ other found, channels other = some found →
      reducer.channels other = some found ∨ other = kind ∧ found = id)
    (htool : ∀ index found, (index, found) ∈ tools →
      (index, found) ∈ reducer.tools ∨ kind = .toolCall ∧ found = id) :
    Step reducer parts { reducer with draft := draft, channels := channels, tools := tools }
      (parts ++ [.open kind ""]) := by
  obtain ⟨rfl, rfl⟩ := Draft.start_ok hstart
  have hold : ∀ (other : Nat) found, reducer.draft.blocks[other]? = some found →
      (reducer.draft.blocks ++ [{ kind := kind }])[other]? = some found := by
    intro other found hfound
    rw [List.getElem?_append_left (List.getElem?_eq_some_iff.mp hfound).1]
    exact hfound
  refine ⟨⟨[.started reducer.draft.blocks.length kind], rfl, ?_⟩, ?_, rfl, rfl⟩
  · intro last ended
    rfl
  refine ⟨?_, ?_, ?_, ?_, ?_⟩
  · simp [h.length]
  · intro other found hfound
    rcases getElem?_snoc.mp hfound with hfound | ⟨rfl, rfl⟩
    · obtain ⟨hopen, text, hpart⟩ := h.part other found hfound
      refine ⟨hopen, text, ?_⟩
      rw [List.getElem?_append_left (List.getElem?_eq_some_iff.mp hpart).1]
      exact hpart
    · refine ⟨rfl, "", ?_⟩
      rw [← h.length]
      exact List.getElem?_concat_length
  · intro other found hfound hfoundKind
    rcases getElem?_snoc.mp hfound with hfound | ⟨rfl, rfl⟩
    · obtain ⟨hslot, hrest⟩ := h.reasoning other found hfound hfoundKind
      refine ⟨?_, hrest⟩
      by_cases hkind : kind = .reasoning
      · rw [(hreasoning hkind).1] at hslot
        cases hslot
      · rw [← hslot]
        exact hother hkind
    · exact ⟨(hreasoning hfoundKind).2, rfl, rfl⟩
  · intro other found hfound
    rcases hchannel other found hfound with hfound | ⟨rfl, rfl⟩
    · obtain ⟨block, hblock, hkind⟩ := h.channel other found hfound
      exact ⟨block, hold found block hblock, hkind⟩
    · exact ⟨_, List.getElem?_concat_length, rfl⟩
  · intro index found hfound
    rcases htool index found hfound with hfound | ⟨rfl, rfl⟩
    · obtain ⟨block, hblock, hkind⟩ := h.tool index found hfound
      exact ⟨block, hold found block hblock, hkind⟩
    · exact ⟨_, List.getElem?_concat_length, rfl⟩

theorem Reading.of_eq {reducer' : Reducer}
    (hblocks : reducer'.draft.blocks = reducer.draft.blocks)
    (hchannels : reducer'.channels = reducer.channels) (htools : reducer'.tools = reducer.tools) :
    Reading reducer' parts := by
  refine ⟨?_, ?_, ?_, ?_, ?_⟩
  · rw [hblocks]
    exact h.length
  · rw [hblocks]
    exact h.part
  · rw [hblocks, hchannels]
    exact h.reasoning
  · rw [hblocks, hchannels]
    exact h.channel
  · rw [hblocks, htools]
    exact h.tool

theorem Reading.channel_step {kind : BlockKind} {found : BlockId × Reducer}
    (hfound : reducer.channel kind = .ok found) :
    (∃ parts', Step reducer parts found.2 parts') ∧ Quiet reducer found.2 ∧
      found.2.channels kind = some found.1 := by
  unfold Reducer.channel at hfound
  split at hfound
  next id hid =>
    cases hfound
    exact ⟨⟨parts, h.step_refl⟩, quiet_refl reducer, hid⟩
  next hnone =>
    obtain ⟨⟨id, draft⟩, hstart, hok⟩ := bind_eq_ok.mp hfound
    cases hok
    refine ⟨⟨parts ++ [.open kind ""], ?_⟩, ⟨rfl, rfl⟩, Function.update_self ..⟩
    refine @Reading.start reducer parts h kind id draft hstart _ reducer.tools ?_ ?_ ?_ ?_
    · rintro rfl
      exact ⟨hnone, Function.update_self ..⟩
    · intro hother
      exact Function.update_of_ne (Ne.symm hother) ..
    · intro other found hchannel
      by_cases hsame : other = kind
      · subst hsame
        rw [Function.update_self] at hchannel
        exact .inr ⟨rfl, (Option.some.inj hchannel).symm⟩
      · rw [Function.update_of_ne hsame] at hchannel
        exact .inl hchannel
    · intro index found htool
      exact .inl htool

theorem Reading.appendDelta {kind : BlockKind} {text : String} {reducer' : Reducer}
    (hnext : reducer.appendDelta kind text = .ok reducer') :
    (∃ parts', Step reducer parts reducer' parts') ∧ Quiet reducer reducer' := by
  unfold Reducer.appendDelta at hnext
  split at hnext
  · cases hnext
    exact ⟨⟨parts, h.step_refl⟩, quiet_refl reducer⟩
  · obtain ⟨found, hfound, hrest⟩ := bind_eq_ok.mp hnext
    obtain ⟨draft, hdelta, hok⟩ := bind_eq_ok.mp hrest
    cases hok
    obtain ⟨⟨parts', hstep⟩, hquiet, -⟩ := h.channel_step hfound
    obtain ⟨block, hblock, rfl⟩ := Draft.delta_ok hdelta
    obtain ⟨parts'', hsaid⟩ := hstep.reading.delta (Draft.openBlock_ok hblock).1 rfl text
    exact ⟨⟨parts'', hstep.trans hsaid⟩, hquiet.trans ⟨rfl, rfl⟩⟩

theorem Reading.appendSome {kind : BlockKind} {text : Option String} {reducer' : Reducer}
    (hnext : reducer.appendSome kind text = .ok reducer') :
    (∃ parts', Step reducer parts reducer' parts') ∧ Quiet reducer reducer' := by
  cases text with
  | none =>
    cases hnext
    exact ⟨⟨parts, h.step_refl⟩, quiet_refl reducer⟩
  | some text => exact h.appendDelta hnext

theorem Reading.toolBlock {index : Nat} {found : BlockId × Reducer}
    (hfound : reducer.toolBlock index = .ok found) :
    (∃ parts', Step reducer parts found.2 parts') ∧ Quiet reducer found.2 ∧
      ∃ block, found.2.draft.blocks[found.1]? = some block ∧ block.kind = .toolCall := by
  unfold Reducer.toolBlock at hfound
  split at hfound
  next index' id hid =>
    cases hfound
    exact ⟨⟨parts, h.step_refl⟩, quiet_refl reducer, h.tool index' id (List.mem_of_find?_eq_some hid)⟩
  next hnone =>
    obtain ⟨⟨id, draft⟩, hstart, hok⟩ := bind_eq_ok.mp hfound
    cases hok
    have hstep : Step reducer parts
        { reducer with draft := draft, tools := reducer.tools ++ [(index, id)] }
        (parts ++ [.open .toolCall ""]) := by
      refine @Reading.start reducer parts h .toolCall id draft hstart reducer.channels _ ?_ ?_ ?_ ?_
      · intro hno
        cases hno
      · intro _
        rfl
      · intro other found hchannel
        exact .inl hchannel
      · intro index' found htool
        rcases List.mem_append.mp htool with htool | htool
        · exact .inl htool
        · cases List.mem_singleton.mp htool
          exact .inr ⟨rfl, rfl⟩
    refine ⟨⟨_, hstep⟩, ⟨rfl, rfl⟩, ?_⟩
    exact hstep.reading.tool index id (List.mem_append_right _ List.mem_cons_self)

theorem Reading.joinArguments {id : BlockId} {block : DraftBlock} {arguments : Option String}
    {draft : Draft} (hblock : reducer.draft.blocks[id]? = some block)
    (hkind : block.kind = .toolCall)
    (hnext : Reducer.joinArguments reducer.draft id arguments = .ok draft) :
    ∃ parts', Step reducer parts { reducer with draft := draft } parts' := by
  cases arguments with
  | none =>
    cases hnext
    exact ⟨parts, h.step_refl⟩
  | some fragment =>
    obtain ⟨found, hfound, rfl⟩ := Draft.toolDelta_ok hnext
    obtain ⟨hsame, hopen⟩ := Draft.openBlock_ok hfound
    rw [hblock] at hsame
    cases hsame
    have hset := @Reading.setTool reducer parts h id block
      { block with bytes := block.bytes ++ fragment } hblock hkind hkind hopen
    have hlt := (List.getElem?_eq_some_iff.mp hblock).1
    obtain ⟨parts', hstep⟩ := hset.delta (List.getElem?_set_self hlt) hkind fragment
    exact ⟨parts', hstep.heard, hstep.reading, rfl, rfl⟩

theorem Reading.onToolFragment {index : Nat} {id name arguments : Option String}
    {reducer' : Reducer}
    (hnext : reducer.onToolFragment index id name arguments = .ok reducer') :
    (∃ parts', Step reducer parts reducer' parts') ∧ Quiet reducer reducer' := by
  obtain ⟨found, hfound, hrest⟩ := bind_eq_ok.mp hnext
  obtain ⟨named, hnamed, hrest⟩ := bind_eq_ok.mp hrest
  obtain ⟨draft, hdraft, hok⟩ := bind_eq_ok.mp hrest
  cases hok
  obtain ⟨⟨parts', hstep⟩, hquiet, block, hblock, hkind⟩ := h.toolBlock hfound
  obtain ⟨block', hopen, hset⟩ := bind_eq_ok.mp hnamed
  obtain ⟨hsame, hstate⟩ := Draft.openBlock_ok hopen
  rw [hblock] at hsame
  cases hsame
  have hnaming := @Reading.setTool found.2 parts' hstep.reading found.1 block
    { block with
      callId := if block.callId = "" then id.getD "" else block.callId
      name := if block.name = "" then name.getD "" else block.name } hblock hkind hkind hstate
  cases hset
  have hlt := (List.getElem?_eq_some_iff.mp hblock).1
  obtain ⟨parts'', hjoined⟩ := hnaming.joinArguments (List.getElem?_set_self hlt) hkind hdraft
  refine ⟨⟨parts'', hstep.trans ⟨?_, hjoined.reading, hjoined.limits, hjoined.origin⟩⟩, ?_⟩
  · exact hjoined.heard
  · exact hquiet.trans ⟨rfl, rfl⟩

theorem Reading.onToolCall {call : Value} {reducer' : Reducer}
    (hnext : reducer.onToolCall call = .ok reducer') :
    (∃ parts', Step reducer parts reducer' parts') ∧ Quiet reducer reducer' := by
  obtain ⟨index, -, hrest⟩ := bind_eq_ok.mp hnext
  split at hrest
  · cases hrest
    exact ⟨⟨parts, h.step_refl⟩, quiet_refl reducer⟩
  · split at hrest
    · cases hrest
    · obtain ⟨arguments, -, hrest⟩ := bind_eq_ok.mp hrest
      obtain ⟨id, -, hrest⟩ := bind_eq_ok.mp hrest
      obtain ⟨name, -, hrest⟩ := bind_eq_ok.mp hrest
      exact h.onToolFragment hrest

theorem Reading.onToolCalls {calls : List Value} {reducer' : Reducer}
    (hnext : calls.foldlM Reducer.onToolCall reducer = .ok reducer') :
    (∃ parts', Step reducer parts reducer' parts') ∧ Quiet reducer reducer' := by
  induction calls generalizing reducer parts with
  | nil =>
    cases hnext
    exact ⟨⟨parts, h.step_refl⟩, quiet_refl _⟩
  | cons call calls ih =>
    rw [List.foldlM_cons] at hnext
    obtain ⟨middle, hmiddle, hrest⟩ := bind_eq_ok.mp hnext
    obtain ⟨⟨parts', hstep⟩, hquiet⟩ := h.onToolCall hmiddle
    obtain ⟨⟨parts'', hsteps⟩, hquiets⟩ := ih hstep.reading hrest
    exact ⟨⟨parts'', hstep.trans hsteps⟩, hquiet.trans hquiets⟩

theorem Reading.restated {draft : Draft} (hblocks : draft.blocks = reducer.draft.blocks)
    (hevents : draft.events = reducer.draft.events) (hlimits : draft.limits = reducer.draft.limits)
    (horigin : draft.origin = reducer.draft.origin) :
    Step reducer parts { reducer with draft := draft } parts :=
  ⟨heard_same hevents parts, h.of_eq hblocks rfl rfl, hlimits, horigin⟩

theorem Reading.onFinish (raw : Option String) :
    Step reducer parts (reducer.onFinish raw).1 parts ∧ Quiet reducer (reducer.onFinish raw).1 := by
  unfold Reducer.onFinish
  split
  · exact ⟨h.step_refl, quiet_refl reducer⟩
  · split
    · exact ⟨h.step_refl, quiet_refl reducer⟩
    · exact ⟨h.restated rfl rfl rfl rfl, ⟨rfl, rfl⟩⟩

theorem Reading.readUsage (root : Value) :
    Step reducer parts (reducer.readUsage root) parts ∧ Quiet reducer (reducer.readUsage root) := by
  unfold Reducer.readUsage
  split
  · exact ⟨h.step_refl, quiet_refl reducer⟩
  · exact ⟨h.restated rfl rfl rfl rfl, ⟨rfl, rfl⟩⟩

end Steps

/-! ## What the payloads tell -/

/-- The step tells the fragments of `array`, when there is one. -/
structure Tells (reducer reducer' : Reducer) (array : Option (List Value)) : Prop where
  details : (array.getD []).foldlM (onDetail reducer.draft.limits.maxBlocks) reducer.details =
    .ok reducer'.details
  seen : reducer'.detailsSeen = (reducer.detailsSeen || array.isSome)

theorem Quiet.tells {reducer reducer' : Reducer} (h : Quiet reducer reducer') :
    Tells reducer reducer' none := by
  constructor
  · rw [h.details]
    rfl
  · rw [h.seen, Option.isSome_none, Bool.or_false]

theorem Tells.quiet {first second third : Reducer} {array : Option (List Value)}
    (h : Tells first second array) (h' : Quiet second third) : Tells first third array :=
  ⟨h'.details ▸ h.details, h'.seen.trans h.seen⟩

theorem Quiet.then_tells {first second third : Reducer} {array : Option (List Value)}
    (h : Quiet first second) (hlimits : second.draft.limits = first.draft.limits)
    (h' : Tells second third array) : Tells first third array := by
  constructor
  · have hdetails := h'.details
    rw [hlimits, h.details] at hdetails
    exact hdetails
  · rw [h'.seen, h.seen]

section Payloads

variable {reducer : Reducer} {parts : List Part} (h : Reading reducer parts)
include h

theorem Reading.onDetails {entries : List Value} {reducer' : Reducer}
    (hnext : reducer.onDetails entries = .ok reducer') :
    (∃ parts', Step reducer parts reducer' parts') ∧ Tells reducer reducer' (some entries) := by
  obtain ⟨found, hfound, hrest⟩ := bind_eq_ok.mp hnext
  obtain ⟨details, hdetails, hok⟩ := bind_eq_ok.mp hrest
  cases hok
  obtain ⟨⟨parts', hstep⟩, hquiet, -⟩ := h.channel_step hfound
  refine ⟨⟨parts', hstep.heard, hstep.reading.of_eq rfl rfl rfl, hstep.limits, hstep.origin⟩, ?_⟩
  constructor
  · rw [hquiet.details] at hdetails
    exact hdetails
  · simp

theorem Reading.withDetails {delta : Value} {reducer' : Reducer}
    (hnext : reducer.withArray delta "reasoning_details" Reducer.onDetails = .ok reducer') :
    (∃ parts', Step reducer parts reducer' parts') ∧ Tells reducer reducer' (delta.getArray "reasoning_details") := by
  unfold Reducer.withArray at hnext
  cases harray : delta.getArray "reasoning_details" with
  | some entries =>
    rw [harray] at hnext
    exact h.onDetails hnext
  | none =>
    rw [harray] at hnext
    cases hnext
    exact ⟨⟨parts, h.step_refl⟩, (quiet_refl reducer).tells⟩

theorem Reading.onDelta {delta : Value} {reducer' : Reducer}
    (hnext : reducer.onDelta delta = .ok reducer') :
    (∃ parts', Step reducer parts reducer' parts') ∧ Tells reducer reducer' (delta.getArray "reasoning_details") := by
  obtain ⟨first, hfirst, hrest⟩ := bind_eq_ok.mp hnext
  obtain ⟨second, hsecond, hrest⟩ := bind_eq_ok.mp hrest
  obtain ⟨third, hthird, hrest⟩ := bind_eq_ok.mp hrest
  obtain ⟨fourth, hfourth, hrest⟩ := bind_eq_ok.mp hrest
  obtain ⟨⟨parts1, hstep1⟩, hquiet1⟩ := h.appendSome hfirst
  obtain ⟨⟨parts2, hstep2⟩, htells⟩ := hstep1.reading.withDetails hsecond
  obtain ⟨⟨parts3, hstep3⟩, hquiet3⟩ := hstep2.reading.appendSome hthird
  obtain ⟨⟨parts4, hstep4⟩, hquiet4⟩ := hstep3.reading.appendSome hfourth
  have htold := hquiet1.then_tells hstep1.limits htells
  have hsteps := ((hstep1.trans hstep2).trans hstep3).trans hstep4
  unfold Reducer.withArray at hrest
  split at hrest
  · obtain ⟨⟨parts5, hstep5⟩, hquiet5⟩ := hstep4.reading.onToolCalls hrest
    exact ⟨⟨parts5, hsteps.trans hstep5⟩, ((htold.quiet hquiet3).quiet hquiet4).quiet hquiet5⟩
  · cases hrest
    exact ⟨⟨parts4, hsteps⟩, (htold.quiet hquiet3).quiet hquiet4⟩

theorem Reading.onTypedCall {call : Option WireCall} {reducer' : Reducer}
    (hnext : reducer.onTypedCall call = .ok reducer') :
    (∃ parts', Step reducer parts reducer' parts') ∧ Quiet reducer reducer' := by
  unfold Reducer.onTypedCall at hnext
  split at hnext
  · cases hnext
    exact ⟨⟨parts, h.step_refl⟩, quiet_refl reducer⟩
  · split at hnext
    · cases hnext
      exact ⟨⟨parts, h.step_refl⟩, quiet_refl reducer⟩
    · split at hnext
      · exact h.onToolFragment hnext
      · cases hnext

theorem Reading.onTypedDelta {delta : Delta} {reducer' : Reducer}
    (hnext : reducer.onTypedDelta delta = .ok reducer') :
    (∃ parts', Step reducer parts reducer' parts') ∧ Quiet reducer reducer' := by
  obtain ⟨first, hfirst, hrest⟩ := bind_eq_ok.mp hnext
  obtain ⟨second, hsecond, hrest⟩ := bind_eq_ok.mp hrest
  obtain ⟨third, hthird, hrest⟩ := bind_eq_ok.mp hrest
  obtain ⟨⟨parts1, hstep1⟩, hquiet1⟩ := h.appendSome hfirst
  obtain ⟨⟨parts2, hstep2⟩, hquiet2⟩ := hstep1.reading.appendSome hsecond
  obtain ⟨⟨parts3, hstep3⟩, hquiet3⟩ := hstep2.reading.appendSome hthird
  obtain ⟨⟨parts4, hstep4⟩, hquiet4⟩ := hstep3.reading.onTypedCall hrest
  exact ⟨⟨parts4, ((hstep1.trans hstep2).trans hstep3).trans hstep4⟩,
    ((hquiet1.trans hquiet2).trans hquiet3).trans hquiet4⟩

theorem Reading.onChunk {chunk : Chunk} {next : Reducer × Option ProviderKind}
    (hnext : reducer.onChunk chunk = .ok next) :
    (∃ parts', Step reducer parts next.1 parts') ∧ Quiet reducer next.1 := by
  unfold Reducer.onChunk at hnext
  split at hnext
  · cases hnext
    exact ⟨⟨parts, h.step_refl⟩, quiet_refl reducer⟩
  next choice _ =>
    obtain ⟨read, hread, hok⟩ := bind_eq_ok.mp hnext
    cases hok
    have hdelta : (∃ parts', Step reducer parts read parts') ∧ Quiet reducer read := by
      cases hdelta : choice.delta with
      | some delta =>
        rw [hdelta] at hread
        exact h.onTypedDelta hread
      | none =>
        rw [hdelta] at hread
        cases hread
        exact ⟨⟨parts, h.step_refl⟩, quiet_refl _⟩
    obtain ⟨⟨parts', hstep⟩, hquiet⟩ := hdelta
    have hfinish := hstep.reading.onFinish choice.finishReason
    exact ⟨⟨parts', hstep.trans hfinish.1⟩, hquiet.trans hfinish.2⟩

theorem Reading.onChoice {choice : Value} {next : Reducer × Option ProviderKind}
    (hnext : reducer.onChoice choice = .ok next) :
    (∃ parts', Step reducer parts next.1 parts') ∧ Tells reducer next.1
      ((choice.getObject "delta").bind fun delta => delta.getArray "reasoning_details") := by
  obtain ⟨read, hread, hok⟩ := bind_eq_ok.mp hnext
  cases hok
  have hdelta : (∃ parts', Step reducer parts read parts') ∧ Tells reducer read
      ((choice.getObject "delta").bind fun delta => delta.getArray "reasoning_details") := by
    cases hdelta : choice.getObject "delta" with
    | some delta =>
      rw [hdelta] at hread
      exact h.onDelta hread
    | none =>
      rw [hdelta] at hread
      cases hread
      exact ⟨⟨parts, h.step_refl⟩, (quiet_refl _).tells⟩
  obtain ⟨⟨parts', hstep⟩, htells⟩ := hdelta
  have hfinish := hstep.reading.onFinish (choice.getStr "finish_reason")
  exact ⟨⟨parts', hstep.trans hfinish.1⟩, htells.quiet hfinish.2⟩

end Payloads

/-- The array of `reasoning_details` that a document carries. -/
def rootArray (root : Value) : Option (List Value) :=
  (Reducer.firstChoice root).bind fun choice =>
    (choice.getObject "delta").bind fun delta => delta.getArray "reasoning_details"

def arrayOf (reader : PayloadReader) (data : String) : Option (List Value) :=
  match typedChunk reader data with
  | some _ => none
  | none => (reader.parse data).bind rootArray

def fragments (reader : PayloadReader) (payloads : List String) : List Value :=
  payloads.flatMap fun data => (arrayOf reader data).getD []

def carries (reader : PayloadReader) (payloads : List String) : Bool :=
  payloads.any fun data => (arrayOf reader data).isSome

theorem Reading.decode {reader : PayloadReader} {reducer reducer' : Reducer} {parts : List Part}
    (h : Reading reducer parts) {data : String} (hdata : data ≠ doneMark)
    (hnext : Reducer.decode reader reducer data = .ok (reducer', none)) :
    (∃ parts', Step reducer parts reducer' parts') ∧
      Tells reducer reducer' (arrayOf reader data) := by
  unfold Reducer.decode at hnext
  rw [if_neg hdata] at hnext
  unfold arrayOf
  cases hchunk : typedChunk reader data with
  | some chunk =>
    rw [hchunk] at hnext
    obtain ⟨hstep, hquiet⟩ := h.onChunk hnext
    exact ⟨hstep, hquiet.tells⟩
  | none =>
    rw [hchunk] at hnext
    obtain ⟨root, hroot, hrest⟩ := bind_eq_ok.mp hnext
    have hparse : reader.parse data = some root := by
      cases hread : reader.parse data with
      | none =>
        rw [hread] at hroot
        cases hroot
      | some found =>
        rw [hread] at hroot
        cases hroot
        rfl
    dsimp only
    rw [hparse, Option.bind_some]
    cases herror : errorOf root with
    | some kind =>
      rw [herror] at hrest
      cases hrest
    | none =>
      rw [herror] at hrest
      dsimp only at hrest
      unfold Reducer.decodeRoot at hrest
      unfold rootArray
      cases hchoice : Reducer.firstChoice root with
      | none =>
        rw [hchoice] at hrest
        cases hrest
        have husage := h.readUsage root
        exact ⟨⟨parts, husage.1⟩, husage.2.tells⟩
      | some choice =>
        rw [hchoice] at hrest
        obtain ⟨read, hread, hlast⟩ := bind_eq_ok.mp hrest
        obtain ⟨⟨parts', hstep⟩, htells⟩ := h.onChoice hread
        cases hkind : read.2 with
        | some kind =>
          rw [hkind] at hlast
          cases hlast
        | none =>
          rw [hkind] at hlast
          cases hlast
          have husage := hstep.reading.readUsage root
          exact ⟨⟨parts', hstep.trans husage.1⟩, htells.quiet husage.2⟩

theorem decodeAll_cons {reader : PayloadReader} {reducer last : Reducer} {data : String}
    {payloads : List String} {events : List Event}
    (h : decodeAll reader reducer (data :: payloads) = .ok (last, events)) :
    ∃ next rest, Reducer.decode reader { reducer with draft := reducer.draft.clearEvents } data =
        .ok (next, none) ∧ decodeAll reader next payloads = .ok (last, rest) ∧
      events = next.draft.events.filterMap next.draft.event ++ rest := by
  rw [decodeAll] at h
  split at h
  · cases h
  · cases h
  next next hnext =>
    cases hrest : decodeAll reader next payloads with
    | error halt =>
      rw [hrest] at h
      cases h
    | ok rest =>
      rw [hrest] at h
      cases h
      exact ⟨next, rest.2, hnext, hrest, rfl⟩

theorem decodeAll_snoc {reader : PayloadReader} {reducer last : Reducer} {payloads : List String}
    {data : String} {events : List Event}
    (h : decodeAll reader reducer (payloads ++ [data]) = .ok (last, events)) :
    ∃ before earlier, decodeAll reader reducer payloads = .ok (before, earlier) ∧
      Reducer.decode reader { before with draft := before.draft.clearEvents } data =
        .ok (last, none) ∧
      events = earlier ++ last.draft.events.filterMap last.draft.event := by
  induction payloads generalizing reducer events with
  | nil =>
    obtain ⟨next, rest, hdecode, hnil, rfl⟩ := decodeAll_cons h
    cases hnil
    exact ⟨reducer, [], rfl, hdecode, by simp⟩
  | cons first payloads ih =>
    obtain ⟨next, rest, hdecode, hrest, rfl⟩ := decodeAll_cons h
    obtain ⟨before, earlier, hbefore, hlast, rfl⟩ := ih hrest
    refine ⟨before, next.draft.events.filterMap next.draft.event ++ earlier, ?_, hlast, ?_⟩
    · rw [decodeAll, hdecode]
      simp only [hbefore]
      rfl
    · rw [List.append_assoc]

theorem Reading.decodeAll {reader : PayloadReader} {reducer last : Reducer} {parts : List Part}
    (h : Reading reducer parts) {payloads : List String} (hunended : doneMark ∉ payloads)
    {events : List Event} (hrun : decodeAll reader reducer payloads = .ok (last, events)) :
    ∃ parts', (∀ ended, keepAll (parts, ended) events = some (parts', ended)) ∧
      Reading last parts' ∧ last.draft.limits = reducer.draft.limits ∧
      last.draft.origin = reducer.draft.origin ∧
      (fragments reader payloads).foldlM (onDetail reducer.draft.limits.maxBlocks) reducer.details =
        .ok last.details ∧
      last.detailsSeen = (reducer.detailsSeen || carries reader payloads) := by
  induction payloads generalizing reducer parts events with
  | nil =>
    cases hrun
    exact ⟨parts, fun _ => rfl, h, rfl, rfl, rfl, (Bool.or_false _).symm⟩
  | cons data payloads ih =>
    obtain ⟨next, rest, hdecode, hrest, rfl⟩ := decodeAll_cons hrun
    have hcleared : Reading { reducer with draft := reducer.draft.clearEvents } parts :=
      h.of_eq rfl rfl rfl
    obtain ⟨⟨middle, hstep⟩, htells⟩ :=
      hcleared.decode (fun hsame => hunended (hsame ▸ List.mem_cons_self)) hdecode
    obtain ⟨parts', hkeep, hreading, hlimits, horigin, hdetails, hseen⟩ :=
      ih hstep.reading (fun hmem => hunended (List.mem_cons_of_mem _ hmem)) hrest
    refine ⟨parts', ?_, hreading, hlimits.trans hstep.limits, horigin.trans hstep.origin, ?_, ?_⟩
    · intro ended
      obtain ⟨heard, hevents, hheard⟩ := hstep.heard
      have hall : next.draft.events = heard := hevents
      rw [keepAll_append, hall, hheard, Option.bind_some, hkeep]
    · have hfirst := htells.details
      have hlimits' : next.draft.limits = reducer.draft.limits := hstep.limits
      rw [hlimits'] at hdetails
      rw [fragments, List.flatMap_cons, List.foldlM_append]
      exact bind_eq_ok.mpr ⟨next.details, hfirst, hdetails⟩
    · have hcarries : carries reader (data :: payloads) =
          ((arrayOf reader data).isSome || carries reader payloads) := List.any_cons
      rw [hseen, htells.seen, hcarries, Bool.or_assoc]

end Yuke.Ai.OpenaiChatStream
