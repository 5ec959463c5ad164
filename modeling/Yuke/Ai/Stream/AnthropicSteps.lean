import Yuke.Ai.Stream.Anthropic
import Yuke.Shared.Largest

/-!
# What a payload of an Anthropic stream does

A payload takes one step on the blocks of the draft, or it joins its counts to the usage.
-/

set_option autoImplicit false

namespace Yuke.Ai.AnthropicStream

open Yuke.Shared

def rootOf (reader : PayloadReader) (data : String) : Option Value :=
  match typedDelta reader data with
  | some _ => none
  | none => reader.parse data

/-- The document of a payload of the type `event`. -/
def eventOf (reader : PayloadReader) (event data : String) : Option Value :=
  (rootOf reader data).filter fun root => root.getStr "type" = some event

/-- The usage object of a `message_start` payload. -/
def startUsage (reader : PayloadReader) (data : String) : Option Value :=
  (eventOf reader "message_start" data).bind fun root =>
    (root.getObject "message").bind fun message => message.getObject "usage"

/-- The usage object of a `message_delta` payload. -/
def deltaUsage (reader : PayloadReader) (data : String) : Option Value :=
  (eventOf reader "message_delta" data).bind fun root => root.getObject "usage"

def startOfText (root : Value) : Option (Nat × String) :=
  (root.getIndex "index").bind fun index => (root.get "content_block").bind fun block =>
    if block.getStr "type" = some "text" then some (index, (block.getStr "text").getD "") else none

def textStart (reader : PayloadReader) (data : String) : Option (Nat × String) :=
  (eventOf reader "content_block_start" data).bind startOfText

def textOf (index : Nat) (delta : DeltaView) : Option (Nat × String) :=
  if delta.kind = "text_delta" then delta.text.map fun text => (index, text) else none

def deltaOfText (root : Value) : Option (Nat × String) :=
  (root.getIndex "index").bind fun index => (root.get "delta").bind fun delta =>
    (deltaView delta).toOption.bind (textOf index)

def textDelta (reader : PayloadReader) (data : String) : Option (Nat × String) :=
  match typedDelta reader data with
  | some event => textOf event.index.toNat event.delta
  | none => (eventOf reader "content_block_delta" data).bind deltaOfText

/-! ## The counts of a reducer -/

@[ext] structure Tally where
  uncached : Option Nat := none
  output : Option Nat := none
  reasoning : Option Nat := none
  cacheRead : Option Nat := none
  cacheWrite : Option Nat := none

namespace Tally

def join (a b : Tally) : Tally where
  uncached := max a.uncached b.uncached
  output := max a.output b.output
  reasoning := max a.reasoning b.reasoning
  cacheRead := max a.cacheRead b.cacheRead
  cacheWrite := max a.cacheWrite b.cacheWrite

theorem max_max (a b c : Option Nat) : max (max a b) c = max a (max b c) := by
  have h := largest_append [a, b] [c]
  simp only [List.cons_append, List.nil_append, largest_cons, largest_nil,
    Option.max_none_right] at h
  exact h.symm

theorem join_assoc (a b c : Tally) : (a.join b).join c = a.join (b.join c) := by
  ext1 <;> exact max_max ..

@[simp] theorem join_empty (a : Tally) : a.join {} = a := by
  ext1 <;> exact Option.max_none_right

@[simp] theorem empty_join (a : Tally) : Tally.join {} a = a := by
  ext1 <;> exact Option.max_none_left

end Tally

def thinkingTokens (usage : Value) : Option Nat :=
  (usage.getObject "output_tokens_details").bind fun details => details.count "thinking_tokens"

def promptTokens (uncached cacheRead cacheWrite : Option Nat) : Option Nat :=
  uncached.map fun uncached =>
    saturatingAdd (saturatingAdd uncached (cacheRead.getD 0)) (cacheWrite.getD 0)

def promptTally (usage : Value) : Tally where
  uncached := usage.count "input_tokens"
  cacheRead := usage.count "cache_read_input_tokens"
  cacheWrite := usage.count "cache_creation_input_tokens"

def outputTally (usage : Value) : Tally where
  output := usage.count "output_tokens"
  reasoning := thinkingTokens usage

def payloadTally (reader : PayloadReader) (data : String) : Tally :=
  ((startUsage reader data).elim {} promptTally).join
    ((deltaUsage reader data).elim {} fun usage => (outputTally usage).join (promptTally usage))

namespace Reducer

def tally (reducer : Reducer) : Tally where
  uncached := reducer.uncachedInput
  output := reducer.draft.usage.output
  reasoning := reducer.draft.usage.reasoning
  cacheRead := reducer.draft.usage.cacheRead
  cacheWrite := reducer.draft.usage.cacheWrite

def Settled (reducer : Reducer) : Prop :=
  reducer.draft.usage.input = promptTokens reducer.uncachedInput reducer.draft.usage.cacheRead
    reducer.draft.usage.cacheWrite

theorem foldPromptUsage_tally (reducer : Reducer) (usage : Value) :
    (reducer.foldPromptUsage usage).tally = reducer.tally.join (promptTally usage) := by
  ext1
  · rfl
  · exact (Option.max_none_right).symm
  · exact (Option.max_none_right).symm
  · rfl
  · rfl

theorem foldOutputUsage_tally (reducer : Reducer) (usage : Value) :
    (reducer.foldOutputUsage usage).tally = reducer.tally.join (outputTally usage) := by
  ext1
  · exact (Option.max_none_right).symm
  · rfl
  · simp only [foldOutputUsage, tally, Tally.join, outputTally, thinkingTokens]
    cases usage.getObject "output_tokens_details" with
    | none => exact (Option.max_none_right).symm
    | some details => rfl
  · exact (Option.max_none_right).symm
  · exact (Option.max_none_right).symm

/-- `next` differs from `reducer` in its usage and its finish reason alone, and it joined `counts`. -/
structure Counted (reducer : Reducer) (counts : Tally) (next : Reducer) : Prop where
  slots : next.slots = reducer.slots
  blocks : next.draft.blocks = reducer.draft.blocks
  events : next.draft.events = reducer.draft.events
  done : next.draft.done = reducer.draft.done
  tally : next.tally = reducer.tally.join counts
  settled : reducer.Settled → next.Settled

theorem counted_nothing (reducer : Reducer) : reducer.Counted {} reducer where
  slots := rfl
  blocks := rfl
  events := rfl
  done := rfl
  tally := (Tally.join_empty _).symm
  settled := id

theorem onMessageStart_counted (reducer : Reducer) (root : Value) :
    reducer.Counted (((root.getObject "message").bind fun message =>
      message.getObject "usage").elim {} promptTally) (reducer.onMessageStart root) := by
  unfold onMessageStart
  cases (root.getObject "message").bind fun message => message.getObject "usage" with
  | none => exact counted_nothing reducer
  | some usage => exact ⟨rfl, rfl, rfl, rfl, foldPromptUsage_tally reducer usage, fun _ => rfl⟩

theorem onMessageDelta_counted (reducer : Reducer) (root : Value) :
    reducer.Counted ((root.getObject "usage").elim {} fun usage =>
      (outputTally usage).join (promptTally usage)) (reducer.onMessageDelta root) := by
  -- the finish reason touches no count
  have hreason : ∃ named : Reducer, reducer.Counted {} named ∧ reducer.onMessageDelta root =
      (root.getObject "usage").elim named fun usage =>
        (named.foldOutputUsage usage).foldPromptUsage usage := by
    unfold onMessageDelta
    cases (root.get "delta").bind fun delta => delta.getStr "stop_reason" with
    | none =>
      refine ⟨reducer, counted_nothing reducer, ?_⟩
      cases root.getObject "usage" with
      | none => rfl
      | some usage => rfl
    | some raw =>
      refine ⟨{ reducer with draft := reducer.draft.setFinish (finishReason raw) raw },
        ⟨rfl, rfl, rfl, rfl, (Tally.join_empty _).symm, id⟩, ?_⟩
      cases root.getObject "usage" with
      | none => rfl
      | some usage => rfl
  obtain ⟨named, hnamed, hnext⟩ := hreason
  rw [hnext]
  cases root.getObject "usage" with
  | none => exact hnamed
  | some usage =>
    refine ⟨hnamed.slots, hnamed.blocks, hnamed.events, hnamed.done, ?_, fun _ => rfl⟩
    have htally := hnamed.tally
    rw [Tally.join_empty] at htally
    dsimp only [Option.elim]
    rw [foldPromptUsage_tally, foldOutputUsage_tally, Tally.join_assoc, htally]

/-- What a payload that carries no usage does. The two texts are the one of the text block that
it starts, and the one of its delta. -/
inductive Step (reducer : Reducer) : Option (Nat × String) → Option (Nat × String) → Reducer → Prop
  /-- the start of an ignored block -/
  | ignored : Step reducer none none { reducer with slots := reducer.slots ++ [none] }
  | started (block : DraftBlock) (text : String) (hopen : block.state = .open)
      (hrefusal : block.kind ≠ .refusal) :
      Step reducer (if block.kind = .text then some (reducer.slots.length, text) else none) none
        { reducer with
          draft := { reducer.draft with
            blocks := reducer.draft.blocks ++ [block]
            events := reducer.draft.events ++
              .started reducer.draft.blocks.length block.kind ::
                if text = "" then [] else [.delta reducer.draft.blocks.length block.kind text] }
          slots := reducer.slots ++ [some reducer.draft.blocks.length] }
  /-- an event that changes nothing, or a delta of an ignored block -/
  | unheard (spoken : Option (Nat × String))
      (hspoken : ∀ index text, spoken = some (index, text) → reducer.slots[index]? = some none) :
      Step reducer none spoken reducer
  /-- text of an open block -/
  | said (index : Nat) (id : BlockId) (block : DraftBlock) (text : String)
      (hslot : reducer.slots[index]? = some (some id))
      (hblock : reducer.draft.openBlock id = .ok block) :
      Step reducer none (if block.kind = .text then some (index, text) else none)
        { reducer with draft := reducer.draft.push (.delta id block.kind text) }
  /-- the state of an open block that is no text block -/
  | stated (id : BlockId) (block next : DraftBlock) (events : List Pending)
      (hblock : reducer.draft.openBlock id = .ok block) (hkind : next.kind = block.kind)
      (htext : block.kind ≠ .text) (hopen : next.state = .open)
      (hevents : events = [] ∨ ∃ fragment, events = [.delta id .toolCall fragment]) :
      Step reducer none none
        { reducer with draft := { reducer.draft.setBlock id next with
            events := reducer.draft.events ++ events } }
  | stopped (id : BlockId) (block : DraftBlock)
      (hblock : reducer.draft.openBlock id = .ok block) :
      Step reducer none none { reducer with
        draft := (reducer.draft.setBlock id { block with state := .stopped }).push (.stopped id) }
  | ended (hopen : reducer.draft.anyOpen = false) :
      Step reducer none none { reducer with draft := reducer.draft.finish }

end Reducer

theorem required_ok {α : Type} {value : Option α} {a : α} (h : required value = .ok a) :
    value = some a := by
  cases value with
  | none => cases h
  | some found =>
    cases h
    rfl

/-! ## The step of each handler -/

namespace Reducer

/-- A draft after the start of the block `block`, which may already say `text`. -/
def begun (draft : Draft) (block : DraftBlock) (text : String) : Draft :=
  { draft with
    blocks := draft.blocks ++ [block]
    events := draft.events ++ .started draft.blocks.length block.kind ::
      if text = "" then [] else [.delta draft.blocks.length block.kind text] }

theorem openBlock_begun {draft : Draft} {block : DraftBlock} {text : String} {found : DraftBlock}
    (h : (begun draft block text).openBlock draft.blocks.length = .ok found) : found = block := by
  obtain ⟨hfound, -⟩ := Draft.openBlock_ok h
  simpa [begun, eq_comm] using hfound

theorem begun_setBlock (draft : Draft) (block next : DraftBlock) (text : String)
    (hkind : next.kind = block.kind) :
    (begun draft block text).setBlock draft.blocks.length next = begun draft next text := by
  simp [begun, Draft.setBlock, hkind]

theorem setReplay_begun {draft next : Draft} {block : DraftBlock} {text : String}
    {replay : ReplayKind}
    (h : (begun draft block text).setReplay draft.blocks.length replay = .ok next) :
    next = begun draft { block with replay := some replay } text := by
  obtain ⟨found, hfound, rfl⟩ := Draft.setReplay_ok h
  obtain rfl := openBlock_begun hfound
  apply begun_setBlock
  rfl

theorem pushBytes_begun {draft next : Draft} {block : DraftBlock} {text bytes : String}
    (h : (begun draft block text).pushBytes draft.blocks.length bytes = .ok next) :
    next = begun draft { block with bytes := block.bytes ++ bytes } text := by
  obtain ⟨found, hfound, rfl⟩ := Draft.pushBytes_ok h
  obtain rfl := openBlock_begun hfound
  apply begun_setBlock
  rfl

theorem startBlock_begun {draft next : Draft} {kind : BlockKind} {block : Value} {id : BlockId}
    (h : startBlock draft kind block = .ok (id, next)) :
    id = draft.blocks.length ∧ ∃ block : DraftBlock, block.kind = kind ∧ block.state = .open ∧
      next = begun draft block "" := by
  unfold startBlock at h
  split at h
  next hkind =>
    obtain ⟨callId, _, h⟩ := bind_eq_ok.mp h
    obtain ⟨name, _, h⟩ := bind_eq_ok.mp h
    obtain ⟨hid, block, hblock, hopen, rfl⟩ := Draft.startTool_ok h
    refine ⟨hid, block, hblock.trans hkind.symm, hopen, ?_⟩
    rw [begun, if_pos rfl, hid, hblock]
  · obtain ⟨hid, rfl⟩ := Draft.start_ok h
    refine ⟨hid, { kind := kind }, rfl, rfl, ?_⟩
    rw [begun, if_pos rfl, hid]

theorem deltaUnlessEmpty_begun {draft next : Draft} {block : DraftBlock} {text : Option String}
    (h : deltaUnlessEmpty (begun draft block "") draft.blocks.length text = .ok next) :
    next = begun draft block (text.getD "") := by
  unfold deltaUnlessEmpty at h
  split at h
  next text =>
    split at h
    next hempty =>
      cases h
      rw [Option.getD_some, hempty]
    next hsome =>
      obtain ⟨found, hfound, rfl⟩ := Draft.delta_ok h
      obtain rfl := openBlock_begun hfound
      simp [begun, Draft.push, hsome]
  · cases h
    rfl

theorem startContent_begun {draft next : Draft} {block : DraftBlock} {kind : BlockKind}
    {blockType : String} {value : Value} (hkind : block.kind = kind) (hopen : block.state = .open)
    (h : startContent (begun draft block "") draft.blocks.length kind blockType value = .ok next) :
    ∃ last text, last.kind = kind ∧ last.state = .open ∧ next = begun draft last text ∧
      (kind = .text → text = (value.getStr "text").getD "") := by
  cases kind with
  | text => exact ⟨block, _, hkind, hopen, deltaUnlessEmpty_begun h, fun _ => rfl⟩
  | reasoning =>
    simp only [startContent] at h
    split at h
    · obtain ⟨named, hnamed, h⟩ := bind_eq_ok.mp h
      rw [setReplay_begun hnamed] at h
      obtain rfl := pushBytes_begun h
      refine ⟨_, "", ?_, ?_, rfl, fun hno => ?_⟩
      · exact hkind
      · exact hopen
      · cases hno
    · obtain ⟨named, hnamed, h⟩ := bind_eq_ok.mp h
      obtain ⟨heard, hheard, h⟩ := bind_eq_ok.mp h
      rw [setReplay_begun hnamed] at hheard
      rw [deltaUnlessEmpty_begun hheard] at h
      obtain rfl := pushBytes_begun h
      refine ⟨_, _, ?_, ?_, rfl, fun hno => ?_⟩
      · exact hkind
      · exact hopen
      · cases hno
  | toolCall =>
    cases h
    refine ⟨block, "", hkind, hopen, rfl, fun hno => ?_⟩
    cases hno
  | refusal =>
    cases h
    refine ⟨block, "", hkind, hopen, rfl, fun hno => ?_⟩
    cases hno

theorem blockKind_text {blockType : String} {kind : BlockKind}
    (h : blockKind blockType = some kind) :
    (kind = .text ↔ blockType = "text") ∧ kind ≠ .refusal := by
  unfold blockKind at h
  split at h
  next htext =>
    cases h
    exact ⟨⟨fun _ => htext, fun _ => rfl⟩, by decide⟩
  next htext =>
    split at h
    · cases h
      exact ⟨⟨fun hno => (by cases hno), fun hyes => absurd hyes htext⟩, by decide⟩
    split at h
    · cases h
      exact ⟨⟨fun hno => (by cases hno), fun hyes => absurd hyes htext⟩, by decide⟩
    · cases h

theorem onBlockStart_step {reducer next : Reducer} {root : Value}
    (h : reducer.onBlockStart root = .ok next) : Step reducer (startOfText root) none next := by
  obtain ⟨index, hindex, h⟩ := bind_eq_ok.mp h
  split at h
  · cases h
  next hdense =>
    have hdense : index = reducer.slots.length := by
      by_contra hne
      exact hdense hne
    split at h
    · cases h
    obtain ⟨value, hvalue, h⟩ := bind_eq_ok.mp h
    obtain ⟨blockType, htype, h⟩ := bind_eq_ok.mp h
    have hstart : startOfText root = if blockType = "text" then
        some (reducer.slots.length, (value.getStr "text").getD "") else none := by
      simp [startOfText, required_ok hindex, required_ok hvalue, required_ok htype, hdense]
    split at h
    next hignored =>
      cases h
      have hno : blockType ≠ "text" := by
        rintro rfl
        cases hignored
      rw [hstart, if_neg hno]
      exact .ignored
    next kind hkind =>
      obtain ⟨⟨id, started⟩, hstarted, h⟩ := bind_eq_ok.mp h
      obtain ⟨heard, hheard, h⟩ := bind_eq_ok.mp h
      cases h
      obtain ⟨rfl, block, hblock, hopen, rfl⟩ := startBlock_begun hstarted
      obtain ⟨last, text, hlast, hopen, rfl, htext⟩ := startContent_begun hblock hopen hheard
      obtain ⟨hiff, hrefusal⟩ := blockKind_text hkind
      have htold : startOfText root =
          if last.kind = .text then some (reducer.slots.length, text) else none := by
        rw [hstart]
        by_cases hyes : kind = .text
        · rw [if_pos (hiff.mp hyes), if_pos (hlast.trans hyes), htext hyes]
        · rw [if_neg fun hno => hyes (hiff.mpr hno), if_neg fun hno => hyes (hlast ▸ hno)]
      rw [htold]
      exact .started last text hopen (hlast ▸ hrefusal)

theorem expectedKind_text {kind : String} {expected : BlockKind}
    (h : expectedKind kind = some expected) : expected = .text ↔ kind = "text_delta" := by
  unfold expectedKind at h
  split at h
  next htext =>
    cases h
    exact ⟨fun _ => htext, fun _ => rfl⟩
  next htext =>
    split at h
    · cases h
      exact ⟨fun hno => (by cases hno), fun hyes => absurd hyes htext⟩
    split at h
    · cases h
      exact ⟨fun hno => (by cases hno), fun hyes => absurd hyes htext⟩
    · cases h

theorem deltaContent_step {reducer : Reducer} {next : Draft} {index : Nat} {id : BlockId}
    {block : DraftBlock} {delta : DeltaView} {expected : BlockKind}
    (hslot : reducer.slots[index]? = some (some id))
    (hblock : reducer.draft.openBlock id = .ok block)
    (hexpected : expectedKind delta.kind = some expected) (hkind : block.kind = expected)
    (h : deltaContent reducer.draft id delta = .ok next) :
    Step reducer none (textOf index delta) { reducer with draft := next } := by
  have hiff := expectedKind_text hexpected
  unfold deltaContent at h
  split at h
  next htext =>
    obtain ⟨text, hsome, h⟩ := bind_eq_ok.mp h
    obtain ⟨found, hfound, rfl⟩ := Draft.delta_ok h
    obtain rfl : block = found := by
      rw [hblock] at hfound
      cases hfound
      rfl
    have hstep := Step.said index id block text hslot hblock
    rw [if_pos (hkind.trans (hiff.mpr htext))] at hstep
    rw [textOf, if_pos htext, required_ok hsome]
    exact hstep
  next htext =>
    have hno : block.kind ≠ .text := fun hyes => htext (hiff.mp (hkind.symm.trans hyes))
    rw [textOf, if_neg htext]
    split at h
    · obtain ⟨text, hsome, h⟩ := bind_eq_ok.mp h
      obtain ⟨found, hfound, rfl⟩ := Draft.delta_ok h
      obtain rfl : block = found := by
        rw [hblock] at hfound
        cases hfound
        rfl
      have hstep := Step.said index id block text hslot hblock
      rw [if_neg hno] at hstep
      exact hstep
    split at h
    · obtain ⟨bytes, hsome, h⟩ := bind_eq_ok.mp h
      obtain ⟨found, hfound, rfl⟩ := Draft.pushBytes_ok h
      obtain rfl : block = found := by
        rw [hblock] at hfound
        cases hfound
        rfl
      have hstep := Step.stated id block { block with bytes := block.bytes ++ bytes } [] hblock rfl
        hno (Draft.openBlock_ok hblock).2 (.inl rfl)
      rw [List.append_nil] at hstep
      exact hstep
    · obtain ⟨fragment, hsome, h⟩ := bind_eq_ok.mp h
      obtain ⟨found, hfound, rfl⟩ := Draft.toolDelta_ok h
      obtain rfl : block = found := by
        rw [hblock] at hfound
        cases hfound
        rfl
      exact Step.stated id block { block with bytes := block.bytes ++ fragment }
        [.delta id .toolCall fragment] hblock rfl hno (Draft.openBlock_ok hblock).2
        (.inr ⟨fragment, rfl⟩)

theorem applyDelta_step {reducer next : Reducer} {index : Nat} {delta : Except Halt DeltaView}
    (h : reducer.applyDelta index delta = .ok next) :
    Step reducer none (delta.toOption.bind (textOf index)) next := by
  obtain ⟨slot, hslot, h⟩ := bind_eq_ok.mp h
  have hslot := required_ok hslot
  split at h
  · cases h
    apply Step.unheard
    intro index' text hspoken
    cases delta with
    | error error => cases hspoken
    | ok delta =>
      simp only [Except.toOption, Option.bind_some, textOf] at hspoken
      split at hspoken
      · obtain ⟨text', -, hpair⟩ := Option.map_eq_some_iff.mp hspoken
        cases hpair
        exact hslot
      · cases hspoken
  next id =>
    obtain ⟨block, hblock, h⟩ := bind_eq_ok.mp h
    obtain ⟨view, rfl, hview⟩ := bind_eq_ok.mp h
    change Step reducer none (textOf index view) next
    unfold applyView at hview
    split at hview
    next hunknown =>
      cases hview
      have hno : view.kind ≠ "text_delta" := by
        intro hyes
        rw [hyes] at hunknown
        cases hunknown
      rw [textOf, if_neg hno]
      apply Step.unheard
      intro _ _ hspoken
      cases hspoken
    next expected hexpected =>
      split at hview
      · cases hview
      next hkind =>
        obtain ⟨heard, hheard, hview⟩ := bind_eq_ok.mp hview
        cases hview
        have hkind : block.kind = expected := by
          by_contra hne
          exact hkind (.inl hne)
        exact deltaContent_step hslot hblock hexpected hkind hheard

theorem onBlockDelta_step {reducer next : Reducer} {root : Value}
    (h : reducer.onBlockDelta root = .ok next) : Step reducer none (deltaOfText root) next := by
  obtain ⟨index, hindex, h⟩ := bind_eq_ok.mp h
  have hstep := applyDelta_step h
  have hspoken : ((required (root.get "delta")).bind deltaView).toOption.bind (textOf index) =
      deltaOfText root := by
    rw [deltaOfText, required_ok hindex, Option.bind_some]
    cases root.get "delta" with
    | none => rfl
    | some delta => rfl
  rw [hspoken] at hstep
  exact hstep

theorem onBlockStop_step {reducer next : Reducer} {root : Value}
    (h : reducer.onBlockStop root = .ok next) : Step reducer none none next := by
  obtain ⟨index, _, h⟩ := bind_eq_ok.mp h
  obtain ⟨slot, hslot, h⟩ := bind_eq_ok.mp h
  split at h
  · cases h
    apply Step.unheard
    intro _ _ hspoken
    cases hspoken
  next id =>
    obtain ⟨stopped, hstopped, h⟩ := bind_eq_ok.mp h
    cases h
    obtain ⟨block, hblock, rfl⟩ := Draft.stop_ok hstopped
    exact .stopped id block hblock

theorem onMessageStop_step {reducer next : Reducer} (h : reducer.onMessageStop = .ok next) :
    Step reducer none none next := by
  unfold onMessageStop at h
  split at h
  · cases h
  next hopen =>
    cases h
    exact .ended (by simpa using hopen)

end Reducer

theorem eventOf_typed {reader : PayloadReader} {data : String} {delta : BlockDelta}
    (h : typedDelta reader data = some delta) (event : String) : eventOf reader event data = none := by
  simp [eventOf, rootOf, h]

theorem eventOf_tree {reader : PayloadReader} {data : String} {root : Value} {event : String}
    (htyped : typedDelta reader data = none) (hroot : reader.parse data = some root)
    (hevent : root.getStr "type" = some event) (name : String) :
    eventOf reader name data = if event = name then some root else none := by
  simp only [eventOf, rootOf, htyped, hroot, Option.filter, hevent, Option.some.injEq,
    decide_eq_true_eq]

theorem decode_cases {reader : PayloadReader} {reducer next : Reducer} {data : String}
    (h : Reducer.decode reader reducer data = .ok (next, none)) :
    payloadTally reader data = {} ∧
        reducer.Step (textStart reader data) (textDelta reader data) next ∨
      textStart reader data = none ∧ textDelta reader data = none ∧
        reducer.Counted (payloadTally reader data) next := by
  unfold Reducer.decode at h
  split at h
  next event htyped =>
    left
    have hevent := eventOf_typed htyped
    split at h
    · obtain ⟨heard, hheard, h⟩ := bind_eq_ok.mp h
      cases h
      have hstep := Reducer.applyDelta_step hheard
      refine ⟨by simp [payloadTally, startUsage, deltaUsage, hevent], ?_⟩
      rw [textStart, hevent, textDelta, htyped]
      exact hstep
    · cases h
  next htyped =>
    obtain ⟨root, hroot, h⟩ := bind_eq_ok.mp h
    obtain ⟨event, hevent, h⟩ := bind_eq_ok.mp h
    have heventOf := eventOf_tree htyped (required_ok hroot) (required_ok hevent)
    simp only [payloadTally, startUsage, deltaUsage, textStart, textDelta, htyped, heventOf]
    split at h
    · cases h
    split at h
    next hname =>
      cases h
      subst hname
      right
      refine ⟨by simp, by simp, ?_⟩
      simpa using Reducer.onMessageStart_counted reducer root
    next hstart =>
      rw [if_neg hstart]
      split at h
      next hname =>
        obtain ⟨started, hstarted, h⟩ := bind_eq_ok.mp h
        cases h
        subst hname
        left
        simpa using Reducer.onBlockStart_step hstarted
      split at h
      next hname =>
        obtain ⟨heard, hheard, h⟩ := bind_eq_ok.mp h
        cases h
        subst hname
        left
        simpa using Reducer.onBlockDelta_step hheard
      split at h
      next hname =>
        obtain ⟨stopped, hstopped, h⟩ := bind_eq_ok.mp h
        cases h
        subst hname
        left
        simpa using Reducer.onBlockStop_step hstopped
      split at h
      next hname =>
        cases h
        subst hname
        right
        refine ⟨by simp, by simp, ?_⟩
        simpa using Reducer.onMessageDelta_counted reducer root
      split at h
      next hname =>
        obtain ⟨ended, hended, h⟩ := bind_eq_ok.mp h
        cases h
        subst hname
        left
        simpa using Reducer.onMessageStop_step hended
      next hblock hdelta _ husage _ =>
        cases h
        left
        rw [if_neg hblock, if_neg hdelta, if_neg husage]
        refine ⟨by simp, Reducer.Step.unheard none ?_⟩
        intro _ _ hspoken
        cases hspoken

theorem decodeAll_cons {reader : PayloadReader} {reducer last : Reducer} {data : String}
    {payloads : List String} {events : List Event}
    (h : decodeAll reader reducer (data :: payloads) = .ok (last, events)) :
    ∃ next rest,
      Reducer.decode reader { reducer with draft := reducer.draft.clearEvents } data =
        .ok (next, none) ∧
      decodeAll reader next payloads = .ok (last, rest) ∧
      events = next.draft.events.filterMap next.draft.event ++ rest := by
  unfold decodeAll at h
  split at h
  · cases h
  · cases h
  next next hdecode =>
    cases hrest : decodeAll reader next payloads with
    | error failure =>
      rw [hrest] at h
      cases h
    | ok rest =>
      rw [hrest] at h
      cases h
      exact ⟨next, rest.2, hdecode, hrest, rfl⟩

theorem decodeAll_append {reader : PayloadReader} {reducer last : Reducer}
    {payloads more : List String} {events : List Event}
    (h : decodeAll reader reducer (payloads ++ more) = .ok (last, events)) :
    ∃ before earlier later, decodeAll reader reducer payloads = .ok (before, earlier) ∧
      decodeAll reader before more = .ok (last, later) ∧ events = earlier ++ later := by
  induction payloads generalizing reducer events with
  | nil => exact ⟨reducer, [], events, rfl, h, rfl⟩
  | cons data payloads ih =>
    obtain ⟨next, rest, hdecode, hrest, rfl⟩ := decodeAll_cons h
    obtain ⟨before, earlier, later, hbefore, hlater, rfl⟩ := ih hrest
    refine ⟨before, _, later, ?_, hlater, (List.append_assoc ..).symm⟩
    unfold decodeAll
    rw [hdecode]
    simp only [hbefore]
    rfl

end Yuke.Ai.AnthropicStream
