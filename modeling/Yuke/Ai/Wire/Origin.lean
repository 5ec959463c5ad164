import Yuke.Ai.EncoderNew

/-!
# The origins of the replay data

A request carries replay data only to its own origin, in its own protocol. Thus a body does not
change with the data of other origins.
-/

set_option autoImplicit false

namespace Yuke.Ai

/-- The state belongs to another origin or another protocol than the ones of `target`. -/
def ReasoningReplay.Foreign (replay : ReasoningReplay) (target : Target) : Prop :=
  replay.origin ≠ Origin.of target ∨ replay.kind.protocol ≠ target.wire.protocol

inductive SameButForeign (target : Target) : Block → Block → Prop where
  | same (block : Block) : SameButForeign target block block
  | foreign (text : String) (replay : ReasoningReplay) (data : String)
    (hforeign : replay.Foreign target) :
    SameButForeign target (.reasoning ⟨text, some replay⟩)
      (.reasoning ⟨text, some { replay with data := data }⟩)

/-- The block without a state that `target` does not get. -/
def strip (target : Target) : Block → Block
  | .reasoning reasoning =>
    if (reasoning.replayTo target).isSome then .reasoning reasoning
    else .reasoning { reasoning with replay := none }
  | block => block

section Strip

variable {target : Target}

theorem replayTo_of_foreign {text : String} {replay : ReasoningReplay}
    (h : replay.Foreign target) : Reasoning.replayTo ⟨text, some replay⟩ target = none := by
  unfold Reasoning.replayTo
  refine if_neg ?_
  rintro ⟨horigin, hprotocol, -⟩
  rcases h with h | h
  · exact h (of_decide_eq_true horigin)
  · exact h hprotocol

theorem strip_eq {block block' : Block} (h : SameButForeign target block block') :
    strip target block = strip target block' := by
  cases h with
  | same => rfl
  | foreign text replay data hforeign =>
    have hforeign' : ReasoningReplay.Foreign { replay with data := data } target := hforeign
    simp only [strip, replayTo_of_foreign hforeign, replayTo_of_foreign hforeign']
    rfl

theorem map_strip_eq {blocks blocks' : List Block}
    (h : List.Forall₂ (SameButForeign target) blocks blocks') :
    blocks.map (strip target) = blocks'.map (strip target) := by
  induction h with
  | nil => rfl
  | cons hblock _ ih => rw [List.map_cons, List.map_cons, strip_eq hblock, ih]

theorem strip_reasoning (target : Target) (reasoning : Reasoning) :
    ∃ stripped, strip target (.reasoning reasoning) = .reasoning stripped ∧
      stripped.text = reasoning.text ∧ stripped.replayTo target = reasoning.replayTo target := by
  unfold strip
  dsimp only
  split
  · exact ⟨reasoning, rfl, rfl, rfl⟩
  · next hnone =>
    refine ⟨_, rfl, rfl, ?_⟩
    rw [Option.not_isSome_iff_eq_none.mp hnone]
    rfl

theorem strip_congr (target : Target) {β : Type} (read : Block → β)
    (h : ∀ reasoning stripped : Reasoning, stripped.text = reasoning.text →
      stripped.replayTo target = reasoning.replayTo target →
      read (.reasoning stripped) = read (.reasoning reasoning)) (block : Block) :
    read (strip target block) = read block := by
  cases block with
  | reasoning reasoning =>
    obtain ⟨stripped, hstrip, htext, hreplay⟩ := strip_reasoning target reasoning
    rw [hstrip]
    exact h reasoning stripped htext hreplay
  | userText | media | toolResult | assistantText | toolCall => rfl

theorem strip_role (block : Block) : (strip target block).role = block.role :=
  strip_congr target _ (fun _ _ _ _ => rfl) block

theorem writes_strip (block : Block) : writes target (strip target block) = writes target block :=
  strip_congr target _ (fun _ _ _ hreplay => congrArg Option.isSome hreplay) block

theorem forM_map {α β : Type} (f : α → β) (xs : List α) (write : β → Write Unit) :
    (xs.map f).forM write = xs.forM fun x => write (f x) := by
  induction xs with
  | nil => rfl
  | cons x xs ih => exact congrArg (fun rest => write (f x) >>= fun _ => rest) ih

theorem map_takeWhile (target : Target) (run : Block → Bool) (hrun : ∀ block, run (strip target block) = run block)
    (blocks : List Block) :
    (blocks.map (strip target)).takeWhile run = (blocks.takeWhile run).map (strip target) := by
  have hcomp : run ∘ strip target = run := funext hrun
  rw [List.takeWhile_map, hcomp]

theorem map_any (target : Target) (run : Block → Bool) (hrun : ∀ block, run (strip target block) = run block)
    (blocks : List Block) : (blocks.map (strip target)).any run = blocks.any run := by
  have hcomp : run ∘ strip target = run := funext hrun
  rw [List.any_map, hcomp]

theorem anthropic_writeBlock_strip (isJson : String → Bool) (request : Request)
    (blocks : List Block) (cache : Bool) (block : Block) :
    Anthropic.writeBlock isJson target { request with blocks := blocks } (strip target block) cache =
      Anthropic.writeBlock isJson target request block cache := by
  have hstrip : Anthropic.writeBlock isJson target request (strip target block) cache =
      Anthropic.writeBlock isJson target request block cache := by
    refine strip_congr target (fun block => Anthropic.writeBlock isJson target request block cache) ?_ block
    intro reasoning stripped htext hreplay
    simp only [Anthropic.writeBlock, Anthropic.writeReasoning, htext, hreplay]
  rw [← hstrip]
  cases strip target block <;> rfl

theorem anthropic_writeGroup_strip (isJson : String → Bool) (request : Request) (start : Nat)
    (marker : Option Nat) :
    Anthropic.writeGroup isJson target { request with blocks := request.blocks.map (strip target) }
      start marker = Anthropic.writeGroup isJson target request start marker := by
  have htake := fun role : Role => map_takeWhile target (fun block => decide (block.role = role))
    fun block => by rw [strip_role]
  unfold Anthropic.writeGroup Anthropic.writeMessage
  dsimp only
  rw [List.getElem?_map]
  cases request.blocks[start]? with
  | none => rfl
  | some first =>
    simp only [Option.map_some, strip_role, ← List.map_drop, htake,
      map_any target _ writes_strip, List.zipIdx_map, forM_map, Prod.map_fst, Prod.map_snd, id_eq,
      anthropic_writeBlock_strip, List.length_map]

theorem chat_runFrom_strip (target : Target) (run : Block → Bool)
    (hrun : ∀ block, run (strip target block) = run block) (blocks : List Block) (start : Nat) :
    OpenaiChat.runFrom (blocks.map (strip target)) start run =
      (OpenaiChat.runFrom blocks start run).map (strip target) := by
  unfold OpenaiChat.runFrom
  rw [← List.map_drop, map_takeWhile target run hrun]

theorem chat_writeUserMessage_strip (blobs : Option BlobStore) (results blocks : List Block) :
    OpenaiChat.writeUserMessage blobs (results.map (strip target)) (blocks.map (strip target)) =
      OpenaiChat.writeUserMessage blobs results blocks := by
  have hattachments : ∀ block, OpenaiChat.writeAttachments blobs (strip target block) =
      OpenaiChat.writeAttachments blobs block := strip_congr target _ fun _ _ _ _ => rfl
  have hpart : ∀ block, OpenaiChat.writeUserPart blobs (strip target block) =
      OpenaiChat.writeUserPart blobs block := strip_congr target _ fun _ _ _ _ => rfl
  unfold OpenaiChat.writeUserMessage
  simp only [forM_map, hattachments, hpart]

theorem filterMap_strip {β : Type} {read : Block → Option β}
    (hread : ∀ block, read (strip target block) = read block) (blocks : List Block) :
    (blocks.map (strip target)).filterMap read = blocks.filterMap read := by
  have hcomp : read ∘ strip target = read := funext hread
  rw [List.filterMap_map, hcomp]

theorem chat_writeReplay_strip (replay : ReasoningReplayMode) (blocks : List Block) :
    OpenaiChat.writeReplay target replay (blocks.map (strip target)) =
      OpenaiChat.writeReplay target replay blocks := by
  have htext : ∀ block, OpenaiChat.reasoningText? (strip target block) =
      OpenaiChat.reasoningText? block := strip_congr target _ fun _ _ htext _ => congrArg some htext
  have hdetail : ∀ block, OpenaiChat.hasDetail target (strip target block) =
      OpenaiChat.hasDetail target block :=
    strip_congr target _ fun _ _ _ hreplay => congrArg Option.isSome hreplay
  have hwrite : ∀ block, OpenaiChat.writeDetail target (strip target block) =
      OpenaiChat.writeDetail target block := by
    refine strip_congr target _ fun reasoning stripped _ hreplay => ?_
    simp only [OpenaiChat.writeDetail, hreplay]
  cases replay with
  | none => rfl
  | reasoningContent => simp only [OpenaiChat.writeReplay, filterMap_strip htext]
  | reasoningDetails =>
    simp only [OpenaiChat.writeReplay, map_any target _ hdetail, OpenaiChat.writeDetails, forM_map, hwrite]

theorem chat_writeAnswer_strip (isJson : String → Bool) (replay : ReasoningReplayMode)
    (run : List Block) :
    OpenaiChat.writeAnswer isJson target replay (run.map (strip target)) =
      OpenaiChat.writeAnswer isJson target replay run := by
  have htext : ∀ block, OpenaiChat.text? (strip target block) = OpenaiChat.text? block :=
    strip_congr target _ fun _ _ _ _ => rfl
  have hcall : ∀ block, OpenaiChat.isToolCall (strip target block) = OpenaiChat.isToolCall block :=
    strip_congr target _ fun _ _ _ _ => rfl
  have hwrite : ∀ block, OpenaiChat.writeCall isJson (strip target block) =
      OpenaiChat.writeCall isJson block := strip_congr target _ fun _ _ _ _ => rfl
  have hany := map_any target (fun block => (OpenaiChat.text? block).isSome ||
    OpenaiChat.isToolCall block) fun block => by rw [htext, hcall]
  unfold OpenaiChat.writeAnswer OpenaiChat.writeAssistantMessage OpenaiChat.writeContent
  simp only [hany, map_any target _ hcall, filterMap_strip htext, chat_writeReplay_strip,
    forM_map, hwrite]

theorem chat_writeGroup_strip (isJson : String → Bool) (wire : ChatWire) (request : Request)
    (start : Nat) :
    OpenaiChat.writeGroup isJson target wire
      { request with blocks := request.blocks.map (strip target) } start =
      OpenaiChat.writeGroup isJson target wire request start := by
  have hresult : ∀ block, OpenaiChat.toolResult? (strip target block) =
      OpenaiChat.toolResult? block := strip_congr target _ fun _ _ _ _ => rfl
  have hresultRun := chat_runFrom_strip target (fun block => (OpenaiChat.toolResult? block).isSome)
    fun block => congrArg Option.isSome (hresult block)
  have hmedia : ∀ block, OpenaiChat.hasMedia (strip target block) = OpenaiChat.hasMedia block :=
    strip_congr target _ fun _ _ _ _ => rfl
  have huserRun := chat_runFrom_strip target OpenaiChat.isUserPart
    (strip_congr target _ fun _ _ _ _ => rfl)
  have hrun := chat_runFrom_strip target (fun block => decide (block.role = .assistant))
    fun block => by rw [strip_role]
  have hnil : ([] : List Block) = [].map (strip target) := rfl
  unfold OpenaiChat.writeGroup OpenaiChat.writeResults
  dsimp only
  rw [List.getElem?_map]
  cases request.blocks[start]? with
  | none => rfl
  | some block =>
    cases block with
    | userText | media =>
      simp only [Option.map_some, strip, huserRun, List.length_map]
      rw [hnil, chat_writeUserMessage_strip]
      rfl
    | toolResult =>
      simp only [Option.map_some, strip, hresultRun, filterMap_strip hresult,
        List.length_map, map_any target _ hmedia]
      split
      · simp only [huserRun, chat_writeUserMessage_strip, List.length_map]
      · rw [hnil, chat_writeUserMessage_strip]
        rfl
    | assistantText | toolCall =>
      simp only [Option.map_some, strip, hrun, chat_writeAnswer_strip,
        List.length_map]
    | reasoning reasoning =>
      obtain ⟨stripped, hstrip, -, -⟩ := strip_reasoning target reasoning
      simp only [Option.map_some, hstrip, hrun, chat_writeAnswer_strip,
        List.length_map]

theorem responses_writeItem_strip (isJson : String → Bool) (request : Request) (blocks : List Block)
    (before : List Block) (block : Block) :
    OpenaiResponses.writeItem isJson target { request with blocks := blocks }
      (before.map (strip target)) (strip target block) =
      OpenaiResponses.writeItem isJson target request before block := by
  have hsearch : ∀ callId, OpenaiResponses.answersSearch (before.map (strip target)) callId =
      OpenaiResponses.answersSearch before callId := by
    intro callId
    have hcomp : OpenaiResponses.searchOf callId ∘ strip target = OpenaiResponses.searchOf callId :=
      funext (strip_congr target _ fun _ _ _ _ => rfl)
    unfold OpenaiResponses.answersSearch
    rw [← List.map_reverse, List.findSome?_map, hcomp]
  have hstrip : OpenaiResponses.writeItem isJson target request before (strip target block) =
      OpenaiResponses.writeItem isJson target request before block := by
    refine strip_congr target (OpenaiResponses.writeItem isJson target request before) ?_ block
    intro reasoning stripped htext hreplay
    simp only [OpenaiResponses.writeItem, htext, hreplay]
  rw [← hstrip]
  cases strip target block with
  | toolResult => simp only [OpenaiResponses.writeItem, hsearch]
  | userText | media | assistantText | reasoning | toolCall => rfl

theorem responses_writeGroup_strip (isJson : String → Bool) (request : Request) (start : Nat)
    (marker : Option Nat) :
    OpenaiResponses.writeGroup isJson target
      { request with blocks := request.blocks.map (strip target) } start marker =
      OpenaiResponses.writeGroup isJson target request start marker := by
  have hpart : ∀ block marked, OpenaiResponses.writePart request.blobs (strip target block) marked =
      OpenaiResponses.writePart request.blobs block marked := fun block marked =>
    strip_congr target (fun block => OpenaiResponses.writePart request.blobs block marked)
      (fun _ _ _ _ => rfl) block
  have hmessage : ∀ block, OpenaiResponses.inMessage (strip target block) =
      OpenaiResponses.inMessage block := strip_congr target _ fun _ _ _ _ => rfl
  have htake := fun role : Role => map_takeWhile target (OpenaiResponses.staysIn target role)
    fun block => by simp only [OpenaiResponses.staysIn, hmessage, strip_role, writes_strip]
  unfold OpenaiResponses.writeGroup OpenaiResponses.writeMessage
  dsimp only
  rw [List.getElem?_map]
  cases request.blocks[start]? with
  | none => rfl
  | some first =>
    simp only [Option.map_some, hmessage, strip_role, ← List.map_drop, htake,
      ← List.map_take, responses_writeItem_strip, List.length_map]
    rw [← List.map_cons]
    simp only [List.zipIdx_map, forM_map, Prod.map_fst, Prod.map_snd, id_eq, hpart]

theorem writeGroup_strip (isJson : String → Bool) (request : Request) (start : Nat)
    (marker : Option Nat) :
    writeGroup isJson target { request with blocks := request.blocks.map (strip target) } start
      marker = writeGroup isJson target request start marker := by
  unfold writeGroup
  split
  · exact anthropic_writeGroup_strip isJson request start marker
  · exact chat_writeGroup_strip isJson _ request start
  · exact responses_writeGroup_strip isJson request start marker

theorem writeGroups_strip (isJson : String → Bool) (request : Request) (marker : Option Nat)
    (fuel start : Nat) (elements : List Element) (jw : JsonWriter) :
    Encoder.writeGroups isJson target { request with blocks := request.blocks.map (strip target) }
      marker fuel start elements jw =
      Encoder.writeGroups isJson target request marker fuel start elements jw := by
  induction fuel generalizing start elements jw with
  | zero => rfl
  | succ fuel ih =>
    simp only [Encoder.writeGroups, List.length_map, writeGroup_strip, ih]

theorem rposition_strip (target : Target) (test : Block → Bool)
    (htest : ∀ block, test (strip target block) = test block) (blocks : List Block) :
    rposition test (blocks.map (strip target)) = rposition test blocks := by
  have hcomp : test ∘ strip target = test := funext htest
  unfold rposition
  rw [← List.map_reverse, List.findIdx?_map, hcomp, List.length_map]

theorem cacheIndex_strip (wire : Wire) (blocks : List Block) :
    cacheIndex wire (blocks.map (strip target)) = cacheIndex wire blocks := by
  have hanthropic := rposition_strip target Anthropic.cacheable
    (strip_congr target _ fun _ _ _ _ => rfl)
  have hresponses := rposition_strip target OpenaiResponses.cacheable
    (strip_congr target _ fun _ _ _ _ => rfl)
  unfold cacheIndex
  simp only [hanthropic, hresponses]

theorem newEncoded_strip (target : Target) (isJson : String → Bool) (credential : Credential) (request : Request) :
    newEncoded isJson target credential
      { request with blocks := request.blocks.map (strip target) } =
      newEncoded isJson target credential request := by
  have hblocks : ({ request with blocks := request.blocks.map (strip target) } : Request).cacheableBlocks
      = request.cacheableBlocks.map (strip target) := by
    simp only [Request.cacheableBlocks, List.length_map, List.map_take]
  have hitems : newItems isJson target { request with blocks := request.blocks.map (strip target) } =
      newItems isJson target request := by
    unfold newItems
    rw [hblocks, cacheIndex_strip, List.length_map, writeGroups_strip]
  unfold newEncoded newBody
  rw [hitems]
  rfl

end Strip

/-- Two contexts that differ only in the data of foreign states give the same request. -/
theorem foreign_replay_unseen (digests : Digests) (target : Target) (credential : Credential)
    (request : Request) (blocks blocks' : List Block)
    (h : List.Forall₂ (SameButForeign target) blocks blocks') :
    (Encoder.encode digests {} target credential { request with blocks := blocks }).1 =
      (Encoder.encode digests {} target credential { request with blocks := blocks' }).1 := by
  rw [Encoder.encode_new, Encoder.encode_new]
  have hstrip := newEncoded_strip target digests.isJson credential
    { request with blocks := blocks }
  have hstrip' := newEncoded_strip target digests.isJson credential
    { request with blocks := blocks' }
  rw [← hstrip, ← hstrip']
  dsimp only
  rw [map_strip_eq h]

/-- The signature of another model does not reach the request. -/
theorem foreign_replay_unseen_signature :
    let target : Target := ⟨"m", { baseUrl := "https://h/v1/" }, .anthropicMessages ⟨8, true⟩, false⟩
    let replay : ReasoningReplay := ⟨⟨"n", "https://h/v1"⟩, .anthropicSignature, "one"⟩
    let digests : Digests := ⟨fun _ _ => 0, fun _ => 0, fun _ => false⟩
    (Encoder.encode digests {} target .none
      { blocks := [.userText "a", .reasoning ⟨"t", some replay⟩] }).1 =
      (Encoder.encode digests {} target .none
        { blocks := [.userText "a", .reasoning ⟨"t", some { replay with data := "two" }⟩] }).1 :=
  foreign_replay_unseen _ _ _ { blocks := [] } _ _
    (.cons (.same _) (.cons (.foreign _ _ _ (.inl (by decide))) .nil))

end Yuke.Ai
