import Yuke.Ai.Encoder
import Yuke.Ai.Wire.Says

/-!
# Writes that keep their text

The element of a group depends on the blocks up to its end, on the settings of the element key, and on
the blobs that it reads. A store that answers more blobs does not change a write that succeeded.
-/

set_option autoImplicit false

namespace Yuke.Ai

open Yuke.Ai.Write

def Extends {α : Type} (write write' : Write α) : Prop :=
  ∀ comma a, (write comma).result = .ok a → write' comma = write comma

section Rules

variable {α β : Type}

theorem Extends.refl (write : Write α) : Extends write write := fun _ _ _ => rfl

theorem Extends.of_eq {write write' : Write α} (h : write = write') : Extends write write' :=
  h ▸ .refl write

theorem ok_of_bind {write : Write α} {next : α → Write β} {comma : Bool} {b : β}
    (h : ((write >>= next) comma).result = .ok b) :
    ∃ a, (write comma).result = .ok a ∧ (next a (write comma).comma).result = .ok b := by
  cases hfirst : (write comma).result with
  | error error =>
    rw [bind_error hfirst] at h
    cases h
  | ok a =>
    rw [bind_ok hfirst] at h
    exact ⟨a, rfl, h⟩

theorem Extends.bind {write write' : Write α} {next next' : α → Write β}
    (h : Extends write write') (hnext : ∀ a, Extends (next a) (next' a)) :
    Extends (write >>= next) (write' >>= next') := by
  intro comma b hok
  obtain ⟨a, hfirst, hsecond⟩ := ok_of_bind hok
  have hsame := h comma a hfirst
  have hfirst' : (write' comma).result = .ok a := by rw [hsame, hfirst]
  rw [bind_ok hfirst, bind_ok hfirst', hsame, hnext a _ b hsecond]

theorem Extends.then {write write' : Write Unit} {next next' : Write β} (h : Extends write write')
    (hnext : Extends next next') : Extends (write >>= fun _ => next) (write' >>= fun _ => next') :=
  h.bind fun _ => hnext

theorem extends_lift {value value' : Except EncodeError α} (h : ∀ a, value = .ok a → value' = .ok a) :
    Extends (lift value) (lift value') := by
  intro comma a hok
  have hvalue : value = .ok a := hok
  rw [hvalue, h a hvalue]

theorem extends_object {write write' : Write Unit} (h : Extends write write') :
    Extends (object write) (object write') :=
  (Extends.refl _).then (h.then (.refl _))

theorem extends_array {write write' : Write Unit} (h : Extends write write') :
    Extends (array write) (array write') :=
  (Extends.refl _).then (h.then (.refl _))

theorem extends_member (name : String) {write write' : Write Unit} (h : Extends write write') :
    Extends (member name write) (member name write') :=
  (Extends.refl _).then h

theorem extends_onlyIf {test test' : Bool} (htest : test = test') {write write' : Write Unit}
    (h : Extends write write') : Extends (onlyIf test write) (onlyIf test' write') := by
  subst htest
  unfold onlyIf
  split_ifs
  · exact h
  · exact .refl _

theorem extends_forM {xs : List α} {writes writes' : α → Write Unit}
    (h : ∀ x ∈ xs, Extends (writes x) (writes' x)) : Extends (xs.forM writes) (xs.forM writes') := by
  induction xs with
  | nil => exact .refl _
  | cons x xs ih =>
    have hfirst := h x List.mem_cons_self
    have hrest := ih fun y hy => h y (List.mem_cons_of_mem _ hy)
    exact hfirst.then hrest

end Rules

def Knows (blobs blobs' : Option BlobStore) : Prop :=
  ∀ blob data, readBlob blobs blob = .ok data → readBlob blobs' blob = .ok data

/-- The two requests have one element key, and agree on the first `bound` blocks and their marks. -/
structure Agrees (bound : Nat) (target target' : Target) (request request' : Request)
    (marker marker' : Option Nat) : Prop where
  key : elementKey target request = elementKey target' request'
  stores : Knows request.blobs request'.blobs
  blocks : request.blocks.take bound = request'.blocks.take bound
  marks : ∀ i < bound, (marker = some i ↔ marker' = some i)

section Runs

variable {blocks blocks' : List Block} {bound : Nat} (h : blocks.take bound = blocks'.take bound)
include h

theorem getElem?_agree {i : Nat} (hi : i < bound) : blocks[i]? = blocks'[i]? := by
  rw [← List.getElem?_take_of_lt hi, h, List.getElem?_take_of_lt hi]

theorem take_agree {i : Nat} (hi : i ≤ bound) : blocks.take i = blocks'.take i := by
  have htake := congrArg (List.take i) h
  rwa [List.take_take, List.take_take, Nat.min_eq_left hi] at htake

theorem run_agree {run : Block → Bool} {start : Nat}
    (hend : start + ((blocks.drop start).takeWhile run).length < bound) :
    (blocks'.drop start).takeWhile run = (blocks.drop start).takeWhile run := by
  have hdrop : (blocks.drop start).take (bound - start) = (blocks'.drop start).take (bound - start) := by
    rw [← List.drop_take, ← List.drop_take, h]
  have hwhile := congrArg (List.takeWhile run) hdrop
  rw [← List.take_takeWhile, ← List.take_takeWhile, List.take_of_length_le (by omega)] at hwhile
  have hlength := congrArg List.length hwhile
  rw [List.length_take] at hlength
  rw [hwhile, List.take_of_length_le (by omega)]

end Runs

section Keys

variable {bound : Nat} {target target' : Target} {request request' : Request}
  {marker marker' : Option Nat} (h : Agrees bound target target' request request' marker marker')
include h

theorem Agrees.protocol : target.wire.protocol = target'.wire.protocol :=
  congrArg ElementKey.protocol h.key

theorem Agrees.defers : defersTools request.tools = defersTools request'.tools :=
  congrArg ElementKey.defers h.key

theorem Agrees.replayTo (reasoning : Reasoning) :
    reasoning.replayTo target = reasoning.replayTo target' := by
  have horigin : Origin.of target = Origin.of target' := congrArg ElementKey.origin h.key
  unfold Reasoning.replayTo Origin.matches
  rw [horigin, h.protocol]

theorem Agrees.writes : writes target = writes target' := by
  funext block
  cases block with
  | reasoning reasoning => exact congrArg Option.isSome (h.replayTo reasoning)
  | userText | media | toolResult | assistantText | toolCall => rfl

theorem Agrees.marked {i : Nat} (hi : i < bound) :
    decide (marker = some i) = decide (marker' = some i) := decide_eq_decide.mpr (h.marks i hi)

end Keys

theorem Knows.lift {blobs blobs' : Option BlobStore} (h : Knows blobs blobs') (blob : Blob) :
    Extends (lift (readBlob blobs blob)) (lift (readBlob blobs' blob)) :=
  extends_lift (h blob)

namespace Anthropic

theorem extends_writeMedia {blobs blobs' : Option BlobStore} (h : Knows blobs blobs')
    (media : Media) (cache : Bool) :
    Extends (writeMedia blobs media cache) (writeMedia blobs' media cache) := by
  refine (Extends.refl _).bind fun blockType => extends_object ?_
  have hsource := extends_member "source" ((h.lift media.blob).bind fun data =>
    .refl (object (writeSource media data)))
  exact (Extends.refl _).then (hsource.then (.refl _))

section Group

variable {isJson : String → Bool} {bound : Nat} {target target' : Target}
  {request request' : Request} {marker marker' : Option Nat}
  (h : Agrees bound target target' request request' marker marker')
include h

theorem extends_writeBlock (block : Block) (cache : Bool) :
    Extends (writeBlock isJson target request block cache)
      (writeBlock isJson target' request' block cache) := by
  cases block with
  | userText | assistantText | toolCall => exact .refl _
  | media media => exact extends_writeMedia h.stores media cache
  | reasoning reasoning =>
    have hsame : writeReasoning target reasoning = writeReasoning target' reasoning := by
      unfold writeReasoning
      rw [h.replayTo]
    exact .of_eq hsame
  | toolResult result =>
    have hloaded : loadedTools request result = loadedTools request' result := by
      unfold loadedTools
      rw [h.defers]
    have hcontent : Extends (writeContent request result) (writeContent request' result) := by
      unfold writeContent
      rw [hloaded]
      split_ifs
      · exact .refl _
      · have hmedia := extends_forM fun media (_ : media ∈ result.media) =>
          extends_writeMedia h.stores media false
        exact extends_array ((Extends.refl _).then (hmedia.then (.refl _)))
    exact extends_object <| (Extends.refl _).then <| (Extends.refl _).then <|
      (extends_member "content" hcontent).then (.refl _)

theorem extends_writeMessage (role : Role) (run : List Block) (start : Nat)
    (hend : start + run.length ≤ bound) :
    Extends (writeMessage isJson target request role run start marker)
      (writeMessage isJson target' request' role run start marker') := by
  refine extends_onlyIf (by rw [h.writes]) (extends_object ((Extends.refl _).then ?_))
  refine extends_member "content" (extends_array (extends_forM fun entry hentry => ?_))
  have hlt : entry.2 < bound := by
    have hbounds := List.snd_lt_add_of_mem_zipIdx hentry
    omega
  rw [h.marked hlt]
  exact extends_writeBlock h entry.1 _

theorem extends_writeGroup {start stop : Nat} {comma : Bool}
    (hok : (writeGroup isJson target request start marker comma).result = .ok stop)
    (hstop : stop < bound) :
    writeGroup isJson target' request' start marker' comma =
      writeGroup isJson target request start marker comma := by
  unfold writeGroup at hok ⊢
  cases hfirst : request.blocks[start]? with
  | none =>
    rw [hfirst] at hok
    cases hok
    rw [← getElem?_agree h.blocks hstop, hfirst]
  | some first =>
    rw [hfirst] at hok
    dsimp only at hok
    obtain ⟨_, -, hend⟩ := ok_of_bind hok
    cases hend
    rw [← getElem?_agree h.blocks (by omega), hfirst]
    dsimp only
    rw [run_agree h.blocks hstop]
    exact ((extends_writeMessage h first.role _ start (by omega)).then (.refl _)) comma _ hok

end Group

end Anthropic

namespace OpenaiChat

theorem extends_writeMedia {blobs blobs' : Option BlobStore} (h : Knows blobs blobs')
    (media : Media) : Extends (writeMedia blobs media) (writeMedia blobs' media) := by
  unfold writeMedia
  cases media.kind with
  | image => exact (h.lift media.blob).bind fun _ => .refl _
  | audio => exact (h.lift media.blob).bind fun _ => .refl _
  | video => exact .refl _
  | pdf | text | other =>
    dsimp only
    split_ifs
    · exact .refl _
    · exact (h.lift media.blob).bind fun _ => .refl _

theorem extends_writeUserMessage {blobs blobs' : Option BlobStore} (h : Knows blobs blobs')
    (results blocks : List Block) :
    Extends (writeUserMessage blobs results blocks) (writeUserMessage blobs' results blocks) := by
  have hattachments : Extends (results.forM (writeAttachments blobs))
      (results.forM (writeAttachments blobs')) := by
    refine extends_forM fun block _ => ?_
    cases block with
    | toolResult result =>
      exact extends_forM fun media _ => (Extends.refl _).then (extends_writeMedia h media)
    | userText | media | assistantText | reasoning | toolCall => exact .refl _
  have hparts : Extends (blocks.forM (writeUserPart blobs)) (blocks.forM (writeUserPart blobs')) := by
    refine extends_forM fun block _ => ?_
    cases block with
    | media media => exact extends_writeMedia h media
    | userText | toolResult | assistantText | reasoning | toolCall => exact .refl _
  exact extends_object ((Extends.refl _).then
    (extends_member "content" (extends_array (hattachments.then hparts))))

theorem extends_writeResults {blobs blobs' : Option BlobStore} (h : Knows blobs blobs')
    (results users : List Block) :
    Extends (writeResults blobs results users) (writeResults blobs' results users) :=
  (Extends.refl _).then (extends_onlyIf rfl (extends_writeUserMessage h results users))

section Group

variable {isJson : String → Bool} {bound : Nat} {target target' : Target}
  {request request' : Request} {marker marker' : Option Nat}
  (h : Agrees bound target target' request request' marker marker')
include h

theorem writeAnswer_agree (replay : ReasoningReplayMode) (run : List Block) :
    writeAnswer isJson target replay run = writeAnswer isJson target' replay run := by
  have hdetail : writeDetail target = writeDetail target' := by
    funext block
    cases block with
    | reasoning reasoning => simp only [writeDetail, h.replayTo]
    | userText | media | toolResult | assistantText | toolCall => rfl
  have hany : hasDetail target = hasDetail target' := by
    funext block
    cases block with
    | reasoning reasoning => simp only [hasDetail, h.replayTo]
    | userText | media | toolResult | assistantText | toolCall => rfl
  unfold writeAnswer writeAssistantMessage writeReplay writeDetails
  rw [hdetail, hany]

theorem extends_writeGroup {wire wire' : ChatWire} (hwire : target.wire = .openaiChat wire)
    (hwire' : target'.wire = .openaiChat wire') {start stop : Nat} {comma : Bool}
    (hok : (writeGroup isJson target wire request start comma).result = .ok stop)
    (hstop : stop < bound) :
    writeGroup isJson target' wire' request' start comma =
      writeGroup isJson target wire request start comma := by
  have hmode : wire.reasoningReplay = wire'.reasoningReplay := by
    have hreplay := congrArg ElementKey.replay h.key
    unfold elementKey at hreplay
    rw [hwire, hwire'] at hreplay
    exact Option.some.inj hreplay
  unfold writeGroup at hok ⊢
  dsimp only at hok ⊢
  cases hfirst : request.blocks[start]? with
  | none =>
    rw [hfirst] at hok
    cases hok
    rw [← getElem?_agree h.blocks hstop, hfirst]
  | some first =>
    rw [hfirst] at hok
    have hstart : start ≤ stop → request'.blocks[start]? = some first := by
      intro hle
      rw [← getElem?_agree h.blocks (by omega), hfirst]
    cases first with
    | toolResult result =>
      dsimp only at hok
      obtain ⟨_, -, hend⟩ := ok_of_bind hok
      cases hend
      have hresults : runFrom request'.blocks start (fun block => (toolResult? block).isSome) =
          runFrom request.blocks start fun block => (toolResult? block).isSome := by
        refine run_agree h.blocks ?_
        unfold runFrom at hstop
        omega
      rw [hstart (by omega)]
      dsimp only
      rw [hresults]
      generalize runFrom request.blocks start (fun block => (toolResult? block).isSome) = results
        at hok hstop ⊢
      have husers : (if results.any hasMedia then
            runFrom request'.blocks (start + results.length) isUserPart else []) =
          if results.any hasMedia then
            runFrom request.blocks (start + results.length) isUserPart else [] := by
        split_ifs with hmedia
        · rw [if_pos hmedia] at hstop
          exact run_agree h.blocks hstop
        · rfl
      rw [husers]
      exact ((extends_writeResults h.stores results _).then (.refl _)) comma _ hok
    | userText | media =>
      dsimp only at hok
      obtain ⟨_, -, hend⟩ := ok_of_bind hok
      cases hend
      have hrun : runFrom request'.blocks start isUserPart =
          runFrom request.blocks start isUserPart := run_agree h.blocks hstop
      rw [hstart (by omega)]
      dsimp only
      rw [hrun]
      exact ((extends_writeUserMessage h.stores [] _).then (.refl _)) comma _ hok
    | assistantText | reasoning | toolCall =>
      dsimp only at hok
      obtain ⟨_, -, hend⟩ := ok_of_bind hok
      cases hend
      have hrun : runFrom request'.blocks start (fun block => block.role = .assistant) =
          runFrom request.blocks start fun block => block.role = .assistant :=
        run_agree h.blocks hstop
      rw [hstart (by omega)]
      dsimp only
      rw [hrun, ← hmode, ← writeAnswer_agree h]

end Group

end OpenaiChat

/-! ## OpenAI Responses -/

namespace OpenaiResponses

theorem extends_writeMedia {blobs blobs' : Option BlobStore} (h : Knows blobs blobs')
    (media : Media) : Extends (writeMedia blobs media) (writeMedia blobs' media) := by
  unfold writeMedia
  cases media.kind with
  | image => exact (h.lift media.blob).bind fun _ => .refl _
  | audio | video => exact .refl _
  | pdf | text | other =>
    dsimp only
    split_ifs
    · exact .refl _
    · exact (h.lift media.blob).bind fun _ => .refl _

theorem extends_writeMessage {blobs blobs' : Option BlobStore} (h : Knows blobs blobs') (role : Role)
    (run : List Block) (start : Nat) {marker marker' : Option Nat}
    (hmarks : ∀ i, i < start + run.length → decide (marker = some i) = decide (marker' = some i)) :
    Extends (writeMessage blobs role run start marker)
      (writeMessage blobs' role run start marker') := by
  refine extends_object ((Extends.refl _).then ((Extends.refl _).then ?_))
  refine extends_member "content" (extends_array (extends_forM fun entry hentry => ?_))
  have hlt := List.snd_lt_add_of_mem_zipIdx hentry
  rw [hmarks entry.2 (by omega)]
  cases entry.1 with
  | media media => exact extends_writeMedia h media
  | userText | assistantText | toolResult | reasoning | toolCall => exact .refl _

theorem extends_writeToolResult {blobs blobs' : Option BlobStore} (h : Knows blobs blobs')
    (result : ToolResult) :
    Extends (writeToolResult blobs result) (writeToolResult blobs' result) := by
  have houtput : Extends (writeOutput blobs result) (writeOutput blobs' result) := by
    unfold writeOutput
    split_ifs
    · exact .refl _
    · exact extends_array ((Extends.refl _).then (extends_forM fun media _ =>
        extends_writeMedia h media))
  exact extends_object <| (Extends.refl _).then <| (Extends.refl _).then <|
    extends_member "output" houtput

section Group

variable {isJson : String → Bool} {bound : Nat} {target target' : Target}
  {request request' : Request} {marker marker' : Option Nat}
  (h : Agrees bound target target' request request' marker marker')
include h

theorem extends_writeItem (before : List Block) (block : Block) :
    Extends (writeItem isJson target request before block)
      (writeItem isJson target' request' before block) := by
  cases block with
  | userText | assistantText | media => exact .refl _
  | reasoning reasoning =>
    refine .of_eq ?_
    unfold writeItem
    dsimp only
    rw [h.replayTo]
  | toolCall call =>
    refine .of_eq ?_
    unfold writeItem writeToolCall
    dsimp only
    rw [h.defers]
  | toolResult result =>
    unfold writeItem
    dsimp only
    rw [h.defers]
    split_ifs
    · exact .refl _
    · exact extends_writeToolResult h.stores result

theorem extends_writeGroup {start stop : Nat} {comma : Bool}
    (hok : (writeGroup isJson target request start marker comma).result = .ok stop)
    (hstop : stop < bound) :
    writeGroup isJson target' request' start marker' comma =
      writeGroup isJson target request start marker comma := by
  have hstays : staysIn target = staysIn target' := by
    funext role block
    unfold staysIn
    rw [h.writes]
  unfold writeGroup at hok ⊢
  cases hfirst : request.blocks[start]? with
  | none =>
    rw [hfirst] at hok
    cases hok
    rw [← getElem?_agree h.blocks hstop, hfirst]
  | some first =>
    rw [hfirst] at hok
    dsimp only at hok
    split_ifs at hok with hmessage
    · obtain ⟨_, -, hend⟩ := ok_of_bind hok
      cases hend
      rw [← getElem?_agree h.blocks (by omega), hfirst]
      dsimp only
      rw [if_pos hmessage, if_pos hmessage, ← hstays, run_agree h.blocks hstop]
      refine ((extends_writeMessage h.stores first.role _ start fun i hi => ?_).then (.refl _))
        comma _ hok
      refine h.marked ?_
      rw [List.length_cons] at hi
      omega
    · obtain ⟨_, -, hend⟩ := ok_of_bind hok
      cases hend
      rw [← getElem?_agree h.blocks (by omega), hfirst]
      dsimp only
      rw [if_neg hmessage, if_neg hmessage, ← take_agree h.blocks (by omega)]
      exact ((extends_writeItem h _ first).then (.refl _)) comma _ hok

end Group

end OpenaiResponses

theorem writeGroup_agree {isJson : String → Bool} {bound : Nat} {target target' : Target}
    {request request' : Request} {marker marker' : Option Nat}
    (h : Agrees bound target target' request request' marker marker') {start stop : Nat}
    {comma : Bool} (hok : (writeGroup isJson target request start marker comma).result = .ok stop)
    (hstop : stop < bound) :
    writeGroup isJson target' request' start marker' comma =
      writeGroup isJson target request start marker comma := by
  have hprotocol := h.protocol
  unfold writeGroup at hok ⊢
  cases hwire : target.wire with
  | anthropicMessages wire =>
    cases hwire' : target'.wire with
    | anthropicMessages wire' =>
      rw [hwire] at hok
      exact Anthropic.extends_writeGroup h hok hstop
    | openaiChat | openaiResponses => simp [hwire, hwire', Wire.protocol] at hprotocol
  | openaiChat wire =>
    cases hwire' : target'.wire with
    | openaiChat wire' =>
      rw [hwire] at hok
      exact OpenaiChat.extends_writeGroup h hwire hwire' hok hstop
    | anthropicMessages | openaiResponses => simp [hwire, hwire', Wire.protocol] at hprotocol
  | openaiResponses wire =>
    cases hwire' : target'.wire with
    | openaiResponses wire' =>
      rw [hwire] at hok
      exact OpenaiResponses.extends_writeGroup h hok hstop
    | anthropicMessages | openaiChat => simp [hwire, hwire', Wire.protocol] at hprotocol

def Tidy {β : Type} (write : Write β) : Prop :=
  ∀ comma b, (write comma).result = .ok b →
    (write comma).text = [] ∧ (write comma).comma = comma ∨
      (write comma).text ≠ [] ∧ (write comma).comma = true

section Tidy

variable {α β : Type}

theorem tidy_pure (b : β) : Tidy (pure b) := fun _ _ _ => .inl ⟨rfl, rfl⟩

theorem Tidy.bind {write : Write α} {next : α → Write β} (h : Tidy write)
    (hnext : ∀ a, Tidy (next a)) : Tidy (write >>= next) := by
  intro comma b hok
  obtain ⟨a, hfirst, hsecond⟩ := ok_of_bind hok
  rw [bind_ok hfirst]
  rcases hnext a _ b hsecond with ⟨htext', hcomma'⟩ | ⟨htext', hcomma'⟩
  · rw [htext', hcomma', List.append_nil]
    exact h comma a hfirst
  · exact .inr ⟨by simp [htext'], hcomma'⟩

theorem tidy_object (body : Write Unit) : Tidy (object body) := by
  intro comma b hok
  have hwrite : object body = enclosed '{' '}' body := rfl
  rw [hwrite] at hok ⊢
  cases hbody : (body false).result with
  | error error =>
    rw [enclosed_error hbody] at hok
    cases hok
  | ok _ =>
    rw [enclosed_ok hbody]
    exact .inr ⟨by simp, rfl⟩

theorem tidy_onlyIf (test : Bool) {write : Write Unit} (h : Tidy write) :
    Tidy (onlyIf test write) := by
  unfold onlyIf
  split_ifs
  · exact h
  · exact tidy_pure ()

theorem tidy_forM (xs : List α) {writes : α → Write Unit} (h : ∀ x, Tidy (writes x)) :
    Tidy (xs.forM writes) := by
  induction xs with
  | nil => exact tidy_pure _
  | cons x xs ih => exact (h x).bind fun _ => ih

end Tidy

theorem Anthropic.tidy_writeGroup (isJson : String → Bool) (target : Target) (request : Request)
    (start : Nat) (marker : Option Nat) :
    Tidy (Anthropic.writeGroup isJson target request start marker) := by
  unfold Anthropic.writeGroup
  cases request.blocks[start]? with
  | none => exact tidy_pure _
  | some first => exact (tidy_onlyIf _ (tidy_object _)).bind fun _ => tidy_pure _

theorem OpenaiChat.tidy_writeGroup (isJson : String → Bool) (target : Target) (wire : ChatWire)
    (request : Request) (start : Nat) :
    Tidy (OpenaiChat.writeGroup isJson target wire request start) := by
  have hresults : ∀ blobs results users, Tidy (OpenaiChat.writeResults blobs results users) :=
    fun blobs results users => (tidy_forM _ fun _ => tidy_object _).bind fun _ =>
      tidy_onlyIf _ (tidy_object _)
  unfold OpenaiChat.writeGroup
  dsimp only
  cases request.blocks[start]? with
  | none => exact tidy_pure _
  | some first =>
    cases first with
    | toolResult => exact (hresults _ _ _).bind fun _ => tidy_pure _
    | userText | media => exact (tidy_object _).bind fun _ => tidy_pure _
    | assistantText | reasoning | toolCall =>
      exact (tidy_onlyIf _ (tidy_object _)).bind fun _ => tidy_pure _

theorem OpenaiResponses.tidy_writeGroup (isJson : String → Bool) (target : Target)
    (request : Request) (start : Nat) (marker : Option Nat) :
    Tidy (OpenaiResponses.writeGroup isJson target request start marker) := by
  have hitem : ∀ before block, Tidy (OpenaiResponses.writeItem isJson target request before block) := by
    intro before block
    cases block with
    | userText | assistantText | media => exact tidy_pure _
    | reasoning reasoning =>
      unfold OpenaiResponses.writeItem ifSome
      dsimp only
      cases reasoning.replayTo target with
      | none => exact tidy_pure _
      | some replay => exact tidy_object _
    | toolCall call =>
      unfold OpenaiResponses.writeItem OpenaiResponses.writeToolCall
      dsimp only
      split_ifs
      · exact tidy_object _
      · exact tidy_object _
    | toolResult result =>
      unfold OpenaiResponses.writeItem
      dsimp only
      split_ifs
      · exact tidy_object _
      · exact tidy_object _
  unfold OpenaiResponses.writeGroup
  cases request.blocks[start]? with
  | none => exact tidy_pure _
  | some first =>
    dsimp only
    split_ifs
    · exact (tidy_object _).bind fun _ => tidy_pure _
    · exact (hitem _ _).bind fun _ => tidy_pure _

theorem tidy_writeGroup (isJson : String → Bool) (target : Target) (request : Request)
    (start : Nat) (marker : Option Nat) : Tidy (writeGroup isJson target request start marker) := by
  unfold writeGroup
  cases target.wire with
  | anthropicMessages wire => exact Anthropic.tidy_writeGroup isJson target request start marker
  | openaiChat wire => exact OpenaiChat.tidy_writeGroup isJson target wire request start
  | openaiResponses wire => exact OpenaiResponses.tidy_writeGroup isJson target request start marker

end Yuke.Ai
