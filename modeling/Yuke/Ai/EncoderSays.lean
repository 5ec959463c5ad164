import Yuke.Ai.EncoderNew
import Yuke.Ai.Wire.AnthropicSays
import Yuke.Ai.Wire.OpenaiChatSays
import Yuke.Ai.Wire.OpenaiResponsesSays

/-!
# What a request body says

The body is one object. Its last member is the array of the context, with the values of the groups of
blocks in order.
-/

set_option autoImplicit false

namespace Yuke.Ai

open Yuke.Shared

def Protocol.arrayName : Protocol → String
  | .anthropicMessages | .openaiChat => "messages"
  | .openaiResponses => "input"

def headMembers (target : Target) (request : Request) : JsonMembers :=
  match target.wire with
  | .anthropicMessages wire => Anthropic.headMembers target wire request
  | .openaiChat wire => OpenaiChat.headMembers target wire request
  | .openaiResponses wire => OpenaiResponses.headMembers target wire request

def headValues (target : Target) (request : Request) : List Json :=
  match target.wire with
  | .openaiChat _ => OpenaiChat.systemValues request.system
  | .anthropicMessages _ | .openaiResponses _ => []

def groupEnd (target : Target) (blocks : List Block) (start : Nat) : Nat :=
  match target.wire with
  | .anthropicMessages _ => Anthropic.groupEnd blocks start
  | .openaiChat _ => OpenaiChat.groupEnd blocks start
  | .openaiResponses _ => OpenaiResponses.groupEnd target blocks start

/-- The elements of the group of blocks that starts at `start`. -/
def groupValues (target : Target) (request : Request) (start : Nat) (marker : Option Nat) :
    Except EncodeError (List Json) :=
  match target.wire with
  | .anthropicMessages _ => Anthropic.groupValues target request start marker
  | .openaiChat wire => OpenaiChat.groupValues target wire request start
  | .openaiResponses _ => OpenaiResponses.groupValues target request start marker

theorem lt_groupEnd (target : Target) {blocks : List Block} {start : Nat}
    (h : start < blocks.length) : start < groupEnd target blocks start := by
  unfold groupEnd
  cases target.wire with
  | anthropicMessages wire => exact Anthropic.lt_groupEnd h
  | openaiChat wire => exact OpenaiChat.lt_groupEnd h
  | openaiResponses wire => exact OpenaiResponses.lt_groupEnd target h

/-- The elements of the groups from `start`, in order. -/
def valuesFrom (target : Target) (request : Request) (marker : Option Nat) (start : Nat) :
    Except EncodeError (List Json) :=
  if _h : start < request.blocks.length then
    both (groupValues target request start marker)
      (valuesFrom target request marker (groupEnd target request.blocks start))
  else .ok []
termination_by request.blocks.length - start
decreasing_by
  have hlt := lt_groupEnd target _h
  omega

def contextValues (target : Target) (request : Request) : Except EncodeError (List Json) :=
  valuesFrom target request (cacheIndex target.wire request.cacheableBlocks) 0

/-- The body with the context elements `items`. -/
def bodyValue (target : Target) (request : Request) (items : List Json) : Json :=
  .object (headMembers target request ++
    [field target.wire.protocol.arrayName (.array (headValues target request ++ items))])

/-! ## The writes -/

theorem bind_assoc {α β γ : Type} (write : Write α) (next : α → Write β) (last : β → Write γ) :
    (write >>= next) >>= last = write >>= fun a => next a >>= last := by
  funext comma
  dsimp only [bind, instMonadWrite]
  cases h : (write comma).result with
  | error error => rfl
  | ok a =>
    dsimp only
    cases h' : (next a (write comma).comma).result with
    | error error => rfl
    | ok b => simp

theorem opens_bind {β γ : Type} {name : String} {members : JsonMembers} {first : List Json}
    {write : Write β} {value : β} (next : γ) (h : OpensObject name members first write value) :
    OpensObject name members first (write >>= fun _ => pure next) next := by
  obtain ⟨rest, rfl, hrest⟩ := h
  refine ⟨rest >>= fun _ => pure next, bind_assoc .., fun comma => ?_⟩
  obtain ⟨hok, hclose⟩ := hrest comma
  have hwhole : (rest >>= fun _ => (pure next : Write γ)) comma =
      ⟨.ok next, (rest comma).text ++ [], (rest comma).comma⟩ := bind_ok hok
  rw [hwhole]
  refine ⟨rfl, ?_⟩
  rw [List.append_nil]
  exact hclose

theorem opens_writeHead (target : Target) {request : Request} (hraw : RawJson request)
    (htemperature : ∀ float ∈ request.settings.temperature, float.isFinite = true)
    (htopP : ∀ float ∈ request.settings.topP, float.isFinite = true) :
    OpensObject target.wire.protocol.arrayName (headMembers target request)
      (headValues target request) (writeHead target request)
      (!(headValues target request).isEmpty) := by
  unfold headMembers headValues writeHead
  cases target.wire with
  | anthropicMessages wire =>
    exact opens_bind false (Anthropic.opens_writeHead target wire hraw htemperature htopP)
  | openaiChat wire =>
    have hflag : (!(OpenaiChat.systemValues request.system).isEmpty) = !request.system.isEmpty := by
      unfold OpenaiChat.systemValues
      cases request.system.isEmpty with
      | true => rfl
      | false => rfl
    dsimp only
    rw [hflag]
    exact OpenaiChat.opens_writeHead target wire hraw htemperature htopP
  | openaiResponses wire =>
    exact opens_bind false (OpenaiResponses.opens_writeHead target wire hraw htemperature htopP)

/-- The writer holds the elements `items`. -/
def Held (jw : JsonWriter) (items : List Json) : Prop :=
  items = [] ∧ jw = ⟨[], false⟩ ∨ Json.Elements jw.out items ∧ jw.comma = true

/-- The outcome of writes after the elements `items`. -/
def Holds {β : Type} (items : List Json) (outcome : Except EncodeError β) (jw : JsonWriter)
    (value : β) : Except EncodeError (List Json) → Prop
  | .error error => outcome = .error error
  | .ok values => outcome = .ok value ∧ Held jw (items ++ values)

theorem Held.items {jw : JsonWriter} {items : List Json} (h : Held jw items) :
    Items jw.out items := by
  rcases h with ⟨hitems, rfl⟩ | ⟨helements, -⟩
  · exact .inl ⟨hitems, rfl⟩
  · exact .inr helements

theorem SaysGroup.run {write : Write Nat} {result : Except EncodeError (List Json)} {stop : Nat}
    (h : SaysGroup write result stop) {jw : JsonWriter} {items : List Json} (hheld : Held jw items) :
    Holds items (jw.run write).1 (jw.run write).2 stop result := by
  obtain ⟨body, rfl, hbody⟩ := h
  have htold := hbody jw.comma
  unfold JsonWriter.run
  cases result with
  | error error => exact bind_error htold
  | ok values =>
    obtain ⟨hok, hwritten⟩ := htold
    have hwhole : (body >>= fun _ => (pure stop : Write Nat)) jw.comma =
        ⟨.ok stop, (body jw.comma).text ++ [], (body jw.comma).comma⟩ := bind_ok hok
    rw [hwhole, List.append_nil]
    refine ⟨rfl, ?_⟩
    rcases hwritten with ⟨rfl, htext, hcomma⟩ | ⟨text, hreads, htext, hcomma⟩
    · rw [htext, hcomma, List.append_nil, List.append_nil]
      exact hheld
    · rw [htext, hcomma]
      rcases hheld with ⟨rfl, rfl⟩ | ⟨helements, hjw⟩
      · exact .inr ⟨hreads, rfl⟩
      · refine .inr ⟨?_, rfl⟩
        rw [hjw]
        exact helements.append hreads

section Groups

variable {isJson : String → Bool}
  (hjson : ∀ text, isJson text = true ↔ (Json.parse text.toList).isSome)
  (target : Target) {request : Request} (hraw : RawJson request)
include hjson hraw

theorem says_writeGroup (start : Nat) (marker : Option Nat) :
    SaysGroup (writeGroup isJson target request start marker)
      (groupValues target request start marker) (groupEnd target request.blocks start) := by
  unfold writeGroup groupValues groupEnd
  cases hwire : target.wire with
  | anthropicMessages wire => exact Anthropic.says_writeGroup hjson target request start marker
  | openaiChat wire =>
    have htarget : target.wire.protocol = .openaiChat := by rw [hwire]; rfl
    exact OpenaiChat.says_writeGroup hjson htarget wire hraw start
  | openaiResponses wire => exact OpenaiResponses.says_writeGroup hjson target hraw start marker

theorem holds_writeGroups (marker : Option Nat) (fuel start : Nat) (elements : List Element)
    {jw : JsonWriter} {items : List Json} (hfuel : request.blocks.length - start ≤ fuel)
    (hheld : Held jw items) :
    Holds items (Encoder.writeGroups isJson target request marker fuel start elements jw).1
      (Encoder.writeGroups isJson target request marker fuel start elements jw).2.2 ()
      (valuesFrom target request marker start) := by
  induction fuel generalizing start elements jw items with
  | zero =>
    rw [valuesFrom, dif_neg (by omega)]
    exact ⟨rfl, by rwa [List.append_nil]⟩
  | succ fuel ih =>
    by_cases hlt : start < request.blocks.length
    · have hgroup := (says_writeGroup hjson target hraw start marker).run hheld
      have hend := lt_groupEnd target hlt
      rw [valuesFrom, dif_pos hlt]
      unfold Encoder.writeGroups
      rw [if_pos hlt]
      dsimp only
      generalize jw.run (writeGroup isJson target request start marker) = ran at hgroup ⊢
      obtain ⟨outcome, jw'⟩ := ran
      cases hvalues : groupValues target request start marker with
      | error error =>
        rw [hvalues] at hgroup
        cases hgroup
        rfl
      | ok values =>
        rw [hvalues] at hgroup
        obtain ⟨rfl, hheld'⟩ := hgroup
        have hrest := ih (groupEnd target request.blocks start)
          (if jw'.out.length = jw.out.length then elements else elements ++ [⟨start, jw.out.length⟩])
          (by omega) hheld'
        cases hmore : valuesFrom target request marker (groupEnd target request.blocks start) with
        | error error =>
          rw [hmore] at hrest
          exact hrest
        | ok more =>
          rw [hmore] at hrest
          obtain ⟨hdone, hheld''⟩ := hrest
          rw [List.append_assoc] at hheld''
          exact ⟨hdone, hheld''⟩
    · rw [valuesFrom, dif_neg hlt]
      unfold Encoder.writeGroups
      rw [if_neg hlt]
      exact ⟨rfl, by rwa [List.append_nil]⟩

end Groups

theorem newBody_reads {isJson : String → Bool}
    (hjson : ∀ text, isJson text = true ↔ (Json.parse text.toList).isSome)
    (target : Target) {request : Request} (hraw : RawJson request)
    (htemperature : ∀ float ∈ request.settings.temperature, float.isFinite = true)
    (htopP : ∀ float ∈ request.settings.topP, float.isFinite = true) :
    (newBody isJson target request).map Json.parse =
      (contextValues target request).map fun items => some (bodyValue target request items) := by
  have hgroups := holds_writeGroups hjson target hraw
    (cacheIndex target.wire request.cacheableBlocks) request.blocks.length 0 [] (by omega)
    (.inl ⟨rfl, rfl⟩ : Held ⟨[], false⟩ [])
  unfold newBody newItems contextValues
  generalize Encoder.writeGroups isJson target request _ _ _ _ _ = written at hgroups ⊢
  obtain ⟨outcome, elements, jw⟩ := written
  cases hvalues : valuesFrom target request (cacheIndex target.wire request.cacheableBlocks) 0 with
  | error error =>
    rw [hvalues] at hgroups
    cases hgroups
    rfl
  | ok items =>
    rw [hvalues] at hgroups
    obtain ⟨rfl, hheld⟩ := hgroups
    obtain ⟨hok, hparse⟩ := (opens_writeHead target hraw htemperature htopP).parse hheld.items
    have hhead : headOf target request jw.out = (writeHead target request false).text ++
        joint (headValues target request) jw.out := by
      unfold headOf joint
      dsimp only
      rw [hok]
    change Except.ok (Json.parse (bodyOf target request jw.out)) = .ok _
    unfold bodyOf
    rw [hhead, hparse]
    rfl

end Yuke.Ai
