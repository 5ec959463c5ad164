import Yuke.Ai.EncoderKeep
import Yuke.Ai.EncoderText
import Yuke.Ai.Reply
import Yuke.Ai.Stream.AnthropicUsage
import Yuke.Shared.Log

/-!
# The text of an Anthropic answer

A text block of the stream is a text of the completed answer, also when it got no text. The answer
goes back to the provider with that text.
-/

set_option autoImplicit false

namespace Yuke.Ai.AnthropicStream

open Yuke.Shared

abbrev Told := Option (Nat × String) × Option (Nat × String)

def tell (reader : PayloadReader) (data : String) : Told := (textStart reader data, textDelta reader data)

/-- The text block `index` got a text that is not empty. -/
def Spoken (told : List Told) (index : Nat) : Prop :=
  ∃ one ∈ told, ∃ text, text ≠ "" ∧ (one.1 = some (index, text) ∨ one.2 = some (index, text))

/-- The payloads start the text block `index`. -/
def Begun (told : List Told) (index : Nat) : Prop := ∃ one ∈ told, ∃ text, one.1 = some (index, text)

def EachTextSpoken (reader : PayloadReader) (payloads : List String) : Prop :=
  ∀ index, Begun (payloads.map (tell reader)) index → Spoken (payloads.map (tell reader)) index

theorem spoken_append (told : List Told) (one : Told) (index : Nat) :
    Spoken (told ++ [one]) index ↔ Spoken told index ∨
      ∃ text, text ≠ "" ∧ (one.1 = some (index, text) ∨ one.2 = some (index, text)) := by
  unfold Spoken
  constructor
  · rintro ⟨found, hfound, hsaid⟩
    rcases List.mem_append.mp hfound with hfound | hfound
    · exact .inl ⟨found, hfound, hsaid⟩
    · obtain rfl := List.mem_singleton.mp hfound
      exact .inr hsaid
  · rintro (⟨found, hfound, hsaid⟩ | hsaid)
    · exact ⟨found, List.mem_append_left _ hfound, hsaid⟩
    · exact ⟨one, List.mem_append_right _ List.mem_cons_self, hsaid⟩

theorem begun_append (told : List Told) (one : Told) (index : Nat) :
    Begun (told ++ [one]) index ↔ Begun told index ∨ ∃ text, one.1 = some (index, text) := by
  unfold Begun
  constructor
  · rintro ⟨found, hfound, hstart⟩
    rcases List.mem_append.mp hfound with hfound | hfound
    · exact .inl ⟨found, hfound, hstart⟩
    · obtain rfl := List.mem_singleton.mp hfound
      exact .inr hstart
  · rintro (⟨found, hfound, hstart⟩ | hstart)
    · exact ⟨found, List.mem_append_left _ hfound, hstart⟩
    · exact ⟨one, List.mem_append_right _ List.mem_cons_self, hstart⟩

/-! ## The parts of the blocks -/

def partText : Part → String
  | .open _ text => text
  | .stopped (.text text) => text
  | .stopped _ => ""

/-- The part of a block in its state. Only a text block becomes an answer text. -/
inductive Fits (block : DraftBlock) : Part → Prop where
  | «open» (text : String) (h : block.state = .open) : Fits block (.open block.kind text)
  | text (text : String) (h : block.state = .stopped) (hkind : block.kind = .text) :
      Fits block (.stopped (.text text))
  | reasoning (reasoning : Reasoning) (h : block.state = .stopped) (hkind : block.kind ≠ .text) :
      Fits block (.stopped (.reasoning reasoning))
  | toolCall (call : ToolCall) (h : block.state = .stopped) (hkind : block.kind ≠ .text) :
      Fits block (.stopped (.toolCall call))

/-- The slots name the blocks, and the part of a text block has text exactly when its slot got some. -/
structure Heard (told : List Told) (slots : List (Option BlockId)) (blocks : List DraftBlock)
    (parts : List Part) : Prop where
  length : parts.length = blocks.length
  slot_lt : ∀ (index : Nat) (id : Nat), slots[index]? = some (some id) → id < blocks.length
  slot_inj : ∀ (index index' : Nat) (id : Nat), slots[index]? = some (some id) →
    slots[index']? = some (some id) → index = index'
  slot_of : ∀ id < blocks.length, ∃ index : Nat, slots[index]? = some (some id)
  fits : ∀ (id : Nat) block part, blocks[id]? = some block → parts[id]? = some part →
    Fits block part ∧ block.kind ≠ .refusal
  begun : ∀ index : Nat, Begun told index ↔
    ∃ (id : Nat) (block : DraftBlock), slots[index]? = some (some id) ∧
      blocks[id]? = some block ∧ block.kind = .text
  spoken : ∀ (index : Nat) (id : Nat) (block : DraftBlock) part,
    slots[index]? = some (some id) → blocks[id]? = some block → block.kind = .text →
      parts[id]? = some part → (partText part ≠ "" ↔ Spoken told index)
  early : ∀ index, slots.length ≤ index → ¬Spoken told index

theorem heard_nothing : Heard [] [] [] [] where
  length := rfl
  slot_lt _ _ h := by cases h
  slot_inj _ _ _ h := by cases h
  slot_of _ h := absurd h (Nat.not_lt_zero _)
  fits _ _ _ h := by cases h
  begun index := by simp [Begun]
  spoken _ _ _ _ h := by cases h
  early index _ := by simp [Spoken]

section Steps

variable {told : List Told} {slots : List (Option BlockId)} {blocks : List DraftBlock}
  {parts : List Part} (h : Heard told slots blocks parts)
include h

theorem Heard.unheard (one : Told) (hstart : one.1 = none)
    (hdelta : ∀ (index : Nat) text, one.2 = some (index, text) → slots[index]? = some none) :
    Heard (told ++ [one]) slots blocks parts := by
  have hspoken : ∀ index : Nat, slots[index]? ≠ some none →
      (Spoken (told ++ [one]) index ↔ Spoken told index) := by
    intro index hslot
    rw [spoken_append]
    constructor
    · rintro (hsaid | ⟨text, -, hno | hsaid⟩)
      · exact hsaid
      · rw [hstart] at hno
        cases hno
      · exact absurd (hdelta index text hsaid) hslot
    · exact .inl
  refine ⟨h.length, h.slot_lt, h.slot_inj, h.slot_of, h.fits, ?_, ?_, ?_⟩
  · intro index
    rw [begun_append, ← h.begun index]
    constructor
    · rintro (hbegun | ⟨text, hno⟩)
      · exact hbegun
      · rw [hstart] at hno
        cases hno
    · exact .inl
  · intro index id block part hslot hblock hkind hpart
    rw [hspoken index (by rw [hslot]; simp)]
    exact h.spoken index id block part hslot hblock hkind hpart
  · intro index hindex
    have hnone : slots[index]? = none := List.getElem?_eq_none hindex
    rw [hspoken index (by rw [hnone]; simp)]
    exact h.early index hindex

theorem Heard.ignored : Heard told (slots ++ [none]) blocks parts := by
  have hslot : ∀ (index : Nat) (id : Nat),
      (slots ++ [none])[index]? = some (some id) ↔ slots[index]? = some (some id) := by
    intro index id
    rw [getElem?_snoc]
    constructor
    · rintro (hid | ⟨-, hno⟩)
      · exact hid
      · cases hno
    · exact .inl
  refine ⟨h.length, ?_, ?_, ?_, h.fits, ?_, ?_, ?_⟩
  · intro index id hid
    exact h.slot_lt index id ((hslot index id).mp hid)
  · intro index index' id hid hid'
    exact h.slot_inj index index' id ((hslot index id).mp hid) ((hslot index' id).mp hid')
  · intro id hid
    obtain ⟨index, hindex⟩ := h.slot_of id hid
    exact ⟨index, (hslot index id).mpr hindex⟩
  · intro index
    rw [h.begun index]
    simp only [hslot]
  · intro index id block part hid
    exact h.spoken index id block part ((hslot index id).mp hid)
  · intro index hindex
    apply h.early index
    simp only [List.length_append, List.length_cons, List.length_nil] at hindex
    omega

theorem Heard.restated {blocks' : List DraftBlock} {parts' : List Part}
    (hlength : blocks'.length = blocks.length) (hparts : parts'.length = parts.length)
    (hkinds : ∀ (id : Nat) block', blocks'[id]? = some block' →
      ∃ block, blocks[id]? = some block ∧ block'.kind = block.kind)
    (hfits : ∀ (id : Nat) block' part', blocks'[id]? = some block' → parts'[id]? = some part' →
      Fits block' part')
    (htexts : ∀ (id : Nat) block part part', blocks[id]? = some block → block.kind = .text →
      parts[id]? = some part → parts'[id]? = some part' → partText part' = partText part) :
    Heard told slots blocks' parts' := by
  have hpart : ∀ (id : Nat) (part' : Part), parts'[id]? = some part' →
      ∃ part, parts[id]? = some part := by
    intro id part' hpart'
    obtain ⟨hlt, -⟩ := List.getElem?_eq_some_iff.mp hpart'
    exact ⟨_, List.getElem?_eq_getElem (by omega)⟩
  have hblock : ∀ (id : Nat) (block : DraftBlock), blocks[id]? = some block →
      ∃ block', blocks'[id]? = some block' ∧ block'.kind = block.kind := by
    intro id block hblock
    obtain ⟨hlt, -⟩ := List.getElem?_eq_some_iff.mp hblock
    have hlt' : id < blocks'.length := by omega
    obtain ⟨found, hfound, hkind⟩ := hkinds id _ (List.getElem?_eq_getElem hlt')
    rw [hblock] at hfound
    cases hfound
    exact ⟨_, List.getElem?_eq_getElem hlt', hkind⟩
  refine ⟨by rw [hparts, hlength, h.length], ?_, h.slot_inj, ?_, ?_, ?_, ?_, h.early⟩
  · intro index id hid
    rw [hlength]
    exact h.slot_lt index id hid
  · intro id hid
    exact h.slot_of id (by omega)
  · intro id block' part' hblock' hpart'
    refine ⟨hfits id block' part' hblock' hpart', ?_⟩
    obtain ⟨block, hold, hkind⟩ := hkinds id block' hblock'
    obtain ⟨part, hpartOld⟩ := hpart id part' hpart'
    rw [hkind]
    exact (h.fits id block part hold hpartOld).2
  · intro index
    rw [h.begun index]
    constructor
    · rintro ⟨id, block, hid, hold, htext⟩
      obtain ⟨block', hnew, hkind⟩ := hblock id block hold
      exact ⟨id, block', hid, hnew, hkind.trans htext⟩
    · rintro ⟨id, block', hid, hnew, htext⟩
      obtain ⟨block, hold, hkind⟩ := hkinds id block' hnew
      exact ⟨id, block, hid, hold, hkind.symm.trans htext⟩
  · intro index id block' part' hid hnew htext hpart'
    obtain ⟨block, hold, hkind⟩ := hkinds id block' hnew
    obtain ⟨part, hpartOld⟩ := hpart id part' hpart'
    have hsame := htexts id block part part' hold (hkind.symm.trans htext) hpartOld hpart'
    rw [hsame]
    exact h.spoken index id block part hid hold (hkind.symm.trans htext) hpartOld

theorem Heard.started {block : DraftBlock} {text said : String} (hopen : block.state = .open)
    (hrefusal : block.kind ≠ .refusal) (hsaid : block.kind = .text → said = text) :
    Heard (told ++ [(if block.kind = .text then some (slots.length, text) else none, none)])
      (slots ++ [some blocks.length]) (blocks ++ [block]) (parts ++ [.open block.kind said]) := by
  have hslot : ∀ (index : Nat) (id : Nat), (slots ++ [some blocks.length])[index]? = some (some id) ↔
      slots[index]? = some (some id) ∨ index = slots.length ∧ id = blocks.length := by
    intro index id
    rw [getElem?_snoc, Option.some_inj, eq_comm (a := blocks.length)]
  have hstart : ∀ index : Nat, (∃ text',
      (if block.kind = .text then some (slots.length, text) else none) = some (index, text')) ↔
      block.kind = .text ∧ index = slots.length := by
    intro index
    split
    next htext => simp [htext, eq_comm]
    next htext => simp [htext]
  refine ⟨by simp [h.length], ?_, ?_, ?_, ?_, ?_, ?_, ?_⟩
  · intro index id hid
    rw [List.length_append, List.length_singleton]
    rcases (hslot index id).mp hid with hid | ⟨-, rfl⟩
    · exact Nat.lt_succ_of_lt (h.slot_lt index id hid)
    · exact Nat.lt_succ_self _
  · intro index index' id hid hid'
    rcases (hslot index id).mp hid with hid | ⟨rfl, rfl⟩
    · rcases (hslot index' id).mp hid' with hid' | ⟨rfl, rfl⟩
      · exact h.slot_inj index index' id hid hid'
      · exact absurd (h.slot_lt index _ hid) (Nat.lt_irrefl _)
    · rcases (hslot index' _).mp hid' with hid' | ⟨rfl, -⟩
      · exact absurd (h.slot_lt index' _ hid') (Nat.lt_irrefl _)
      · rfl
  · intro id hid
    rw [List.length_append, List.length_singleton] at hid
    rcases Nat.lt_succ_iff_lt_or_eq.mp hid with hid | rfl
    · obtain ⟨index, hindex⟩ := h.slot_of id hid
      exact ⟨index, (hslot index id).mpr (.inl hindex)⟩
    · exact ⟨slots.length, (hslot _ _).mpr (.inr ⟨rfl, rfl⟩)⟩
  · intro id found part hfound hpart
    rcases getElem?_snoc.mp hfound with hfound | ⟨rfl, rfl⟩
    · rcases getElem?_snoc.mp hpart with hpart | ⟨rfl, -⟩
      · exact h.fits id found part hfound hpart
      · have hlt := (List.getElem?_eq_some_iff.mp hfound).1
        rw [h.length] at hlt
        exact absurd hlt (Nat.lt_irrefl _)
    · rw [← h.length, List.getElem?_concat_length] at hpart
      cases hpart
      exact ⟨.open said hopen, hrefusal⟩
  · intro index
    rw [begun_append, hstart, h.begun index]
    constructor
    · rintro (⟨id, found, hid, hfound, hkind⟩ | ⟨hkind, rfl⟩)
      · refine ⟨id, found, (hslot index id).mpr (.inl hid), ?_, hkind⟩
        rw [List.getElem?_append_left (h.slot_lt index id hid)]
        exact hfound
      · exact ⟨blocks.length, block, (hslot _ _).mpr (.inr ⟨rfl, rfl⟩),
          List.getElem?_concat_length, hkind⟩
    · rintro ⟨id, found, hid, hfound, hkind⟩
      rcases (hslot index id).mp hid with hid | ⟨rfl, rfl⟩
      · rw [List.getElem?_append_left (h.slot_lt index id hid)] at hfound
        exact .inl ⟨id, found, hid, hfound, hkind⟩
      · rw [List.getElem?_concat_length] at hfound
        cases hfound
        exact .inr ⟨hkind, rfl⟩
  · intro index id found part hid hfound hkind hpart
    rw [spoken_append]
    rcases (hslot index id).mp hid with hid | ⟨rfl, rfl⟩
    · have hlt := h.slot_lt index id hid
      rw [List.getElem?_append_left hlt] at hfound
      rw [List.getElem?_append_left (by rw [h.length]; exact hlt)] at hpart
      rw [h.spoken index id found part hid hfound hkind hpart]
      constructor
      · exact .inl
      · rintro (hspoken | ⟨text', -, hno | hno⟩)
        · exact hspoken
        · have hindex := ((hstart index).mp ⟨text', hno⟩).2
          rw [hindex, List.getElem?_eq_none (Nat.le_refl _)] at hid
          cases hid
        · cases hno
    · rw [List.getElem?_concat_length] at hfound
      cases hfound
      rw [← h.length, List.getElem?_concat_length] at hpart
      cases hpart
      rw [if_pos hkind, partText, hsaid hkind]
      constructor
      · exact fun hsome => .inr ⟨text, hsome, .inl rfl⟩
      · rintro (hno | ⟨text', hsome, hsame | hno⟩)
        · exact absurd hno (h.early slots.length (Nat.le_refl _))
        · cases hsame
          exact hsome
        · cases hno
  · intro index hindex
    rw [List.length_append, List.length_singleton] at hindex
    rw [spoken_append]
    rintro (hno | ⟨text', -, hno | hno⟩)
    · exact h.early index (by omega) hno
    · have hequal := ((hstart index).mp ⟨text', hno⟩).2
      omega
    · cases hno

theorem Heard.said {index id : Nat} {block : DraftBlock} {text : String}
    (hslot : slots[index]? = some (some id)) (hblock : blocks[id]? = some block)
    (hopen : block.state = .open) :
    Heard (told ++ [(none, some (index, text))]) slots blocks (parts.modify id (.push text)) := by
  have hpart : ∀ (id' : Nat) part', (parts.modify id (Part.push text))[id']? = some part' →
      ∃ part, parts[id']? = some part ∧ part' = if id = id' then part.push text else part := by
    intro id' part' hpart'
    rw [List.getElem?_modify] at hpart'
    obtain ⟨part, hpart, rfl⟩ := Option.map_eq_some_iff.mp hpart'
    refine ⟨part, hpart, ?_⟩
    split
    · rfl
    · rfl
  refine ⟨by simp [h.length], h.slot_lt, h.slot_inj, h.slot_of, ?_, ?_, ?_, ?_⟩
  · intro id' block' part' hblock' hpart'
    obtain ⟨part, hold, rfl⟩ := hpart id' part' hpart'
    have hfits := h.fits id' block' part hblock' hold
    refine ⟨?_, hfits.2⟩
    split
    · cases hfits.1 with
      | «open» old hstate => exact .open _ hstate
      | text old hstate htext => exact .text _ hstate htext
      | reasoning reasoning hstate htext => exact .reasoning _ hstate htext
      | toolCall call hstate htext => exact .toolCall _ hstate htext
    · exact hfits.1
  · intro index'
    rw [begun_append, ← h.begun index']
    constructor
    · rintro (hbegun | ⟨text', hno⟩)
      · exact hbegun
      · cases hno
    · exact .inl
  · intro index' id' block' part' hslot' hblock' hkind' hpart'
    obtain ⟨part, hold, rfl⟩ := hpart id' part' hpart'
    have hspoken := h.spoken index' id' block' part hslot' hblock' hkind' hold
    rw [spoken_append, ← hspoken]
    split
    next hsame =>
      subst hsame
      rw [hblock] at hblock'
      cases hblock'
      have hfits := (h.fits id block part hblock hold).1
      cases hfits with
      | «open» old hstate =>
        simp only [Part.push, partText, ne_eq, String.append_eq_empty_iff]
        constructor
        · intro hsome
          by_cases hold : old = ""
          · right
            have hindex := h.slot_inj index index' id hslot hslot'
            exact ⟨text, fun htext => hsome ⟨hold, htext⟩, .inr (by rw [hindex])⟩
          · exact .inl hold
        · rintro (hsome | ⟨text', hsome, hno | htext⟩)
          · exact fun hno => hsome hno.1
          · cases hno
          · cases htext
            exact fun hno => hsome hno.2
      | text old hstate _ =>
        rw [hopen] at hstate
        cases hstate
      | reasoning reasoning hstate _ =>
        rw [hopen] at hstate
        cases hstate
      | toolCall call hstate _ =>
        rw [hopen] at hstate
        cases hstate
    next hother =>
      constructor
      · exact .inl
      · rintro (hsome | ⟨text', -, hno | htext⟩)
        · exact hsome
        · cases hno
        · cases htext
          rw [hslot] at hslot'
          cases hslot'
          exact absurd rfl hother
  · intro index' hindex
    rw [spoken_append]
    rintro (hno | ⟨text', -, hno | htext⟩)
    · exact h.early index' hindex hno
    · cases hno
    · cases htext
      rw [List.getElem?_eq_none hindex] at hslot
      cases hslot

theorem Heard.changed {id : Nat} {block : DraftBlock} (next : DraftBlock) (change : Part → Part)
    (hblock : blocks[id]? = some block) (hkind : next.kind = block.kind)
    (hfits : ∀ part, parts[id]? = some part → Fits next (change part))
    (htext : ∀ part, parts[id]? = some part → block.kind = .text →
      partText (change part) = partText part) :
    Heard told slots (blocks.set id next) (parts.modify id change) := by
  have hold : ∀ (id' : Nat) part', (parts.modify id change)[id']? = some part' →
      ∃ part, parts[id']? = some part ∧ part' = if id = id' then change part else part := by
    intro id' part' hpart'
    rw [List.getElem?_modify] at hpart'
    obtain ⟨part, hpart, rfl⟩ := Option.map_eq_some_iff.mp hpart'
    refine ⟨part, hpart, ?_⟩
    split
    · rfl
    · rfl
  apply h.restated
  · rw [List.length_set]
  · rw [List.length_modify]
  · intro id' block' hblock'
    rw [List.getElem?_set] at hblock'
    split at hblock'
    next hsame =>
      subst hsame
      split at hblock'
      · cases hblock'
        exact ⟨block, hblock, hkind⟩
      · cases hblock'
    · exact ⟨block', hblock', rfl⟩
  · intro id' block' part' hblock' hpart'
    obtain ⟨part, hpart, rfl⟩ := hold id' part' hpart'
    rw [List.getElem?_set] at hblock'
    split at hblock'
    next hsame =>
      subst hsame
      rw [if_pos rfl]
      split at hblock'
      · cases hblock'
        exact hfits part hpart
      · cases hblock'
    next hother =>
      rw [if_neg hother]
      exact (h.fits id' block' part hblock' hpart).1
  · intro id' block' part part' hblock' hkind' hpart hpart'
    obtain ⟨part'', hpart'', rfl⟩ := hold id' part' hpart'
    rw [hpart] at hpart''
    cases hpart''
    split
    next hsame =>
      subst hsame
      rw [hblock] at hblock'
      cases hblock'
      exact htext part hpart hkind'
    · rfl

end Steps

theorem openBlock_cleared {draft : Draft} {id : BlockId} {block : DraftBlock}
    (h : draft.clearEvents.openBlock id = .ok block) :
    draft.blocks[id]? = some block ∧ block.state = .open := Draft.openBlock_ok h

theorem Fits.of_open {block : DraftBlock} {part : Part} (h : Fits block part)
    (hopen : block.state = .open) : ∃ text, part = .open block.kind text := by
  cases h with
  | «open» text _ => exact ⟨text, rfl⟩
  | text _ hstate _ =>
    rw [hopen] at hstate
    cases hstate
  | reasoning _ hstate _ =>
    rw [hopen] at hstate
    cases hstate
  | toolCall _ hstate _ =>
    rw [hopen] at hstate
    cases hstate

theorem fits_stop {draft : Draft} {block : DraftBlock} (text : String)
    (hrefusal : block.kind ≠ .refusal) :
    Fits { block with state := .stopped }
        (Part.stop (draft.result { block with state := .stopped }) (.open block.kind text)) ∧
      (block.kind = .text →
        partText (Part.stop (draft.result { block with state := .stopped })
          (.open block.kind text)) = text) := by
  unfold Draft.result
  cases hkind : block.kind with
  | text => exact ⟨.text text rfl rfl, fun _ => rfl⟩
  | refusal => exact absurd hkind hrefusal
  | reasoning =>
    exact ⟨.reasoning _ rfl (fun hno => by cases hno), fun hno => by cases hno⟩
  | toolCall =>
    exact ⟨.toolCall _ rfl (fun hno => by cases hno), fun hno => by cases hno⟩

def endAfter (draft : Draft) (ended : End) : End :=
  if Pending.done ∈ draft.events then
    .done ⟨[], draft.finishReason, draft.rawFinishReason, draft.usage⟩
  else ended

theorem modify_snoc (parts : List Part) (part : Part) (change : Part → Part) :
    (parts ++ [part]).modify parts.length change = parts ++ [change part] := by
  induction parts with
  | nil => rfl
  | cons first parts ih =>
    rw [List.cons_append, List.length_cons, List.modify_succ_cons, ih]
    rfl

theorem keepAll_begun (draft : Draft) {block : DraftBlock} (text : String) (parts : List Part)
    (ended : End) (hrefusal : block.kind ≠ .refusal) :
    ∃ said, (block.kind = .text → said = text) ∧
      keepAll (parts, ended) ((Pending.started parts.length block.kind ::
        if text = "" then [] else [.delta parts.length block.kind text]).filterMap draft.event) =
          some (parts ++ [.open block.kind said], ended) := by
  by_cases hempty : text = ""
  · refine ⟨"", fun _ => hempty.symm, ?_⟩
    rw [if_pos hempty]
    rfl
  · rw [if_neg hempty]
    have hlt : parts.length < parts.length + 1 := Nat.lt_succ_self _
    cases hkind : block.kind with
    | text =>
      refine ⟨text, fun _ => rfl, ?_⟩
      simp [Draft.event, keepAll, keep, partAt, hlt, modify_snoc, Part.push]
    | refusal => exact absurd hkind hrefusal
    | reasoning =>
      refine ⟨text, fun _ => rfl, ?_⟩
      simp [Draft.event, keepAll, keep, partAt, hlt, modify_snoc, Part.push]
    | toolCall =>
      refine ⟨"", (fun hno => by cases hno), ?_⟩
      simp [Draft.event, keepAll, keep]

theorem decode_heard {reader : PayloadReader} {reducer next : Reducer} {data : String}
    {told : List Told} {parts : List Part} (ended : End)
    (hdecode : Reducer.decode reader { reducer with draft := reducer.draft.clearEvents } data =
      .ok (next, none))
    (h : Heard told reducer.slots reducer.draft.blocks parts) :
    ∃ parts', Heard (told ++ [tell reader data]) next.slots next.draft.blocks parts' ∧
      keepAll (parts, ended) (next.draft.events.filterMap next.draft.event) =
        some (parts', endAfter next.draft ended) ∧
      (.done ∈ next.draft.events → next.draft.anyOpen = false) := by
  unfold tell
  rcases decode_cases hdecode with ⟨-, hstep⟩ | ⟨hstart, hdelta, hcounted⟩
  · generalize textStart reader data = starts at hstep
    generalize textDelta reader data = spoken at hstep
    cases hstep with
    | ignored =>
      refine ⟨parts, ?_, rfl, fun hno => absurd hno List.not_mem_nil⟩
      exact (h.unheard (none, none) rfl (fun _ _ hno => by cases hno)).ignored
    | started block text hopen hrefusal =>
      obtain ⟨said, hsaid, hkeep⟩ := keepAll_begun
        { reducer.draft with
          blocks := reducer.draft.blocks ++ [block]
          events := [] ++ .started reducer.draft.blocks.length block.kind ::
            if text = "" then [] else [.delta reducer.draft.blocks.length block.kind text] }
        text parts ended hrefusal
      have hnot : Pending.done ∉ [] ++ Pending.started reducer.draft.blocks.length block.kind ::
          if text = "" then [] else [.delta reducer.draft.blocks.length block.kind text] := by
        split
        · simp
        · simp
      refine ⟨_, h.started hopen hrefusal hsaid, ?_, fun hno => absurd hno hnot⟩
      rw [h.length] at hkeep
      refine hkeep.trans ?_
      exact congrArg (fun ended => some (_, ended)) (if_neg hnot).symm
    | unheard spoken hspoken =>
      refine ⟨parts, ?_, rfl, fun hno => absurd hno List.not_mem_nil⟩
      exact h.unheard _ rfl hspoken
    | said index id block text hslot hblock =>
      obtain ⟨hblock, hopen⟩ := openBlock_cleared hblock
      have hlt : id < parts.length := by
        rw [h.length]
        exact (List.getElem?_eq_some_iff.mp hblock).1
      obtain ⟨hfits, hrefusal⟩ := h.fits id block _ hblock (List.getElem?_eq_getElem hlt)
      have hother : block.kind ≠ .text → Heard (told ++ [(none, none)]) reducer.slots
          reducer.draft.blocks parts :=
        fun _ => h.unheard _ rfl fun _ _ hno => by cases hno
      cases hkind : block.kind with
      | text =>
        refine ⟨parts.modify id (.push text), ?_, ?_, ?_⟩
        · rw [if_pos rfl]
          exact h.said hslot hblock hopen
        · simp [Draft.push, Draft.clearEvents, Draft.event, keepAll, keep, partAt, hlt, endAfter]
        · simp [Draft.push, Draft.clearEvents]
      | reasoning =>
        have htext : block.kind ≠ .text := by
          rw [hkind]
          exact BlockKind.noConfusion
        refine ⟨parts.modify id (.push text), ?_, ?_, ?_⟩
        · have hchanged := (hother htext).changed block (.push text) hblock rfl ?_ ?_
          · have hsame : reducer.draft.blocks.set id block = reducer.draft.blocks :=
              (List.getElem?_eq_some_iff.mp hblock).2 ▸ List.set_getElem_self _
            rw [hsame] at hchanged
            exact hchanged
          · intro part hpart
            obtain ⟨old, rfl⟩ := (h.fits id block part hblock hpart).1.of_open hopen
            exact .open _ hopen
          · exact fun _ _ hyes => absurd hyes htext
        · simp [Draft.push, Draft.clearEvents, Draft.event, keepAll, keep, partAt, hlt, endAfter]
        · simp [Draft.push, Draft.clearEvents]
      | toolCall =>
        refine ⟨parts, ?_, ?_, ?_⟩
        · rw [if_neg BlockKind.noConfusion]
          exact hother (by rw [hkind]; exact BlockKind.noConfusion)
        · simp [Draft.push, Draft.clearEvents, Draft.event, keepAll, keep, endAfter]
        · simp [Draft.push, Draft.clearEvents]
      | refusal => exact absurd hkind hrefusal
    | stated id block state events hblock hkind htext hopen hevents =>
      obtain ⟨hblock, hstate⟩ := openBlock_cleared hblock
      refine ⟨parts, ?_, ?_, ?_⟩
      · have hchanged := (h.unheard (none, none) rfl (fun _ _ hno => by cases hno)).changed
          state (fun part => part) hblock hkind ?_ ?_
        · have hsame : parts.modify id (fun part => part) = parts := List.modify_id id parts
          rw [hsame] at hchanged
          exact hchanged
        · intro part hpart
          obtain ⟨old, rfl⟩ := (h.fits _ block part hblock hpart).1.of_open hstate
          rw [← hkind]
          exact .open old hopen
        · exact fun _ _ _ => rfl
      · rcases hevents with rfl | ⟨fragment, rfl⟩
        · rfl
        · rfl
      · rcases hevents with rfl | ⟨fragment, rfl⟩
        · simp [Draft.clearEvents]
        · simp [Draft.clearEvents]
    | stopped id block hblock =>
      obtain ⟨hblock, hopen⟩ := openBlock_cleared hblock
      have hlt : id < reducer.draft.blocks.length := (List.getElem?_eq_some_iff.mp hblock).1
      have hpart : id < parts.length := by
        rw [h.length]
        exact hlt
      obtain ⟨hfits, hrefusal⟩ := h.fits id block _ hblock (List.getElem?_eq_getElem hpart)
      refine ⟨parts.modify id (.stop (reducer.draft.result { block with state := .stopped })),
        ?_, ?_, ?_⟩
      · apply (h.unheard (none, none) rfl (fun _ _ hno => by cases hno)).changed
          { block with state := .stopped } _ hblock rfl
        · intro part hfound
          obtain ⟨old, rfl⟩ := (h.fits id block part hblock hfound).1.of_open hopen
          exact (fits_stop old hrefusal).1
        · intro part hfound htext
          obtain ⟨old, rfl⟩ := (h.fits id block part hblock hfound).1.of_open hopen
          exact (fits_stop old hrefusal).2 htext
      · simp [Draft.push, Draft.clearEvents, Draft.setBlock, Draft.event, keepAll, keep, partAt, hlt,
          hpart, endAfter, Draft.result]
      · simp [Draft.push, Draft.clearEvents, Draft.setBlock]
    | ended hopen =>
      refine ⟨parts, h.unheard (none, none) rfl (fun _ _ hno => by cases hno), rfl, ?_⟩
      exact fun _ => hopen
  · have hnone : next.draft.events = [] := hcounted.events
    rw [hstart, hdelta, hcounted.slots, hcounted.blocks, endAfter, hnone]
    refine ⟨parts, h.unheard _ rfl (fun _ _ hno => by cases hno), ?_, fun hno => ?_⟩
    · rw [if_neg List.not_mem_nil]
      rfl
    · cases hno

theorem decodeAll_heard {reader : PayloadReader} {reducer last : Reducer} {payloads : List String}
    {events : List Event} {told : List Told} {parts : List Part} (ended : End)
    (hrun : decodeAll reader reducer payloads = .ok (last, events))
    (h : Heard told reducer.slots reducer.draft.blocks parts) :
    ∃ parts' ended', keepAll (parts, ended) events = some (parts', ended') ∧
      Heard (told ++ payloads.map (tell reader)) last.slots last.draft.blocks parts' := by
  induction payloads generalizing reducer events told parts ended with
  | nil =>
    cases hrun
    refine ⟨parts, ended, rfl, ?_⟩
    rw [List.map_nil, List.append_nil]
    exact h
  | cons data payloads ih =>
    obtain ⟨next, rest, hdecode, hrest, rfl⟩ := decodeAll_cons hrun
    obtain ⟨parts₁, hheard, hkeep, -⟩ := decode_heard ended hdecode h
    obtain ⟨parts₂, ended₂, hkeep₂, hheard₂⟩ := ih (endAfter next.draft ended) hrest hheard
    refine ⟨parts₂, ended₂, ?_, ?_⟩
    · rw [keepAll_append, hkeep]
      exact hkeep₂
    · rw [List.map_cons, List.append_cons]
      exact hheard₂

theorem answered_heard {reader : PayloadReader} {origin : Origin} {limits : ResponseLimits}
    {payloads : List String} {reducer : Reducer} {events : List Event}
    (h : Answered reader origin limits payloads reducer events) :
    ∃ parts completion, keepAll ([], .open) events = some (parts, .done completion) ∧
      Heard (payloads.map (tell reader)) reducer.slots reducer.draft.blocks parts ∧
      ∀ block ∈ reducer.draft.blocks, block.state ≠ .open := by
  obtain ⟨init, last, before, earlier, rfl, hbefore, hdecode, rfl, -, hdone⟩ := h.ends_last
  obtain ⟨parts, ended, hkeep, hheard⟩ := decodeAll_heard .open hbefore heard_nothing
  obtain ⟨parts', hheard', hkeep', hclosed⟩ := decode_heard ended hdecode hheard
  rw [endAfter, if_pos hdone] at hkeep'
  have hall : keepAll ([], .open)
      (earlier ++ reducer.draft.events.filterMap reducer.draft.event) = some (parts', .done
        ⟨[], reducer.draft.finishReason, reducer.draft.rawFinishReason, reducer.draft.usage⟩) := by
    rw [keepAll_append, hkeep]
    exact hkeep'
  refine ⟨parts', _, hall, ?_, ?_⟩
  · rw [List.map_append]
    exact hheard'
  · intro block hblock hstate
    have hany : reducer.draft.anyOpen = true :=
      List.any_eq_true.mpr ⟨block, hblock, by simpa using hstate⟩
    rw [hclosed hdone] at hany
    cases hany

theorem mem_complete {parts : List Part} {content : Content} :
    content ∈ complete parts ↔ .stopped content ∈ parts := by
  unfold complete
  rw [List.mem_filterMap]
  constructor
  · rintro ⟨part, hpart, hsome⟩
    cases part with
    | «open» kind text => cases hsome
    | stopped found =>
      cases hsome
      exact hpart
  · exact fun hpart => ⟨_, hpart, rfl⟩

theorem emptyText_complete {told : List Told} {slots : List (Option BlockId)}
    {blocks : List DraftBlock} {parts : List Part} (h : Heard told slots blocks parts)
    (hclosed : ∀ block ∈ blocks, block.state ≠ .open) :
    (∃ block ∈ (complete parts).map Content.toBlock, EmptyText block) ↔
      ∃ index, Begun told index ∧ ¬Spoken told index := by
  constructor
  · rintro ⟨block, hblock, hempty⟩
    obtain ⟨content, hcontent, rfl⟩ := List.mem_map.mp hblock
    obtain ⟨id, hid⟩ := List.mem_iff_getElem?.mp (mem_complete.mp hcontent)
    have hlt : id < blocks.length := by
      rw [← h.length]
      exact (List.getElem?_eq_some_iff.mp hid).1
    have hfound := List.getElem?_eq_getElem hlt
    obtain ⟨index, hslot⟩ := h.slot_of id hlt
    have hfits := (h.fits id _ _ hfound hid).1
    generalize hsame : Part.stopped content = part at hfits hid
    cases hfits with
    | «open» text _ => cases hsame
    | text text hstate hkind =>
      cases hsame
      have htext : text = "" := by
        rcases hempty with hno | hyes
        · cases hno
        · exact Block.assistantText.inj hyes
      refine ⟨index, (h.begun index).mpr ⟨id, _, hslot, hfound, hkind⟩, ?_⟩
      rw [← h.spoken index id _ _ hslot hfound hkind hid]
      exact not_not.mpr htext
    | reasoning reasoning _ _ =>
      cases hsame
      rcases hempty with hno | hno
      · cases hno
      · cases hno
    | toolCall call _ _ =>
      cases hsame
      rcases hempty with hno | hno
      · cases hno
      · cases hno
  · rintro ⟨index, hbegun, hsilent⟩
    obtain ⟨id, block, hslot, hfound, hkind⟩ := (h.begun index).mp hbegun
    have hlt : id < parts.length := by
      rw [h.length]
      exact (List.getElem?_eq_some_iff.mp hfound).1
    have hpart := List.getElem?_eq_getElem hlt
    rw [← h.spoken index id block _ hslot hfound hkind hpart] at hsilent
    have hfits := (h.fits id block _ hfound hpart).1
    generalize parts[id] = part at hfits hsilent hpart
    have hstate := hclosed block (List.mem_of_getElem? hfound)
    cases hfits with
    | «open» text hopen => exact absurd hopen hstate
    | text text _ _ =>
      obtain rfl : text = "" := not_not.mp hsilent
      refine ⟨_, List.mem_map.mpr ⟨.text "", ?_, rfl⟩, .inr rfl⟩
      exact mem_complete.mpr (List.mem_of_getElem? hpart)
    | reasoning reasoning _ hno => exact absurd hkind hno
    | toolCall call _ hno => exact absurd hkind hno

/-! ## The answer in a later request -/

def Trusted (digests : Digests) (calls : List Call) (call : Call) : Prop :=
  calls = [] ∨ NoCollision digests (call :: calls) ∧
    ∃ content, ∀ made ∈ call :: calls, ContentStore content made.request.blobs

theorem encoded_reads {digests : Digests}
    (hjson : ∀ text, digests.isJson text = true ↔ (Json.parse text.toList).isSome)
    {calls : List Call} {call : Call} (hraw : RawJson call.request)
    (htrusted : Trusted digests calls call) {encoded : Encoded}
    (h : (call.encode digests (afterCalls digests calls)).1 = .ok encoded) :
    ∃ request items, request.blocks = call.request.blocks ∧
      contextValues call.target request = .ok items ∧
      Json.parse encoded.body = some (bodyValue call.target request items) := by
  rcases htrusted with rfl | ⟨hno, content, hstores⟩
  · have hnew : newEncoded digests.isJson call.target call.credential call.request = .ok encoded := by
      rw [← Encoder.encode_new]
      exact h
    obtain ⟨items, hitems, hparse⟩ := newEncoded_reads hjson hraw hnew
    exact ⟨call.request, items, rfl, hitems, hparse⟩
  · have hfresh := (encode_run digests content calls call hno hstores encoded h).1
    have hnew : newEncoded digests.isJson call.target call.credential (call.resolved content) =
        .ok encoded := by
      rw [← Encoder.encode_new]
      exact hfresh
    obtain ⟨items, hitems, hparse⟩ := newEncoded_reads hjson
      (⟨hraw.tools, hraw.loaded, hraw.output, hraw.details⟩ : RawJson (call.resolved content)) hnew
    exact ⟨call.resolved content, items, rfl, hitems, hparse⟩

theorem writesEmptyText_iff {digests : Digests}
    (hjson : ∀ text, digests.isJson text = true ↔ (Json.parse text.toList).isSome)
    {calls : List Call} {call : Call} (hraw : RawJson call.request)
    (htrusted : Trusted digests calls call) {wire : AnthropicWire}
    (hwire : call.target.wire = .anthropicMessages wire) {encoded : Encoded}
    (h : (call.encode digests (afterCalls digests calls)).1 = .ok encoded) :
    WritesEmptyText encoded.body ↔ ∃ block ∈ call.request.blocks, EmptyText block := by
  obtain ⟨request, items, hblocks, hitems, hparse⟩ := encoded_reads hjson hraw htrusted h
  rw [← hblocks, ← emptyText_bodyValue hwire hitems]
  unfold WritesEmptyText
  constructor
  · rintro ⟨json, content, item, hjson, hcontent, hitem, hempty⟩
    rw [hparse] at hjson
    cases hjson
    exact ⟨content, item, hcontent, hitem, hempty⟩
  · rintro ⟨content, item, hcontent, hitem, hempty⟩
    exact ⟨_, content, item, hparse, hcontent, hitem, hempty⟩

namespace OneBlock

/-- The payload that starts a text block with `text`. -/
def start (text : String) : String :=
  "\x7b\"type\":\"content_block_start\",\"index\":0,\"content_block\":" ++
    "\x7b\"type\":\"text\",\"text\":\"" ++ text ++ "\"\x7d\x7d"

def stop : String := "\x7b\"type\":\"content_block_stop\",\"index\":0\x7d"

def payloads (text : String) : List String := [start text, stop, stopPayload]

def startRoot (text : String) : Value :=
  .object [("type", .string "content_block_start"), ("index", .integer 0),
    ("content_block", .object [("type", .string "text"), ("text", .string text)])]

def reader (text : String) : PayloadReader where
  blockDelta _ := none
  parse data :=
    if data = start text then some (startRoot text)
    else if data = stop then
      some (.object [("type", .string "content_block_stop"), ("index", .integer 0)])
    else if data = stopPayload then some (.object [("type", .string "message_stop")])
    else none

def ended : Reducer :=
  { (Reducer.new ⟨"m", ""⟩ {}) with
    slots := [some 0]
    draft := { (Reducer.new ⟨"m", ""⟩ {}).draft with
      blocks := [{ kind := .text, state := .stopped }]
      events := [.done]
      done := true } }

def events : List Event := [.blockStarted 0 .text, .blockStopped 0 .text, .done .unknown "" {}]

theorem answered_silent : Answered (reader "") ⟨"m", ""⟩ {} (payloads "") ended events where
  run := by rfl
  ended := rfl
  open_before init last before earlier hpayloads hrun := by
    obtain rfl : init = [start "", stop] := by
      have hdrop := congrArg List.dropLast hpayloads
      simpa [payloads] using hdrop.symm
    cases hrun
    rfl

def spokenEvents : List Event :=
  [.blockStarted 0 .text, .textDelta 0 "hi", .blockStopped 0 .text, .done .unknown "" {}]

theorem answered_spoken :
    Answered (reader "hi") ⟨"m", ""⟩ {} (payloads "hi") ended spokenEvents where
  run := by rfl
  ended := rfl
  open_before init last before earlier hpayloads hrun := by
    obtain rfl : init = [start "hi", stop] := by
      have hdrop := congrArg List.dropLast hpayloads
      simpa [payloads] using hdrop.symm
    cases hrun
    rfl

theorem spoken_hi : EachTextSpoken (reader "hi") (payloads "hi") := by
  rintro index ⟨one, hone, text, htext⟩
  refine ⟨one, hone, text, ?_, .inl htext⟩
  obtain ⟨data, hdata, rfl⟩ := List.mem_map.mp hone
  simp only [payloads, List.mem_cons, List.not_mem_nil, or_false] at hdata
  rcases hdata with rfl | rfl | rfl
  · have hstart : textStart (reader "hi") (start "hi") = some (0, "hi") := by rfl
    rw [tell, hstart] at htext
    cases htext
    decide
  · have hno : textStart (reader "hi") stop = none := by rfl
    rw [tell, hno] at htext
    cases htext
  · have hno : textStart (reader "hi") stopPayload = none := by rfl
    rw [tell, hno] at htext
    cases htext

def digests : Digests where
  ofBlock _ _ := 0
  ofKey _ := 0
  isJson text := (Json.parse text.toList).isSome

/-- A call that sends the context `blocks`. -/
def call (blocks : List Block) : Call :=
  ⟨⟨"m", { baseUrl := "https://h/v1" }, .anthropicMessages ⟨8, false⟩, false⟩, .none,
    { blocks := blocks }⟩

theorem rawJson_call (text : String) : RawJson (call [.assistantText text]).request := by
  refine ⟨?_, ?_, ?_, ?_⟩
  · exact fun tool htool => absurd htool List.not_mem_nil
  · exact fun result hresult => by cases List.mem_singleton.mp hresult
  · exact fun output houtput => absurd houtput (Option.not_mem_none output)
  · exact fun reasoning hreasoning => by cases List.mem_singleton.mp hreasoning

end OneBlock

/-- A completed answer goes back without an empty text block exactly when each of its text blocks got
a text, and the other blocks of the context are no empty texts. -/
theorem answer_sent_back {reader : PayloadReader} {origin : Origin} {limits : ResponseLimits}
    {payloads : List String} {reducer : Reducer} {events : List Event}
    (h : Answered reader origin limits payloads reducer events) {head : Head}
    (hstatus : head.status = 200) (body : List UInt8) (kind : ProviderKind) :
    ∃ completion, answerOf (.head head body kind) events = some (.ok completion) ∧
      ∀ (digests : Digests) (calls : List Call) (call : Call) (wire : AnthropicWire)
        (before after : List Block) (encoded : Encoded),
        (∀ text, digests.isJson text = true ↔ (Json.parse text.toList).isSome) →
        RawJson call.request → Trusted digests calls call →
        call.target.wire = .anthropicMessages wire →
        call.request.blocks = before ++ completion.intoBlocks ++ after →
        (call.encode digests (afterCalls digests calls)).1 = .ok encoded →
          (¬WritesEmptyText encoded.body ↔
            EachTextSpoken reader payloads ∧ ∀ block ∈ before ++ after, ¬EmptyText block) := by
  obtain ⟨parts, completion, hkeep, hheard, hclosed⟩ := answered_heard h
  refine ⟨_, answerOf_done hstatus body kind hkeep, ?_⟩
  intro digests calls call wire before after encoded hjson hraw htrusted hwire hblocks hencoded
  have hanswer := emptyText_complete hheard hclosed
  rw [writesEmptyText_iff hjson hraw htrusted hwire hencoded, hblocks]
  simp only [Completion.intoBlocks, List.mem_append] at hanswer ⊢
  constructor
  · intro hnone
    constructor
    · intro index hbegun
      by_contra hsilent
      obtain ⟨block, hblock, hempty⟩ := hanswer.mpr ⟨index, hbegun, hsilent⟩
      exact hnone ⟨block, .inl (.inr hblock), hempty⟩
    · intro block hblock hempty
      apply hnone
      rcases hblock with hblock | hblock
      · exact ⟨block, .inl (.inl hblock), hempty⟩
      · exact ⟨block, .inr hblock, hempty⟩
  · rintro ⟨hspoken, hothers⟩ ⟨block, hblock, hempty⟩
    rcases hblock with (hblock | hblock) | hblock
    · exact hothers block (.inl hblock) hempty
    · obtain ⟨index, hbegun, hsilent⟩ := hanswer.mp ⟨block, hblock, hempty⟩
      exact hsilent (hspoken index hbegun)
    · exact hothers block (.inr hblock) hempty

open OneBlock in
theorem answer_sent_back_spoken :
    ∃ completion, answerOf (.head ⟨200, none, none, none⟩ [] .providerFailed) spokenEvents =
        some (.ok completion) ∧
      ∃ encoded, ((call completion.intoBlocks).encode OneBlock.digests {}).1 = .ok encoded ∧
        ¬WritesEmptyText encoded.body := by
  obtain ⟨completion, hanswer, hback⟩ := answer_sent_back answered_spoken
    (rfl : (⟨200, none, none, none⟩ : Head).status = 200) [] .providerFailed
  have hsame : answerOf (.head ⟨200, none, none, none⟩ [] .providerFailed) spokenEvents =
      some (.ok ⟨[.text "hi"], .unknown, "", {}⟩) := by rfl
  rw [hsame] at hanswer
  cases hanswer
  refine ⟨_, hsame, ?_⟩
  change ∃ encoded, ((call [.assistantText "hi"]).encode OneBlock.digests {}).1 = .ok encoded ∧
    ¬WritesEmptyText encoded.body
  cases hencoded : ((call [.assistantText "hi"]).encode OneBlock.digests {}).1 with
  | error error => cases hencoded
  | ok encoded =>
    refine ⟨encoded, rfl, ?_⟩
    apply (hback OneBlock.digests [] (call [.assistantText "hi"]) ⟨8, false⟩ [] [] encoded
      (fun _ => Iff.rfl) (rawJson_call "hi") (.inl rfl) rfl rfl hencoded).mpr
    exact ⟨spoken_hi, fun block hno => absurd hno List.not_mem_nil⟩

open OneBlock in
/-- A text block without text goes back as an empty text block. -/
theorem silent_sent_back :
    Answered (reader "") ⟨"m", ""⟩ {} (payloads "") ended events ∧
      ∃ completion, answerOf (.head ⟨200, none, none, none⟩ [] .providerFailed) events =
        some (.ok completion) ∧
      ∃ encoded, ((call completion.intoBlocks).encode OneBlock.digests {}).1 = .ok encoded ∧
        WritesEmptyText encoded.body := by
  refine ⟨answered_silent, ⟨[.text ""], .unknown, "", {}⟩, rfl, ?_⟩
  change ∃ encoded, ((call [.assistantText ""]).encode OneBlock.digests {}).1 = .ok encoded ∧
    WritesEmptyText encoded.body
  cases hencoded : ((call [.assistantText ""]).encode OneBlock.digests {}).1 with
  | error error => cases hencoded
  | ok encoded =>
    refine ⟨encoded, rfl, ?_⟩
    have hiff := @writesEmptyText_iff OneBlock.digests (fun _ => Iff.rfl) [] (call [.assistantText ""])
      (rawJson_call "") (.inl rfl) ⟨8, false⟩ rfl encoded hencoded
    exact hiff.mpr ⟨.assistantText "", List.mem_cons_self, .inr rfl⟩

end Yuke.Ai.AnthropicStream
