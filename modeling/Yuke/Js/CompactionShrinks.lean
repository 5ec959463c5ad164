import Yuke.Js.CompactionKeeps

/-!
# When a compaction shrinks the context

A replacement keeps the newest input before the cut. So with only that input and the old summary
before the cut, it drops no exact block, and the next round can compact the same blocks again.
-/

set_option autoImplicit false

namespace Yuke.Js

open Yuke.Ai (Block)
open Yuke.Engine (Replaced)

namespace Compaction

def exactBlocks (context : List Block) : ℕ := context.length - covered context

/-- A compaction at `cut` drops a block that is neither the old summary nor of the newest input. -/
def DropsExact (context : List Block) (cut : ℕ) : Prop :=
  ∃ i < context.length, i ∉ keptPositions context cut ∧ covered context ≤ i ∧
    ¬ ∃ start stop, NewestInput context start stop ∧ start ≤ i ∧ i < stop

/-- A block lies between the old summary and the newest input, or an answer past the first block
after the newest input has `target` tokens from its start on. -/
def HasOldBlock (context : List Block) (tokens : List ℕ) (target : ℚ) : Prop :=
  ∀ start stop, NewestInput context start stop → covered context < start ∨
    ∃ index, stop < index ∧ Boundary context index ∧ target ≤ (tokens.drop index).sum

def HasOldBlockAt (event : RoundEvent) : Prop :=
  ∀ window, event.request.window = some window →
    HasOldBlock event.context event.tokens (targetOf window event.request.point)

variable {context : List Block} {tokens : List ℕ} {target : ℚ} {cut : ℕ}

theorem covered_le_one (context : List Block) : covered context ≤ 1 := by
  unfold covered
  split <;> omega

theorem NewestInput.covered_le {start stop : ℕ} (h : NewestInput context start stop) :
    covered context ≤ start := by
  rcases Nat.eq_zero_or_pos start with rfl | hpos
  · have hinput := h.input 0 le_rfl h.lt
    unfold covered
    split
    · next hsummary =>
      exfalso
      cases hfirst : context[0]? with
      | none =>
        rw [hfirst] at hinput
        cases hinput
      | some block =>
        rw [hfirst, Option.any_some] at hinput hsummary
        cases block with
        | userText text =>
          rw [isInput, hsummary] at hinput
          cases hinput
        | media | toolResult | assistantText | reasoning | toolCall => cases hsummary
    · exact le_rfl
  · have := covered_le_one context
    omega

theorem hasOldBlock_iff (hcut : Cut context tokens target cut) :
    HasOldBlock context tokens target ↔
      ∀ start stop, NewestInput context start stop → covered context < start ∨ stop < cut := by
  constructor
  · intro h start stop hinput
    rcases h start stop hinput with hbefore | ⟨index, hlt, hboundary, htarget⟩
    · exact .inl hbefore
    · exact .inr (hlt.trans_le (hcut.last index hboundary htarget))
  · intro h start stop hinput
    rcases h start stop hinput with hbefore | hafter
    · exact .inl hbefore
    · exact .inr ⟨cut, hafter, hcut.boundary, hcut.kept⟩

theorem dropsExact_iff (hcut : Cut context tokens target cut) :
    DropsExact context cut ↔ HasOldBlock context tokens target := by
  have hlt := hcut.boundary.lt
  have hcovered := hcut.covered_lt
  rw [hasOldBlock_iff hcut]
  constructor
  · rintro ⟨i, hi, hdropped, hexact, hother⟩ start stop hinput
    rw [mem_keptPositions hlt.le] at hdropped
    have hbefore : i < cut := by
      by_contra hge
      exact hdropped (.inl ⟨by omega, hi⟩)
    by_contra hnone
    refine hother ⟨start, stop, hinput, by omega, by omega⟩
  · intro h
    have hold : ∃ i < cut, covered context ≤ i ∧
        ¬ ∃ start stop, NewestInput context start stop ∧ start ≤ i ∧ i < stop := by
      cases hnewest : newestInput context with
      | none =>
        refine ⟨covered context, hcovered, le_rfl, ?_⟩
        rintro ⟨start, stop, hinput, _⟩
        rw [newestInput_iff.mpr hinput] at hnewest
        cases hnewest
      | some run =>
        obtain ⟨start, stop⟩ := run
        have hinput := newestInput_some hnewest
        rcases h start stop hinput with hbefore | hafter
        · refine ⟨covered context, hcovered, le_rfl, ?_⟩
          rintro ⟨start', stop', hinput', hge, _⟩
          obtain ⟨rfl, rfl⟩ := hinput.eq hinput'
          omega
        · have := covered_le_one context
          have := hinput.lt
          refine ⟨stop, hafter, by omega, ?_⟩
          rintro ⟨start', stop', hinput', _, hstop⟩
          obtain ⟨rfl, rfl⟩ := hinput.eq hinput'
          omega
    obtain ⟨i, hbefore, hexact, hother⟩ := hold
    refine ⟨i, by omega, ?_, hexact, hother⟩
    rw [mem_keptPositions hlt.le]
    rintro (⟨hge, _⟩ | ⟨_, hinput⟩)
    · omega
    · exact hother hinput

theorem exactBlocks_replacementOf (hcut : cut ≤ context.length) (text : String) :
    exactBlocks ((replacementOf context cut text).apply context) =
      (inputBefore context cut).length + (context.length - cut) := by
  have hcovered : covered ((replacementOf context cut text).apply context) = 1 := by
    rw [apply_replacementOf hcut, covered, List.getElem?_cons_zero, Option.any_some,
      isSummary_summaryBlock, if_pos rfl]
  rw [exactBlocks, hcovered, apply_replacementOf hcut, List.length_cons, Nat.add_sub_cancel,
    List.length_append, List.length_drop]

theorem exactBlocks_lt_iff (hcut : Cut context tokens target cut) (text : String) :
    (exactBlocks ((replacementOf context cut text).apply context) < exactBlocks context ↔
      HasOldBlock context tokens target) := by
  have hlt := hcut.boundary.lt
  have hcovered := hcut.covered_lt
  rw [exactBlocks_replacementOf hlt.le, hasOldBlock_iff hcut, exactBlocks]
  cases hnewest : newestInput context with
  | none =>
    rw [inputBefore_none hnewest, List.length_nil]
    constructor
    · intro _ start stop hinput
      rw [newestInput_iff.mpr hinput] at hnewest
      cases hnewest
    · intro _
      omega
  | some run =>
    obtain ⟨start, stop⟩ := run
    have hinput := newestInput_some hnewest
    have hstart := hinput.covered_le
    have hle := hinput.le
    have hrun := hinput.lt
    rw [inputBefore_eq hinput, List.length_drop, List.length_take]
    constructor
    · intro hless start' stop' hinput'
      obtain ⟨rfl, rfl⟩ := hinput.eq hinput'
      omega
    · intro h
      have := h start stop hinput
      omega

/-- `n` replacements of handlers in a row, each of a context with an old block, and no other
change of the context. -/
inductive Summarized : ℕ → List Block → List Block → Prop where
  | refl (context : List Block) : Summarized 0 context context
  | step {n : ℕ} {context : List Block} {host : Host} {event : RoundEvent} {replace : Replaced}
      (h : Summarized n context event.context)
      (hanswer : (handle host event).answer = .ok (some { replace := some replace }))
      (hold : HasOldBlockAt event) : Summarized (n + 1) context (replace.apply event.context)

theorem handle_shrinks {host : Host} {event : RoundEvent} {answer : RoundBeforeAnswer}
    (h : (handle host event).answer = .ok (some answer)) :
    ∃ replace, answer = { replace := some replace } ∧
      (DropsExact event.context (event.context.length - replace.keep) ↔ HasOldBlockAt event) ∧
      (exactBlocks (replace.apply event.context) < exactBlocks event.context ↔
        HasOldBlockAt event) := by
  obtain ⟨window, cut, text, hwindow, hcutOf, rfl⟩ := compacts_of_handle h
  have hcut : Cut event.context event.tokens _ cut := cut_of_cutOf (List.length_map _) hcutOf
  have hat : HasOldBlockAt event ↔
      HasOldBlock event.context event.tokens (targetOf window event.request.point) := by
    constructor
    · intro hold
      exact hold window hwindow
    · intro hold other hother
      rw [hwindow] at hother
      cases hother
      exact hold
  refine ⟨replacementOf event.context cut text, rfl, ?_, ?_⟩
  · rw [hat, ← dropsExact_iff hcut, replacementOf, Nat.sub_sub_self hcut.boundary.lt.le]
  · rw [hat]
    exact exactBlocks_lt_iff hcut text

theorem Summarized.exactBlocks_le {n : ℕ} {context after : List Block}
    (h : Summarized n context after) : n + exactBlocks after ≤ exactBlocks context := by
  induction h with
  | refl => omega
  | step _ hanswer hold ih =>
    obtain ⟨replace, heq, _, hless⟩ := handle_shrinks hanswer
    cases heq
    have := hless.mpr hold
    omega

/-- A replacement drops an exact block exactly when the context has an old one, and so only as many
of them follow one another as there are exact blocks. -/
theorem compaction_shrinks_iff {host : Host} {event : RoundEvent} {answer : RoundBeforeAnswer}
    (h : (handle host event).answer = .ok (some answer)) :
    (∃ replace, answer = { replace := some replace } ∧
      (DropsExact event.context (event.context.length - replace.keep) ↔ HasOldBlockAt event) ∧
      (exactBlocks (replace.apply event.context) < exactBlocks event.context ↔
        HasOldBlockAt event)) ∧
    ∀ {n : ℕ} {context after : List Block}, Summarized n context after →
      n + exactBlocks after ≤ exactBlocks context :=
  ⟨handle_shrinks h, Summarized.exactBlocks_le⟩

theorem compaction_shrinks_answered :
    (∃ replace, RoundBeforeAnswer.mk (some ⟨[summaryBlock "new", .userText "b"], 1⟩) none none =
        { replace := some replace } ∧
      (DropsExact overflowEvent.context (overflowEvent.context.length - replace.keep) ↔
        HasOldBlockAt overflowEvent) ∧
      (exactBlocks (replace.apply overflowEvent.context) < exactBlocks overflowEvent.context ↔
        HasOldBlockAt overflowEvent)) ∧
    ∀ {n : ℕ} {context after : List Block}, Summarized n context after →
      n + exactBlocks after ≤ exactBlocks context :=
  compaction_shrinks_iff handle_overflowEvent

def longAnswer : List Block :=
  [.userText "go", .assistantText "an answer that is over the target alone."]

def roundOf (context : List Block) : RoundEvent where
  request := { point := .before, window := some 10, inputTokens := none, context := context }
  seen := ⟨[], context.length⟩

def longAnswerAfter : List Block := summaryBlock "new" :: longAnswer

theorem compact_answeringHost (context : List Block) (cut : ℕ) (sent : Option ℕ) :
    compact answeringHost.side context cut sent =
      .ok { replace := some (replacementOf context cut "new") } := rfl

theorem handle_roundOf {context : List Block} (cut : ℕ)
    (htokens : 8 ≤ (roundOf context).contextTokens)
    (hcut : cutOf (roundOf context).context (roundOf context).tokens 1 = .ok (some cut)) :
    (handle answeringHost (roundOf context)).answer =
      .ok (some { replace := some (replacementOf (roundOf context).context cut "new") }) := by
  have htarget : windowTarget 10 = 1 := by
    unfold windowTarget keptTokens
    norm_num
  have hover : ¬ ((roundOf context).contextTokens : ℚ) ≤
      (10 : ℕ) - max (((10 : ℕ) : ℚ) / 10) (min 16384 (((10 : ℕ) : ℚ) / 4)) := by
    have htokens' : (8 : ℚ) ≤ (roundOf context).contextTokens := by exact_mod_cast htokens
    norm_num
    linarith
  change (beforeRound answeringHost (roundOf context)).answer = _
  rw [beforeRound, show (roundOf context).request.window = some 10 from rfl]
  dsimp only
  rw [if_neg hover, htarget, hcut]
  dsimp only
  rw [compact_answeringHost]

/-- The replacement drops no exact block, and the next one makes the same context again. -/
theorem compaction_repeats :
    (∃ host event replace, (handle host event).answer = .ok (some { replace := some replace }) ∧
      ¬ DropsExact event.context (event.context.length - replace.keep)) ∧
    (handle answeringHost (roundOf longAnswer)).answer =
      .ok (some { replace := some ⟨[summaryBlock "new", .userText "go"], 1⟩ }) ∧
    (Replaced.mk [summaryBlock "new", .userText "go"] 1).apply longAnswer = longAnswerAfter ∧
    (handle answeringHost (roundOf longAnswerAfter)).answer =
      .ok (some { replace := some ⟨[summaryBlock "new", .userText "go"], 1⟩ }) ∧
    (Replaced.mk [summaryBlock "new", .userText "go"] 1).apply longAnswerAfter =
      longAnswerAfter := by
  have hfirst : (handle answeringHost (roundOf longAnswer)).answer =
      .ok (some { replace := some ⟨[summaryBlock "new", .userText "go"], 1⟩ }) :=
    handle_roundOf 1 (by decide +kernel) (by decide +kernel)
  have hagain : (handle answeringHost (roundOf longAnswerAfter)).answer =
      .ok (some { replace := some ⟨[summaryBlock "new", .userText "go"], 1⟩ }) := by
    have hsame : replacementOf (roundOf longAnswerAfter).context 2 "new" =
        ⟨[summaryBlock "new", .userText "go"], 1⟩ := by decide +kernel
    rw [← hsame]
    exact handle_roundOf 2 (by decide +kernel) (by decide +kernel)
  refine ⟨⟨_, _, _, hfirst, ?_⟩, hfirst, rfl, hagain, rfl⟩
  rintro ⟨i, hi, hdropped, _, _⟩
  have hkept : keptPositions (roundOf longAnswer).context 1 = [0, 1] := rfl
  have hi' : i < 2 := hi
  rw [show (roundOf longAnswer).context.length - 1 = 1 from rfl, hkept] at hdropped
  simp only [List.mem_cons, List.not_mem_nil, or_false, not_or] at hdropped
  omega

end Compaction

end Yuke.Js
