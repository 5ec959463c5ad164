import Yuke.Ai.EncoderSays
import Yuke.Ai.Wire.Extends
import Yuke.Shared.Log

/-!
# The groups of a request

An encoder passes through the groups of a request in order. A state between two groups is one of each
request that agrees on the blocks before it.
-/

set_option autoImplicit false

namespace Yuke.Ai

open Yuke.Shared

/-! ## The groups of a request -/

/-- The elements after the writer wrote the group from `start`. -/
def record (start : Nat) (jw jw' : JsonWriter) (elements : List Element) : List Element :=
  if jw'.out.length = jw.out.length then elements else elements ++ [⟨start, jw.out.length⟩]

inductive Groups (isJson : String → Bool) (target : Target) (request : Request)
    (marker : Option Nat) : Nat → List Element → JsonWriter → Prop where
  | nil : Groups isJson target request marker 0 [] ⟨[], false⟩
  | group {start stop : Nat} {elements : List Element} {jw jw' : JsonWriter}
    (h : Groups isJson target request marker start elements jw)
    (hstart : start < request.blocks.length)
    (hrun : jw.run (writeGroup isJson target request start marker) = (.ok stop, jw')) :
    Groups isJson target request marker stop (record start jw jw' elements) jw'

section Ends

variable {isJson : String → Bool} {target : Target} {request : Request} {start stop : Nat}
  {marker : Option Nat} {comma : Bool}

theorem stop_eq (h : (writeGroup isJson target request start marker comma).result = .ok stop) :
    stop = groupEnd target request.blocks start := by
  unfold writeGroup at h
  unfold groupEnd
  cases hwire : target.wire with
  | anthropicMessages wire =>
    rw [hwire] at h
    dsimp only at h
    unfold Anthropic.writeGroup at h
    unfold Anthropic.groupEnd Anthropic.runFrom
    cases hfirst : request.blocks[start]? with
    | none =>
      rw [hfirst] at h
      cases h
      rfl
    | some first =>
      rw [hfirst] at h
      obtain ⟨_, -, hend⟩ := ok_of_bind h
      cases hend
      rfl
  | openaiChat wire =>
    rw [hwire] at h
    dsimp only at h
    unfold OpenaiChat.writeGroup at h
    unfold OpenaiChat.groupEnd
    cases hfirst : request.blocks[start]? with
    | none =>
      dsimp only at h
      rw [hfirst] at h
      cases h
      rfl
    | some first =>
      dsimp only at h
      rw [hfirst] at h
      cases first with
      | toolResult | userText | media | assistantText | reasoning | toolCall =>
        obtain ⟨_, -, hend⟩ := ok_of_bind h
        cases hend
        rfl
  | openaiResponses wire =>
    rw [hwire] at h
    dsimp only at h
    unfold OpenaiResponses.writeGroup at h
    unfold OpenaiResponses.groupEnd OpenaiResponses.moreFrom
    cases hfirst : request.blocks[start]? with
    | none =>
      rw [hfirst] at h
      cases h
      rfl
    | some first =>
      rw [hfirst] at h
      dsimp only at h ⊢
      split_ifs at h ⊢
      · obtain ⟨_, -, hend⟩ := ok_of_bind h
        cases hend
        rfl
      · obtain ⟨_, -, hend⟩ := ok_of_bind h
        cases hend
        rfl

theorem length_takeWhile_drop (run : Block → Bool) (blocks : List Block) (start : Nat)
    (h : start ≤ blocks.length) :
    start + ((blocks.drop start).takeWhile run).length ≤ blocks.length := by
  have hle := (List.takeWhile_prefix run (l := blocks.drop start)).length_le
  rw [List.length_drop] at hle
  omega

theorem groupEnd_le (target : Target) {blocks : List Block} (h : start < blocks.length) :
    groupEnd target blocks start ≤ blocks.length := by
  have hlength := length_takeWhile_drop
  unfold groupEnd
  cases target.wire with
  | anthropicMessages wire =>
    unfold Anthropic.groupEnd Anthropic.runFrom
    dsimp only
    split
    · exact hlength _ blocks start (by omega)
    · simpa using h.le
  | openaiChat wire =>
    unfold OpenaiChat.groupEnd
    dsimp only
    have hrun := fun run : Block → Bool => hlength run blocks start (by omega)
    split
    · omega
    · unfold OpenaiChat.usersAfter
      split_ifs
      · exact hlength _ blocks _ (hrun _)
      · exact hrun _
    · exact hrun _
    · exact hrun _
    · exact hrun _
    · exact hrun _
    · exact hrun _
  | openaiResponses wire =>
    unfold OpenaiResponses.groupEnd
    dsimp only
    split
    · omega
    · split_ifs
      · exact hlength _ blocks (start + 1) (by omega)
      · omega

end Ends

section Chain

variable {isJson : String → Bool} {target : Target} {request : Request} {marker : Option Nat}
  {start : Nat} {elements : List Element} {jw : JsonWriter}

theorem run_text {write : Write Nat} {jw' : JsonWriter} {result : Except EncodeError Nat}
    (h : jw.run write = (result, jw')) :
    (write jw.comma).result = result ∧ jw'.out = jw.out ++ (write jw.comma).text ∧
      jw'.comma = (write jw.comma).comma := by
  unfold JsonWriter.run at h
  cases h
  exact ⟨rfl, rfl, rfl⟩

theorem Groups.le (h : Groups isJson target request marker start elements jw) :
    start ≤ request.blocks.length := by
  cases h with
  | nil => omega
  | group _ hstart hrun =>
    rw [stop_eq (run_text hrun).1]
    exact groupEnd_le target hstart

theorem Groups.comma (h : Groups isJson target request marker start elements jw) :
    jw.comma = !jw.out.isEmpty := by
  induction h with
  | nil => rfl
  | @group start stop elements jw jw' _ _ hrun ih =>
    obtain ⟨hok, hout, hcomma⟩ := run_text hrun
    rw [hout, hcomma]
    rcases tidy_writeGroup isJson target request start marker jw.comma stop hok with
      ⟨htext, hsame⟩ | ⟨htext, htrue⟩
    · rw [htext, hsame, ih, List.append_nil]
    · have hne : (jw.out ++ (writeGroup isJson target request start marker jw.comma).text).isEmpty =
          false := by simp [htext]
      rw [htrue, hne]
      rfl

theorem Groups.split (h : Groups isJson target request marker start elements jw) :
    ∀ before element after, elements = before ++ element :: after →
      element.block < start ∧ ∃ jw', Groups isJson target request marker element.block before jw' ∧
        jw'.out.length = element.offset ∧ jw'.out <+: jw.out := by
  induction h with
  | nil =>
    intro before element after hnil
    cases before with
    | nil => cases hnil
    | cons => cases hnil
  | @group start stop elements jw jw' hgroups hstart hrun ih =>
    obtain ⟨hok, hout, -⟩ := run_text hrun
    have hlt : start < stop := by
      rw [stop_eq hok]
      exact lt_groupEnd target hstart
    have hprefix : jw.out <+: jw'.out := ⟨_, hout.symm⟩
    have hold : ∀ before element after, elements = before ++ element :: after →
        element.block < stop ∧ ∃ jw₀, Groups isJson target request marker element.block before jw₀ ∧
          jw₀.out.length = element.offset ∧ jw₀.out <+: jw'.out := by
      intro before element after hsplit
      obtain ⟨hblock, jw₀, hgroups₀, hlength, hprefix₀⟩ := ih before element after hsplit
      exact ⟨hblock.trans hlt, jw₀, hgroups₀, hlength, hprefix₀.trans hprefix⟩
    intro before element after hsplit
    unfold record at hsplit
    split_ifs at hsplit
    · exact hold before element after hsplit
    · rcases split_snoc.mp hsplit with ⟨after', -, hsplit'⟩ | ⟨-, rfl, rfl⟩
      · exact hold before element after' hsplit'
      · exact ⟨hlt, jw, hgroups, rfl, hprefix⟩

theorem Groups.agree {bound : Nat} {target' : Target} {request' : Request} {marker' : Option Nat}
    (hagree : Agrees bound target target' request request' marker marker')
    (h : Groups isJson target request marker start elements jw) (hstart : start < bound) :
    Groups isJson target' request' marker' start elements jw := by
  induction h with
  | nil => exact .nil
  | @group start stop elements jw jw' hgroups hlt hrun ih =>
    obtain ⟨hok, -, -⟩ := run_text hrun
    have hnext : start < stop := by
      rw [stop_eq hok]
      exact lt_groupEnd target hlt
    have hlt' : start < request'.blocks.length := by
      have hget := getElem?_agree hagree.blocks (hnext.trans hstart)
      rw [List.getElem?_eq_getElem hlt] at hget
      exact (List.getElem?_eq_some_iff.mp hget.symm).1
    have hsame := writeGroup_agree hagree hok hstart
    refine .group (ih (hnext.trans hstart)) hlt' ?_
    rw [← hrun]
    unfold JsonWriter.run
    rw [hsame]

theorem Groups.reached (h : Groups isJson target request marker start elements jw) :
    ∃ count ≤ start, ∀ fuel,
      Encoder.writeGroups isJson target request marker (fuel + count) 0 [] ⟨[], false⟩ =
        Encoder.writeGroups isJson target request marker fuel start elements jw := by
  induction h with
  | nil => exact ⟨0, le_rfl, fun _ => rfl⟩
  | @group start stop elements jw jw' _ hlt hrun ih =>
    obtain ⟨count, hcount, hreach⟩ := ih
    have hnext : start < stop := by
      rw [stop_eq (run_text hrun).1]
      exact lt_groupEnd target hlt
    refine ⟨count + 1, by omega, fun fuel => ?_⟩
    have hstep := hreach (fuel + 1)
    rw [Encoder.writeGroups, if_pos hlt] at hstep
    dsimp only at hstep
    rw [hrun] at hstep
    rw [← Nat.add_assoc, Nat.add_right_comm]
    exact hstep

theorem Groups.newItems (h : Groups isJson target request
    (cacheIndex target.wire request.cacheableBlocks) start elements jw)
    (hstart : request.blocks.length ≤ start) :
    newItems isJson target request = (.ok (), elements, jw) := by
  obtain ⟨count, hcount, hreach⟩ := h.reached
  have hend := hreach (request.blocks.length - count)
  have hle := h.le
  rw [Nat.sub_add_cancel (by omega)] at hend
  unfold Ai.newItems
  rw [hend]
  cases request.blocks.length - count with
  | zero => rfl
  | succ fuel =>
    unfold Encoder.writeGroups
    rw [if_neg (by omega)]

theorem Groups.writeGroups {request₀ : Request} (hblocks : request₀.blocks = request.blocks)
    (hagree : Agrees (request.blocks.length + 1) target target request₀ request marker marker)
    (fuel : Nat) (h : Groups isJson target request marker start elements jw)
    (hfuel : request.blocks.length - start ≤ fuel) {outcome : Except EncodeError Unit}
    {elements' : List Element} {jw' : JsonWriter}
    (hwrite : Encoder.writeGroups isJson target request₀ marker fuel start elements jw =
      (outcome, elements', jw')) :
    (∀ before element after, elements' = before ++ element :: after →
      ∃ jw₀, Groups isJson target request marker element.block before jw₀ ∧
        jw₀.out.length = element.offset ∧ jw₀.out <+: jw'.out) ∧
    (outcome = .ok () → Groups isJson target request marker request.blocks.length elements' jw') := by
  induction fuel generalizing start elements jw with
  | zero =>
    cases hwrite
    have hstart : start = request.blocks.length := by
      have hle := h.le
      omega
    subst hstart
    exact ⟨fun before element after hsplit => (h.split before element after hsplit).2, fun _ => h⟩
  | succ fuel ih =>
    rw [Encoder.writeGroups, hblocks] at hwrite
    by_cases hlt : start < request.blocks.length
    · rw [if_pos hlt] at hwrite
      dsimp only at hwrite
      cases hrun : jw.run (writeGroup isJson target request₀ start marker) with
      | mk result jw₁ =>
        rw [hrun] at hwrite
        obtain ⟨hresult, hout, -⟩ := run_text hrun
        cases result with
        | error error =>
          cases hwrite
          refine ⟨?_, fun hok => nomatch hok⟩
          intro before element after hsplit
          have hprefix : jw.out <+: jw'.out := ⟨_, hout.symm⟩
          rcases split_snoc.mp hsplit with ⟨after', -, hsplit'⟩ | ⟨-, rfl, rfl⟩
          · obtain ⟨-, jw₀, hgroups, hlength, hprefix₀⟩ := h.split before element after' hsplit'
            exact ⟨jw₀, hgroups, hlength, hprefix₀.trans hprefix⟩
          · exact ⟨jw, h, rfl, hprefix⟩
        | ok stop =>
          have hstop : stop < request.blocks.length + 1 := by
            rw [stop_eq hresult, hblocks]
            have hle := groupEnd_le target hlt
            omega
          have hsame := writeGroup_agree hagree hresult hstop
          have hrun' : jw.run (writeGroup isJson target request start marker) = (.ok stop, jw₁) := by
            rw [← hrun]
            unfold JsonWriter.run
            rw [hsame]
          have hnext : start < stop := by
            rw [stop_eq hresult, hblocks]
            exact lt_groupEnd target hlt
          exact ih (h.group hlt hrun') (by omega) hwrite
    · rw [if_neg hlt] at hwrite
      cases hwrite
      have hstart : start = request.blocks.length := by
        have hle := h.le
        omega
      subst hstart
      exact ⟨fun before element after hsplit => (h.split before element after hsplit).2, fun _ => h⟩

end Chain

end Yuke.Ai
