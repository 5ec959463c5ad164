import Yuke.Js.Compaction

/-!
# What a compaction keeps

The new context is the new summary, the part of the newest input before the cut, and the blocks from
the cut on. The cut is a boundary, so the results of a call stay with it.
-/

set_option autoImplicit false

namespace Yuke.Js

open Yuke.Ai (Block ToolResult toolCallsOf)
open Yuke.Engine (Paired Replaced paired_answer)

namespace Compaction

/-! ## The cut -/

def Boundary (blocks : List Block) (index : ℕ) : Prop := isBoundary blocks index = .ok true

instance (blocks : List Block) (index : ℕ) : Decidable (Boundary blocks index) :=
  decidable_of_iff ((isBoundary blocks index).toOption = some true) (by
    unfold Boundary
    cases isBoundary blocks index <;> simp [Except.toOption])

theorem boundary_iff {blocks : List Block} {index : ℕ} :
    Boundary blocks index ↔ ∃ block, blocks[index]? = some block ∧
      ((block matches .userText _ | .media _) ∨
        isAssistant block = true ∧ (index = 0 ∨ (blocks[index - 1]?).any isAssistant = false)) := by
  unfold Boundary isBoundary
  cases hblock : blocks[index]? with
  | none => simp
  | some block => cases block <;> simp [isAssistant]

theorem Boundary.lt {blocks : List Block} {index : ℕ} (h : Boundary blocks index) :
    index < blocks.length := by
  obtain ⟨block, hblock, _⟩ := boundary_iff.mp h
  exact (List.getElem?_eq_some_iff.mp hblock).1

theorem Boundary.rest {first blocks : List Block} {index : ℕ}
    (h : Boundary (first ++ blocks) (first.length + index)) : Boundary blocks index := by
  obtain ⟨block, hblock, hkind⟩ := boundary_iff.mp h
  rw [List.getElem?_append_right (by omega), Nat.add_sub_cancel_left] at hblock
  refine boundary_iff.mpr ⟨block, hblock, ?_⟩
  rcases hkind with huser | ⟨hassistant, hbefore⟩
  · exact .inl huser
  · refine .inr ⟨hassistant, ?_⟩
    rcases Nat.eq_zero_or_pos index with rfl | hpos
    · exact .inl rfl
    · have hshift : first.length + index - 1 = first.length + (index - 1) := by omega
      rw [hshift, List.getElem?_append_right (by omega), Nat.add_sub_cancel_left] at hbefore
      rcases hbefore with hzero | hbefore
      · omega
      · exact .inr hbefore

theorem boundaryBack_spec {blocks : List Block} {limit cut : ℕ}
    (h : boundaryBack blocks limit = .ok cut) :
    cut ≤ limit ∧ (0 < cut → Boundary blocks cut) ∧
      ∀ index ≤ limit, Boundary blocks index → index ≤ cut := by
  induction limit with
  | zero =>
    cases h
    refine ⟨le_rfl, fun hpos => absurd hpos (lt_irrefl 0), fun index hle _ => hle⟩
  | succ limit ih =>
    unfold boundaryBack at h
    split at h
    · cases h
    · next hboundary =>
      cases h
      exact ⟨le_rfl, fun _ => hboundary, fun index hle _ => hle⟩
    · next hnone =>
      obtain ⟨hle, hcut, hlast⟩ := ih h
      refine ⟨by omega, hcut, ?_⟩
      intro index hindex hboundary
      rcases Nat.lt_or_ge limit index with hlt | hge
      · have heq : index = limit + 1 := by omega
        rw [heq, Boundary, hnone] at hboundary
        cases hboundary
      · exact hlast index hge hboundary

theorem keepBack_spec {tokens : List ℕ} (target : ℚ) {cut : ℕ} (hcut : cut ≤ tokens.length) :
    keepBack tokens target (tokens.drop cut).sum cut ≤ cut ∧
      (0 < keepBack tokens target (tokens.drop cut).sum cut →
        target ≤ (tokens.drop (keepBack tokens target (tokens.drop cut).sum cut)).sum) ∧
      ∀ index ≤ cut, target ≤ (tokens.drop index).sum →
        index ≤ keepBack tokens target (tokens.drop cut).sum cut := by
  induction cut with
  | zero =>
    rw [keepBack]
    exact ⟨le_rfl, fun hpos => absurd hpos (lt_irrefl 0), fun index hle _ => hle⟩
  | succ cut ih =>
    rw [keepBack]
    split
    · next hless =>
      have hsum : (tokens.drop (cut + 1)).sum + tokens.getD cut 0 = (tokens.drop cut).sum := by
        have hlt : cut < tokens.length := by omega
        rw [List.drop_eq_getElem_cons hlt, List.sum_cons, List.getD_eq_getElem _ _ hlt, Nat.add_comm]
      rw [hsum]
      obtain ⟨hle, hkept, hlast⟩ := ih (by omega)
      refine ⟨by omega, hkept, ?_⟩
      intro index hindex htarget
      rcases Nat.lt_or_ge cut index with hlt | hge
      · have heq : index = cut + 1 := by omega
        rw [heq] at htarget
        exact absurd hless (not_lt.mpr htarget)
      · exact hlast index hge htarget
    · next hmore => exact ⟨le_rfl, fun _ => not_lt.mp hmore, fun index hle _ => hle⟩

structure Cut (blocks : List Block) (tokens : List ℕ) (target : ℚ) (cut : ℕ) : Prop where
  covered_lt : covered blocks < cut
  boundary : Boundary blocks cut
  kept : target ≤ (tokens.drop cut).sum
  last : ∀ index, Boundary blocks index → target ≤ (tokens.drop index).sum → index ≤ cut

variable {blocks context : List Block} {tokens : List ℕ} {target : ℚ} {cut : ℕ}

theorem cut_of_cutOf (htokens : tokens.length = blocks.length)
    (h : cutOf blocks tokens target = .ok (some cut)) : Cut blocks tokens target cut := by
  unfold cutOf at h
  have hkeep := keepBack_spec target htokens.ge
  rw [List.drop_of_length_le htokens.le, List.sum_nil] at hkeep
  generalize keepBack tokens target 0 blocks.length = stop at h hkeep
  obtain ⟨hstop, hkept, hlast⟩ := hkeep
  split at h
  · cases h
  · next found hback =>
    obtain ⟨hle, hboundary, hlater⟩ := boundaryBack_spec hback
    split at h
    · next hcovered =>
      cases h
      have hpos : 0 < cut := by omega
      have hdrop : (tokens.drop stop).sum ≤ (tokens.drop cut).sum := by
        rw [← Nat.add_sub_cancel' hle, ← List.drop_drop]
        exact (List.drop_sublist _ _).sum_le_sum fun _ _ => Nat.zero_le _
      constructor
      · exact hcovered
      · exact hboundary hpos
      · exact (hkept (by omega)).trans (by exact_mod_cast hdrop)
      · intro index hindex htarget
        exact hlater index (hlast index hindex.lt.le htarget) hindex
    · cases h

theorem target_pos (h : cutOf blocks tokens target = .ok (some cut)) : 0 < target := by
  by_contra hneg
  have hkeep : keepBack tokens target 0 blocks.length = blocks.length := by
    cases hlen : blocks.length with
    | zero => rfl
    | succ length =>
      rw [keepBack, if_neg (by simpa using hneg)]
  rw [cutOf, hkeep] at h
  cases hlen : blocks.length with
  | zero =>
    rw [hlen, boundaryBack] at h
    simp at h
  | succ length =>
    have hthrown : isBoundary blocks (length + 1) = .error .type := by
      rw [isBoundary, List.getElem?_eq_none (by omega)]
    rw [hlen, boundaryBack, hthrown] at h
    cases h

/-- The blocks from `start` up to `stop` are the newest run of inputs. -/
structure NewestInput (blocks : List Block) (start stop : ℕ) : Prop where
  lt : start < stop
  le : stop ≤ blocks.length
  input : ∀ i, start ≤ i → i < stop → (blocks[i]?).any isInput = true
  first : start = 0 ∨ (blocks[start - 1]?).any isInput = false
  newest : ∀ i, stop ≤ i → (blocks[i]?).any isInput = false

theorem lastInput_spec (blocks : List Block) (stop : ℕ) : (∃ last, lastInput blocks stop = some last ∧ last < stop ∧
      (blocks[last]?).any isInput = true ∧
      ∀ i, last < i → i < stop → (blocks[i]?).any isInput = false) ∨
    lastInput blocks stop = none ∧ ∀ i < stop, (blocks[i]?).any isInput = false := by
  induction stop with
  | zero => exact .inr ⟨rfl, nofun⟩
  | succ stop ih =>
    rw [lastInput]
    split
    · next hinput =>
      refine .inl ⟨stop, rfl, Nat.lt_succ_self stop, hinput, ?_⟩
      intro i hlt hi
      omega
    · next hother =>
      rw [Bool.not_eq_true] at hother
      rcases ih with ⟨last, heq, hlt, hinput, hlater⟩ | ⟨heq, hnone⟩
      · refine .inl ⟨last, heq, by omega, hinput, ?_⟩
        intro i hlast hi
        rcases Nat.lt_succ_iff_lt_or_eq.mp hi with hbefore | rfl
        · exact hlater i hlast hbefore
        · exact hother
      · refine .inr ⟨heq, ?_⟩
        intro i hi
        rcases Nat.lt_succ_iff_lt_or_eq.mp hi with hbefore | rfl
        · exact hnone i hbefore
        · exact hother

theorem firstInput_spec (blocks : List Block) (stop : ℕ) : firstInput blocks stop ≤ stop ∧
    (∀ i, firstInput blocks stop ≤ i → i < stop → (blocks[i]?).any isInput = true) ∧
    (firstInput blocks stop = 0 ∨
      (blocks[firstInput blocks stop - 1]?).any isInput = false) := by
  induction stop with
  | zero => exact ⟨le_rfl, fun i _ hi => absurd hi (Nat.not_lt_zero i), .inl rfl⟩
  | succ stop ih =>
    rw [firstInput]
    split
    · next hinput =>
      obtain ⟨hle, hrun, hfirst⟩ := ih
      refine ⟨by omega, ?_, hfirst⟩
      intro i hge hi
      rcases Nat.lt_succ_iff_lt_or_eq.mp hi with hbefore | rfl
      · exact hrun i hge hbefore
      · exact hinput
    · next hother =>
      refine ⟨le_rfl, ?_, .inr (by simpa using hother)⟩
      intro i hge hi
      omega

theorem newestInput_some {start stop : ℕ} (h : newestInput blocks = some (start, stop)) :
    NewestInput blocks start stop := by
  unfold newestInput at h
  rcases lastInput_spec blocks blocks.length with
    ⟨last, heq, hlt, hinput, hlater⟩ | ⟨heq, _⟩
  · rw [heq, Option.map_some] at h
    cases h
    obtain ⟨hle, hrun, hfirst⟩ := firstInput_spec blocks last
    constructor
    · omega
    · exact hlt
    · intro i hge hi
      rcases Nat.lt_succ_iff_lt_or_eq.mp hi with hbefore | rfl
      · exact hrun i hge hbefore
      · exact hinput
    · exact hfirst
    · intro i hi
      rcases Nat.lt_or_ge i blocks.length with hin | hout
      · exact hlater i hi hin
      · rw [List.getElem?_eq_none hout]
        rfl
  · rw [heq] at h
    cases h

theorem newestInput_none (h : newestInput blocks = none) (i : ℕ) :
    (blocks[i]?).any isInput = false := by
  unfold newestInput at h
  rcases lastInput_spec blocks blocks.length with
    ⟨last, heq, _⟩ | ⟨_, hnone⟩
  · rw [heq] at h
    cases h
  · rcases Nat.lt_or_ge i blocks.length with hin | hout
    · exact hnone i hin
    · rw [List.getElem?_eq_none hout]
      rfl

theorem NewestInput.eq {start stop start' stop' : ℕ} (h : NewestInput blocks start stop)
    (h' : NewestInput blocks start' stop') : start = start' ∧ stop = stop' := by
  have hstop : ∀ {start stop start' stop' : ℕ}, NewestInput blocks start stop →
      NewestInput blocks start' stop' → stop ≤ stop' := by
    intro start stop start' stop' h h'
    by_contra hlt
    have hinput := h.input (stop - 1) (by have := h.lt; omega) (by have := h.lt; omega)
    rw [h'.newest (stop - 1) (by omega)] at hinput
    cases hinput
  have heq : stop = stop' := le_antisymm (hstop h h') (hstop h' h)
  have hstart : ∀ {start stop start' : ℕ}, NewestInput blocks start stop →
      NewestInput blocks start' stop → start ≤ start' := by
    intro start stop start' h h'
    by_contra hlt
    rcases h.first with hzero | hbefore
    · omega
    · have hinput := h'.input (start - 1) (by omega) (by have := h.lt; omega)
      rw [hbefore] at hinput
      cases hinput
  subst heq
  exact ⟨le_antisymm (hstart h h') (hstart h' h), rfl⟩

theorem newestInput_iff {start stop : ℕ} :
    newestInput blocks = some (start, stop) ↔ NewestInput blocks start stop := by
  constructor
  · exact newestInput_some
  · intro h
    cases hfound : newestInput blocks with
    | none =>
      have hinput := h.input start le_rfl h.lt
      rw [newestInput_none hfound start] at hinput
      cases hinput
    | some found =>
      obtain ⟨hstart, hstop⟩ := (newestInput_some hfound).eq h
      rw [← hstart, ← hstop]

/-! ## The replacement -/

def keptPositions (context : List Block) (cut : ℕ) : List ℕ :=
  (match newestInput context with
    | none => []
    | some (start, stop) => List.range' start (min stop cut - start)) ++
    List.range' cut (context.length - cut)

theorem slice_positions {start stop : ℕ} (hstop : stop ≤ context.length) :
    ((context.take stop).drop start).map some =
      (List.range' start (stop - start)).map (context[·]?) := by
  apply List.ext_getElem
  · simp only [List.length_map, List.length_drop, List.length_take, List.length_range']
    omega
  · intro i hi _
    simp only [List.length_map, List.length_drop, List.length_take] at hi
    simp only [List.getElem_map, List.getElem_drop, List.getElem_take, List.getElem_range',
      Nat.one_mul]
    rw [List.getElem?_eq_getElem (by omega)]

theorem inputBefore_eq {start stop : ℕ} (h : NewestInput context start stop) (cut : ℕ) :
    inputBefore context cut = (context.take (min stop cut)).drop start := by
  unfold inputBefore
  rw [newestInput_iff.mpr h]
  dsimp only
  split
  · rfl
  · next hge =>
    rw [List.drop_of_length_le]
    rw [List.length_take]
    omega

theorem inputBefore_none (h : newestInput context = none) (cut : ℕ) :
    inputBefore context cut = [] := by
  unfold inputBefore
  rw [h]

theorem kept_eq (hcut : cut ≤ context.length) :
    (inputBefore context cut ++ context.drop cut).map some =
      (keptPositions context cut).map (context[·]?) := by
  have htail : (context.drop cut).map some =
      (List.range' cut (context.length - cut)).map (context[·]?) := by
    rw [← slice_positions le_rfl, List.take_length]
  unfold keptPositions
  rw [List.map_append, List.map_append, htail]
  congr 1
  cases hnewest : newestInput context with
  | none =>
    rw [inputBefore_none hnewest]
    rfl
  | some run =>
    rw [inputBefore_eq (newestInput_some hnewest)]
    exact slice_positions ((Nat.min_le_right ..).trans hcut)

theorem keptPositions_pairwise (context : List Block) (cut : ℕ) :
    (keptPositions context cut).Pairwise (· < ·) := by
  unfold keptPositions
  refine List.pairwise_append.mpr ⟨?_, List.pairwise_lt_range', ?_⟩
  · split
    · exact .nil
    · exact List.pairwise_lt_range'
  · intro i hi j hj
    rw [List.mem_range'_1] at hj
    split at hi
    · cases hi
    · rw [List.mem_range'_1] at hi
      omega

theorem mem_keptPositions {i : ℕ} (hcut : cut ≤ context.length) :
    i ∈ keptPositions context cut ↔ (cut ≤ i ∧ i < context.length) ∨
      i < cut ∧ ∃ start stop, NewestInput context start stop ∧ start ≤ i ∧ i < stop := by
  unfold keptPositions
  rw [List.mem_append, List.mem_range'_1, Nat.add_sub_cancel' hcut, or_comm]
  refine or_congr_right ?_
  cases hnewest : newestInput context with
  | none =>
    simp only [List.not_mem_nil, false_iff]
    rintro ⟨_, start, stop, hinput, _⟩
    rw [newestInput_iff.mpr hinput] at hnewest
    cases hnewest
  | some run =>
    obtain ⟨start, stop⟩ := run
    have hinput := newestInput_some hnewest
    rw [List.mem_range'_1]
    constructor
    · rintro ⟨hge, hlt⟩
      exact ⟨by omega, start, stop, hinput, hge, by omega⟩
    · rintro ⟨hlt, start', stop', hinput', hge, hstop⟩
      obtain ⟨rfl, rfl⟩ := hinput.eq hinput'
      omega

/-- The replacement for the summary `text`. -/
def replacementOf (context : List Block) (cut : ℕ) (text : String) : Replaced where
  head := summaryBlock text :: inputBefore context cut
  keep := context.length - cut

def Compacts (context : List Block) (tokens : List ℕ) (target : ℚ) (cut : ℕ) (text : String)
    (answer : RoundBeforeAnswer) : Prop :=
  cutOf context tokens target = .ok (some cut) ∧
    answer = { replace := some (replacementOf context cut text) }

theorem compacts_of_compact {side : SideRequest → Except String SideAnswer} {sent : Option ℕ}
    {answer : RoundBeforeAnswer} (hcut : cutOf context tokens target = .ok (some cut))
    (h : compact side context cut sent = .ok answer) :
    ∃ text, Compacts context tokens target cut text answer := by
  unfold compact at h
  split at h
  · cases h
  · next reply _ =>
    split at h
    · cases h
    · split at h
      · cases h
      · cases h
        exact ⟨reply.text, hcut, rfl⟩

def targetOf (window : ℕ) : RoundPoint → ℚ
  | .before => windowTarget window
  | .retry _ retries => windowTarget window / 2 ^ (retries + 1)

theorem compacts_of_handle {host : Host} {event : RoundEvent} {answer : RoundBeforeAnswer}
    (h : (handle host event).answer = .ok (some answer)) :
    ∃ window cut text, event.request.window = some window ∧
      Compacts event.context event.tokens (targetOf window event.request.point) cut text answer := by
  unfold handle at h
  cases hpoint : event.request.point with
  | before =>
    rw [hpoint] at h
    dsimp only at h
    unfold beforeRound at h
    cases hwindow : event.request.window with
    | none =>
      rw [hwindow] at h
      cases h
    | some window =>
      rw [hwindow] at h
      dsimp only at h
      split at h
      · cases h
      · split at h
        · cases h
        · cases h
        · next cut hcut =>
          split at h
          · next reply hcompact =>
            cases h
            obtain ⟨text, hcompacts⟩ := compacts_of_compact hcut hcompact
            exact ⟨window, cut, text, rfl, hcompacts⟩
          · split at h
            · cases h
            · cases h
  | retry failure retries =>
    rw [hpoint] at h
    dsimp only at h
    unfold retryRound at h
    cases hwindow : event.request.window with
    | none =>
      rw [hwindow] at h
      cases h
    | some window =>
      rw [hwindow] at h
      dsimp only at h
      split at h
      · cases h
      · split at h
        · cases h
        · cases h
        · next cut hcut =>
          cases hcompact : compact host.side event.context cut (some cut) with
          | error thrown =>
            rw [hcompact] at h
            cases h
          | ok reply =>
            rw [hcompact] at h
            cases h
            obtain ⟨text, hcompacts⟩ := compacts_of_compact hcut hcompact
            exact ⟨window, cut, text, rfl, hcompacts⟩

theorem apply_replacementOf (hcut : cut ≤ context.length) (text : String) :
    (replacementOf context cut text).apply context =
      summaryBlock text :: (inputBefore context cut ++ context.drop cut) := by
  rw [Replaced.apply, replacementOf]
  dsimp only
  rw [Nat.sub_sub_self hcut, List.cons_append]

theorem isSummary_summaryBlock (text : String) : isSummary (summaryBlock text) = true := by
  simp only [summaryBlock, isSummary, startsWith, List.isPrefixOf_iff_prefix, String.toList_append,
    List.append_assoc]
  exact List.prefix_append ..

/-! ## The contexts of a session -/

inductive Turns : List Block → Prop where
  | nil : Turns []
  | input {block : Block} {rest : List Block} (hinput : isInput block = true) (h : Turns rest) :
      Turns (block :: rest)
  | answer {blocks : List Block} {results : List ToolResult} {rest : List Block}
      (hanswer : ∀ block ∈ blocks, isAssistant block = true)
      (hcalls : results.map (fun result => result.callId)
        = (toolCallsOf blocks).map fun call => call.callId)
      (h : Turns rest) : Turns (blocks ++ results.map Block.toolResult ++ rest)

inductive SessionContext : List Block → Prop where
  | exact {blocks : List Block} (h : Turns blocks) : SessionContext blocks
  | summary {block : Block} {blocks : List Block} (hsummary : isSummary block = true)
      (h : Turns blocks) : SessionContext (block :: blocks)

theorem role_of_isAssistant {block : Block} (h : isAssistant block = true) :
    block.role = .assistant := by
  cases block with
  | assistantText | reasoning | toolCall => rfl
  | userText | media | toolResult => cases h

theorem paired_input {block : Block} (h : isInput block = true) : Paired [block] := by
  cases block with
  | userText | media => rfl
  | toolResult | assistantText | reasoning | toolCall => cases h

theorem paired_summary {block : Block} (h : isSummary block = true) : Paired [block] := by
  cases block with
  | userText => rfl
  | media | toolResult | assistantText | reasoning | toolCall => cases h

namespace Turns

theorem paired (h : Turns blocks) : Paired blocks := by
  induction h with
  | nil => rfl
  | input hinput _ ih => exact (paired_input hinput).append ih
  | answer hanswer hcalls _ ih =>
    exact (paired_answer (fun block hblock => role_of_isAssistant (hanswer block hblock)) hcalls).append ih

theorem append {others : List Block} (h : Turns blocks) (hothers : Turns others) :
    Turns (blocks ++ others) := by
  induction h with
  | nil => exact hothers
  | input hinput _ ih => exact .input hinput ih
  | answer hanswer hcalls _ ih =>
    rw [List.append_assoc]
    exact .answer hanswer hcalls ih

theorem of_inputs (h : ∀ block ∈ blocks, isInput block = true) : Turns blocks := by
  induction blocks with
  | nil => exact .nil
  | cons block rest ih =>
    refine .input (h block List.mem_cons_self) (ih ?_)
    intro other hother
    exact h other (List.mem_cons_of_mem _ hother)

theorem not_summary (h : Turns blocks) : ∀ block ∈ blocks, isSummary block = false := by
  induction h with
  | nil => nofun
  | @input first rest hinput _ ih =>
    intro block hblock
    rcases List.mem_cons.mp hblock with rfl | hrest
    · cases block with
      | userText text => simpa [isInput] using hinput
      | media => rfl
      | toolResult | assistantText | reasoning | toolCall => cases hinput
    · exact ih block hrest
  | answer hanswer _ _ ih =>
    intro block hblock
    rcases List.mem_append.mp hblock with hfirst | hrest
    · rcases List.mem_append.mp hfirst with hassistant | hresult
      · have hkind := hanswer block hassistant
        cases block with
        | userText | media | toolResult => cases hkind
        | assistantText | reasoning | toolCall => rfl
      · obtain ⟨result, _, rfl⟩ := List.mem_map.mp hresult
        rfl
    · exact ih block hrest

theorem drop_boundary (h : Turns blocks) (hcut : Boundary blocks cut) :
    Turns (blocks.drop cut) := by
  induction h generalizing cut with
  | nil => exact absurd hcut.lt (Nat.not_lt_zero cut)
  | @input block rest hinput h ih =>
    cases cut with
    | zero => exact .input hinput h
    | succ cut =>
      have hrest : Boundary ([block] ++ rest) ([block].length + cut) := by
        rwa [List.length_singleton, Nat.add_comm]
      exact ih hrest.rest
  | @answer answer results rest hanswer hcalls h ih =>
    rcases Nat.lt_or_ge cut (answer ++ results.map Block.toolResult).length with hin | hafter
    · -- Only the first block of the answer is a boundary.
      obtain ⟨block, hblock, hkind⟩ := boundary_iff.mp hcut
      rw [List.getElem?_append_left hin] at hblock
      rcases Nat.lt_or_ge cut answer.length with hassistant | hresult
      · rw [List.getElem?_append_left hassistant] at hblock
        have hblockAssistant := hanswer block (List.mem_of_getElem? hblock)
        have hzero : cut = 0 := by
          rcases hkind with huser | ⟨_, hzero | hbefore⟩
          · cases block with
            | userText | media => cases hblockAssistant
            | toolResult | assistantText | reasoning | toolCall => cases huser
          · exact hzero
          · by_contra hpos
            have hlt : cut - 1 < answer.length := by omega
            rw [List.append_assoc, List.getElem?_append_left hlt, List.getElem?_eq_getElem hlt,
              Option.any_some, hanswer _ (List.getElem_mem hlt)] at hbefore
            cases hbefore
        subst hzero
        exact .answer hanswer hcalls h
      · rw [List.getElem?_append_right hresult] at hblock
        obtain ⟨result, _, rfl⟩ := List.mem_map.mp (List.mem_of_getElem? hblock)
        rcases hkind with huser | ⟨hassistant, _⟩
        · cases huser
        · cases hassistant
    · have heq : cut = (answer ++ results.map Block.toolResult).length +
          (cut - (answer ++ results.map Block.toolResult).length) := by omega
      rw [heq] at hcut ⊢
      rw [List.drop_length_add_append]
      exact ih hcut.rest

end Turns

namespace SessionContext

theorem paired (h : SessionContext blocks) : Paired blocks := by
  cases h with
  | exact h => exact h.paired
  | summary hsummary h => exact (paired_summary hsummary).append h.paired

theorem drop_boundary (h : SessionContext blocks) (hcut : Boundary blocks cut)
    (hcovered : covered blocks < cut) : Turns (blocks.drop cut) := by
  cases h with
  | exact h => exact h.drop_boundary hcut
  | @summary block rest hsummary h =>
    obtain ⟨cut, rfl⟩ : ∃ n, cut = n + 1 := ⟨cut - 1, by omega⟩
    have hrest : Boundary ([block] ++ rest) ([block].length + cut) := by
      rwa [List.length_singleton, Nat.add_comm]
    exact h.drop_boundary hrest.rest

end SessionContext

/-! ## What stays -/

/-- The blocks `after` a compaction of `context` at `cut`, with the new summary first. -/
structure Keeps (context : List Block) (tokens : List ℕ) (target : ℚ) (cut : ℕ) (text : String)
    (after : List Block) : Prop where
  /-- The newest input before the cut stays, and each block from the cut on. -/
  input : ∀ start stop, NewestInput context start stop →
    after = summaryBlock text :: ((context.take (min stop cut)).drop start ++ context.drop cut)
  noInput : (∀ block ∈ context, isInput block = false) →
    after = summaryBlock text :: context.drop cut
  paired : Paired after
  /-- The new summary is the only one, and the new context is one that a session can have. -/
  session : SessionContext after
  summary : isSummary (summaryBlock text) = true ∧ ∀ block ∈ after.tail, isSummary block = false
  /-- Each block after the summary is an old block, in order, and at most once. -/
  positions : ∃ kept : List ℕ, kept.Pairwise (· < ·) ∧
    after.tail.map some = kept.map (context[·]?) ∧
    (∀ start stop, NewestInput context start stop → ∀ i, start ≤ i → i < stop → i ∈ kept) ∧
    ((context[0]?).any isSummary = true → 0 ∉ kept)
  kept : target ≤ (tokens.drop cut).sum

theorem keeps_of_compacts (hcontext : SessionContext context)
    (htokens : tokens.length = context.length) {text : String} {answer : RoundBeforeAnswer}
    (h : Compacts context tokens target cut text answer) :
    Keeps context tokens target cut text ((replacementOf context cut text).apply context) := by
  obtain ⟨hcutOf, _⟩ := h
  have hcut := cut_of_cutOf htokens hcutOf
  have hle : cut ≤ context.length := hcut.boundary.lt.le
  have hdrop := hcontext.drop_boundary hcut.boundary hcut.covered_lt
  have hinputs : Turns (inputBefore context cut) := by
    refine .of_inputs ?_
    intro block hblock
    cases hnewest : newestInput context with
    | none =>
      rw [inputBefore_none hnewest] at hblock
      cases hblock
    | some run =>
      obtain ⟨start, stop⟩ := run
      have hinput := newestInput_some hnewest
      rw [inputBefore_eq hinput] at hblock
      obtain ⟨i, hi, rfl⟩ := List.mem_iff_getElem.mp hblock
      rw [List.length_drop, List.length_take] at hi
      have hany := hinput.input (start + i) (by omega) (by omega)
      rw [List.getElem?_eq_getElem (by omega), Option.any_some] at hany
      rwa [List.getElem_drop, List.getElem_take]
  have hturns := hinputs.append hdrop
  have hsession := SessionContext.summary (isSummary_summaryBlock text) hturns
  rw [apply_replacementOf hle]
  constructor
  · intro start stop hinput
    rw [inputBefore_eq hinput]
  · intro hnone
    have hnewest : newestInput context = none := by
      cases hfound : newestInput context with
      | none => rfl
      | some run =>
        have hinput := newestInput_some hfound
        have hany := hinput.input run.1 le_rfl hinput.lt
        have hlt := hinput.lt.trans_le hinput.le
        rw [List.getElem?_eq_getElem hlt, Option.any_some, hnone _ (List.getElem_mem hlt)] at hany
        cases hany
    rw [inputBefore_none hnewest, List.nil_append]
  · exact hsession.paired
  · exact hsession
  · exact ⟨isSummary_summaryBlock text, hturns.not_summary⟩
  · refine ⟨keptPositions context cut, keptPositions_pairwise context cut, kept_eq hle, ?_, ?_⟩
    · intro start stop hinput i hge hlt
      rw [mem_keptPositions hle]
      rcases Nat.lt_or_ge i cut with hbefore | hafter
      · exact .inr ⟨hbefore, start, stop, hinput, hge, hlt⟩
      · exact .inl ⟨hafter, hlt.trans_le hinput.le⟩
    · intro hsummary hkept
      have hcovered := hcut.covered_lt
      rcases (mem_keptPositions hle).mp hkept with ⟨hzero, _⟩ | ⟨_, start, stop, hinput, hge, hlt⟩
      · omega
      · -- A summary is no input.
        have hany := hinput.input 0 hge hlt
        cases hfirst : context[0]? with
        | none =>
          rw [hfirst] at hany
          cases hany
        | some block =>
          rw [hfirst, Option.any_some] at hany hsummary
          cases block with
          | userText text =>
            rw [isInput, hsummary] at hany
            cases hany
          | media | toolResult | assistantText | reasoning | toolCall => cases hsummary
  · exact hcut.kept

/-- Each replacement keeps the calls paired and the newest input exact, at any estimates and any
target, and so does each replacement that a handler answers. -/
theorem compaction_keeps :
    (∀ {context : List Block} {tokens : List ℕ} {target : ℚ} {cut : ℕ} {sent : Option ℕ}
      {side : SideRequest → Except String SideAnswer} {answer : RoundBeforeAnswer},
      SessionContext context → tokens.length = context.length → 0 < target →
      cutOf context tokens target = .ok (some cut) → compact side context cut sent = .ok answer →
      ∃ replace text, answer = { replace := some replace } ∧
        Keeps context tokens target cut text ((replaceCommit replace).apply context)) ∧
    ∀ {host : Host} {event : RoundEvent} {answer : RoundBeforeAnswer},
      SessionContext event.context → (handle host event).answer = .ok (some answer) →
      ∃ window target cut text replace, event.request.window = some window ∧
        target = targetOf window event.request.point ∧ 0 < target ∧
        answer = { replace := some replace } ∧
        Keeps event.context event.tokens target cut text
          ((replaceCommit replace).apply event.context) := by
  have happly : ∀ (replace : Replaced) (context : List Block),
      (replaceCommit replace).apply context = replace.apply context := by
    intro replace context
    exact List.append_nil _
  constructor
  · intro context tokens target cut sent side answer hcontext htokens _ hcut hanswer
    obtain ⟨text, hcompacts⟩ := compacts_of_compact hcut hanswer
    refine ⟨replacementOf context cut text, text, hcompacts.2, ?_⟩
    rw [happly]
    exact keeps_of_compacts hcontext htokens hcompacts
  · intro host event answer hcontext hanswer
    obtain ⟨window, cut, text, hwindow, hcompacts⟩ := compacts_of_handle hanswer
    have htokens : event.tokens.length = event.context.length := List.length_map _
    refine ⟨window, _, cut, text, replacementOf event.context cut text, hwindow, rfl,
      target_pos hcompacts.1, hcompacts.2, ?_⟩
    rw [happly]
    exact keeps_of_compacts hcontext htokens hcompacts

def answeredInputs : List Block :=
  [.userText "<context_summary>\nold", .userText "a", .toolCall ⟨"1", "read", ""⟩,
    .toolResult (.success "1" "text"), .userText "b", .assistantText "c"]

theorem session_answeredInputs : SessionContext answeredInputs := by
  have hlast : Turns ([.assistantText "c"] ++ [].map Block.toolResult ++ []) :=
    .answer (by simp [isAssistant]) rfl .nil
  have hfirst : Turns ([.toolCall ⟨"1", "read", ""⟩] ++
      [ToolResult.success "1" "text"].map Block.toolResult ++ (.userText "b" :: _)) :=
    .answer (by simp [isAssistant]) rfl (.input rfl hlast)
  exact .summary rfl (.input rfl hfirst)

def overflowEvent : RoundEvent where
  request :=
    { point := .retry ⟨"context_overflow", ""⟩ 0
      window := some 10
      inputTokens := none
      context := answeredInputs }
  seen := ⟨[], 6⟩

def answeringHost : Host where
  side _ := .ok ⟨"new", .stop⟩
  aborted := false

theorem handle_overflowEvent : (handle answeringHost overflowEvent).answer =
    .ok (some { replace := some ⟨[summaryBlock "new", .userText "b"], 1⟩ }) := by
  have hhalf : cutOf overflowEvent.context overflowEvent.tokens (windowTarget 10 / 2 ^ (0 + 1)) =
      .ok (some 5) := by decide +kernel
  change (retryRound answeringHost overflowEvent ⟨"context_overflow", ""⟩ 0).answer = _
  rw [retryRound, show overflowEvent.request.window = some 10 from rfl]
  dsimp only
  rw [if_neg (by decide), hhalf]
  rfl

theorem compaction_keeps_answered :
    (∃ replace text, RoundBeforeAnswer.mk (some ⟨[summaryBlock "new", .userText "b"], 1⟩) none none =
        { replace := some replace } ∧
      Keeps answeredInputs [3, 1, 9, 9, 1, 5] 5 5 text
        ((replaceCommit replace).apply answeredInputs)) ∧
    ∃ window target cut text replace, overflowEvent.request.window = some window ∧
      target = targetOf window overflowEvent.request.point ∧ 0 < target ∧
      RoundBeforeAnswer.mk (some ⟨[summaryBlock "new", .userText "b"], 1⟩) none none =
        { replace := some replace } ∧
      Keeps overflowEvent.context overflowEvent.tokens target cut text
        ((replaceCommit replace).apply overflowEvent.context) := by
  have hcut : cutOf answeredInputs [3, 1, 9, 9, 1, 5] 5 = .ok (some 5) := by decide +kernel
  have hcompact : compact answeringHost.side answeredInputs 5 none =
      .ok { replace := some ⟨[summaryBlock "new", .userText "b"], 1⟩ } := rfl
  exact ⟨compaction_keeps.1 session_answeredInputs rfl (by norm_num) hcut hcompact,
    compaction_keeps.2 session_answeredInputs handle_overflowEvent⟩

end Compaction

end Yuke.Js
