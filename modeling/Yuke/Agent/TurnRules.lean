import Yuke.Agent.HandOver
import Yuke.Engine.DriveInput

/-!
# Rules for the inputs of a turn

A turn takes its inputs through checks, and each commit gets the inputs that the turn took since the
last one. What the checks say of an input then holds of each commit, in any world that keeps it.
-/

set_option autoImplicit false

namespace Yuke.Agent

open Yuke.Ai (Block)
open Yuke.Engine
open Yuke.Protocol
open Yuke.Shared (Contract Program)

/-- What a take needs of its world. The world moves along `R` between states that stand. A pending
input is `source` when the take reads it, and `good` when the take keeps it. -/
structure TakeRules {σ : Type} (K : Contract SessionAwait SessionAwait.Reply σ) (R : σ → σ → Prop)
    (stands : σ → Prop) (source good : σ → PendingInput → Prop) : Prop where
  refl : ∀ s, stands s → R s s
  trans : ∀ s t u, R s t → R t u → R s u
  onward : ∀ s t, R s t → stands t
  source_mono : ∀ s t input, R s t → source s input → source t input
  good_mono : ∀ s t input, R s t → good s input → good t input
  pending : ∀ held s, stands s → K.allowed s ⟨held, .pending none⟩ ∧
    ∀ reply t, K.answers s ⟨held, .pending none⟩ reply t → R s t ∧
      ∀ inputs, reply = .ok inputs → ∀ input ∈ inputs, source t input
  check : ∀ held s input, stands s → source s input → (check held input).Holds K
    (fun out t => R s t ∧ ∀ found, out = .ok (some found) → good t found) s

def TookGood {σ : Type} (good : σ → PendingInput → Prop) (taken : List ConsumedInput)
    (before : List Block) (out : Except TakeError (List Block) × List ConsumedInput) (t : σ) :
    Prop :=
  ∃ inputs, out.2 = taken ++ records inputs ∧ (∀ input ∈ inputs, good t input) ∧
    ∀ blocks, out.1 = .ok blocks → blocks = before ++ modelBlocks inputs

section Rules

variable {σ : Type} {K : Contract SessionAwait SessionAwait.Reply σ} {R : σ → σ → Prop}
  {stands : σ → Prop} {source good : σ → PendingInput → Prop} {held : Held} {s t : σ}

theorem tookGood_none {taken : List ConsumedInput} {before : List Block}
    {result : Except TakeError (List Block)} (h : ∀ blocks, result = .ok blocks → blocks = before) :
    TookGood good taken before (result, taken) t :=
  ⟨[], by simp [records], by simp, by simpa [modelBlocks] using h⟩

namespace TakeRules

theorem takeEach (h : TakeRules K R stands source good) (hs : stands s) (before : List Block)
    {pending : List PendingInput} (hpending : ∀ input ∈ pending, source s input) :
    (takeEach held before pending).Holds K
      (fun out t => R s t ∧ TookGood good held.taken before out t) s := by
  induction pending generalizing held before s with
  | nil => exact ⟨h.refl s hs, tookGood_none fun _ heq => (Except.ok.inj heq).symm⟩
  | cons input rest ih =>
    have hrest : ∀ other ∈ rest, source s other := fun other hother =>
      hpending other (List.mem_cons_of_mem _ hother)
    unfold Agent.takeEach
    split
    · exact ih hs before hrest
    · refine (h.check held s input hs (hpending input List.mem_cons_self)).bind ?_
      rintro checked t ⟨hst, hchecked⟩
      have ht := h.onward s t hst
      have hrest' : ∀ other ∈ rest, source t other := fun other hother =>
        h.source_mono s t other hst (hrest other hother)
      rcases checked with error | taken
      · exact ⟨hst, tookGood_none fun _ heq => by cases heq⟩
      cases taken with
      | none =>
        refine (ih ht before hrest').mono fun out u hu => ?_
        exact ⟨h.trans s t u hst hu.1, hu.2⟩
      | some found =>
        refine (ih ht _ hrest').mono ?_
        rintro ⟨result, taken⟩ u ⟨htu, inputs, hrecords, hgood, hblocks⟩
        refine ⟨h.trans s t u hst htu, found :: inputs, ?_, ?_, ?_⟩
        · simpa [records] using hrecords
        · intro other hother
          rcases List.mem_cons.mp hother with rfl | hother
          · exact h.good_mono t u _ htu (hchecked _ rfl)
          · exact hgood other hother
        · simpa [modelBlocks] using hblocks

theorem take (h : TakeRules K R stands source good) (hs : stands s) :
    (take held).Holds K (fun out t => R s t ∧ TookGood good held.taken [] out t) s := by
  obtain ⟨hallowed, hreply⟩ := h.pending held s hs
  refine ⟨hallowed, fun reply t hanswers => ?_⟩
  obtain ⟨hst, hsource⟩ := hreply reply t hanswers
  rcases reply with error | pending
  · exact ⟨hst, tookGood_none fun _ heq => by cases heq⟩
  · refine (h.takeEach (h.onward s t hst) [] (hsource pending rfl)).mono fun out u hu => ?_
    exact ⟨h.trans s t u hst hu.1, hu.2⟩

end TakeRules

def SessionCall.plain : SessionCall → Bool
  | .acceptInput _ | .drive _ | .update _ => true
  | _ => false

/-- The commit holds the blocks of `inputs` and nothing else, or no input and what a turn made. The
end of a failed turn holds no block. -/
def Brings (inputs : List PendingInput) (commit : Commit) : Prop :=
  commit.blocks = [] ∨ Sourced (modelBlocks inputs) commit

structure TurnRules {σ : Type} (K : Contract SessionAwait SessionAwait.Reply σ) (R : σ → σ → Prop)
    (stands : σ → Prop) (source good : σ → PendingInput → Prop) : Prop
    extends TakeRules K R stands source good where
  ask : ∀ held s (call : SessionCall), stands s → call.plain = true → K.allowed s ⟨held, call⟩ ∧
    ∀ reply t, K.answers s ⟨held, call⟩ reply t → R s t
  commit : ∀ held s commit inputs, stands s → (∀ input ∈ inputs, good s input) →
    Brings inputs commit → K.allowed s ⟨held, .commit commit (records inputs)⟩ ∧
      ∀ reply t, K.answers s ⟨held, .commit commit (records inputs)⟩ reply t → R s t

/-- The taken inputs are good, and their blocks are the input that the driver got and did not
save. -/
structure Carries {σ : Type} (stands : σ → Prop) (good : σ → PendingInput → Prop)
    (seen : List Block × Fate) (journal : TurnJournal) (s : σ) : Prop where
  stands : stands s
  inputs : ∃ inputs, journal.taken = records inputs ∧ (∀ input ∈ inputs, good s input) ∧
    (seen.2.lost = false → seen.2.refused = none → modelBlocks inputs = seen.1)

def recordBoth (seen : List Block × Fate) (a : Await) (reply : a.Reply) : List Block × Fate :=
  (recordInput seen.1 a reply, seen.2.record a reply)

namespace TurnRules

variable {seen : List Block × Fate} {journal : TurnJournal} {context : List Block}

theorem asks (h : TurnRules K R stands source good) (hs : stands s) {call : SessionCall}
    {β : Type} {f : call.Reply → Sessioning β} {post : β → σ → Prop} (hcall : call.plain = true)
    (hf : ∀ reply t, R s t → (f reply).Holds K post t) :
    (Agent.ask held call >>= f).Holds K post s := by
  obtain ⟨hallowed, hreply⟩ := h.ask held s call hs hcall
  exact ⟨hallowed, fun reply t hanswers => hf reply t (hreply reply t hanswers)⟩

theorem carries_commit (h : TurnRules K R stands source good)
    (hcarries : Carries stands good seen journal s) {commit : Commit}
    (hsourced : Sourced seen.1 commit) (hkept : seen.2.lost = false)
    (hfailure : ∀ error, seen.2.refused = some error → IsFailure commit error) :
    (journal.commit held commit).Holds K
      (fun out t => Carries stands good (recordBoth seen ⟨context, .save commit⟩ out.1) out.2 t)
      s := by
  obtain ⟨inputs, htaken, hgood, hblocks⟩ := hcarries.inputs
  have hbrings : Brings inputs commit := by
    cases hrefused : seen.2.refused with
    | some error => exact .inl (hfailure error hrefused).2.1
    | none =>
      rw [← hblocks hkept hrefused] at hsourced
      exact .inr hsourced
  obtain ⟨hallowed, hreply⟩ :=
    h.commit { held with taken := [] } s commit inputs hcarries.stands hgood hbrings
  unfold TurnJournal.commit
  rw [htaken]
  refine ⟨hallowed, fun reply t hanswers => ?_⟩
  have ht := h.onward s t (hreply reply t hanswers)
  rcases reply with error | number
  · refine ⟨ht, [], rfl, by simp, fun hlost => ?_⟩
    exact absurd hlost (by simp [recordBoth, Fate.record])
  · refine h.asks ht rfl fun _ u htu => ?_
    exact ⟨h.onward t u htu, [], rfl, by simp, fun _ _ => rfl⟩

theorem carries_inbox (h : TurnRules K R stands source good)
    (hcarries : Carries stands good seen journal s) (hgiven : seen.1 = [])
    (hkept : seen.2.lost = false) (hcalm : seen.2.refused = none) :
    (journal.inbox held).Holds K
      (fun out t => Carries stands good (recordBoth seen ⟨context, .inbox⟩ out.1) out.2 t) s := by
  obtain ⟨inputs, htaken, _, hblocks⟩ := hcarries.inputs
  have hempty : journal.taken = [] := by
    rw [htaken, modelBlocks_eq_nil ((hblocks hkept hcalm).trans hgiven)]
    rfl
  refine (h.take hcarries.stands).bind ?_
  rintro ⟨result, taken⟩ t ⟨hst, inputs', htaken', hgood, hresult⟩
  have htaken'' : taken = journal.taken ++ records inputs' := htaken'
  rw [hempty, List.nil_append] at htaken''
  have ht := h.onward s t hst
  rcases result with error | blocks
  · refine ⟨ht, inputs', htaken'', hgood, fun _ hrefused => ?_⟩
    exact absurd hrefused (by simp [recordBoth, Fate.record])
  · refine ⟨ht, inputs', htaken'', hgood, fun _ _ => ?_⟩
    exact (hresult blocks rfl).symm

theorem carries_drive (h : TurnRules K R stands source good)
    (hcarries : Carries stands good seen journal s) {wait : Wait}
    (hrecord : ∀ reply, recordBoth seen ⟨context, wait⟩ reply = seen) :
    (Agent.ask held (.drive wait) >>= fun reply => pure (reply, journal)).Holds K
      (fun out t => Carries stands good (recordBoth seen ⟨context, wait⟩ out.1) out.2 t) s := by
  refine h.asks hcarries.stands rfl fun reply t hst => ?_
  obtain ⟨inputs, htaken, hgood, hblocks⟩ := hcarries.inputs
  change Carries stands good (recordBoth seen ⟨context, wait⟩ reply) journal t
  rw [hrecord reply]
  exact ⟨h.onward s t hst, inputs, htaken,
    fun input hinput => h.good_mono s t input hst (hgood input hinput), hblocks⟩

theorem carries_answer (h : TurnRules K R stands source good) {session : Session} (a : Await)
    (hcarries : Carries stands good seen journal s)
    (hallowed : (inputContract.both failureContract).allowed seen a) :
    (answer session a journal).Holds K (fun out t => ∃ seen',
      (inputContract.both failureContract).answers seen a out.1 seen' ∧
        Carries stands good seen' out.2 t) s := by
  have hdone : ∀ {p : Sessioning (a.Reply × TurnJournal)},
      p.Holds K (fun out t => Carries stands good (recordBoth seen a out.1) out.2 t) s →
      p.Holds K (fun out t => ∃ seen',
        (inputContract.both failureContract).answers seen a out.1 seen' ∧
          Carries stands good seen' out.2 t) s :=
    fun hp => hp.mono fun out _ hcarries => ⟨recordBoth seen a out.1, ⟨rfl, rfl⟩, hcarries⟩
  obtain ⟨context, wait⟩ := a
  obtain ⟨hinput, hkept, hfailure⟩ := hallowed
  cases wait with
  | save commit => exact hdone (h.carries_commit hcarries hinput hkept hfailure)
  | inbox =>
    have hcalm : seen.2.refused = none :=
      Option.eq_none_iff_forall_ne_some.mpr fun error herror => hfailure error herror
    exact hdone (h.carries_inbox hcarries hinput hkept hcalm)
  | event event => cases event <;> exact hdone (h.carries_drive hcarries fun _ => rfl)
  | _ => exact hdone (h.carries_drive hcarries fun _ => rfl)

theorem addNote (h : TurnRules K R stands source good) (hs : stands s) (newestTurn : NewestTurn)
    (input : List Block) : (addNote held newestTurn input).Holds K
      (fun out t => R s t ∧ TookGood good held.taken input out t) s := by
  unfold Agent.addNote
  dsimp only
  split
  · exact ⟨h.refl s hs, tookGood_none fun _ heq => (Except.ok.inj heq).symm⟩
  · refine h.asks hs rfl fun reply t hst => ?_
    rcases reply with error | number
    · exact ⟨hst, tookGood_none fun _ heq => by cases heq⟩
    · refine (h.take (h.onward s t hst)).bind ?_
      rintro ⟨result, taken⟩ u ⟨htu, inputs, htaken, hgood, hresult⟩
      have hsu := h.trans s t u hst htu
      rcases result with error | blocks
      · exact ⟨hsu, inputs, htaken, hgood, fun _ heq => by cases heq⟩
      · refine ⟨hsu, inputs, htaken, hgood, ?_⟩
        rintro _ ⟨rfl⟩
        rw [hresult blocks rfl, List.nil_append]

theorem runTurn (h : TurnRules K R stands source good) (setup : TurnSetup) (fuel : Nat)
    (session : Session) (hs : stands s) :
    (session.runTurn setup fuel).Holds K (fun _ t => stands t) s := by
  unfold Session.runTurn
  split
  · exact hs
  refine (h.take hs).bind ?_
  rintro ⟨result, taken⟩ t ⟨hst, inputs, htaken, hgood, hresult⟩
  have ht := h.onward s t hst
  rcases result with error | input
  · exact ht
  dsimp only
  split
  · exact ht
  refine (h.addNote ht session.newestTurn input).bind ?_
  rintro ⟨result, taken'⟩ u ⟨htu, noted, htaken', hgood', hresult'⟩
  have hu := h.onward t u htu
  rcases result with error | blocks
  · exact hu
  have hall : ∀ input ∈ inputs ++ noted, good u input := by
    intro input hinput
    rcases List.mem_append.mp hinput with hinput | hinput
    · exact h.good_mono t u input htu (hgood input hinput)
    · exact hgood' input hinput
  have hrecords : taken' = records (inputs ++ noted) := by
    have hfirst : taken = [] ++ records inputs := htaken
    have hsecond : taken' = taken ++ records noted := htaken'
    rw [hsecond, hfirst, List.nil_append, records, records, records, List.map_append]
  have hblocks : blocks = modelBlocks (inputs ++ noted) := by
    rw [hresult' blocks rfl, hresult input rfl, List.nil_append, modelBlocks, modelBlocks,
      modelBlocks, List.flatMap_append]
  have hdriver := (run_holds_input (setup.parts session) fuel session.context
    (modelBlocks (inputs ++ noted)) session.inputTokens).both (run_holds_failure
      (setup.parts session) fuel session.context (modelBlocks (inputs ++ noted))
      session.inputTokens)
  have hcarries : Carries stands good (modelBlocks (inputs ++ noted), ({} : Fate))
      { taken := records (inputs ++ noted), inputTokens := session.inputTokens } u :=
    ⟨hu, _, rfl, hall, fun _ _ => rfl⟩
  dsimp only
  rw [hrecords, hblocks]
  refine (Program.Holds.handle (fun a seen journal s hcarries hallowed =>
    h.carries_answer a hcarries hallowed) hdriver hcarries).bind ?_
  rintro _ v ⟨_, _, hcarries'⟩
  exact hcarries'.stands

end TurnRules

end Rules

end Yuke.Agent
