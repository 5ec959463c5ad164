import Yuke.Engine.Drive
import Yuke.Engine.TurnSteps

/-!
# Proof rules of the driver

A property of a turn is an invariant of its waits. The rules here follow the control flow of the
driver once, and leave to each property what its own predicates must satisfy.
-/

set_option autoImplicit false

namespace Yuke.Engine

open Yuke.Ai Yuke.Shared

@[simp] theorem journaled_replaced (parts : TurnParts) (commit : Commit) :
    (parts.journaled commit).replaced = commit.replaced := by
  unfold TurnParts.journaled
  split
  · rfl
  · rfl

@[simp] theorem journaled_blocks (parts : TurnParts) (commit : Commit) :
    (parts.journaled commit).blocks = commit.blocks := by
  unfold TurnParts.journaled
  split
  · rfl
  · rfl

theorem journaled_apply (parts : TurnParts) (commit : Commit) (context : List Block) :
    (parts.journaled commit).apply context = commit.apply context := by
  simp [Commit.apply]

def Await.Asks (a : Await) : Prop :=
  match a.wait with
  | .openReply request => request.blocks = a.held
  | .beforeRound _ | .retryRound _ _ | .afterRound _ _ | .credential _ | .encode _ _ _
  | .nextEvent | .retryDelay _ _ | .sleep _ => True
  | .event (.toolStarted _ _) | .event (.toolFinished _ _ _ _) => False
  | .event _ => True
  | _ => False

def Await.Works (a : Await) : Prop :=
  match a.wait with
  | .beforeTool _ | .afterTool _ _ | .runTool _ _ | .isCancelled | .wake _ => True
  | .event (.toolStarted _ _) | .event (.toolFinished _ _ _ _) => True
  | _ => False

section Rules

variable {σ : Type} {K : Contract Await Await.Reply σ} {Same : σ → σ → Prop}

/-- While `Stands` holds of the world and the context, each wait of the kind is allowed, and it
moves the world along `Same` only. -/
structure Footing (K : Contract Await Await.Reply σ) (Same : σ → σ → Prop)
    (Stands : σ → List Block → Prop) (Kind : Await → Prop) : Prop where
  refl : ∀ s, Same s s
  trans : ∀ {s t u}, Same s t → Same t u → Same s u
  stands : ∀ {s t held}, Same s t → Stands s held → Stands t held
  allowed : ∀ {s a}, Stands s a.held → Kind a → K.allowed s a
  same : ∀ {s a r t}, Kind a → K.answers s a r t → Same s t

variable {Stands : σ → List Block → Prop} {Kind : Await → Prop} {α : Type}
variable {held : List Block} {s : σ}

theorem Footing.await (h : Footing K Same Stands Kind) {wait : Wait}
    {f : wait.Reply → Driving α} {post : α → σ → Prop} (hs : Stands s held)
    (hkind : Kind ⟨held, wait⟩)
    (hf : ∀ r t, K.answers s ⟨held, wait⟩ r t → Same s t → Stands t held →
      (f r).Holds K post t) :
    (Engine.await held wait >>= f).Holds K post s := by
  refine ⟨h.allowed hs hkind, fun r t hr => ?_⟩
  have hsame := h.same hkind hr
  exact hf r t hr hsame (h.stands hsame hs)

theorem Footing.await_steady (h : Footing K Same Stands Kind) {wait : Wait}
    {f : wait.Reply → Driving α} {post : α → σ → Prop} (hs : Stands s held)
    (hkind : Kind ⟨held, wait⟩)
    (hf : ∀ r t u, K.answers s ⟨held, wait⟩ r t → Same t u → Stands u held →
      (f r).Steady K Same post u) :
    (Engine.await held wait >>= f).Steady K Same post s := by
  refine ⟨h.allowed hs hkind, fun r t hr => ?_⟩
  have hsame := h.same hkind hr
  refine ⟨hsame, fun u hu => hf r t u hr hu ?_⟩
  exact h.stands (h.trans hsame hu) hs

/-- How the answer of a request reaches the invariant: `Heard blocks` holds between the end of a
reply and the step that adds its `blocks` to the context. -/
structure Hearing (K : Contract Await Await.Reply σ) (Same : σ → σ → Prop)
    (Stands : σ → List Block → Prop) (Heard : List Block → σ → List Block → Prop) : Prop where
  asks : Footing K Same Stands Await.Asks
  silence : ∀ {s held}, Stands s held → Heard [] s held
  finish : ∀ {s held}, Stands s held → (Engine.await held .finishReply).Holds K
    (fun reply t => match reply with
      | .ok completion => Heard completion.intoBlocks t held
      | .error _ => Same s t) s
  cancel : ∀ {s held}, Stands s held → (Engine.await held .cancelReply).Holds K
    (fun blocks t => Heard ((TurnParts.keptOutput blocks).map fun block => block.content.toBlock)
      t held) s
  show_cancel : ∀ {s held blocks shown}, Heard blocks s held →
    (emit held (.responseCancelled shown)).Holds K (fun _ t => Heard blocks t held) s

def SentPost (Stands : σ → List Block → Prop) (Heard : List Block → σ → List Block → Prop)
    (held : List Block) (sent : Sent) (t : σ) : Prop :=
  match sent with
  | .answered completion _ _ => Heard completion.intoBlocks t held
  | .cancelled partials => Heard (partials.map Partial.toBlock) t held
  | .failed _ => Stands t held

variable {Heard : List Block → σ → List Block → Prop}

theorem readReply_holds (h : Hearing K Same Stands Heard) (hs : Stands s held) (fuel : Nat) :
    (TurnParts.readReply held fuel).Holds K (fun kept t => match kept with
      | some partials => Heard (partials.map Partial.toBlock) t held
      | none => Stands t held) s := by
  induction fuel generalizing s with
  | zero => trivial
  | succ fuel ih =>
    unfold TurnParts.readReply
    refine h.asks.await hs trivial ?_
    intro r t _ _ ht
    rcases r with (_ | event) | _
    · exact ht
    · refine h.asks.await ht trivial ?_
      intro _ u _ _ hu
      exact ih hu
    · refine (h.cancel ht).bind ?_
      intro blocks u hu
      refine (h.show_cancel hu).bind ?_
      intro _ v hv
      simpa [List.map_map, Function.comp_def] using hv

theorem send_holds (h : Hearing K Same Stands Heard) (request : Request) (model : Model)
    (readFuel fuel number : Nat) (hs : Stands s request.blocks) :
    (TurnParts.send request model readFuel fuel number).Holds K
      (SentPost Stands Heard request.blocks) s := by
  induction fuel generalizing s number with
  | zero => trivial
  | succ fuel ih =>
    unfold TurnParts.send
    refine h.asks.await hs trivial ?_
    intro credential t _ _ ht
    rcases credential with (error | credential) | _
    · exact ht
    · refine h.asks.await ht trivial ?_
      intro encoded t₁ _ _ hs₁
      rcases encoded with error | _
      · exact hs₁
      · refine h.asks.await hs₁ trivial ?_
        intro _ t₂ _ _ hs₂
        refine h.asks.await hs₂ rfl ?_
        intro opened t₃ _ _ hs₃
        rcases opened with _ | _
        · refine (readReply_holds h hs₃ readFuel).bind ?_
          intro kept t₄ hs₄
          rcases kept with _ | kept
          · refine (h.finish hs₄).bind ?_
            intro finished t₅ hs₅
            rcases finished with error | completion
            · refine h.asks.await (h.asks.stands hs₅ hs₄) trivial ?_
              intro _ t₆ _ _ hs₆
              refine h.asks.await hs₆ trivial ?_
              intro delay t₇ _ _ hs₇
              rcases delay with _ | delay
              · exact hs₇
              · refine h.asks.await hs₇ trivial ?_
                intro _ t₈ _ _ hs₈
                refine h.asks.await hs₈ trivial ?_
                intro slept t₉ _ _ hs₉
                rcases slept with _ | _
                · exact ih _ hs₉
                · exact h.silence hs₉
            · exact hs₅
          · exact hs₄
        · exact (h.show_cancel (h.silence hs₃)).bind fun _ _ heard => heard
    · exact h.silence ht

/-! ## The calls of an answer -/

/-- What the calls of an answer give: each outcome is recorded at the block of its call, and it
answers the id of its call when the hooks keep the ids. -/
structure Outcomes (K : Contract Await Await.Reply σ) (Same : σ → σ → Prop) (kept : Prop)
    (Recorded : Nat → Finished → σ → Prop) : Prop where
  same : ∀ {s t blockIndex finished}, Same s t → Recorded blockIndex finished s →
    Recorded blockIndex finished t
  record : ∀ {s t held blockIndex finished},
    K.answers s ⟨held, .event (.toolFinished blockIndex finished.outcome.result
      finished.outcome.display finished.duration)⟩ () t → Recorded blockIndex finished t
  keep : ∀ {s t held call outcome replacement},
    K.answers s ⟨held, .afterTool call outcome⟩ (.done (some replacement)) t → kept →
    replacement.result.callId = call.callId

variable {kept : Prop} {Recorded : Nat → Finished → σ → Prop}

def Answers (kept : Prop) (Recorded : Nat → Finished → σ → Prop) (resolved : Resolved)
    (finished : Finished) (s : σ) : Prop :=
  Recorded resolved.blockIndex finished s ∧
    (kept → finished.outcome.result.callId = resolved.call.callId)

def Approved (Recorded : Nat → Finished → σ → Prop) (resolved approved : Resolved) (s : σ) :
    Prop :=
  approved.blockIndex = resolved.blockIndex ∧ approved.call = resolved.call ∧
    ∀ result, approved.result = some result →
      result.callId = resolved.call.callId ∧ Recorded resolved.blockIndex (.ofResult result) s

def Resolved.Refuses (resolved : Resolved) : Prop :=
  ∀ result, resolved.result = some result → result.callId = resolved.call.callId

theorem resolve_refuses (parts : TurnParts) (blockIndex : Nat) (call : ToolCall) :
    (parts.resolve blockIndex call).Refuses ∧
      (parts.resolve blockIndex call).call.callId = call.callId ∧
      (parts.resolve blockIndex call).blockIndex = blockIndex := by
  unfold TurnParts.resolve
  split
  · split
    · rename_i real hreal
      refine ⟨?_, unwrapCall_callId _ _ _ hreal, rfl⟩
      intro result hresult
      cases hresult
    · rename_i refused hrefused
      refine ⟨?_, rfl, rfl⟩
      intro result hresult
      cases hresult
      exact unwrapCall_refused_callId _ _ _ hrefused
  · refine ⟨?_, rfl, rfl⟩
    intro result hresult
    cases hresult

theorem beforeTool_holds (h : Footing K Same Stands Await.Works) (hs : Stands s held)
    (call : ToolCall) :
    (TurnParts.beforeTool held call).Holds K
      (fun result t => Same s t ∧ ∀ refused, result = some refused → refused.callId = call.callId)
      s := by
  unfold TurnParts.beforeTool
  refine h.await hs trivial ?_
  intro decision t _ hst _
  rcases decision with (_ | reason) | _
  · refine ⟨hst, ?_⟩
    intro refused hrefused
    cases hrefused
  · refine ⟨hst, ?_⟩
    intro refused hrefused
    cases hrefused
    rfl
  · refine ⟨hst, ?_⟩
    intro refused hrefused
    cases hrefused
    rfl

theorem emitRefused_holds (h : Footing K Same Stands Await.Works)
    (ho : Outcomes K Same kept Recorded) (hs : Stands s held) (resolved : Resolved) :
    (TurnParts.emitRefused held resolved).Holds K
      (fun _ t => Same s t ∧ ∀ result, resolved.result = some result →
        Recorded resolved.blockIndex (.ofResult result) t) s := by
  unfold TurnParts.emitRefused
  cases hresult : resolved.result with
  | none => exact ⟨h.refl s, by simp⟩
  | some result =>
    have hworks : Await.Works ⟨held, .event (.toolFinished resolved.blockIndex result [] none)⟩ :=
      trivial
    refine ⟨h.allowed hs hworks, ?_⟩
    intro r t hr
    refine ⟨h.same hworks hr, ?_⟩
    rintro other ⟨⟩
    exact ho.record hr

theorem approve_holds (h : Footing K Same Stands Await.Works)
    (ho : Outcomes K Same kept Recorded) (hs : Stands s held) {resolved : Resolved}
    (hrefuses : resolved.Refuses) :
    (TurnParts.approve held resolved).Holds K
      (fun approved t => Same s t ∧ Approved Recorded resolved approved t) s := by
  unfold TurnParts.approve
  refine h.await hs trivial ?_
  intro _ t _ hst ht
  cases hresult : resolved.result with
  | some result =>
    refine (emitRefused_holds h ho ht resolved).bind ?_
    rintro _ u ⟨htu, hrecorded⟩
    refine ⟨h.trans hst htu, rfl, rfl, ?_⟩
    intro found hfound
    exact ⟨hrefuses found hfound, hrecorded found hfound⟩
  | none =>
    refine (beforeTool_holds h ht resolved.call).bind ?_
    rintro result u ⟨htu, hid⟩
    refine (emitRefused_holds h ho (h.stands htu ht) _).bind ?_
    rintro _ v ⟨huv, hrecorded⟩
    refine ⟨h.trans hst (h.trans htu huv), rfl, rfl, ?_⟩
    intro found hfound
    exact ⟨hid found hfound, hrecorded found hfound⟩

theorem Approved.same (ho : Outcomes K Same kept Recorded) {resolved approved : Resolved} {t : σ}
    (hst : Same s t) (ha : Approved Recorded resolved approved s) :
    Approved Recorded resolved approved t := by
  refine ⟨ha.1, ha.2.1, ?_⟩
  intro result hresult
  exact ⟨(ha.2.2 result hresult).1, ho.same hst (ha.2.2 result hresult).2⟩

theorem approveAll_holds (h : Footing K Same Stands Await.Works)
    (ho : Outcomes K Same kept Recorded) (hs : Stands s held) {group : List Resolved}
    (hrefuses : ∀ resolved ∈ group, resolved.Refuses) :
    (TurnParts.approveAll held group).Holds K
      (fun out t => Same s t ∧
        List.Forall₂ (fun resolved approved => Approved Recorded resolved approved t) group out)
      s := by
  induction group generalizing s with
  | nil => exact ⟨h.refl s, .nil⟩
  | cons resolved rest ih =>
    refine (approve_holds h ho hs (hrefuses resolved List.mem_cons_self)).bind ?_
    rintro approved t ⟨hst, happroved⟩
    have hrest := ih (h.stands hst hs) fun other hother =>
      hrefuses other (List.mem_cons_of_mem _ hother)
    refine hrest.bind ?_
    rintro others u ⟨htu, hothers⟩
    exact ⟨h.trans hst htu, .cons (happroved.same ho htu) hothers⟩

theorem afterTool_steady (h : Footing K Same Stands Await.Works)
    (ho : Outcomes K Same kept Recorded) (hs : Stands s held) (call : ToolCall)
    (outcome : ToolOutcome) (hid : outcome.result.callId = call.callId) :
    (TurnParts.afterTool held call outcome).Steady K Same
      (fun out t => Stands t held ∧ (kept → out.result.callId = call.callId)) s := by
  unfold TurnParts.afterTool
  refine h.await_steady hs trivial ?_
  intro decision t u hr _ hu
  rcases decision with (_ | replacement) | _
  · exact ⟨hu, fun _ => hid⟩
  · exact ⟨hu, fun hkept => ho.keep hr hkept⟩
  · exact ⟨hu, fun _ => hid⟩

theorem callTool_steady (h : Footing K Same Stands Await.Works) (parts : TurnParts)
    (hs : Stands s held) (blockIndex : Nat) (call : ToolCall) :
    (parts.callTool held blockIndex call).Steady K Same
      (fun finished t => Stands t held ∧ finished.outcome.result.callId = call.callId) s := by
  unfold TurnParts.callTool
  split
  · exact ⟨hs, Toolset.unknownTool_callId call⟩
  · refine h.await_steady hs trivial ?_
    intro reply t u _ _ hu
    exact ⟨hu, Toolset.outcomeOf_callId call _ _⟩

theorem searchOrCall_steady (h : Footing K Same Stands Await.Works) (parts : TurnParts)
    (hs : Stands s held) (blockIndex : Nat) (call : ToolCall) (nativeSearch : Bool) :
    (parts.searchOrCall held blockIndex call nativeSearch).Steady K Same
      (fun finished t => Stands t held ∧ finished.outcome.result.callId = call.callId) s := by
  unfold TurnParts.searchOrCall
  split
  · exact ⟨hs, search_callId _ _ _ _⟩
  · exact callTool_steady h parts hs blockIndex call

theorem startCall_steady (h : Footing K Same Stands Await.Works)
    (ho : Outcomes K Same kept Recorded) (parts : TurnParts) (hs : Stands s held)
    (blockIndex : Nat) (call : ToolCall) (nativeSearch cancelled : Bool) :
    (parts.startCall held blockIndex call nativeSearch cancelled).Steady K Same
      (fun finished t => Stands t held ∧
        (kept → finished.outcome.result.callId = call.callId)) s := by
  unfold TurnParts.startCall
  split
  · exact ⟨hs, fun _ => notExecuted_callId call _⟩
  · refine (searchOrCall_steady h parts hs blockIndex call nativeSearch).bind ?_
    rintro finished t ⟨ht, hid⟩
    refine (afterTool_steady h ho ht call finished.outcome hid).bind ?_
    intro outcome u hout
    exact hout

theorem runCall_steady (h : Footing K Same Stands Await.Works)
    (ho : Outcomes K Same kept Recorded) (parts : TurnParts) (hs : Stands s held)
    (blockIndex : Nat) (call : ToolCall) (nativeSearch : Bool) :
    (parts.runCall held blockIndex call nativeSearch).Steady K Same
      (fun finished t => Recorded blockIndex finished t ∧
        (kept → finished.outcome.result.callId = call.callId)) s := by
  unfold TurnParts.runCall
  refine h.await_steady hs trivial ?_
  intro cancelled t u _ _ hu
  refine (startCall_steady h ho parts hu blockIndex call nativeSearch cancelled).bind ?_
  rintro finished v ⟨hv, hid⟩
  refine h.await_steady hv trivial ?_
  intro _ w x hr hwx _
  exact ⟨ho.same hwx (ho.record hr), hid⟩

theorem finishCall_steady (h : Footing K Same Stands Await.Works)
    (ho : Outcomes K Same kept Recorded) (parts : TurnParts) (hs : Stands s held)
    (nativeSearch : Bool) {resolved approved : Resolved}
    (happroved : Approved Recorded resolved approved s) :
    (parts.finishCall held nativeSearch approved).Steady K Same
      (Answers kept Recorded resolved) s := by
  obtain ⟨hindex, hcall, hresult⟩ := happroved
  unfold TurnParts.finishCall
  split
  · rename_i result hsome
    exact ⟨(hresult result hsome).2, fun _ => (hresult result hsome).1⟩
  · rw [hindex, hcall]
    exact runCall_steady h ho parts hs _ _ nativeSearch

theorem callGroup_holds (h : Footing K Same Stands Await.Works)
    (ho : Outcomes K Same kept Recorded) (parts : TurnParts) (hs : Stands s held) (fuel : Nat)
    (nativeSearch : Bool) {group : List Resolved}
    (hrefuses : ∀ resolved ∈ group, resolved.Refuses) :
    (parts.callGroup fuel held nativeSearch group).Holds K
      (fun out t => Same s t ∧
        List.Forall₂ (fun resolved finished => Answers kept Recorded resolved finished t)
          group out) s := by
  unfold TurnParts.callGroup
  refine (approveAll_holds h ho hs hrefuses).bind ?_
  rintro approved t ⟨hst, happroved⟩
  have hwake : ∀ u, Same t u → (Engine.await held (.wake approved.length)).Holds K
      (fun _ v => Same u v) u := by
    intro u htu
    have hworks : Await.Works ⟨held, .wake approved.length⟩ := trivial
    have hu := h.stands (h.trans hst htu) hs
    exact ⟨h.allowed hu hworks, fun r v hr => h.same hworks hr⟩
  have hmembers : ∀ u, Same t u → List.Forall₂ (fun post p => Program.Steady K Same post p u)
      (group.map (Answers kept Recorded))
      (approved.map (parts.finishCall held nativeSearch)) := by
    intro u htu
    rw [List.forall₂_map_left_iff, List.forall₂_map_right_iff]
    refine happroved.imp ?_
    intro resolved call hcall
    exact finishCall_steady h ho parts (h.stands (h.trans hst htu) hs) nativeSearch
      (hcall.same ho htu)
  refine (Program.holds_joinAll h.refl h.trans fuel hwake hmembers).mono ?_
  rintro out u ⟨htu, hout⟩
  rw [List.forall₂_map_left_iff] at hout
  exact ⟨h.trans hst htu, hout⟩

theorem flatten_groups (parts : TurnParts) (calls : List Resolved) :
    (parts.groups calls).flatten = calls := by
  induction calls using TurnParts.groups.induct parts with
  | case1 => simp [TurnParts.groups]
  | case2 first rest parallel hparallel ih =>
    rw [TurnParts.groups, if_pos hparallel, List.flatten_cons, ih, List.cons_append,
      List.takeWhile_append_dropWhile]
  | case3 first rest parallel hparallel ih =>
    rw [TurnParts.groups, if_neg hparallel, List.flatten_cons, ih]
    rfl

theorem callGroups_holds (h : Footing K Same Stands Await.Works)
    (ho : Outcomes K Same kept Recorded) (parts : TurnParts) (hs : Stands s held) (fuel : Nat)
    (nativeSearch : Bool) (groups : List (List Resolved))
    (hrefuses : ∀ resolved ∈ groups.flatten, resolved.Refuses) :
    (parts.callGroups fuel held nativeSearch groups).Holds K
      (fun out t => Same s t ∧
        List.Forall₂ (fun resolved finished => Answers kept Recorded resolved finished t)
          groups.flatten out) s := by
  induction groups generalizing s with
  | nil => exact ⟨h.refl s, .nil⟩
  | cons group rest ih =>
    have hfirst := callGroup_holds h ho parts hs fuel nativeSearch fun resolved hmem =>
      hrefuses resolved (List.mem_append_left _ hmem)
    refine hfirst.bind ?_
    rintro first t ⟨hst, hfirst⟩
    have hrest := ih (h.stands hst hs) fun resolved hmem =>
      hrefuses resolved (List.mem_append_right _ hmem)
    refine hrest.bind ?_
    rintro others u ⟨htu, hothers⟩
    refine ⟨h.trans hst htu, List.rel_append ?_ hothers⟩
    exact hfirst.imp fun _ _ hanswers => ⟨ho.same htu hanswers.1, hanswers.2⟩

theorem callTools_holds (h : Footing K Same Stands Await.Works)
    (ho : Outcomes K Same kept Recorded) (parts : TurnParts) (hs : Stands s held) (fuel : Nat)
    (blocks : List Block) (nativeSearch : Bool) :
    (parts.callTools fuel held blocks nativeSearch).Holds K
      (fun out t => Same s t ∧
        List.Forall₂ (fun resolved finished => Answers kept Recorded resolved finished t)
          (parts.resolveCalls blocks) out) s := by
  have hgroups := flatten_groups parts (parts.resolveCalls blocks)
  have hcalls := callGroups_holds h ho parts hs fuel nativeSearch
    (parts.groups (parts.resolveCalls blocks)) ?_
  · rwa [hgroups] at hcalls
  · rw [hgroups]
    intro resolved hmem
    obtain ⟨⟨block, blockIndex⟩, _, hresolved⟩ := List.mem_filterMap.mp hmem
    cases block with
    | toolCall call =>
      simp only [Option.some.injEq] at hresolved
      rw [← hresolved]
      exact (resolve_refuses parts blockIndex call).1
    | userText | media | toolResult | assistantText | reasoning => cases hresolved

/-! ## Whole turns -/

theorem save_error {parts : TurnParts} (held : List Block) (commit : Commit) {post : Except TurnError Unit → σ → Prop}
    (h : (parts.save held commit).Holds K post s) :
    (parts.save held commit).Holds K (fun saved t => post saved t ∧
      ∀ error, saved = .error error → ∃ cause, error = .commit cause) s := by
  refine ⟨h.1, ?_⟩
  intro r t hr
  have hpost := h.2 r t hr
  rcases r with cause | _
  · refine ⟨hpost, ?_⟩
    intro error herror
    cases herror
    exact ⟨cause, rfl⟩
  · refine ⟨hpost, ?_⟩
    intro error herror
    cases herror

/-- The invariant of a turn. `Stands` holds while the driver sends a request or asks a round hook,
`Calling` while it runs the calls of an answer, and `Ready` before it carries out an action.
`Lost` holds after a save that failed, and `Ended` after the save of the end. -/
structure TurnInvariant (parts : TurnParts) (K : Contract Await Await.Reply σ)
    (Same : σ → σ → Prop) (Stands : σ → List Block → Prop)
    (Heard Calling : List Block → σ → List Block → Prop) (Planned : List Block → RoundPlan → Prop)
    (kept : Prop) (Recorded : Nat → Finished → σ → Prop) (Ready : Action × TurnState → σ → Prop)
    (Lost : σ → List Block → Prop)
    (Ended : Except RoundError Outcome → σ → List Block → Prop) : Prop where
  hearing : Hearing K Same Stands Heard
  works : ∀ blocks, Footing K Same (Calling blocks) Await.Works
  outcomes : Outcomes K Same kept Recorded
  settled : ∀ {out s}, Ready out s → out.2.Settled
  plan_before : ∀ {s t held round plan},
    K.answers s ⟨held, .beforeRound round⟩ (.done (.ok plan)) t → Planned held plan
  plan_retry : ∀ {s t held round error plan},
    K.answers s ⟨held, .retryRound round error⟩ (.done (.ok (some plan))) t → Planned held plan
  replace : ∀ {s} {state : TurnState} {plan replaced}, state.Settled → Stands s state.context →
    Planned state.context plan → plan.replace = some replaced →
    (parts.save (state.replace replaced).2.context (state.replace replaced).1).Holds K
      (fun saved t => match saved with
        | .ok () => Stands t (state.replace replaced).2.context
        | .error _ => Lost t (state.replace replaced).2.context) s
  save : ∀ {s action state commit}, Ready (action, state) s → action.commit? = some commit →
    (parts.save state.context commit).Holds K
      (fun saved t => match saved with
        | .error _ => Lost t state.context
        | .ok () => match action with
          | .send _ | .afterRound _ _ _ => Stands t state.context
          | .callTools _ => Calling commit.blocks t state.context
          | .done _ result => Ended result t state.context) s
  silent : ∀ {s action state}, Ready (action, state) s → action.commit? = none →
    Stands s state.context
  answered : ∀ {s} {state : TurnState} (completion origin), state.Settled →
    Heard completion.intoBlocks s state.context → Ready (state.modelFinished completion origin) s
  cancelled : ∀ {s} {state : TurnState} (partials), state.Settled →
    Heard (partials.map Partial.toBlock) s state.context → Ready (state.modelCancelled partials) s
  ended : ∀ {s} {state : TurnState} (result), state.Settled → Stands s state.context →
    Ready (state.done result) s
  inbox : ∀ {s} {state : TurnState}, state.Settled → Stands s state.context →
    (Engine.await state.context .inbox).Holds K
      (fun reply t => match reply with
        | .ok input => Ready (state.proceed input) t
        | .error error => Ready (state.fail (.inbox error)) t) s
  finished : ∀ {s} {state : TurnState} {blocks outcomes}, state.Settled →
    Calling blocks s state.context →
    List.Forall₂ (fun resolved finished => Answers kept Recorded resolved finished s)
      (parts.resolveCalls blocks) outcomes →
    Ready (state.toolsFinished outcomes) s ∧ Ready (state.toolsCancelled outcomes) s

section Turn

variable {parts : TurnParts} {Calling : List Block → σ → List Block → Prop}
variable {Planned : List Block → RoundPlan → Prop} {Ready : Action × TurnState → σ → Prop}
variable {Lost : σ → List Block → Prop}
variable {Ended : Except RoundError Outcome → σ → List Block → Prop}
variable (inv : TurnInvariant parts K Same Stands Heard Calling Planned kept Recorded Ready Lost
  Ended)
include inv

def RoundPost (Lost : σ → List Block → Prop) {β : Type}
    (post : List Block → β → σ → Prop) (out : Except TurnError β × TurnState) (t : σ) : Prop :=
  match out.1 with
  | .ok value => out.2.Settled ∧ post out.2.context value t
  | .error (.commit _) => Lost t out.2.context
  | .error (.round _) => False

theorem replaceContext_holds {state : TurnState} {plan : RoundPlan} (hsettled : state.Settled)
    (hs : Stands s state.context) (hplan : Planned state.context plan) :
    (parts.replaceContext state plan).Holds K
      (RoundPost Lost fun held _ t => Stands t held) s := by
  unfold TurnParts.replaceContext
  split
  · exact ⟨hsettled, hs⟩
  · rename_i replaced hreplaced
    have hfound : plan.replace = some replaced := (Option.filter_eq_some_iff.mp hreplaced).1
    have hsave := inv.replace hsettled hs hplan hfound
    refine (save_error _ _ hsave).bind ?_
    rintro saved t ⟨hpost, herror⟩
    rcases saved with error | _
    · obtain ⟨cause, rfl⟩ := herror error rfl
      exact hpost
    · exact ⟨hsettled.replace replaced, hpost⟩

theorem sendPlans_holds (loopFuel fuel : Nat) {state : TurnState} {plan : RoundPlan}
    (hsettled : state.Settled) (hs : Stands s state.context)
    (hplan : Planned state.context plan) :
    (parts.sendPlans loopFuel fuel state plan).Holds K (RoundPost Lost (SentPost Stands Heard)) s := by
  induction fuel generalizing s state plan with
  | zero => trivial
  | succ fuel ih =>
    unfold TurnParts.sendPlans
    refine (replaceContext_holds inv hsettled hs hplan).bind ?_
    rintro ⟨replaced, state⟩ t hround
    rcases replaced with (error | error) | _
    · exact hround.elim
    · exact hround
    · obtain ⟨hsettled, ht⟩ := hround
      refine (send_holds inv.hearing _ _ loopFuel loopFuel 1 ht).bind ?_
      intro sent u hu
      cases sent with
      | answered completion origin native => exact ⟨hsettled, hu⟩
      | cancelled kept => exact ⟨hsettled, hu⟩
      | failed error =>
        refine inv.hearing.asks.await hu trivial ?_
        intro _ v _ huv hv
        refine inv.hearing.asks.await hv trivial ?_
        intro retry w hretry _ hw
        rcases retry with (hook | _ | plan) | _
        · exact ⟨hsettled, hw⟩
        · exact ⟨hsettled, hw⟩
        · exact ih hsettled hw (inv.plan_retry hretry)
        · exact ⟨hsettled, inv.hearing.silence hw⟩

theorem sendRound_holds (fuel : Nat) {state : TurnState} (hsettled : state.Settled)
    (hs : Stands s state.context) :
    (parts.sendRound fuel state).Holds K (RoundPost Lost (SentPost Stands Heard)) s := by
  unfold TurnParts.sendRound
  refine inv.hearing.asks.await hs trivial ?_
  intro reply t hreply _ ht
  rcases reply with (error | plan) | _
  · exact ⟨hsettled, ht⟩
  · exact sendPlans_holds inv fuel fuel hsettled ht (inv.plan_before hreply)
  · exact ⟨hsettled, inv.hearing.silence ht⟩

theorem step_ready {sent : Sent} {state : TurnState} (hsettled : state.Settled)
    (hs : SentPost Stands Heard state.context sent s) : Ready (sent.step state) s := by
  cases sent with
  | answered completion origin native => exact inv.answered completion origin hsettled hs
  | failed error => exact inv.ended _ hsettled hs
  | cancelled partials => exact inv.cancelled partials hsettled hs

def TurnPost (Lost : σ → List Block → Prop)
    (Ended : Except RoundError Outcome → σ → List Block → Prop)
    (out : Except TurnError Outcome × List Block) (t : σ) : Prop :=
  match out.1 with
  | .ok outcome => Ended (.ok outcome) t out.2
  | .error (.round error) => Ended (.error error) t out.2
  | .error (.commit _) => Lost t out.2

theorem carryOut_holds (loopFuel fuel : Nat) (nativeSearch : Bool) {out : Action × TurnState}
    (hready : Ready out s) :
    (parts.carryOut loopFuel fuel nativeSearch out).Holds K (TurnPost Lost Ended) s := by
  induction fuel generalizing s nativeSearch out with
  | zero => trivial
  | succ fuel ih =>
    obtain ⟨action, state⟩ := out
    have hsettled := inv.settled hready
    cases action with
    | send commit =>
      unfold TurnParts.carryOut
      cases commit with
      | none =>
        refine (sendRound_holds inv loopFuel hsettled (inv.silent hready rfl)).bind ?_
        intro out u hu
        obtain ⟨(error | error) | sent, state⟩ := out
        · exact hu.elim
        · exact hu
        · exact ih _ (step_ready inv hu.1 hu.2)
      | some commit =>
        refine (save_error _ _ (inv.save hready rfl)).bind ?_
        rintro saved t ⟨hpost, herror⟩
        rcases saved with error | _
        · obtain ⟨cause, rfl⟩ := herror error rfl
          exact hpost
        · refine (sendRound_holds inv loopFuel hsettled hpost).bind ?_
          intro out u hu
          obtain ⟨(error | error) | sent, state⟩ := out
          · exact hu.elim
          · exact hu
          · exact ih _ (step_ready inv hu.1 hu.2)
    | callTools commit =>
      unfold TurnParts.carryOut
      refine (save_error _ _ (inv.save hready rfl)).bind ?_
      rintro saved t ⟨hpost, herror⟩
      rcases saved with error | _
      · obtain ⟨cause, rfl⟩ := herror error rfl
        exact hpost
      · refine (callTools_holds (inv.works commit.blocks) inv.outcomes parts hpost loopFuel
          commit.blocks nativeSearch).bind ?_
        rintro outcomes u ⟨htu, houtcomes⟩
        refine (inv.works commit.blocks).await ((inv.works commit.blocks).stands htu hpost)
          trivial ?_
        intro cancelled v _ huv hv
        have hanswers : List.Forall₂ (fun resolved finished =>
            Answers kept Recorded resolved finished v) (parts.resolveCalls commit.blocks) outcomes :=
          houtcomes.imp fun _ _ h => ⟨inv.outcomes.same huv h.1, h.2⟩
        have hnext := inv.finished hsettled hv hanswers
        rcases cancelled with _ | _
        · exact ih nativeSearch hnext.1
        · exact ih nativeSearch hnext.2
    | afterRound context finishReason commit =>
      unfold TurnParts.carryOut
      refine (save_error _ _ (inv.save hready rfl)).bind ?_
      rintro saved t ⟨hpost, herror⟩
      rcases saved with error | _
      · obtain ⟨cause, rfl⟩ := herror error rfl
        exact hpost
      · refine inv.hearing.asks.await hpost trivial ?_
        intro decision u _ _ hu
        rcases decision with (error | _ | _) | _
        · exact ih nativeSearch (inv.ended _ hsettled hu)
        · refine (inv.inbox hsettled hu).bind ?_
          intro reply v hv
          rcases reply with error | input
          · exact ih nativeSearch hv
          · exact ih nativeSearch hv
        · refine ih nativeSearch ?_
          unfold TurnState.stop
          split
          · exact inv.ended _ hsettled hu
          · exact inv.ended _ hsettled hu
        · exact ih nativeSearch (inv.ended _ hsettled hu)
    | done commit result =>
      unfold TurnParts.carryOut
      refine (save_error _ _ (inv.save hready rfl)).bind ?_
      rintro saved t ⟨hpost, herror⟩
      rcases saved with error | _
      · obtain ⟨cause, rfl⟩ := herror error rfl
        exact hpost
      · cases result with
        | ok outcome => exact hpost
        | error error => exact hpost

end Turn

end Rules

end Yuke.Engine
