import Yuke.Shared.Weave
import Yuke.Engine.DriveRules

/-!
# The calls of an answer

The calls of an answer run group by group. Each wait of the driver belongs to one call, or asks the
executor which call of a group goes on. So a run of all calls is a weave of the runs of the single
calls, and the order of the groups is the only order between them.
-/

set_option autoImplicit false

namespace Yuke.Engine

open Yuke.Ai Yuke.Shared Yuke.Shared.Program

abbrev Waited : Type := (a : Await) × a.Reply

theorem reply_nonempty (a : Await) : Nonempty a.Reply :=
  ⟨calmReply ⟨[], .stop, "stop", {}⟩ a⟩

def started (held : List Block) (resolved : Resolved) : Waited :=
  ⟨⟨held, .event (.toolStarted resolved.blockIndex resolved.call)⟩, ()⟩

def ended (held : List Block) (resolved : Resolved) (finished : Finished) : Waited :=
  ⟨⟨held, .event (.toolFinished resolved.blockIndex finished.outcome.result
    finished.outcome.display finished.duration)⟩, ()⟩

def asked (held : List Block) (resolved : Resolved) (decision : Raced ToolDecision) : Waited :=
  ⟨⟨held, .beforeTool resolved.call⟩, decision⟩

def checked (held : List Block) (cancelled : Bool) : Waited := ⟨⟨held, .isCancelled⟩, cancelled⟩

def ran (held : List Block) (resolved : Resolved) (content : Except DynError ToolContent)
    (duration : Nat) : Waited :=
  ⟨⟨held, .runTool resolved.blockIndex resolved.call⟩, (content, duration)⟩

def reviewed (held : List Block) (resolved : Resolved) (finished : Finished)
    (decision : Raced (Option ToolOutcome)) : Waited :=
  ⟨⟨held, .afterTool resolved.call finished.outcome⟩, decision⟩

def afterOutcome (outcome : ToolOutcome) : Raced (Option ToolOutcome) → ToolOutcome
  | .done (some replacement) => replacement
  | .done none | .cancelled => outcome

def Finished.after (finished : Finished) (decision : Raced (Option ToolOutcome)) : Finished :=
  ⟨afterOutcome finished.outcome decision, finished.duration⟩

/-- What a call gives that starts no tool: the search, and a name that no tool has. -/
def TurnParts.Replies (parts : TurnParts) (native : Bool) (call : ToolCall) (finished : Finished) :
    Prop :=
  parts.isSearch call ∧ finished = .ofResult (Engine.search parts.search parts.tools call native) ∨
    ¬ parts.isSearch call ∧ parts.tools.find call.name = none ∧
      finished = Toolset.unknownTool call

/-- The waits of a call, from its notice of the start to its notice of the end, and its outcome. -/
inductive Course (parts : TurnParts) (held : List Block) (native : Bool) (resolved : Resolved) :
    List Waited → Finished → Prop where
  | refused (result : ToolResult) : resolved.result = some result →
      Course parts held native resolved
        [started held resolved, ended held resolved (.ofResult result)] (.ofResult result)
  | blocked (reason : String) : resolved.result = none →
      Course parts held native resolved
        [started held resolved, asked held resolved (.done (.block reason)),
          ended held resolved (.ofResult (.error resolved.call.callId reason))]
        (.ofResult (.error resolved.call.callId reason))
  | dropped : resolved.result = none →
      Course parts held native resolved
        [started held resolved, asked held resolved .cancelled,
          ended held resolved (.ofResult (notExecuted resolved.call cancelledReason))]
        (.ofResult (notExecuted resolved.call cancelledReason))
  | late : resolved.result = none →
      Course parts held native resolved
        [started held resolved, asked held resolved (.done .run), checked held true,
          ended held resolved (.ofResult (notExecuted resolved.call cancelledReason))]
        (.ofResult (notExecuted resolved.call cancelledReason))
  | replied (finished : Finished) (decision : Raced (Option ToolOutcome)) :
      resolved.result = none → parts.Replies native resolved.call finished →
      Course parts held native resolved
        [started held resolved, asked held resolved (.done .run), checked held false,
          reviewed held resolved finished decision, ended held resolved (finished.after decision)]
        (finished.after decision)
  | worked (tool : OfferedTool) (content : Except DynError ToolContent) (duration : Nat)
      (finished : Finished) (decision : Raced (Option ToolOutcome)) : resolved.result = none →
      ¬ parts.isSearch resolved.call → parts.tools.find resolved.call.name = some tool →
      finished = Toolset.outcomeOf resolved.call content duration →
      Course parts held native resolved
        [started held resolved, asked held resolved (.done .run), checked held false,
          ran held resolved content duration, reviewed held resolved finished decision,
          ended held resolved (finished.after decision)]
        (finished.after decision)

/-- The waits of one call alone. -/
def TurnParts.oneCall (parts : TurnParts) (held : List Block) (native : Bool)
    (resolved : Resolved) : Driving Finished := do
  let approved ← TurnParts.approve held resolved
  parts.finishCall held native approved

section Call

variable {parts : TurnParts} {held : List Block} {native : Bool} {resolved : Resolved}
variable {trace : List Waited} {finished : Finished}

theorem goes_await {α : Type} {wait : Wait} {f : wait.Reply → Driving α} {a : α}
    (h : Goes (await held wait >>= f) trace (done a)) :
    ∃ reply rest, trace = ⟨⟨held, wait⟩, reply⟩ :: rest ∧ Goes (f reply) rest (done a) := by
  cases trace with
  | nil => cases goes_nil.mp h
  | cons entry rest =>
    obtain ⟨reply, rfl, hnext⟩ := goes_call h
    exact ⟨reply, rest, rfl, hnext⟩

theorem afterTool_goes {α : Type} {outcome : ToolOutcome} {f : ToolOutcome → Driving α} {a : α}
    (h : Goes (TurnParts.afterTool held resolved.call outcome >>= f) trace (done a)) :
    ∃ decision rest, trace = ⟨⟨held, .afterTool resolved.call outcome⟩, decision⟩ :: rest ∧
      Goes (f (afterOutcome outcome decision)) rest (done a) := by
  obtain ⟨decision, rest, rfl, hnext⟩ := goes_await h
  refine ⟨decision, rest, rfl, ?_⟩
  rcases decision with (_ | replacement) | _
  · exact hnext
  · exact hnext
  · exact hnext

theorem emit_goes {α : Type} {event : TurnEvent} {a b : α}
    (h : Goes (emit held event >>= fun _ => return a) trace (done b)) :
    trace = [⟨⟨held, .event event⟩, ()⟩] ∧ b = a := by
  obtain ⟨_, rest, rfl, hnext⟩ := goes_await h
  obtain ⟨rfl, heq⟩ := goes_done hnext
  cases heq
  exact ⟨rfl, rfl⟩

theorem runCall_course (hresult : resolved.result = none)
    (h : Goes (parts.runCall held resolved.blockIndex resolved.call native) trace
      (done finished)) :
    Course parts held native resolved
      (started held resolved :: asked held resolved (.done .run) :: trace) finished := by
  obtain ⟨cancelled, rest, rfl, hnext⟩ := goes_await h
  cases cancelled with
  | true =>
    obtain ⟨rfl, rfl⟩ := emit_goes hnext
    exact .late hresult
  | false =>
    unfold TurnParts.startCall at hnext
    rw [if_neg Bool.false_ne_true, bind_bind] at hnext
    unfold TurnParts.searchOrCall at hnext
    split at hnext
    · rename_i hsearch
      rw [pure_eq_done, done_bind, bind_bind] at hnext
      obtain ⟨decision, rest, rfl, hemit⟩ := afterTool_goes hnext
      obtain ⟨rfl, rfl⟩ := emit_goes hemit
      exact .replied _ decision hresult (.inl ⟨hsearch, rfl⟩)
    · rename_i hsearch
      unfold TurnParts.callTool at hnext
      split at hnext
      · rename_i hfind
        rw [pure_eq_done, done_bind, bind_bind] at hnext
        obtain ⟨decision, rest, rfl, hemit⟩ := afterTool_goes hnext
        obtain ⟨rfl, rfl⟩ := emit_goes hemit
        exact .replied _ decision hresult (.inr ⟨hsearch, hfind, rfl⟩)
      · rename_i tool hfind
        rw [bind_bind] at hnext
        obtain ⟨⟨content, duration⟩, rest, rfl, hran⟩ := goes_await hnext
        simp only [pure_eq_done, done_bind, bind_bind] at hran
        obtain ⟨decision, rest, rfl, hemit⟩ := afterTool_goes hran
        obtain ⟨rfl, rfl⟩ := emit_goes hemit
        exact .worked tool content duration _ decision hresult hsearch hfind rfl

theorem oneCall_course (h : Goes (parts.oneCall held native resolved) trace (done finished)) :
    Course parts held native resolved trace finished := by
  unfold TurnParts.oneCall TurnParts.approve at h
  rw [bind_bind] at h
  obtain ⟨_, rest, rfl, hnext⟩ := goes_await h
  cases hresult : resolved.result with
  | some result =>
    simp only [hresult, TurnParts.emitRefused, bind_bind, pure_eq_done, done_bind,
      TurnParts.finishCall] at hnext
    obtain ⟨rfl, rfl⟩ := emit_goes hnext
    exact .refused result hresult
  | none =>
    simp only [hresult, bind_bind] at hnext
    obtain ⟨decision, rest, rfl, hdecided⟩ := goes_await hnext
    rcases decision with (_ | reason) | _
    · exact runCall_course hresult hdecided
    · obtain ⟨rfl, rfl⟩ := emit_goes hdecided
      exact .blocked reason hresult
    · obtain ⟨rfl, rfl⟩ := emit_goes hdecided
      exact .dropped hresult

theorem approve_ends : (TurnParts.approve held resolved).Ends 3 := by
  unfold TurnParts.approve
  cases hresult : resolved.result with
  | some result =>
    intro _
    unfold TurnParts.emitRefused
    rw [hresult]
    intro _
    trivial
  | none =>
    intro _ decision
    rcases decision with (_ | reason) | _
    · trivial
    · intro _
      trivial
    · intro _
      trivial

theorem afterTool_ends (outcome : ToolOutcome) :
    (TurnParts.afterTool held resolved.call outcome).Ends 1 := by
  intro decision
  rcases decision with (_ | replacement) | _
  · trivial
  · trivial
  · trivial

theorem searchOrCall_ends :
    (parts.searchOrCall held resolved.blockIndex resolved.call native).Ends 1 := by
  unfold TurnParts.searchOrCall
  split
  · trivial
  · unfold TurnParts.callTool
    split
    · trivial
    · intro _
      trivial

theorem startCall_ends (cancelled : Bool) :
    (parts.startCall held resolved.blockIndex resolved.call native cancelled).Ends 2 := by
  unfold TurnParts.startCall
  split
  · trivial
  · change Ends (1 + 1) _
    apply searchOrCall_ends.bind
    intro out
    exact (afterTool_ends out.outcome).bind (m := 0) fun _ => trivial

theorem finishCall_ends : (parts.finishCall held native resolved).Ends 4 := by
  unfold TurnParts.finishCall
  split
  · trivial
  · intro cancelled
    change Ends (2 + 1) (parts.startCall held resolved.blockIndex resolved.call native cancelled >>= _)
    apply (startCall_ends cancelled).bind
    intro _ _
    trivial

theorem oneCall_ends : (parts.oneCall held native resolved).Ends 7 :=
  approve_ends.bind fun _ => finishCall_ends

theorem oneCall_starts {q : Driving Finished}
    (h : Goes (parts.oneCall held native resolved) trace q) :
    ∃ more finished, Course parts held native resolved (trace ++ more) finished := by
  obtain ⟨more, finished, hmore⟩ := (oneCall_ends.goes h).2.finish reply_nonempty
  exact ⟨more, finished, oneCall_course (h.append hmore)⟩

/-- A notice of the start of the call at the block. -/
def startsAt (blockIndex : ℕ) (entry : Waited) : Bool :=
  match entry.1.wait with
  | .event (.toolStarted index _) => index = blockIndex
  | _ => false

/-- A notice of the end of the call at the block. -/
def endsAt (blockIndex : ℕ) (entry : Waited) : Bool :=
  match entry.1.wait with
  | .event (.toolFinished index _ _ _) => index = blockIndex
  | _ => false

/-- The handler of a tool starts. -/
def Starts (entry : Waited) : Prop := ∃ blockIndex call, entry.1.wait = .runTool blockIndex call

theorem Course.starts (h : Course parts held native resolved trace finished) (blockIndex : ℕ) :
    trace.countP (startsAt blockIndex) = if resolved.blockIndex = blockIndex then 1 else 0 := by
  cases h <;> simp [startsAt, List.countP_cons, started, ended, asked, checked, ran, reviewed]

theorem Course.ends (h : Course parts held native resolved trace finished) (blockIndex : ℕ) :
    trace.countP (endsAt blockIndex) = if resolved.blockIndex = blockIndex then 1 else 0 := by
  cases h <;> simp [endsAt, List.countP_cons, started, ended, asked, checked, ran, reviewed]

theorem Course.guarded (h : Course parts held native resolved trace finished) :
    (∀ entry ∈ trace.head?, ¬ Starts entry) ∧
      trace.IsChain fun a b => Starts b → a = checked held false := by
  cases h <;> simp [Starts, started, ended, asked, checked, ran, reviewed]

theorem Course.checked_before (h : Course parts held native resolved trace finished)
    {front back : List Waited} {entry : Waited} (hsplit : trace = front ++ entry :: back)
    (hstarts : Starts entry) : ∃ before, front = before ++ [checked held false] := by
  obtain ⟨hhead, hchain⟩ := h.guarded
  subst hsplit
  rcases List.eq_nil_or_concat front with rfl | ⟨before, last, rfl⟩
  · exact (hhead entry (by simp) hstarts).elim
  · rw [List.concat_eq_append] at hchain ⊢
    rw [List.append_assoc, List.singleton_append] at hchain
    have hlast := (List.isChain_append_cons_cons.mp hchain).2.1 hstarts
    exact ⟨before, by rw [hlast]⟩

end Call

section Group

variable {parts : TurnParts} {held : List Block} {native : Bool} {fuel : ℕ} {enough : Prop}
variable {may : Resolved → Resolved → Prop} {ps : Resolved → Driving Finished}

/-- The executor wakes a call. -/
def Wakes (held : List Block) (a : Await) : Prop := ∃ count, a = ⟨held, .wake count⟩

theorem nodup_of_sorted {calls : List Resolved}
    (hsorted : calls.Pairwise fun a b => a.blockIndex < b.blockIndex) : calls.Nodup := by
  refine hsorted.imp ?_
  intro a b hlt heq
  subst heq
  exact Nat.lt_irrefl _ hlt

theorem approveAll_weaving {group : List Resolved} (hnodup : group.Nodup)
    (hps : ∀ resolved ∈ group, ps resolved = parts.oneCall held native resolved)
    (hmay : ∀ i ∈ group, ∀ j ∈ group, may i j) :
    Weaving (Wakes held) may enough group ps (TurnParts.approveAll held group)
      fun approved qs => group.map qs = approved.map (parts.finishCall held native) := by
  induction group generalizing ps with
  | nil => exact weaving_done rfl
  | cons resolved rest ih =>
    obtain ⟨hfresh, hnodup⟩ := List.nodup_cons.mp hnodup
    obtain ⟨hmay, hrest⟩ := List.forall_mem_cons.mp hmay
    have hfirst := hps resolved List.mem_cons_self
    refine (weaving_alone hfirst (hmay resolved List.mem_cons_self) approve_ends).bind ?_ ?_
    · intro i hi j hj
      rw [List.mem_singleton.mp hi]
      exact hmay j (List.mem_cons_of_mem _ hj)
    · intro first qs hqs
      subst hqs
      have hothers : ∀ other ∈ rest, Function.update ps resolved
          (parts.finishCall held native first) other = parts.oneCall held native other := by
        intro other hmem
        have hne : other ≠ resolved := fun heq => hfresh (heq ▸ hmem)
        rw [Function.update_of_ne hne]
        exact hps other (List.mem_cons_of_mem _ hmem)
      have happroved := ih hnodup hothers fun i hi j hj => hrest i hi j (List.mem_cons_of_mem _ hj)
      refine happroved.frame.map ?_
      rintro others rs ⟨hout, hkept⟩
      have hself := hkept resolved hfresh
      rw [Function.update_self] at hself
      rw [List.map_cons, List.map_cons, hout, hself]

theorem callGroup_weaving {group : List Resolved} (hnodup : group.Nodup)
    (hps : ∀ resolved ∈ group, ps resolved = parts.oneCall held native resolved)
    (hmay : ∀ i ∈ group, ∀ j ∈ group, may i j)
    (hfuel : enough → 14 * group.length + 1 < fuel) :
    Weaving (Wakes held) may enough group ps (parts.callGroup fuel held native group)
      fun out qs => group.map qs = out.map done := by
  have hboth : Weaving (Wakes held) may enough (group ++ group) ps
      (parts.callGroup fuel held native group) fun out qs => group.map qs = out.map done := by
    apply (approveAll_weaving hnodup hps hmay).bind hmay
    intro approved qs hqs
    rw [← hqs]
    have hends : ∀ resolved ∈ group, (qs resolved).Ends 4 := by
      intro resolved hmem
      have hfinish : qs resolved ∈ approved.map (parts.finishCall held native) := by
        rw [← hqs]
        exact List.mem_map_of_mem hmem
      obtain ⟨call, _, heq⟩ := List.mem_map.mp hfinish
      rw [← heq]
      exact finishCall_ends
    refine weaving_joinAll hnodup ⟨_, rfl⟩ hmay hends ?_
    intro henough
    have hle := hfuel henough
    omega
  exact hboth.weaken (List.append_subset.mpr ⟨List.Subset.refl _, List.Subset.refl _⟩)

theorem callGroups_weaving {groups : List (List Resolved)}
    (hsorted : groups.flatten.Pairwise fun a b => a.blockIndex < b.blockIndex)
    (hps : ∀ resolved ∈ groups.flatten, ps resolved = parts.oneCall held native resolved)
    (hgroups : ∀ group ∈ groups, ∀ i ∈ group, ∀ j ∈ group, may i j)
    (horder : ∀ i j : Resolved, i.blockIndex < j.blockIndex → may i j)
    (hfuel : enough → ∀ group ∈ groups, 14 * group.length + 1 < fuel) :
    Weaving (Wakes held) may enough groups.flatten ps (parts.callGroups fuel held native groups)
      fun out qs => groups.flatten.map qs = out.map done := by
  induction groups generalizing ps with
  | nil => exact weaving_done rfl
  | cons group rest ih =>
    rw [List.flatten_cons] at hsorted hps ⊢
    obtain ⟨hgroup, hrest, hacross⟩ := List.pairwise_append.mp hsorted
    obtain ⟨hfirst, hlater⟩ := List.forall_mem_cons.mp hgroups
    have hcall := @callGroup_weaving parts held native fuel enough may ps group
      (nodup_of_sorted hgroup) (fun resolved hmem => hps resolved (List.mem_append_left _ hmem))
      hfirst fun henough => hfuel henough group List.mem_cons_self
    apply hcall.frame.bind
    · intro i hi j hj
      exact horder i j (hacross i hi j hj)
    · rintro first qs ⟨hout, hkept⟩
      have hothers : ∀ resolved ∈ rest.flatten,
          qs resolved = parts.oneCall held native resolved := by
        intro resolved hmem
        rw [hkept resolved fun hin => Nat.lt_irrefl _ (hacross resolved hin resolved hmem)]
        exact hps resolved (List.mem_append_right _ hmem)
      have hgo := ih hrest hothers hlater fun henough g hg =>
        hfuel henough g (List.mem_cons_of_mem _ hg)
      refine hgo.frame.map ?_
      rintro others rs ⟨hothersOut, hfirstKept⟩
      rw [List.map_append, List.map_append, hothersOut, ← hout]
      congr 1
      apply List.map_congr_left
      intro resolved hmem
      apply hfirstKept
      intro hin
      exact Nat.lt_irrefl _ (hacross resolved hmem resolved hin)

end Group

section Groups

variable {parts : TurnParts}

theorem resolveCalls_sorted (parts : TurnParts) (blocks : List Block) :
    (parts.resolveCalls blocks).Pairwise fun a b => a.blockIndex < b.blockIndex := by
  have hindices : blocks.zipIdx.Pairwise fun a b => a.2 < b.2 := by
    rw [← List.pairwise_map, List.zipIdx_map_snd]
    exact List.pairwise_lt_range'
  apply List.Pairwise.filterMap _ _ hindices
  rintro ⟨block, i⟩ ⟨block', j⟩ hlt a ha b hb
  cases block with
  | toolCall call =>
    cases block' with
    | toolCall call' =>
      cases ha
      cases hb
      rw [(resolve_refuses parts i call).2.2, (resolve_refuses parts j call').2.2]
      exact hlt
    | userText | media | toolResult | assistantText | reasoning => cases hb
  | userText | media | toolResult | assistantText | reasoning => cases ha

def AllParallel (parts : TurnParts) (group : List Resolved) : Prop :=
  ∀ resolved ∈ group, parts.concurrency resolved = .parallel

theorem groups_kinds (calls : List Resolved) : ∀ group ∈ parts.groups calls,
    (∃ resolved, group = [resolved] ∧ parts.concurrency resolved = .serial) ∨
      group ≠ [] ∧ AllParallel parts group := by
  induction calls using TurnParts.groups.induct parts with
  | case1 => simp [TurnParts.groups]
  | case2 first rest parallel hparallel ih =>
    rw [TurnParts.groups, if_pos hparallel]
    intro group hgroup
    rcases List.mem_cons.mp hgroup with rfl | hgroup
    · refine .inr ⟨List.cons_ne_nil _ _, ?_⟩
      intro resolved hmem
      rcases List.mem_cons.mp hmem with rfl | hmem
      · exact hparallel
      · simpa using List.mem_takeWhile_imp hmem
    · exact ih group hgroup
  | case3 first rest parallel hparallel ih =>
    rw [TurnParts.groups, if_neg hparallel]
    intro group hgroup
    rcases List.mem_cons.mp hgroup with rfl | hgroup
    · refine .inl ⟨first, rfl, ?_⟩
      cases hfirst : parts.concurrency first with
      | serial => rfl
      | parallel => exact (hparallel hfirst).elim
    · exact ih group hgroup

theorem groups_head {calls group : List Resolved} (h : group ∈ (parts.groups calls).head?) :
    ∃ first rest, group = first :: rest ∧ calls.head? = some first := by
  cases calls with
  | nil =>
    rw [TurnParts.groups] at h
    cases h
  | cons first rest =>
    rw [TurnParts.groups] at h
    split at h
    · cases h
      exact ⟨first, _, rfl, rfl⟩
    · cases h
      exact ⟨first, [], rfl, rfl⟩

theorem groups_maximal (calls : List Resolved) :
    (parts.groups calls).IsChain fun group next =>
      ¬ (AllParallel parts group ∧ AllParallel parts next) := by
  induction calls using TurnParts.groups.induct parts with
  | case1 =>
    rw [TurnParts.groups]
    exact .nil
  | case2 first rest parallel hparallel ih =>
    rw [TurnParts.groups, if_pos hparallel]
    apply ih.cons
    rintro next hnext ⟨_, hparallels⟩
    obtain ⟨head, tail, rfl, hhead⟩ := groups_head hnext
    have hserial := List.head?_dropWhile_not
      (fun resolved => decide (parts.concurrency resolved = .parallel)) rest
    rw [hhead] at hserial
    exact of_decide_eq_false hserial (hparallels head List.mem_cons_self)
  | case3 first rest parallel hparallel ih =>
    rw [TurnParts.groups, if_neg hparallel]
    apply ih.cons
    rintro next _ ⟨hparallels, _⟩
    exact hparallel (hparallels first List.mem_cons_self)

/-- A wait of `earlier` can come after a wait of the later call `later` only where all calls from
`earlier` to `later` are parallel. -/
def MayFollow (parts : TurnParts) (calls : List Resolved) (later earlier : Resolved) : Prop :=
  earlier.blockIndex < later.blockIndex → ∀ resolved ∈ calls,
    earlier.blockIndex ≤ resolved.blockIndex → resolved.blockIndex ≤ later.blockIndex →
    parts.concurrency resolved = .parallel

theorem groups_mayFollow {calls : List Resolved}
    (hsorted : calls.Pairwise fun a b => a.blockIndex < b.blockIndex) :
    ∀ group ∈ parts.groups calls, ∀ later ∈ group, ∀ earlier ∈ group,
      MayFollow parts calls later earlier := by
  intro group hgroup later hlater earlier hearlier hlt resolved hresolved hge hle
  have hparallels : AllParallel parts group := by
    rcases groups_kinds calls group hgroup with ⟨only, rfl, _⟩ | ⟨_, hparallels⟩
    · rw [List.mem_singleton.mp hearlier, List.mem_singleton.mp hlater] at hlt
      exact (Nat.lt_irrefl _ hlt).elim
    · exact hparallels
  apply hparallels
  obtain ⟨before, after, hsplit⟩ := List.append_of_mem hgroup
  have hflat := flatten_groups parts calls
  rw [hsplit, List.flatten_append, List.flatten_cons] at hflat
  rw [← hflat] at hsorted hresolved
  obtain ⟨_, hrest, hbefore⟩ := List.pairwise_append.mp hsorted
  obtain ⟨_, _, hafter⟩ := List.pairwise_append.mp hrest
  rcases List.mem_append.mp hresolved with hmem | hmem
  · have := hbefore resolved hmem earlier (List.mem_append_left _ hearlier)
    omega
  · rcases List.mem_append.mp hmem with hmem | hmem
    · exact hmem
    · have := hafter later hlater resolved hmem
      omega

end Groups

/-- A cancel stays, and a check that sees no cancel comes before it. -/
structure Token {σ : Type} (answers : σ → (a : Await) → a.Reply → σ → Prop)
    (cancelled : σ → Prop) : Prop where
  stays : ∀ {s a r t}, answers s a r t → cancelled s → cancelled t
  seen : ∀ {s held t}, answers s ⟨held, .isCancelled⟩ false t → ¬ cancelled s

theorem Token.checked {σ : Type} {answers : σ → (a : Await) → a.Reply → σ → Prop}
    {cancelled : σ → Prop} (htoken : Token answers cancelled) {α : Type} {p q : Driving α}
    {s t : σ} {trace : List Waited} (hrun : Run answers p s trace q t) (hs : cancelled s)
    (held : List Block) : checked held false ∉ trace := by
  induction hrun with
  | stay => exact List.not_mem_nil
  | step hanswer _ ih =>
    intro hmem
    rcases List.mem_cons.mp hmem with heq | hmem
    · cases heq
      exact htoken.seen hanswer hs
    · exact ih (htoken.stays hanswer hs) hmem

/-- The executor wakes only a call that can go on, so two of its choices are never neighbours. -/
def Lively (held : List Block) (trace : List Waited) : Prop :=
  trace.IsChain fun a b => ¬ (Wakes held a.1 ∧ Wakes held b.1)

/-- What holds of a run of the calls of an answer, whatever the order in which they go on. -/
structure Scheduled (parts : TurnParts) (held : List Block) (native : Bool) (fuel : ℕ)
    (calls : List Resolved) (trace : List Waited) (q : Driving (List Finished))
    (tagged : List (Option Resolved × Waited)) : Prop where
  ascribed : tagged.map Prod.snd = trace
  tags : ∀ entry ∈ tagged, (entry.1 = none ∧ Wakes held entry.2.1) ∨
    ∃ resolved ∈ calls, entry.1 = some resolved
  apart : tagged.Pairwise fun a b => ∀ i j, a.1 = some i → b.1 = some j → MayFollow parts calls i j
  courses : ∀ resolved ∈ calls, ∃ more finished,
    Course parts held native resolved (own resolved tagged ++ more) finished
  results : ∀ out, q = done out → List.Forall₂ (fun resolved finished =>
    Course parts held native resolved (own resolved tagged) finished) calls out
  notices : ∀ out, q = done out → ∀ notice : ℕ → Waited → Bool,
    notice = startsAt ∨ notice = endsAt → ∀ blockIndex,
    trace.countP (notice blockIndex) =
      if blockIndex ∈ calls.map Resolved.blockIndex then 1 else 0
  returns : Lively held trace → 14 * calls.length + 1 < fuel →
    trace.length ≤ 14 * calls.length + 1 ∧ q ≠ cut

section Answer

variable {parts : TurnParts} {held : List Block} {native : Bool}
variable {calls : List Resolved} {tagged : List (Option Resolved × Waited)}

theorem sum_indices (hsorted : calls.Pairwise fun a b => a.blockIndex < b.blockIndex)
    (blockIndex : ℕ) :
    (calls.map fun resolved => if resolved.blockIndex = blockIndex then 1 else 0).sum =
      if blockIndex ∈ calls.map Resolved.blockIndex then 1 else 0 := by
  induction calls with
  | nil => rfl
  | cons first rest ih =>
    obtain ⟨hfirst, hrest⟩ := List.pairwise_cons.mp hsorted
    rw [List.map_cons, List.sum_cons, ih hrest]
    by_cases heq : first.blockIndex = blockIndex
    · have hfresh : blockIndex ∉ rest.map Resolved.blockIndex := by
        intro hmem
        obtain ⟨resolved, hresolved, hindex⟩ := List.mem_map.mp hmem
        have := hfirst resolved hresolved
        omega
      simp [heq, hfresh]
    · simp [heq, Ne.symm heq]

/-- After a cancel a tool starts only where its call stood between its check and its start. -/
theorem starts_after {before after : List (Option Resolved × Waited)} {resolved : Resolved}
    {entry : Waited} {more : List Waited} {finished : Finished}
    (hcourse : Course parts held native resolved (own resolved (before ++ after) ++ more) finished)
    (hcancelled : checked held false ∉ after.map Prod.snd) (hmem : (some resolved, entry) ∈ after)
    (hstarts : Starts entry) : ∃ front, own resolved before = front ++ [checked held false] := by
  obtain ⟨front, back, hsplit⟩ := List.append_of_mem (mem_own.mpr hmem)
  rw [own_append, hsplit] at hcourse
  have hplace : own resolved before ++ (front ++ entry :: back) ++ more =
      (own resolved before ++ front) ++ entry :: (back ++ more) := by simp
  obtain ⟨start, hstart⟩ := hcourse.checked_before hplace hstarts
  rcases List.eq_nil_or_concat front with rfl | ⟨middle, last, rfl⟩
  · rw [List.append_nil] at hstart
    exact ⟨start, hstart⟩
  · rw [List.concat_eq_append, ← List.append_assoc] at hstart
    have hlast := List.append_inj_right' hstart rfl
    cases hlast
    refine (hcancelled ?_).elim
    have hown : checked held false ∈ own resolved after := by
      rw [hsplit]
      simp
    exact List.mem_map.mpr ⟨_, mem_own.mp hown, rfl⟩

/-- The approved calls of a group can go on in each order. -/
def RunsTogether (parts : TurnParts) (held : List Block) (native : Bool) (fuel : ℕ)
    (group : List Resolved) : Prop :=
  ∀ first approved, Goes (TurnParts.approveAll held group) first (done approved) →
    ∀ (ps qs : Resolved → Driving Finished) (tagged : List (Option Resolved × Waited)) out,
      group.map ps = approved.map (parts.finishCall held native) → Weave ps tagged qs →
      (∀ entry ∈ tagged, ∃ resolved ∈ group, entry.1 = some resolved) →
      group.map qs = out.map done → tagged.length < fuel →
      ∃ full : List (Option Resolved × Waited),
        full.filter (fun entry => entry.1.isSome) = tagged ∧
        Goes (parts.callGroup fuel held native group) (first ++ full.map Prod.snd) (done out)

theorem callGroup_together {group : List Resolved} (hnodup : group.Nodup) (fuel : ℕ) :
    RunsTogether parts held native fuel group := by
  intro first approved hfirst ps qs tagged out hps hweave htags hout hfuel
  obtain ⟨full, hfull, hgoes⟩ := @weave_joinAll _ _ _ _ _ ⟨held, .wake approved.length⟩ id _ _ _ _
    Function.surjective_id hnodup _ _ hweave htags hout hfuel
  refine ⟨full, hfull, ?_⟩
  apply hfirst.bind.append
  rw [hps] at hgoes
  exact hgoes

/-- A run of all calls is a weave of the courses of the calls. -/
theorem callTools_goes {fuel : ℕ} {blocks : List Block} {trace : List Waited}
    {q : Driving (List Finished)} (h : Goes (parts.callTools fuel held blocks native) trace q) :
    ∃ tagged, Scheduled parts held native fuel (parts.resolveCalls blocks) trace q tagged := by
  have hsorted := resolveCalls_sorted parts blocks
  have hnodup := nodup_of_sorted hsorted
  have hflat := flatten_groups parts (parts.resolveCalls blocks)
  have hweaving : Weaving (Wakes held) (MayFollow parts (parts.resolveCalls blocks))
      (14 * (parts.resolveCalls blocks).length + 1 < fuel)
      (parts.groups (parts.resolveCalls blocks)).flatten (parts.oneCall held native)
      (parts.callTools fuel held blocks native)
      fun out qs => (parts.groups (parts.resolveCalls blocks)).flatten.map qs = out.map done := by
    apply callGroups_weaving
    · rwa [hflat]
    · exact fun _ _ => rfl
    · exact groups_mayFollow hsorted
    · intro i j hlt hback
      omega
    · intro hfuel group hgroup
      have hle := (List.sublist_flatten_of_mem hgroup).length_le
      rw [hflat] at hle
      omega
  rw [hflat] at hweaving
  obtain ⟨tagged, qs, hwoven⟩ := hweaving trace q h
  have hresults : ∀ out, q = done out → List.Forall₂ (fun resolved finished =>
      Course parts held native resolved (own resolved tagged) finished)
      (parts.resolveCalls blocks) out := by
    intro out heq
    have hsame : List.Forall₂ Eq ((parts.resolveCalls blocks).map qs) (out.map done) := by
      rw [hwoven.out out heq]
      exact List.forall₂_refl _
    rw [List.forall₂_map_left_iff, List.forall₂_map_right_iff] at hsame
    refine hsame.imp ?_
    intro resolved finished hdone
    have hgoes := hwoven.weave resolved
    rw [hdone] at hgoes
    exact oneCall_course hgoes
  have hmem : ∀ entry ∈ tagged, ∀ resolved, entry.1 = some resolved →
      resolved ∈ parts.resolveCalls blocks := fun _ hentry _ htag => hwoven.mem hentry htag
  refine ⟨tagged, hwoven.ascribed, hwoven.tags, hwoven.order,
    fun resolved _ => oneCall_starts (hwoven.weave resolved), hresults, ?_, ?_⟩
  · intro out heq notice hnotice blockIndex
    rw [← sum_indices hsorted, ← hwoven.ascribed, List.countP_map]
    have hcourse : ∀ resolved ∈ parts.resolveCalls blocks,
        (own resolved tagged).countP (notice blockIndex) =
          if resolved.blockIndex = blockIndex then 1 else 0 := by
      intro resolved hresolved
      obtain ⟨k, hk, rfl⟩ := List.getElem_of_mem hresolved
      have hfinished := (List.forall₂_iff_get.mp (hresults out heq)).2 k hk
        (by rwa [← (hresults out heq).length_eq])
      rcases hnotice with rfl | rfl
      · exact hfinished.starts blockIndex
      · exact hfinished.ends blockIndex
    rw [← List.map_congr_left hcourse, ← countP_own (notice blockIndex) hnodup hmem]
    apply List.countP_congr
    rintro ⟨tag, a, reply⟩ hentry
    rcases hwoven.tags _ hentry with ⟨hnone, count, hcount⟩ | ⟨resolved, _, hsome⟩
    · cases hnone
      cases hcount
      rcases hnotice with rfl | rfl
      · simp [startsAt]
      · simp [endsAt]
    · cases hsome
      simp
  · intro hlively hfuel
    have hdense : Dense tagged := by
      rw [← hwoven.ascribed] at hlively
      refine ((List.isChain_map _).mp hlively).imp_of_mem_imp ?_
      intro a b ha hb hwake
      rcases hwoven.tags a ha with ⟨_, ha⟩ | ⟨_, _, hsome⟩
      · rcases hwoven.tags b hb with ⟨_, hb⟩ | ⟨_, _, hsome⟩
        · exact (hwake ⟨ha, hb⟩).elim
        · exact .inr (by rw [hsome]; rfl)
      · exact .inl (by rw [hsome]; rfl)
    refine ⟨?_, hwoven.live hfuel hdense⟩
    have hlength := hwoven.weave.length_le hnodup hmem hdense fun _ _ => oneCall_ends
    rw [← hwoven.ascribed, List.length_map]
    omega

/-- The calls of an answer run group by group: a group is a serial call, or as many parallel calls
as follow each other. For each order in which the calls of a group go on, each call has its own
course, and the results are in call order. Between the check of a call and the start of its tool
the driver does not wait, so a cancel stops each tool whose call is not there. -/
theorem callTools_scheduled (parts : TurnParts) (fuel : ℕ) (held blocks : List Block)
    (native : Bool) :
    (parts.groups (parts.resolveCalls blocks)).flatten = parts.resolveCalls blocks ∧
    (∀ group ∈ parts.groups (parts.resolveCalls blocks),
      (∃ resolved, group = [resolved] ∧ parts.concurrency resolved = .serial) ∨
        group ≠ [] ∧ AllParallel parts group) ∧
    ((parts.groups (parts.resolveCalls blocks)).IsChain fun group next =>
      ¬ (AllParallel parts group ∧ AllParallel parts next)) ∧
    (∀ group ∈ parts.groups (parts.resolveCalls blocks),
      RunsTogether parts held native fuel group) ∧
    ∀ {σ : Type} {answers : σ → (a : Await) → a.Reply → σ → Prop} {s u t : σ}
      {first rest : List Waited} {p q : Driving (List Finished)},
      Run answers (parts.callTools fuel held blocks native) s first p u →
      Run answers p u rest q t →
      ∃ before after : List (Option Resolved × Waited),
        before.map Prod.snd = first ∧ after.map Prod.snd = rest ∧
        Scheduled parts held native fuel (parts.resolveCalls blocks) (first ++ rest) q
          (before ++ after) ∧
        ∀ cancelled, Token answers cancelled → cancelled u →
          ∀ resolved entry, (some resolved, entry) ∈ after → Starts entry →
            ∃ front, own resolved before = front ++ [checked held false] := by
  have hsorted := resolveCalls_sorted parts blocks
  have hflat := flatten_groups parts (parts.resolveCalls blocks)
  refine ⟨hflat, groups_kinds _, groups_maximal _, ?_, ?_⟩
  · intro group hgroup
    apply callGroup_together
    have hsub := List.sublist_flatten_of_mem hgroup
    rw [hflat] at hsub
    exact hsub.nodup (nodup_of_sorted hsorted)
  · intro σ answers s u t first rest p q hfirst hrest
    obtain ⟨tagged, hscheduled⟩ := callTools_goes (hfirst.goes.append hrest.goes)
    obtain ⟨before, after, rfl, rfl, rfl⟩ := List.map_eq_append_iff.mp hscheduled.ascribed
    refine ⟨before, after, rfl, rfl, hscheduled, ?_⟩
    intro cancelled htoken hcancelled resolved entry hmem hstarts
    rcases hscheduled.tags _ (List.mem_append_right _ hmem) with ⟨hnone, _⟩ | ⟨call, hcall, hsome⟩
    · cases hnone
    · cases hsome
      obtain ⟨more, finished, hcourse⟩ := hscheduled.courses _ hcall
      exact starts_after hcourse (htoken.checked hrest hcancelled held) hmem hstarts

end Answer

end Yuke.Engine
