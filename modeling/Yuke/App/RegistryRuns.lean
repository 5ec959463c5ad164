import Yuke.App.Registry

/-!
# The runs of the registry

The invariant of the registry holds in every run of the app. A countdown closes a session only when
nothing used the session since it began, and a reload and the shutdown keep their promises.
-/

set_option autoImplicit false

namespace Yuke.App

open Yuke.Protocol

/-! ## Every step -/

section Steps

open Yuke.App.System

variable {s s' : System} {event : Event}

theorem free_of_unused {call : Nat} (h : s.calls call = none) :
    (s.calls call).bind Call.transition? = none := by
  rw [h]
  rfl

theorem holds_of_call {call : Nat} {state : Call} {id : SessionId} (h : s.calls call = some state)
    (hid : state.transition? = some id) : s.Holds call id := by
  rw [Holds, h, Option.bind_some, hid]

theorem Inv.finish (h : s.Inv) {call : Nat} {state : Call} (hcall : s.calls call = some state) :
    (s.finish call state).Inv := by
  have hkeep : ∀ {next : Option Call}, state.transition? = none →
      next.bind Call.transition? = none → (s.setCall call next).Inv := by
    intro next hnone hnext
    refine System.Inv.setCall h ?_
    rw [hcall, hnext, Option.bind_some, hnone]
  cases state with
  | creating | deleting | closingAll => exact hkeep rfl rfl
  | opening id | closing id => exact h.release (holds_of_call hcall rfl) rfl
  | starting id fresh =>
    refine h.release (holds_of_call hcall rfl) ?_
    cases fresh <;> rfl
  | discarding live fresh =>
    refine hkeep rfl ?_
    cases fresh <;> rfl

theorem Inv.drop (h : s.Inv) {call : Nat} {state : Call} (hcall : s.calls call = some state) :
    (s.drop call state).Inv := by
  unfold System.drop
  cases htransition : state.transition? with
  | none =>
    refine System.Inv.setCall h ?_
    rw [hcall, Option.bind_some, htransition]
    rfl
  | some id => exact h.release (holds_of_call hcall htransition) rfl

theorem Inv.expire (h : s.Inv) {call : Nat} (hcall : s.calls call = none) (id : SessionId)
    (deadline : Nat) (jobs : Option Nat) : (s.expire id deadline jobs call).Inv := by
  unfold System.expire
  split
  · next state hslot =>
    split
    · exact h
    · split
      · have hset : Kept s (s.setSlot id (.open { state with deadline := none })) :=
          kept_setSlot hslot rfl
        have hcounted : (s.setSlot id (.open { state with deadline := none })).Counted :=
          h.counted.setSlot hslot rfl rfl
        exact h.kept (hset.trans (kept_reportIdle jobs)) (hcounted.reportIdle jobs)
      · next hphase =>
        have hready : s.phase = .ready := by
          cases hcurrent : s.phase with
          | ready => rfl
          | reloading => exact absurd hcurrent hphase
          | stopped =>
            rw [h.owned.stopped hcurrent] at hslot
            cases hslot
        exact h.startClose hslot hready (free_of_unused hcall)
  · exact h

theorem step_inv (h : s.Inv) (hstep : step s event = some s') : s'.Inv := by
  cases event with
  | create call =>
    simp only [step] at hstep
    split_ifs at hstep with hcall
    cases hstep
    cases hadmits : admits s.phase with
    | error => exact h
    | ok =>
      refine System.Inv.setCall h ?_
      rw [not_not.mp hcall]
      rfl
  | saved call id runs =>
    simp only [step] at hstep
    split at hstep
    · next hcall =>
      have hdelete : (s.setCall call (some (.deleting id))).Inv := by
        refine System.Inv.setCall h ?_
        rw [hcall]
        rfl
      split_ifs at hstep with hruns
      · cases hstep
        exact hdelete
      · split at hstep
        · cases hstep
          exact hdelete
        · next hreserve =>
          cases hstep
          exact h.reserve hreserve (by rw [hcall]; rfl) rfl
    · cases hstep
  | «open» call id =>
    simp only [step] at hstep
    split_ifs at hstep with hcall
    cases hstep
    cases hreserve : s.reserve id with
    | error => exact h
    | ok reserved => exact h.reserve hreserve (free_of_unused (not_not.mp hcall)) rfl
  | read call =>
    simp only [step] at hstep
    split at hstep
    · next hcall =>
      cases hstep
      refine System.Inv.setCall h ?_
      rw [hcall]
      rfl
    · cases hstep
  | started call jobs =>
    simp only [step] at hstep
    split at hstep
    · next hcall =>
      cases hstep
      exact h.startSession (holds_of_call hcall rfl) _ jobs
    · cases hstep
  | finish call =>
    obtain ⟨state, hcall, rfl⟩ := Option.map_eq_some_iff.mp hstep
    exact Inv.finish h hcall
  | drop call =>
    obtain ⟨state, hcall, rfl⟩ := Option.map_eq_some_iff.mp hstep
    exact Inv.drop h hcall
  | close call id =>
    simp only [step] at hstep
    split_ifs at hstep with hcall
    cases hstep
    unfold System.close
    split
    · exact h
    · next hadmits =>
      split
      · next hslot => exact h.startClose hslot (admits_ok hadmits) (free_of_unused (not_not.mp hcall))
      · exact h
      · exact h
      · exact h
  | closeAll call =>
    simp only [step] at hstep
    split_ifs at hstep with hcall
    cases hstep
    push Not at hcall
    exact h.closeAll (by simpa using hcall.2) (free_of_unused hcall.1)
  | attach id =>
    cases hstep
    cases hattach : s.attach id with
    | error => exact h
    | ok held => exact h.kept (kept_attach hattach) (h.counted.attach h.alive hattach)
  | detach attachment =>
    simp only [step] at hstep
    split_ifs at hstep with hmem
    cases hstep
    exact h.kept (kept_detach attachment) (h.counted.detach h.alive hmem)
  | turn id =>
    cases hstep
    exact h.kept kept_touch h.counted.touch
  | idle id jobs =>
    cases hstep
    exact h.kept (kept_reportIdle jobs) (h.counted.reportIdle jobs)
  | expire call id deadline jobs =>
    simp only [step] at hstep
    split_ifs at hstep with hguard
    cases hstep
    push Not at hguard
    have hspent : ({ s with countdowns := s.countdowns.erase (id, deadline) } : System).Inv :=
      h.kept ⟨fun _ => .rfl, fun _ _ => .rfl, fun _ _ => .rfl, rfl, rfl, rfl, rfl, fun h => h⟩
        ⟨h.counted.same_id, h.counted.numbers, h.counted.count⟩
    exact Inv.expire hspent hguard.1 id deadline jobs
  | startReload =>
    simp only [step] at hstep
    split_ifs at hstep with hguard
    cases hstep
    cases hreload : s.startReload with
    | error => exact h
    | ok => exact h.startReload hreload
  | endReload =>
    simp only [step] at hstep
    split_ifs at hstep with hguard
    cases hstep
    exact h.endReload
  | tick span =>
    cases hstep
    exact h.kept ⟨fun _ => .rfl, fun _ _ => .rfl, fun _ _ => .rfl, rfl, rfl, rfl, rfl, fun h => h⟩
      ⟨h.counted.same_id, h.counted.numbers, h.counted.count⟩

theorem inv_start : ({} : System).Inv := by
  have hslot : ∀ id, ({} : System).slots.lookup id = none := fun _ => rfl
  have hholds : ∀ call id, ¬ ({} : System).Holds call id := fun _ _ h => by cases h
  have hnot : ∀ id, ¬ ({} : System).Changing id := by
    rintro id (h | h)
    · cases h
    · cases h
  have hopen : ∀ id live, ¬ ({} : System).OpenAs id live := by
    rintro id live ⟨_, h, _⟩
    cases h
  refine ⟨⟨?_, ?_, ?_, fun _ => rfl, ?_, fun _ => hnot⟩, ⟨?_, ?_, List.nodup_nil, ?_⟩, ⟨?_, ?_, ?_⟩⟩
  · exact fun call id h => absurd h (hholds call id)
  · exact fun call _ id h => absurd h (hholds call id)
  · exact fun id h => absurd h (hnot id)
  · simp
  · exact fun id live h => absurd h (hopen id live)
  · exact fun live => ⟨fun h => absurd h List.not_mem_nil, fun h => absurd h (hopen live.id live)⟩
  · exact fun live h => absurd h List.not_mem_nil
  · exact fun attachment h => absurd h List.not_mem_nil
  · exact fun attachment h => absurd h List.not_mem_nil
  · intro id state h
    rw [hslot] at h
    cases h

theorem run_concat (events : List Event) (event : Event) :
    run (events ++ [event]) = (run events).bind fun s => step s event := by
  unfold run
  rw [List.foldlM_append]
  simp only [List.foldlM_cons, List.foldlM_nil, bind_pure]
  rfl

theorem run_inv {events : List Event} (hrun : run events = some s) : s.Inv := by
  induction events using List.reverseRecOn generalizing s with
  | nil =>
    cases hrun
    exact inv_start
  | append_singleton events event ih =>
    rw [run_concat] at hrun
    obtain ⟨before, hbefore, hstep⟩ := Option.bind_eq_some_iff.mp hrun
    exact step_inv (ih hbefore) hstep

namespace System

/-- Session `id` is open as `live` and counts down to `deadline`. -/
def Counting (s : System) (id : SessionId) (live : LiveSession) (deadline : Nat) : Prop :=
  ∃ state, s.slots.lookup id = some (.open state) ∧ state.live = live ∧
    state.deadline = some deadline

end System

/-- A client takes session `id`, or its turn starts. -/
def Event.Uses (event : Event) (id : SessionId) : Prop := event = .attach id ∨ event = .turn id

theorem not_counting_of_uses {id : SessionId} {live : LiveSession} {deadline : Nat}
    (hstep : step s event = some s') (huses : event.Uses id) : ¬ s'.Counting id live deadline := by
  rintro ⟨found, hfound, _, hdeadline⟩
  rcases huses with rfl | rfl
  · cases hstep
    unfold System.attach at hfound
    split at hfound
    · change (s.setSlot id _).slots.lookup id = _ at hfound
      rw [lookup_setSlot_self] at hfound
      cases hfound
      cases hdeadline
    · next hslot => exact hslot found hfound
  · cases hstep
    unfold System.touch at hfound
    split at hfound
    · rw [lookup_setSlot_self] at hfound
      cases hfound
      cases hdeadline
    · next hslot => exact hslot found hfound

/-- A countdown to `deadline` began in the run, and nothing used the session since. -/
def Began (events : List Event) (id : SessionId) (live : LiveSession) (deadline : Nat) : Prop :=
  ∃ before event after s s', events = before ++ event :: after ∧ run before = some s ∧
    step s event = some s' ∧ ¬ s.Counting id live deadline ∧ s'.Counting id live deadline ∧
    ∀ later ∈ after, ¬ later.Uses id

theorem counting_began {events : List Event} {id : SessionId} {live : LiveSession} {deadline : Nat}
    (hrun : run events = some s) (h : s.Counting id live deadline) :
    Began events id live deadline := by
  induction events using List.reverseRecOn generalizing s with
  | nil =>
    cases hrun
    obtain ⟨_, hslot, _⟩ := h
    cases hslot
  | append_singleton events event ih =>
    rw [run_concat] at hrun
    obtain ⟨previous, hprevious, hstep⟩ := Option.bind_eq_some_iff.mp hrun
    by_cases hcounting : previous.Counting id live deadline
    · obtain ⟨before, first, after, t, t', rfl, hbefore, hfirst, hnot, hbegan, hafter⟩ :=
        ih hprevious hcounting
      refine ⟨before, first, after ++ [event], t, t', by simp, hbefore, hfirst, hnot, hbegan, ?_⟩
      intro later hlater
      rcases List.mem_append.mp hlater with hlater | hlater
      · exact hafter later hlater
      · rw [List.mem_singleton.mp hlater]
        exact fun huses => not_counting_of_uses hstep huses h
    · exact ⟨events, event, [], previous, s, rfl, hprevious, hstep, hcounting, h, by simp⟩

theorem expire_closes {call : Nat} {id : SessionId} {deadline : Nat} {jobs : Option Nat}
    {live : LiveSession} (hstep : step s (.expire call id deadline jobs) = some s')
    (hopen : s.OpenAs id live) (hclosed : ¬ s'.OpenAs id live) :
    s.Counting id live deadline ∧ deadline ≤ s.now := by
  simp only [step] at hstep
  split_ifs at hstep with hguard
  cases hstep
  push Not at hguard
  obtain ⟨state, hslot, hlive⟩ := hopen
  refine ⟨⟨state, hslot, hlive, ?_⟩, hguard.2.2⟩
  by_contra hdeadline
  refine hclosed ?_
  unfold System.expire
  dsimp only
  rw [hslot]
  dsimp only
  rw [if_pos hdeadline]
  exact ⟨state, hslot, hlive⟩

/-! ## A reload and the shutdown -/

theorem admits_reloading (h : s.phase = .reloading) : admits s.phase = .error .reloading := by
  rw [h]
  rfl

theorem reserve_reloading {id : SessionId} (h : s.phase = .reloading) :
    s.reserve id = .error .reloading := by
  unfold System.reserve
  rw [admits_reloading h]

theorem Inv.not_holds (h : s.Inv) (hphase : s.phase = .reloading) (call : Nat) (id : SessionId) :
    ¬ s.Holds call id := by
  intro hholds
  exact h.owned.quiet hphase id (h.owned.held call id hholds (by simp [hphase]))

theorem step_reloading (h : s.Inv) (hreload : s.reload.isSome) (hstep : step s event = some s')
    (id : SessionId) (live : LiveSession) : s'.OpenAs id live ↔ s.OpenAs id live := by
  have hphase := h.owned.guarded.mp hreload
  have hadmits := admits_reloading hphase
  have hfree : ∀ {call : Nat} {state : Call}, s.calls call = some state →
      state.transition? = none := by
    intro call state hcall
    cases htransition : state.transition? with
    | none => rfl
    | some other => exact absurd (holds_of_call hcall htransition) (Inv.not_holds h hphase call other)
  cases event with
  | create call =>
    simp only [step] at hstep
    split_ifs at hstep with hcall
    cases hstep
    rw [hadmits]
    exact .rfl
  | saved call other runs =>
    simp only [step] at hstep
    split at hstep
    · split_ifs at hstep
      · cases hstep
        exact .rfl
      · rw [reserve_reloading hphase] at hstep
        cases hstep
        exact .rfl
    · cases hstep
  | «open» call other =>
    simp only [step] at hstep
    split_ifs at hstep with hcall
    cases hstep
    rw [reserve_reloading hphase]
    exact .rfl
  | read call =>
    simp only [step] at hstep
    split at hstep
    · next hcall => cases hfree hcall
    · cases hstep
  | started call jobs =>
    simp only [step] at hstep
    split at hstep
    · next hcall => cases hfree hcall
    · cases hstep
  | finish call =>
    obtain ⟨state, hcall, rfl⟩ := Option.map_eq_some_iff.mp hstep
    have hnone := hfree hcall
    cases state with
    | creating | deleting | closingAll | discarding => exact .rfl
    | opening | closing | starting => cases hnone
  | drop call =>
    obtain ⟨state, hcall, rfl⟩ := Option.map_eq_some_iff.mp hstep
    unfold System.drop
    rw [hfree hcall]
    exact .rfl
  | close call other =>
    simp only [step] at hstep
    split_ifs at hstep with hcall
    cases hstep
    unfold System.close
    rw [hadmits]
    exact .rfl
  | closeAll call =>
    simp only [step] at hstep
    split_ifs at hstep with hguard
    exact absurd (.inr hreload) hguard
  | attach other =>
    cases hstep
    cases hattach : s.attach other with
    | error => exact .rfl
    | ok held => exact (kept_attach hattach).openAs id live
  | detach attachment =>
    simp only [step] at hstep
    split_ifs at hstep with hmem
    cases hstep
    exact (kept_detach attachment).openAs id live
  | turn other =>
    cases hstep
    exact kept_touch.openAs id live
  | idle other jobs =>
    cases hstep
    exact (kept_reportIdle jobs).openAs id live
  | expire call other deadline jobs =>
    simp only [step] at hstep
    split_ifs at hstep with hguard
    cases hstep
    unfold System.expire
    dsimp only
    split
    · next state hslot =>
      split
      · exact .rfl
      · have hset : Kept { s with countdowns := s.countdowns.erase (other, deadline) }
            (System.setSlot { s with countdowns := s.countdowns.erase (other, deadline) } other
              (.open { state with deadline := none })) := kept_setSlot hslot rfl
        exact ((kept_reportIdle jobs).openAs id live).trans (hset.openAs id live)
    · exact .rfl
  | startReload =>
    simp only [step] at hstep
    split_ifs at hstep
  | endReload =>
    simp only [step] at hstep
    split_ifs at hstep
    cases hstep
    exact .rfl
  | tick span =>
    cases hstep
    exact .rfl

theorem phase_dropTransition (s : System) (id : SessionId) :
    (s.dropTransition id).phase = s.phase := by
  rw [dropTransition_frame]

theorem phase_expire (s : System) (id : SessionId) (deadline : Nat) (jobs : Option Nat)
    (call : Nat) : (s.expire id deadline jobs call).phase = s.phase := by
  unfold System.expire
  split
  · split
    · rfl
    · split
      · exact (kept_reportIdle jobs).phase
      · rfl
  · rfl

theorem phase_startSession (s : System) (id : SessionId) (fresh : Bool) (jobs : Option Nat)
    (call : Nat) : (s.startSession id fresh jobs call).phase = s.phase := by
  unfold System.startSession openTransition
  dsimp only
  split
  · next herror =>
    split_ifs at herror
    exact phase_dropTransition _ _
  · next hok =>
    split_ifs at hok
    cases hok
    exact (kept_reportIdle jobs).phase.trans (phase_dropTransition _ _)

theorem phase_finish (s : System) (call : Nat) (state : Call) :
    (s.finish call state).phase = s.phase := by
  cases state with
  | creating | deleting | closingAll | discarding => rfl
  | opening | closing | starting => exact phase_dropTransition _ _

theorem phase_drop (s : System) (call : Nat) (state : Call) :
    (s.drop call state).phase = s.phase := by
  unfold System.drop
  split
  · exact phase_dropTransition _ _
  · rfl

theorem step_stopped (h : s.phase = .stopped) (hstep : step s event = some s') :
    s'.phase = .stopped := by
  have hadmits : admits s.phase = .error .stopped := by
    rw [h]
    rfl
  have hreserve : ∀ id, s.reserve id = .error .stopped := by
    intro id
    unfold System.reserve
    rw [hadmits]
  cases event with
  | create call =>
    simp only [step] at hstep
    split_ifs at hstep
    cases hstep
    rw [hadmits]
    exact h
  | saved call id runs =>
    simp only [step] at hstep
    split at hstep
    · rw [hreserve] at hstep
      split_ifs at hstep
      · cases hstep
        exact h
      · cases hstep
        exact h
    · cases hstep
  | «open» call id =>
    simp only [step] at hstep
    split_ifs at hstep
    cases hstep
    rw [hreserve]
    exact h
  | read call =>
    simp only [step] at hstep
    split at hstep
    · cases hstep
      exact h
    · cases hstep
  | started call jobs =>
    simp only [step] at hstep
    split at hstep
    · cases hstep
      exact (phase_startSession ..).trans h
    · cases hstep
  | finish call =>
    obtain ⟨state, _, rfl⟩ := Option.map_eq_some_iff.mp hstep
    exact (phase_finish ..).trans h
  | drop call =>
    obtain ⟨state, _, rfl⟩ := Option.map_eq_some_iff.mp hstep
    exact (phase_drop ..).trans h
  | close call id =>
    simp only [step] at hstep
    split_ifs at hstep
    cases hstep
    unfold System.close
    rw [hadmits]
    exact h
  | closeAll call =>
    simp only [step] at hstep
    split_ifs at hstep
    cases hstep
    rfl
  | attach id =>
    cases hstep
    cases hattach : s.attach id with
    | error => exact h
    | ok held => exact (kept_attach hattach).phase.trans h
  | detach attachment =>
    simp only [step] at hstep
    split_ifs at hstep
    cases hstep
    exact (kept_detach attachment).phase.trans h
  | turn id =>
    cases hstep
    exact kept_touch.phase.trans h
  | idle id jobs =>
    cases hstep
    exact (kept_reportIdle jobs).phase.trans h
  | expire call id deadline jobs =>
    simp only [step] at hstep
    split_ifs at hstep
    cases hstep
    exact (phase_expire ..).trans h
  | startReload =>
    simp only [step] at hstep
    split_ifs at hstep
    cases hstep
    unfold System.startReload
    rw [hadmits]
    exact h
  | endReload =>
    simp only [step] at hstep
    split_ifs at hstep
    cases hstep
    unfold System.endReload
    dsimp only
    rw [h]
    rfl
  | tick span =>
    cases hstep
    exact h

theorem run_stopped {events : List Event} {call : Nat} (hrun : run events = some s)
    (hmem : .closeAll call ∈ events) : s.phase = .stopped := by
  induction events using List.reverseRecOn generalizing s with
  | nil => cases hmem
  | append_singleton events event ih =>
    rw [run_concat] at hrun
    obtain ⟨before, hbefore, hstep⟩ := Option.bind_eq_some_iff.mp hrun
    rcases List.mem_append.mp hmem with hmem | hmem
    · exact step_stopped (ih hbefore hmem) hstep
    · rw [← List.mem_singleton.mp hmem] at hstep
      simp only [step] at hstep
      split_ifs at hstep
      cases hstep
      rfl

/-! ## Every run -/

theorem holds_dropTransition (s : System) (id : SessionId) (call : Nat) (other : SessionId) :
    (s.dropTransition id).Holds call other ↔ s.Holds call other := by
  rw [dropTransition_frame]
  exact .rfl

theorem holds_reserve {id : SessionId} (h : s.reserve id = .ok s') (call : Nat)
    (other : SessionId) : s'.Holds call other ↔ s.Holds call other := by
  unfold System.reserve at h
  split at h
  · cases h
  · split at h
    · cases h
    · cases h
    · cases h
    · cases h
      exact .rfl

theorem holds_startSession (s : System) (id : SessionId) (fresh : Bool) (jobs : Option Nat)
    {call call' : Nat} (hne : call' ≠ call) (other : SessionId) :
    (s.startSession id fresh jobs call).Holds call' other ↔ s.Holds call' other := by
  unfold System.startSession openTransition
  dsimp only
  split
  · next herror =>
    split_ifs at herror
    exact (holds_setCall_of_ne hne).trans (holds_dropTransition ..)
  · next hok =>
    split_ifs at hok
    cases hok
    refine ((kept_reportIdle jobs).holds call' other).trans ?_
    exact (holds_setCall_of_ne hne).trans (holds_dropTransition ..)

theorem holds_finish (s : System) (state : Call) {call call' : Nat} (hne : call' ≠ call)
    (other : SessionId) : (s.finish call state).Holds call' other ↔ s.Holds call' other := by
  cases state with
  | creating | deleting | closingAll | discarding => exact holds_setCall_of_ne hne
  | opening | closing | starting =>
    exact (holds_setCall_of_ne hne).trans (holds_dropTransition ..)

theorem holds_drop (s : System) (state : Call) {call call' : Nat} (hne : call' ≠ call)
    (other : SessionId) : (s.drop call state).Holds call' other ↔ s.Holds call' other := by
  unfold System.drop
  split
  · exact (holds_setCall_of_ne hne).trans (holds_dropTransition ..)
  · exact holds_setCall_of_ne hne

theorem holds_startClose (s : System) (id : SessionId) (live : LiveSession) {call call' : Nat}
    (hne : call' ≠ call) (other : SessionId) :
    (s.startClose id live call).Holds call' other ↔ s.Holds call' other :=
  holds_setCall_of_ne hne

theorem step_holds (hstep : step s event = some s') :
    ∃ mover, ∀ call, call ≠ mover → ∀ id, s'.Holds call id ↔ s.Holds call id := by
  cases event with
  | create call =>
    simp only [step] at hstep
    split_ifs at hstep
    cases hstep
    refine ⟨call, fun call' hne id => ?_⟩
    cases admits s.phase with
    | error => exact .rfl
    | ok => exact holds_setCall_of_ne hne
  | saved call other runs =>
    refine ⟨call, fun call' hne id => ?_⟩
    simp only [step] at hstep
    split at hstep
    · split_ifs at hstep
      · cases hstep
        exact holds_setCall_of_ne hne
      · split at hstep
        · cases hstep
          exact holds_setCall_of_ne hne
        · next hreserve =>
          cases hstep
          exact (holds_setCall_of_ne hne).trans (holds_reserve hreserve ..)
    · cases hstep
  | «open» call other =>
    simp only [step] at hstep
    split_ifs at hstep
    cases hstep
    refine ⟨call, fun call' hne id => ?_⟩
    cases hreserve : s.reserve other with
    | error => exact .rfl
    | ok => exact (holds_setCall_of_ne hne).trans (holds_reserve hreserve ..)
  | read call =>
    refine ⟨call, fun call' hne id => ?_⟩
    simp only [step] at hstep
    split at hstep
    · cases hstep
      exact holds_setCall_of_ne hne
    · cases hstep
  | started call jobs =>
    refine ⟨call, fun call' hne id => ?_⟩
    simp only [step] at hstep
    split at hstep
    · cases hstep
      exact holds_startSession _ _ _ _ hne id
    · cases hstep
  | finish call =>
    obtain ⟨state, _, rfl⟩ := Option.map_eq_some_iff.mp hstep
    exact ⟨call, fun call' hne id => holds_finish s state hne id⟩
  | drop call =>
    obtain ⟨state, _, rfl⟩ := Option.map_eq_some_iff.mp hstep
    exact ⟨call, fun call' hne id => holds_drop s state hne id⟩
  | close call other =>
    simp only [step] at hstep
    split_ifs at hstep
    cases hstep
    refine ⟨call, fun call' hne id => ?_⟩
    unfold System.close
    split
    · exact .rfl
    · split
      · exact holds_startClose _ _ _ hne id
      · exact .rfl
      · exact .rfl
      · exact .rfl
  | closeAll call =>
    simp only [step] at hstep
    split_ifs at hstep
    cases hstep
    exact ⟨call, fun call' hne id => holds_setCall_of_ne hne⟩
  | attach other =>
    cases hstep
    refine ⟨0, fun call' _ id => ?_⟩
    cases hattach : s.attach other with
    | error => exact .rfl
    | ok held => exact (kept_attach hattach).holds call' id
  | detach attachment =>
    simp only [step] at hstep
    split_ifs at hstep
    cases hstep
    exact ⟨0, fun call' _ id => (kept_detach attachment).holds call' id⟩
  | turn other =>
    cases hstep
    exact ⟨0, fun call' _ id => kept_touch.holds call' id⟩
  | idle other jobs =>
    cases hstep
    exact ⟨0, fun call' _ id => (kept_reportIdle jobs).holds call' id⟩
  | expire call other deadline jobs =>
    simp only [step] at hstep
    split_ifs at hstep
    cases hstep
    refine ⟨call, fun call' hne id => ?_⟩
    unfold System.expire
    dsimp only
    split
    · split
      · exact .rfl
      · split
        · exact (kept_reportIdle jobs).holds call' id
        · exact holds_startClose _ _ _ hne id
    · exact .rfl
  | startReload =>
    simp only [step] at hstep
    split_ifs at hstep
    cases hstep
    refine ⟨0, fun call' _ id => ?_⟩
    cases hreload : s.startReload with
    | error => exact .rfl
    | ok =>
      unfold System.startReload at hreload
      split at hreload
      · cases hreload
      · split at hreload
        · cases hreload
        · cases hreload
          exact .rfl
  | endReload =>
    simp only [step] at hstep
    split_ifs at hstep
    cases hstep
    exact ⟨0, fun _ _ _ => .rfl⟩
  | tick span =>
    cases hstep
    exact ⟨0, fun _ _ _ => .rfl⟩

theorem Inv.released (h : s.Inv) {call : Nat} {id : SessionId} (hholds : s.Holds call id)
    (hstep : step s event = some s') (hend : ¬ s'.Holds call id) : ¬ s'.Changing id := by
  intro hchanging
  obtain ⟨call', hholds'⟩ := (step_inv h hstep).owned.owned id hchanging
  obtain ⟨mover, hmover⟩ := step_holds hstep
  have hcall : call = mover := by
    by_contra hne
    exact hend ((hmover call hne id).mpr hholds)
  have hother : call' ≠ mover := by
    rintro rfl
    exact hend (hcall ▸ hholds')
  have hbefore := (hmover call' hother id).mp hholds'
  exact hother ((h.owned.unique call' call id hbefore hholds).trans hcall)

theorem Inv.ended (h : s.Inv) {call : Nat} {id : SessionId} (hholds : s.Holds call id)
    (hend : step s (.finish call) = some s' ∨ step s (.drop call) = some s') :
    s'.slots.lookup id = none := by
  have hgone : (s.dropTransition id).slots.lookup id = none := by
    by_cases hphase : s.phase = .stopped
    · have hempty : s.slots.lookup id = none := by
        rw [h.owned.stopped hphase]
        rfl
      rw [dropTransition_of_not_changing]
      · exact hempty
      · rintro (hslot | hslot)
        · rw [hempty] at hslot
          cases hslot
        · rw [hempty] at hslot
          cases hslot
    · exact lookup_dropTransition_of_changing (h.owned.held call id hholds hphase)
  obtain ⟨state, hcall, htransition⟩ := Option.bind_eq_some_iff.mp hholds
  rcases hend with hend | hend
  · obtain ⟨_, hsame, rfl⟩ := Option.map_eq_some_iff.mp hend
    rw [hcall] at hsame
    cases hsame
    cases state with
    | creating | deleting | closingAll | discarding => cases htransition
    | opening | closing | starting =>
      cases htransition
      exact hgone
  · obtain ⟨_, hsame, rfl⟩ := Option.map_eq_some_iff.mp hend
    rw [hcall] at hsame
    cases hsame
    unfold System.drop
    rw [htransition]
    exact hgone

/-- What the registry promises after a run. A countdown is named by its deadline, as in the slot. -/
structure Sound (events : List Event) (s : System) : Prop where
  one : ∀ live ∈ s.running, ∀ other ∈ s.running, live.id = other.id → live = other
  running : ∀ id live, s.OpenAs id live ↔ live ∈ s.running ∧ live.id = id
  owned : ∀ id, s.Changing id → ∃! call, s.Holds call id
  released : ∀ call id event s', s.Holds call id → step s event = some s' →
    ¬ s'.Holds call id → ¬ s'.Changing id
  ended : ∀ call id s', s.Holds call id →
    step s (.finish call) = some s' ∨ step s (.drop call) = some s' → s'.slots.lookup id = none
  attachments : ∀ id state, s.slots.lookup id = some (.open state) →
    state.attachments = s.attachments.countP fun attachment => attachment.live = state.live
  countdown : ∀ call id deadline jobs live s',
    step s (.expire call id deadline jobs) = some s' → s.OpenAs id live → ¬ s'.OpenAs id live →
      deadline ≤ s.now ∧ Began events id live deadline
  reload : s.reload.isSome → (∀ id, ¬ s.Changing id) ∧
    ∀ event s', step s event = some s' → ∀ id live, s'.OpenAs id live ↔ s.OpenAs id live
  stopped : ∀ call, .closeAll call ∈ events → ∀ id, s.slots.lookup id = none

/-- In every order of the calls, with failures and drops at every wait, the registry keeps its
promises. -/
theorem registry_sound (events : List Event) (s : System) (hrun : run events = some s) :
    Sound events s := by
  have h := run_inv hrun
  refine ⟨?_, ?_, ?_, ?_, ?_, h.counted.count, ?_, ?_, ?_⟩
  · intro live hlive other hother hid
    obtain ⟨state, hslot, rfl⟩ := (h.alive.running live).mp hlive
    obtain ⟨state', hslot', rfl⟩ := (h.alive.running other).mp hother
    rw [← hid, hslot] at hslot'
    cases hslot'
    rfl
  · intro id live
    constructor
    · intro hopen
      have hid := h.alive.same_id id live hopen
      exact ⟨(h.alive.running live).mpr (hid.symm ▸ hopen), hid⟩
    · rintro ⟨hlive, rfl⟩
      exact (h.alive.running live).mp hlive
  · intro id hchanging
    obtain ⟨call, hholds⟩ := h.owned.owned id hchanging
    exact ⟨call, hholds, fun other hother => h.owned.unique other call id hother hholds⟩
  · exact fun call id event s' hholds hstep hend => Inv.released h hholds hstep hend
  · exact fun call id s' hholds hend => Inv.ended h hholds hend
  · intro call id deadline jobs live s' hstep hopen hclosed
    obtain ⟨hcounting, hdeadline⟩ := expire_closes hstep hopen hclosed
    exact ⟨hdeadline, counting_began hrun hcounting⟩
  · intro hreload
    exact ⟨h.owned.quiet (h.owned.guarded.mp hreload),
      fun event s' hstep => step_reloading h hreload hstep⟩
  · intro call hmem id
    rw [h.owned.stopped (run_stopped hrun hmem)]
    rfl

/-- An attachment outlives the close and the next open of its session, whose countdown then
closes it. -/
theorem registry_sound_reopened :
    let events : List Event := [.create 0, .saved 0 ⟨7⟩ true, .started 0 none, .attach ⟨7⟩,
      .close 0 ⟨7⟩, .finish 0, .open 1 ⟨7⟩, .read 1, .started 1 (some 5),
      .detach ⟨⟨7⟩, ⟨⟨7⟩, 0⟩⟩, .tick 5, .expire 2 ⟨7⟩ 5 none]
    ∃ s, run events = some s ∧ s.Changing ⟨7⟩ ∧ Sound events s :=
  ⟨_, rfl, .inr rfl, registry_sound _ _ rfl⟩

end Steps

end Yuke.App
