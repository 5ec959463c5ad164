import Yuke.Shared.Forest
import Yuke.App.RegistryRuns
import Yuke.App.SessionTree

/-!
# The saved sessions over the steps of the service

An open session has a lease, and the tree of a `remove` names each child after its parent.
-/

set_option autoImplicit false

namespace Yuke.App

open Yuke.Protocol Yuke.Shared

/-! ## What a step of the registry opens -/

namespace System

structure Follows (s s' : System) : Prop where
  opened : ∀ id live, s'.OpenAs id live →
    (∃ live, s.OpenAs id live) ∨ ∃ call fresh, s.calls call = some (.starting id fresh)
  starts : ∀ call id fresh, s'.calls call = some (.starting id fresh) →
    s.calls call = some (.starting id fresh)

section Follows

variable {s s' : System} {id : SessionId} {call : Nat}

theorem Follows.refl (s : System) : Follows s s :=
  ⟨fun _ live h => .inl ⟨live, h⟩, fun _ _ _ h => h⟩

theorem Follows.trans {s'' : System} (h : Follows s s') (h' : Follows s' s'') : Follows s s'' := by
  constructor
  · intro id live hopen
    rcases h'.opened id live hopen with ⟨live', hopen'⟩ | ⟨call, fresh, hcall⟩
    · exact h.opened id live' hopen'
    · exact .inr ⟨call, fresh, h.starts call id fresh hcall⟩
  · intro call id fresh hcall
    exact h.starts call id fresh (h'.starts call id fresh hcall)

theorem follows_of_slots (hslots : ∀ id live, s'.OpenAs id live → s.OpenAs id live)
    (hcalls : s'.calls = s.calls) : Follows s s' :=
  ⟨fun id live h => .inl ⟨live, hslots id live h⟩, fun call id fresh h => by rwa [hcalls] at h⟩

theorem Kept.follows (h : Kept s s') (hcalls : s'.calls = s.calls) : Follows s s' :=
  follows_of_slots (fun id live => (h.openAs id live).mp) hcalls

theorem follows_setCall {state : Option Call}
    (hstate : ∀ id fresh, state ≠ some (.starting id fresh)) : Follows s (s.setCall call state) := by
  constructor
  · exact fun id live h => .inl ⟨live, h⟩
  · intro call' id fresh hcall
    by_cases heq : call' = call
    · subst heq
      simp [setCall] at hcall
      exact absurd hcall (hstate id fresh)
    · simpa [setCall, heq] using hcall

theorem follows_dropTransition : Follows s (s.dropTransition id) := by
  refine follows_of_slots ?_ ?_
  · rintro other live ⟨state, hslot, hlive⟩
    exact ⟨state, lookup_dropTransition_open.mp hslot, hlive⟩
  · rw [dropTransition_frame]

theorem follows_setSlot {slot : Slot} (hslot : ∀ state, slot ≠ .open state) :
    Follows s (s.setSlot id slot) :=
  follows_of_slots (fun _ _ h => ((openAs_setSlot_of_not_open hslot).mp h).2) rfl

theorem follows_startClose {live : LiveSession} : Follows s (s.startClose id live call) := by
  unfold startClose
  have hslot : Follows s (s.setSlot id .closing) := follows_setSlot (by simp)
  have hstop : Follows (s.setSlot id .closing) ((s.setSlot id .closing).stop live) :=
    follows_of_slots (fun _ _ h => h) rfl
  exact (hslot.trans hstop).trans (follows_setCall (by simp))

theorem calls_reportIdle (s : System) (id : SessionId) (jobs : Option Nat) :
    (s.reportIdle id jobs).calls = s.calls := by
  unfold reportIdle
  split
  · simp only
    split
    · rfl
    · rfl
  · rfl

theorem follows_reportIdle (jobs : Option Nat) : Follows s (s.reportIdle id jobs) :=
  (kept_reportIdle jobs).follows (calls_reportIdle s id jobs)

theorem follows_finish {state : Call} : Follows s (s.finish call state) := by
  cases state with
  | creating | deleting id | closingAll => exact follows_setCall (by simp)
  | opening id | closing id => exact follows_dropTransition.trans (follows_setCall (by simp))
  | starting id fresh =>
    exact follows_dropTransition.trans (follows_setCall (by cases fresh <;> simp))
  | discarding live fresh => exact follows_setCall (by cases fresh <;> simp)

theorem follows_drop {state : Call} : Follows s (s.drop call state) := by
  unfold System.drop
  split
  · exact follows_dropTransition.trans (follows_setCall (by simp))
  · exact follows_setCall (by simp)

theorem follows_expire {deadline : Nat} {jobs : Option Nat} :
    Follows s (s.expire id deadline jobs call) := by
  unfold System.expire
  split
  · rename_i state hslot
    split
    · exact .refl s
    · split
      · refine Follows.trans ?_ (follows_reportIdle jobs)
        refine follows_of_slots ?_ rfl
        intro other live hopen
        by_cases hother : other = id
        · subst hother
          obtain ⟨state', hslot', hlive⟩ := hopen
          rw [lookup_setSlot_self] at hslot'
          cases hslot'
          exact ⟨state, hslot, hlive⟩
        · obtain ⟨state', hslot', hlive⟩ := hopen
          rw [lookup_setSlot_of_ne hother] at hslot'
          exact ⟨state', hslot', hlive⟩
      · exact follows_startClose
  · exact .refl s

theorem follows_startSession {fresh : Bool} {jobs : Option Nat}
    (hcall : s.calls call = some (.starting id fresh)) :
    Follows s (s.startSession id fresh jobs call) := by
  have hborn : Follows s { s with started := s.started + 1, running := s.running ++ [⟨id, s.started⟩] } :=
    follows_of_slots (fun _ _ h => h) rfl
  unfold startSession openTransition
  simp only
  split_ifs
  · have hstop : ∀ s : System, ∀ live, Follows s (s.stop live) := fun s live =>
      follows_of_slots (fun _ _ h => h) rfl
    exact ((hborn.trans follows_dropTransition).trans (hstop _ _)).trans (follows_setCall (by simp))
  · refine Follows.trans ?_ (follows_reportIdle jobs)
    refine Follows.trans ?_ (follows_setCall (by simp))
    refine Follows.trans ?_ follows_dropTransition
    constructor
    · intro other live hopen
      by_cases hother : other = id
      · subst hother
        exact .inr ⟨call, fresh, hcall⟩
      · obtain ⟨state, hslot, hlive⟩ := hopen
        rw [lookup_setSlot_of_ne hother] at hslot
        exact .inl ⟨live, state, hslot, hlive⟩
    · exact fun _ _ _ h => h

end Follows

end System

theorem follows_step {s s' : System} {event : Event} (halone : event.Alone)
    (hstep : step s event = some s') : System.Follows s s' := by
  cases event with
  | create _ | saved _ _ _ | read _ => exact absurd halone id
  | «open» call id =>
    simp only [step] at hstep
    split_ifs at hstep
    cases hstep
    cases hreserve : s.reserve id with
    | error => exact .refl s
    | ok reserved =>
      obtain ⟨_, _, rfl⟩ := System.reserve_ok hreserve
      have hslot : System.Follows s (s.setSlot id .opening) := System.follows_setSlot (by simp)
      exact hslot.trans (System.follows_setCall (by simp))
  | started call jobs =>
    simp only [step] at hstep
    split at hstep
    · next hcall =>
      cases hstep
      exact System.follows_startSession hcall
    · cases hstep
  | finish call =>
    obtain ⟨state, _, rfl⟩ := Option.map_eq_some_iff.mp hstep
    exact System.follows_finish
  | drop call =>
    obtain ⟨state, _, rfl⟩ := Option.map_eq_some_iff.mp hstep
    exact System.follows_drop
  | close call id =>
    simp only [step] at hstep
    split_ifs at hstep
    cases hstep
    unfold System.close
    split
    · exact .refl s
    · split
      · exact System.follows_startClose
      · exact .refl s
      · exact .refl s
      · exact .refl s
  | closeAll call =>
    simp only [step] at hstep
    split_ifs at hstep
    cases hstep
    refine System.Follows.trans ?_ (System.follows_setCall (by simp))
    refine System.follows_of_slots ?_ rfl
    rintro id live ⟨state, hslot, _⟩
    cases hslot
  | attach id =>
    cases hstep
    cases hattach : s.attach id with
    | error => exact .refl s
    | ok held =>
      refine (System.kept_attach hattach).follows ?_
      unfold System.attach at hattach
      split at hattach
      · cases hattach
        rfl
      · cases hattach
  | detach attachment =>
    simp only [step] at hstep
    split_ifs at hstep
    cases hstep
    refine (System.kept_detach attachment).follows ?_
    unfold System.detach
    simp only
    split
    · split
      · rfl
      · rfl
    · rfl
  | turn id =>
    cases hstep
    refine System.kept_touch.follows ?_
    unfold System.touch
    split
    · rfl
    · rfl
  | idle id jobs =>
    cases hstep
    exact System.follows_reportIdle jobs
  | expire call id deadline jobs =>
    simp only [step] at hstep
    split_ifs at hstep
    cases hstep
    have hspent : System.Follows s { s with countdowns := s.countdowns.erase (id, deadline) } :=
      System.follows_of_slots (fun _ _ h => h) rfl
    exact hspent.trans System.follows_expire
  | startReload =>
    simp only [step] at hstep
    split_ifs at hstep
    cases hstep
    cases hreload : s.startReload with
    | error => exact .refl s
    | ok reloading =>
      unfold System.startReload at hreload
      split at hreload
      · cases hreload
      · split at hreload
        · cases hreload
        · cases hreload
          exact System.follows_of_slots (fun _ _ h => h) rfl
  | endReload =>
    simp only [step] at hstep
    split_ifs at hstep
    cases hstep
    exact System.follows_of_slots (fun _ _ h => h) rfl
  | tick span =>
    cases hstep
    exact System.follows_of_slots (fun _ _ h => h) rfl

/-! ## What a step of the service does -/

def ServiceEvent.Writes : ServiceEvent → Prop
  | .save _ _ stop => stop ≠ .failed
  | .delete _ stop => stop ≠ .failed
  | .discard _ stop => stop ≠ .failed
  | _ => False

namespace Service

variable {kind : StoreKind} {s s' : Service} {event : ServiceEvent} {id : SessionId} {call : Nat}

inductive Makes (s : Service) (call : Nat) (session : SavedSession) : Prop where
  | create : s.creations call = some (.creating session.parent) → session.forkOf = none →
      Makes s call session
  | fork (source : SessionId) : s.creations call = some (.forking source) → source ∈ s.ids →
      session.parent = none → session.forkOf = some source → Makes s call session

/-- The next state of a `remove` that deletes nothing yet. -/
inductive Turns (s : Service) (call : Nat) : Option Removal → Prop where
  | ends : Turns s call none
  | starts (id : SessionId) : Turns s call (some (.reading id [id] 0))
  | reads {id parent : SessionId} {tree page : List SessionId} {next : Nat} :
      s.removals call = some (.reading id tree next) → tree[next]? = some parent →
      s.IsPage parent page → Turns s call (some (.reading id (tree ++ page) (next + 1)))
  | looks {id : SessionId} {tree : List SessionId} {next : Nat} :
      s.removals call = some (.reading id tree next) →
      Turns s call (some (.deleting id tree tree))

inductive Moved (s : Service) : ServiceEvent → Service → Prop where
  | app {event : ServiceEvent} {app : System} : ¬ event.Writes → System.Follows s.app app →
      Moved s event { s with app := app }
  | creation {event : ServiceEvent} {app : System} (call : Nat) (state : Option Creation) :
      ¬ event.Writes → System.Follows s.app app →
      (∀ parent, state = some (.creating (some parent)) → parent ∈ s.ids) →
      Moved s event { s.setCreation call state with app := app }
  | halfway {app : System} (call : Nat) (session : SavedSession) : System.Follows s.app app →
      session.id ∉ s.pastIds → s.Makes call session →
      Moved s (.save call session.id .halfway)
        { (s.insert session).setCreation call none with app := app }
  | saved {app : System} (call : Nat) (session : SavedSession) (runs : Bool) :
      (∀ id live, app.OpenAs id live → s.app.OpenAs id live) →
      (∀ other id fresh, app.calls other = some (.starting id fresh) →
        (other = call ∧ id = session.id) ∨ s.app.calls other = some (.starting id fresh)) →
      session.id ∉ s.pastIds → s.Makes call session →
      Moved s (.save call session.id (.saved runs))
        { (s.insert session).setCreation call none with
          app := app, leases := s.leases ++ [(session.id, call)] }
  | read {app : System} (call : Nat) (id : SessionId) :
      (∀ id live, app.OpenAs id live → s.app.OpenAs id live) →
      (∀ other id' fresh, app.calls other = some (.starting id' fresh) →
        (other = call ∧ id' = id) ∨ s.app.calls other = some (.starting id' fresh)) →
      Moved s (.read call) { s with app := app, leases := s.leases ++ [(id, call)] }
  | release (id : SessionId) (call : Nat) : ¬ s.Starts call id → s.opened id = none →
      Moved s (.release id call) { s with leases := s.leases.filter (· ≠ (id, call)) }
  | removal {event : ServiceEvent} (call : Nat) (state : Option Removal) : ¬ event.Writes →
      s.Turns call state → Moved s event (s.setRemoval call state)
  | deleted {id session : SessionId} {tree left : List SessionId} {stop : DeleteEnd} (call : Nat) :
      s.removals call = some (.deleting id tree left) → left.getLast? = some session →
      session ∈ s.ids → ¬ s.Leased session → stop ≠ .failed →
      Moved s (.delete call stop) ((s.erase session).setRemoval call
        (if stop = .deleted then some (.deleting id tree left.dropLast) else none))
  | discarded {id : SessionId} {stop : DeleteEnd} (call : Nat) :
      s.app.calls call = some (.deleting id) → ¬ s.Leased id → stop ≠ .failed →
      Moved s (.discard call stop) { s.erase id with app := s.app.setCall call none }

theorem deleteSession_cases {stop : DeleteEnd} (h : s.deleteSession kind id stop = some s') :
    s' = s ∧ stop = .failed ∨ (id ∈ s.ids ∧ ¬ s.Leased id ∧ s' = s.erase id ∧ stop ≠ .failed) := by
  cases stop with
  | failed =>
    cases h
    exact .inl ⟨rfl, rfl⟩
  | deleted =>
    simp only [deleteSession] at h
    split_ifs at h with hguard
    cases h
    exact .inr ⟨hguard.1, hguard.2, rfl, by simp⟩
  | halfway =>
    simp only [deleteSession] at h
    split_ifs at h with hguard
    cases h
    exact .inr ⟨hguard.2.1, hguard.2.2, rfl, by simp⟩

theorem moved_endCreation (hwrites : ¬ event.Writes) : Moved s event (s.endCreation call) := by
  unfold endCreation
  simp only
  split
  · exact .creation call none hwrites (System.follows_setCall (by simp)) (by simp)
  · exact .creation call none hwrites (.refl s.app) (by simp)

theorem moved_save {session : SavedSession} {stop : SaveEnd}
    (hmakes : stop ≠ .failed → s.Makes call session) (h : s.save kind call session stop = some s') :
    Moved s (.save call session.id stop) s' := by
  cases stop with
  | failed =>
    cases h
    exact moved_endCreation fun hwrites => hwrites rfl
  | halfway =>
    simp only [save] at h
    split_ifs at h with hguard
    cases h
    unfold endCreation
    simp only
    split
    · exact .halfway call session (System.follows_setCall (by simp)) hguard.2 (hmakes (by simp))
    · exact .halfway call session (.refl s.app) hguard.2 (hmakes (by simp))
  | saved runs =>
    simp only [save] at h
    split_ifs at h with hfresh
    split at h
    · next app hstep =>
      cases h
      refine .saved call session runs ?_ ?_ hfresh (hmakes (by simp))
      · intro id live hopen
        simp only [App.step] at hstep
        split at hstep
        · split_ifs at hstep
          · cases hstep
            exact hopen
          · split at hstep
            · cases hstep
              exact hopen
            · next hreserve =>
              cases hstep
              obtain ⟨_, _, rfl⟩ := System.reserve_ok hreserve
              exact ((System.openAs_setSlot_of_not_open (by simp)).mp hopen).2
        · cases hstep
      · intro other id fresh hcall
        by_cases hother : other = call
        · subst hother
          left
          refine ⟨rfl, ?_⟩
          simp only [App.step] at hstep
          split at hstep
          · split_ifs at hstep
            · cases hstep
              simp [System.setCall] at hcall
            · split at hstep
              · cases hstep
                simp [System.setCall] at hcall
              · cases hstep
                have heq : session.id = id ∧ true = fresh := by simpa [System.setCall] using hcall
                exact heq.1.symm
          · cases hstep
        · right
          simp only [App.step] at hstep
          split at hstep
          · split_ifs at hstep
            · cases hstep
              simpa [System.setCall, hother] using hcall
            · split at hstep
              · cases hstep
                simpa [System.setCall, hother] using hcall
              · next hreserve =>
                cases hstep
                obtain ⟨_, _, rfl⟩ := System.reserve_ok hreserve
                simpa [System.setCall, System.setSlot, hother] using hcall
          · cases hstep
    · cases h
      exact .saved call session runs (fun _ _ hopen => hopen) (fun _ _ _ hcall => .inr hcall)
        hfresh (hmakes (by simp))

theorem step_moved (hstep : s.step kind event = some s') : Moved s event s' := by
  cases event with
  | registry event =>
    simp only [step] at hstep
    split_ifs at hstep with halone
    split at hstep
    · cases hstep
    · next app happ =>
      have hfollows := follows_step halone happ
      split at hstep
      · split_ifs at hstep
        · cases hstep
          exact .creation _ none id hfollows (by simp)
        · cases hstep
          exact .app id hfollows
      · cases hstep
        exact .app id hfollows
  | create call creation =>
    simp only [step] at hstep
    split_ifs at hstep with hguard
    split at hstep
    · cases hstep
    · next app happ =>
      split_ifs at hstep with hcreating
      · cases hstep
        refine .creation call (some creation) id ?_ ?_
        · simp only [App.step] at happ
          split_ifs at happ
          cases happ
          cases hadmits : admits s.app.phase with
          | error => exact .refl s.app
          | ok => exact System.follows_setCall (by simp)
        · intro parent heq
          cases heq
          exact absurd (.inr (by simp [Creation.First])) hguard
      · cases hstep
        exact .app id (.refl s.app)
  | check call answers =>
    simp only [step] at hstep
    split at hstep
    · split_ifs at hstep with hfound
      · cases hstep
        refine .creation call _ id (.refl s.app) ?_
        intro parent heq
        cases heq
        exact hfound.2
      · cases hstep
        exact moved_endCreation id
    · cases hstep
  | save call id stop =>
    simp only [step] at hstep
    split at hstep
    · next parent hcreation =>
      have hmakes : stop ≠ .failed → s.Makes call ⟨id, parent, none⟩ :=
        fun _ => .create hcreation rfl
      exact moved_save hmakes hstep
    · next source hcreation =>
      split_ifs at hstep with hsource
      have hmakes : stop ≠ .failed → s.Makes call ⟨id, none, some source⟩ := by
        intro hstop
        refine .fork source hcreation ?_ rfl rfl
        by_contra hgone
        exact hsource ⟨hstop, hgone⟩
      exact moved_save hmakes hstep
    · cases hstep
  | read call =>
    simp only [step] at hstep
    split at hstep
    · next id hcall =>
      split_ifs at hstep with hguard
      obtain ⟨app, happ, rfl⟩ := Option.map_eq_some_iff.mp hstep
      simp only [App.step, hcall] at happ
      cases happ
      refine .read call id (fun _ _ hopen => hopen) ?_
      intro other id' fresh hstarting
      by_cases hother : other = call
      · subst hother
        left
        have heq : id = id' ∧ false = fresh := by simpa [System.setCall] using hstarting
        exact ⟨rfl, heq.1.symm⟩
      · right
        simpa [System.setCall, hother] using hstarting
    · cases hstep
  | release id call =>
    simp only [step] at hstep
    split_ifs at hstep with hguard
    cases hstep
    push Not at hguard
    exact .release id call hguard.1 (by simpa using hguard.2)
  | remove call id =>
    simp only [step] at hstep
    split_ifs at hstep
    cases hstep
    exact .removal call _ (fun hwrites => hwrites) (.starts id)
  | list call page =>
    simp only [step] at hstep
    split at hstep
    · next hreading =>
      split at hstep
      · cases hstep
      · next hparent =>
        split at hstep
        · cases hstep
          exact .removal call none id .ends
        · split_ifs at hstep with hpage
          cases hstep
          exact .removal call _ id (.reads hreading hparent hpage)
    · cases hstep
  | look call =>
    simp only [step] at hstep
    split at hstep
    · next hreading =>
      split_ifs at hstep
      · cases hstep
        exact .removal call none id .ends
      · cases hstep
        exact .removal call _ id (.looks hreading)
    · cases hstep
  | delete call stop =>
    simp only [step] at hstep
    split at hstep
    · next hdeleting =>
      split at hstep
      · cases hstep
      · next hlast =>
        obtain ⟨t, hdelete, rfl⟩ := Option.map_eq_some_iff.mp hstep
        rcases deleteSession_cases hdelete with ⟨rfl, rfl⟩ | ⟨hmem, hleased, rfl, hstop⟩
        · exact .removal call _ (fun hwrites => hwrites rfl) .ends
        · exact .deleted call hdeleting hlast hmem hleased hstop
    · cases hstep
  | discard call stop =>
    simp only [step] at hstep
    split at hstep
    · next hcall =>
      obtain ⟨t, hdelete, rfl⟩ := Option.map_eq_some_iff.mp hstep
      rcases deleteSession_cases hdelete with ⟨rfl, rfl⟩ | ⟨_, hleased, rfl, hstop⟩
      · exact .app (fun hwrites => hwrites rfl) (System.follows_setCall (by simp))
      · exact .discarded call hcall hleased hstop
    · cases hstep

end Service

end Yuke.App
