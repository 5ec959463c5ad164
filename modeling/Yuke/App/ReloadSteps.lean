import Yuke.App.Reload
import Yuke.App.RegistryRuns

/-!
# Between the runs of a reload

What holds of the app in each state: the numbers of its runtimes and scripts, whose script a session
holds, and which locks a reload holds.
-/

set_option autoImplicit false

namespace Yuke.App

open Yuke.Protocol

/-! ## The runtimes and scripts -/

namespace Pool

variable {p q r : Pool} {runtime script : Nat} {live : LiveSession}

/-- `live` opened `script`. -/
def Owns (p : Pool) (live : LiveSession) (script : Nat) : Prop :=
  ∃ state, p.scripts[script]? = some state ∧ state.owner = live

def Numbered (p : Pool) : Prop := ∀ state ∈ p.scripts, state.runtime < p.runtimes.length

/-- `q` has each script of `p`, and what is closed stays closed. -/
structure Grows (p q : Pool) : Prop where
  runtimes : p.runtimes.length ≤ q.runtimes.length
  scripts : ∀ (script : Nat) (state : Script), p.scripts[script]? = some state →
    ∃ state', q.scripts[script]? = some state' ∧ state'.runtime = state.runtime ∧
      state'.owner = state.owner ∧ (state.closed → state'.closed)

theorem Grows.refl (p : Pool) : Grows p p :=
  ⟨le_rfl, fun _ state h => ⟨state, h, rfl, rfl, id⟩⟩

theorem Owns.grows (h : p.Owns live script) (hgrows : Grows p q) : q.Owns live script := by
  obtain ⟨state, hstate, rfl⟩ := h
  obtain ⟨state', hstate', -, howner, -⟩ := hgrows.scripts _ _ hstate
  exact ⟨state', hstate', howner⟩

theorem Owns.lt (h : p.Owns live script) : script < p.scripts.length := by
  obtain ⟨state, hstate, -⟩ := h
  exact (List.getElem?_eq_some_iff.mp hstate).1

theorem owns_openScript : (p.openScript runtime live).Owns live p.scripts.length :=
  ⟨⟨runtime, live, false⟩, List.getElem?_concat_length, rfl⟩

theorem grows_start : Grows p p.start := by
  refine ⟨?_, fun _ state h => ⟨state, h, rfl, rfl, id⟩⟩
  simp [start]

theorem scripts_openScript_of_lt (h : script < p.scripts.length) :
    (p.openScript runtime live).scripts[script]? = p.scripts[script]? :=
  List.getElem?_append_left h

theorem grows_openScript : Grows p (p.openScript runtime live) := by
  refine ⟨le_rfl, fun script state h => ⟨state, ?_, rfl, rfl, id⟩⟩
  rw [scripts_openScript_of_lt (List.getElem?_eq_some_iff.mp h).1]
  exact h

theorem scripts_closeScript (other : Nat) : (p.closeScript script).scripts[other]? =
    if script = other then (p.scripts[other]?).map Script.close else p.scripts[other]? := by
  unfold closeScript
  rw [List.getElem?_modify]
  split_ifs
  · rfl
  · exact Option.map_id'

theorem scripts_closeScript_of_ne {other : Nat} (h : other ≠ script) :
    (p.closeScript script).scripts[other]? = p.scripts[other]? := by
  rw [scripts_closeScript, if_neg h.symm]

theorem grows_closeScript : Grows p (p.closeScript script) := by
  refine ⟨le_rfl, fun other state h => ?_⟩
  rw [scripts_closeScript, h]
  split_ifs
  · exact ⟨state.close, rfl, rfl, rfl, fun _ => rfl⟩
  · exact ⟨state, rfl, rfl, rfl, id⟩

theorem scripts_stop (stop : Stop) : (p.stop runtime stop).scripts = p.scripts.map fun state =>
    if stop = .shutdown ∧ state.runtime = runtime then state.close else state := by
  cases stop <;> simp [Pool.stop]

theorem runtimes_stop_of_ne (stop : Stop) {other : Nat} (h : other ≠ runtime) :
    (p.stop runtime stop).runtimes[other]? = p.runtimes[other]? := by
  cases stop <;> exact List.getElem?_modify_ne _ _ h.symm

theorem length_runtimes_stop (stop : Stop) :
    (p.stop runtime stop).runtimes.length = p.runtimes.length := by
  cases stop <;> exact List.length_modify _ _ _

theorem grows_stop (stop : Stop) : Grows p (p.stop runtime stop) := by
  refine ⟨(length_runtimes_stop stop).ge, fun script state h => ?_⟩
  rw [scripts_stop, List.getElem?_map, h]
  refine ⟨_, rfl, ?_⟩
  dsimp only
  split_ifs
  · exact ⟨rfl, rfl, fun _ => rfl⟩
  · exact ⟨rfl, rfl, id⟩

theorem Numbered.start (h : p.Numbered) : p.start.Numbered := by
  intro state hstate
  have hlt := h state hstate
  simp only [Pool.start, List.length_append, List.length_singleton]
  omega

theorem Numbered.openScript (h : p.Numbered) (hruntime : runtime < p.runtimes.length) :
    (p.openScript runtime live).Numbered := by
  intro state hstate
  rcases List.mem_append.mp hstate with hstate | hstate
  · exact h state hstate
  · cases List.mem_singleton.mp hstate
    exact hruntime

theorem Numbered.closeScript (h : p.Numbered) : (p.closeScript script).Numbered := by
  intro state hstate
  obtain ⟨other, hother⟩ := List.mem_iff_getElem?.mp hstate
  rw [scripts_closeScript] at hother
  split_ifs at hother
  · obtain ⟨old, hold, rfl⟩ := Option.map_eq_some_iff.mp hother
    exact h old (List.mem_of_getElem? hold)
  · exact h state (List.mem_of_getElem? hother)

theorem Numbered.stop (h : p.Numbered) (stop : Stop) : (p.stop runtime stop).Numbered := by
  intro state hstate
  rw [scripts_stop] at hstate
  obtain ⟨old, hold, rfl⟩ := List.mem_map.mp hstate
  rw [length_runtimes_stop]
  have hlt := h old hold
  split_ifs
  · exact hlt
  · exact hlt

end Pool

def Stage.runtime? : Stage → Option Nat
  | .starting => none
  | .importing runtime _ | .loading runtime | .opening runtime _ _ | .cleaning runtime _ _
  | .stopping runtime _ _ | .replacing runtime _ _ | .ending runtime _ => some runtime

def Stage.pairs : Stage → List (LiveSession × Nat)
  | .opening _ opened _ => opened
  | .replacing _ _ rest => rest
  | _ => []

structure Staged (p : Pool) (stage : Stage) : Prop where
  runtime : ∀ runtime, stage.runtime? = some runtime → runtime < p.runtimes.length
  pairs : ∀ pair ∈ stage.pairs, p.Owns pair.1 pair.2

theorem Staged.grows {p q : Pool} {stage : Stage} (h : Staged p stage) (hgrows : p.Grows q) :
    Staged q stage where
  runtime := fun runtime hruntime => (h.runtime runtime hruntime).trans_le hgrows.runtimes
  pairs := fun pair hpair => (h.pairs pair hpair).grows hgrows

theorem Staged.plain {p : Pool} {stage : Stage} {runtime : Nat}
    (hstage : stage.runtime? = some runtime) (hpairs : stage.pairs = [])
    (h : runtime < p.runtimes.length) : Staged p stage where
  runtime := by
    intro other hother
    rw [hstage] at hother
    cases hother
    exact h
  pairs := by
    rw [hpairs]
    exact fun _ hpair => nomatch hpair

/-! ## The registry keeps the guard of a reload -/

theorem System.Inv.nodup_opened {s : System} (h : s.Inv) : s.opened.Nodup := by
  unfold System.opened List.Nodup
  rw [List.pairwise_filterMap]
  have hkeys := List.NodupKeys.pairwise_ne s.slots.nodupKeys
  refine hkeys.imp_of_mem fun {first second} hfirst hsecond hne live hlive live' hlive' heq => ?_
  have hopen : ∀ entry ∈ s.slots.entries, ∀ live, System.openOf entry.2 = some live →
      live.id = entry.1 := by
    rintro ⟨id, slot⟩ hentry live hslot
    cases slot with
    | «open» state =>
      exact h.alive.same_id id live
        ⟨state, AList.mem_lookup_iff.mpr hentry, Option.some.inj hslot⟩
    | opening | closing => cases hslot
  subst heq
  exact hne ((hopen first hfirst live hlive).symm.trans (hopen second hsecond live hlive'))

section Guard

variable {s s' : System}

theorem reload_dropTransition (s : System) (id : SessionId) :
    (s.dropTransition id).reload = s.reload := by
  rw [System.dropTransition_frame]

theorem reload_reserve {id : SessionId} (h : s.reserve id = .ok s') : s'.reload = s.reload := by
  unfold System.reserve at h
  split at h
  · cases h
  · split at h
    · cases h
    · cases h
    · cases h
    · cases h
      rfl

theorem reload_close {id : SessionId} {call : Nat} (h : s.close id call = .ok s') :
    s'.reload = s.reload := by
  unfold System.close at h
  split at h
  · cases h
  · split at h
    · cases h
      rfl
    · cases h
    · cases h
    · cases h

theorem reload_expire (s : System) (id : SessionId) (deadline : Nat) (jobs : Option Nat)
    (call : Nat) : (s.expire id deadline jobs call).reload = s.reload := by
  unfold System.expire
  split
  · split
    · rfl
    · split
      · exact (System.kept_reportIdle jobs).reload
      · rfl
  · rfl

theorem reload_startSession (s : System) (id : SessionId) (fresh : Bool) (jobs : Option Nat)
    (call : Nat) : (s.startSession id fresh jobs call).reload = s.reload := by
  unfold System.startSession System.openTransition
  dsimp only
  split
  · next herror =>
    split_ifs at herror
    exact reload_dropTransition _ _
  · next hok =>
    split_ifs at hok
    cases hok
    exact (System.kept_reportIdle jobs).reload.trans (reload_dropTransition _ _)

theorem step_reload {event : Event} (hstep : Yuke.App.step s event = some s')
    (hother : ofReload event = false) : s'.reload = s.reload := by
  cases event with
  | create call =>
    simp only [step] at hstep
    split_ifs at hstep
    cases hstep
    cases admits s.phase with
    | error => rfl
    | ok => rfl
  | saved call id runs =>
    simp only [step] at hstep
    split at hstep
    · split_ifs at hstep
      · cases hstep
        rfl
      · split at hstep
        · cases hstep
          rfl
        · next reserved hreserve =>
          cases hstep
          exact (reload_reserve hreserve : reserved.reload = s.reload)
    · cases hstep
  | «open» call id =>
    simp only [step] at hstep
    split_ifs at hstep
    cases hstep
    cases hreserve : s.reserve id with
    | error => rfl
    | ok reserved => exact (reload_reserve hreserve : reserved.reload = s.reload)
  | read call =>
    simp only [step] at hstep
    split at hstep
    · cases hstep
      rfl
    · cases hstep
  | started call jobs =>
    simp only [step] at hstep
    split at hstep
    · cases hstep
      exact reload_startSession ..
    · cases hstep
  | finish call =>
    obtain ⟨state, -, rfl⟩ := Option.map_eq_some_iff.mp hstep
    cases state with
    | creating | deleting | closingAll | discarding => rfl
    | opening | closing | starting => exact reload_dropTransition _ _
  | drop call =>
    obtain ⟨state, -, rfl⟩ := Option.map_eq_some_iff.mp hstep
    unfold System.drop
    split
    · exact reload_dropTransition _ _
    · rfl
  | close call id =>
    simp only [step] at hstep
    split_ifs at hstep
    cases hstep
    cases hclose : s.close id call with
    | error => rfl
    | ok => exact reload_close hclose
  | closeAll call =>
    simp only [step] at hstep
    split_ifs at hstep
    cases hstep
    rfl
  | attach id =>
    cases hstep
    cases hattach : s.attach id with
    | error => rfl
    | ok held => exact (System.kept_attach hattach).reload
  | detach attachment =>
    simp only [step] at hstep
    split_ifs at hstep
    cases hstep
    exact (System.kept_detach attachment).reload
  | idle id jobs =>
    cases hstep
    exact (System.kept_reportIdle jobs).reload
  | expire call id deadline jobs =>
    simp only [step] at hstep
    split_ifs at hstep
    cases hstep
    exact reload_expire ..
  | tick span =>
    cases hstep
    rfl
  | turn | startReload | endReload => cases hother

end Guard

namespace AppState

variable {Profile : Type} {a b : AppState Profile} {attempt : Attempt Profile}

structure Sound (a : AppState Profile) : Prop where
  registry : a.system.Inv
  guarded : a.attempt.isSome ↔ a.system.reload.isSome
  same : a.reporter = a.runtime ∧ a.handle = a.runtime
  runtime : a.runtime < a.pool.runtimes.length
  numbered : a.pool.Numbered
  owned : ∀ live script, a.script live = some script → a.pool.Owns live script
  locks : ∀ live, a.locks live = some .reload ↔
    ∃ attempt, a.attempt = some attempt ∧ live ∈ attempt.held
  staged : ∀ attempt, a.attempt = some attempt → Staged a.pool attempt.stage

theorem sound_start (profile : Profile) (interface : Bool) :
    ({ profile := profile, interface := interface } : AppState Profile).Sound where
  registry := inv_start
  guarded := by simp
  same := ⟨rfl, rfl⟩
  runtime := Nat.zero_lt_one
  numbered := fun _ hstate => nomatch hstate
  owned := fun _ _ hscript => nomatch hscript
  locks := by simp
  staged := fun _ hattempt => nomatch hattempt

theorem Sound.grows (h : a.Sound) {p : Pool} (hgrows : a.pool.Grows p) (hnumbered : p.Numbered) :
    { a with pool := p }.Sound where
  registry := h.registry
  guarded := h.guarded
  same := h.same
  runtime := h.runtime.trans_le hgrows.runtimes
  numbered := hnumbered
  owned := fun live script hscript => (h.owned live script hscript).grows hgrows
  locks := h.locks
  staged := fun attempt hattempt => (h.staged attempt hattempt).grows hgrows

theorem Sound.setStage (h : a.Sound) (hattempt : a.attempt = some attempt) {stage : Stage}
    (hstaged : Staged a.pool stage) : (a.setStage attempt stage).Sound where
  registry := h.registry
  guarded := by
    have hreload := h.guarded.mp (by rw [hattempt]; rfl)
    exact ⟨fun _ => hreload, fun _ => rfl⟩
  same := h.same
  runtime := h.runtime
  numbered := h.numbered
  owned := h.owned
  locks := by
    intro live
    rw [show (a.setStage attempt stage).locks live = a.locks live from rfl, h.locks, hattempt]
    constructor
    · rintro ⟨other, hother, hlive⟩
      cases hother
      exact ⟨_, rfl, hlive⟩
    · rintro ⟨other, hother, hlive⟩
      cases hother
      exact ⟨_, rfl, hlive⟩
  staged := by
    intro other hother
    cases hother
    exact hstaged

theorem Sound.finish (h : a.Sound) (hattempt : a.attempt = some attempt)
    (out : Except ReloadError Unit) : (a.finish attempt out).Sound where
  registry := h.registry.endReload
  guarded := by simp [AppState.finish, System.endReload]
  same := h.same
  runtime := h.runtime
  numbered := h.numbered
  owned := h.owned
  locks := by
    intro live
    constructor
    · intro hlock
      simp only [AppState.finish] at hlock
      split_ifs at hlock with hheld
      obtain ⟨other, hother, hlive⟩ := (h.locks live).mp hlock
      rw [hattempt] at hother
      cases hother
      exact absurd hlive hheld
    · rintro ⟨other, hother, -⟩
      cases hother
  staged := fun _ hother => nomatch hother

theorem Sound.fail (h : a.Sound) (hattempt : a.attempt = some attempt) (error : ReloadError) :
    (a.fail attempt error).Sound := by
  have hback : { a with profile := attempt.oldProfile }.Sound :=
    ⟨h.registry, h.guarded, h.same, h.runtime, h.numbered, h.owned, h.locks, h.staged⟩
  exact hback.finish hattempt _

theorem Sound.replace (h : a.Sound) (hattempt : a.attempt = some attempt) {runtime : Nat}
    (hruntime : runtime < a.pool.runtimes.length) {pairs : List (LiveSession × Nat)}
    (hpairs : ∀ pair ∈ pairs, a.pool.Owns pair.1 pair.2) :
    (a.replace attempt runtime pairs).Sound := by
  induction pairs generalizing a with
  | nil =>
    unfold AppState.replace
    have hstaged : Staged a.pool (.ending a.runtime .plugins) := .plain rfl rfl h.runtime
    have hmoved :
        { a with runtime := runtime, reporter := runtime, handle := runtime }.Sound :=
      ⟨h.registry, h.guarded, ⟨rfl, rfl⟩, hruntime, h.numbered, h.owned, h.locks, h.staged⟩
    exact hmoved.setStage hattempt hstaged
  | cons pair rest ih =>
    have howned : ∀ live script,
        Function.update a.script pair.1 (some pair.2) live = some script →
          a.pool.Owns live script := by
      intro live script hscript
      rw [Function.update_apply] at hscript
      split_ifs at hscript with hlive
      · cases hscript
        rw [hlive]
        exact hpairs pair List.mem_cons_self
      · exact h.owned live script hscript
    have hswapped : { a with script := Function.update a.script pair.1 (some pair.2) }.Sound :=
      ⟨h.registry, h.guarded, h.same, h.runtime, h.numbered, howned, h.locks, h.staged⟩
    have hrest : ∀ other ∈ rest, a.pool.Owns other.1 other.2 :=
      fun other hother => hpairs other (List.mem_cons_of_mem _ hother)
    unfold AppState.replace
    split
    · refine hswapped.setStage hattempt ⟨?_, hrest⟩
      intro other hother
      cases hother
      exact hruntime
    · exact ih hswapped hattempt hruntime hrest

theorem Sound.openNext (h : a.Sound) (hattempt : a.attempt = some attempt) {runtime : Nat}
    (hruntime : runtime < a.pool.runtimes.length) {opened : List (LiveSession × Nat)}
    (hopened : ∀ pair ∈ opened, a.pool.Owns pair.1 pair.2) (rest : List LiveSession) :
    (a.openNext attempt runtime opened rest).Sound := by
  unfold AppState.openNext
  split
  · exact h.replace hattempt hruntime hopened
  · refine h.setStage hattempt ⟨?_, hopened⟩
    intro other hother
    cases hother
    exact hruntime

theorem Sound.cleanNext (h : a.Sound) (hattempt : a.attempt = some attempt) {runtime : Nat}
    (hruntime : runtime < a.pool.runtimes.length) (error : ReloadError) (left : List Nat) :
    (a.cleanNext attempt runtime error left).Sound := by
  unfold AppState.cleanNext
  split
  · exact h.setStage hattempt (.plain rfl rfl hruntime)
  · exact h.setStage hattempt (.plain rfl rfl hruntime)

theorem Sound.started (h : a.Sound) (hattempt : a.attempt = some attempt) :
    (a.started attempt).Sound := by
  have hgrown := h.grows Pool.grows_start h.numbered.start
  refine hgrown.setStage hattempt (.plain rfl rfl ?_)
  simp [Pool.start]

theorem Sound.stop (h : a.Sound) (runtime : Nat) (stop : Stop) :
    { a with pool := a.pool.stop runtime stop }.Sound :=
  h.grows (Pool.grows_stop stop) (h.numbered.stop stop)

theorem Sound.closeScript (h : a.Sound) (script : Nat) :
    { a with pool := a.pool.closeScript script }.Sound :=
  h.grows Pool.grows_closeScript h.numbered.closeScript

theorem Sound.goOn (h : a.Sound) (hattempt : a.attempt = some attempt) (failures : List String) :
    (a.goOn attempt failures).Sound := by
  have hstaged := h.staged attempt hattempt
  have hruntime := hstaged.runtime
  have hpairs := hstaged.pairs
  unfold AppState.goOn
  split <;> rename_i hstage <;> simp only [hstage, Stage.runtime?, Option.some.injEq,
    forall_eq', reduceCtorEq, false_implies, implies_true, Stage.pairs] at hruntime hpairs
  · exact h.started hattempt
  · exact h.setStage hattempt (.plain rfl rfl hruntime)
  · exact h.setStage hattempt (.plain rfl rfl hruntime)
  · split_ifs
    · exact h.openNext hattempt hruntime (by simp) _
    · exact h.setStage hattempt (.plain rfl rfl hruntime)
  · next runtime opened live rest =>
    have hgrows : Pool.Grows a.pool (a.pool.openScript runtime live) := Pool.grows_openScript
    have hgrown := h.grows hgrows (h.numbered.openScript hruntime)
    refine hgrown.openNext hattempt hruntime ?_ rest
    intro pair hpair
    rcases List.mem_append.mp hpair with hpair | hpair
    · exact (hpairs pair hpair).grows Pool.grows_openScript
    · cases List.mem_singleton.mp hpair
      exact Pool.owns_openScript
  · exact h.openNext hattempt hruntime hpairs _
  · exact (h.closeScript _).cleanNext hattempt hruntime _ _
  · exact h.cleanNext hattempt hruntime _ _
  · next runtime stop error =>
    have hstopped := h.stop runtime stop
    have hlt : runtime < (a.pool.stop runtime stop).runtimes.length :=
      hruntime.trans_le (Pool.grows_stop stop).runtimes
    split
    · exact hstopped.setStage hattempt (.plain rfl rfl hlt)
    · exact hstopped.fail hattempt _
  · refine (h.closeScript _).replace hattempt ?_ ?_
    · exact hruntime.trans_le Pool.grows_closeScript.runtimes
    · exact fun pair hpair => (hpairs pair hpair).grows Pool.grows_closeScript
  · next old stop =>
    have hstopped := h.stop old stop
    have hlt : old < (a.pool.stop old stop).runtimes.length :=
      hruntime.trans_le (Pool.grows_stop stop).runtimes
    split
    · exact hstopped.setStage hattempt (.plain rfl rfl hlt)
    · exact hstopped.finish hattempt _

theorem Sound.failHere (h : a.Sound) (hattempt : a.attempt = some attempt) {text : String}
    (hstep : a.failHere attempt text = some b) : b.Sound := by
  have hruntime := (h.staged attempt hattempt).runtime
  unfold AppState.failHere at hstep
  split at hstep
  · cases hstep
    exact h.fail hattempt _
  · next hstage =>
    cases hstep
    exact h.setStage hattempt (.plain rfl rfl (hruntime _ (by rw [hstage]; rfl)))
  · next hstage =>
    cases hstep
    exact h.cleanNext hattempt (hruntime _ (by rw [hstage]; rfl)) _ _
  · cases hstep

theorem hold_locks {locks locks' : LiveSession → Option Locker} {lives : List LiveSession}
    (h : hold locks lives = some locks') (live : LiveSession) :
    locks' live = if live ∈ lives then some .reload else locks live := by
  induction lives generalizing locks with
  | nil =>
    cases h
    simp
  | cons first rest ih =>
    unfold hold at h
    split_ifs at h
    rw [ih h, Function.update_apply]
    by_cases hfirst : live = first <;> by_cases hrest : live ∈ rest <;> simp [hfirst, hrest]

theorem reload_cases (hreload : a.system.reload = none) (loaded : Except String Profile) :
    (∃ error, a.reload loaded = { a with outcome := some (.error error) }) ∨
    ∃ locks profile, a.system.phase = .ready ∧ hold a.locks a.system.opened = some locks ∧
      loaded = .ok profile ∧
      a.system.startReload =
        .ok { a.system with phase := .reloading, reload := some a.system.opened } ∧
      a.reload loaded = { a with
        system := { a.system with phase := .reloading, reload := some a.system.opened }
        locks := locks
        profile := profile
        attempt := some ⟨a.system.opened, a.profile, .starting⟩ } := by
  cases hstart : a.system.startReload with
  | error error =>
    refine .inl ⟨.app error, ?_⟩
    simp only [AppState.reload, hstart]
  | ok system =>
    obtain ⟨hphase, -, rfl⟩ := System.startReload_ok hstart
    have hback : System.endReload
        { a.system with phase := .reloading, reload := some a.system.opened } = a.system := by
      simp only [System.endReload, if_true]
      rw [← hreload, ← hphase]
    cases hlocks : hold a.locks a.system.opened with
    | none =>
      refine .inl ⟨.turnRuns, ?_⟩
      simp only [AppState.reload, hstart, hlocks, hback]
    | some locks =>
      cases loaded with
      | error text =>
        refine .inl ⟨.invalid text, ?_⟩
        simp only [AppState.reload, hstart, hlocks, hback]
      | ok profile =>
        refine .inr ⟨locks, profile, hphase, rfl, rfl, rfl, ?_⟩
        simp only [AppState.reload, hstart, hlocks]

theorem Sound.reload (h : a.Sound) (hattempt : a.attempt = none) (loaded : Except String Profile) :
    (a.reload loaded).Sound := by
  have hreload : a.system.reload = none := by
    rw [← Option.not_isSome_iff_eq_none, ← h.guarded, hattempt]
    simp
  obtain ⟨error, heq⟩ | ⟨locks, profile, -, hlocks, -, hstart, heq⟩ := reload_cases hreload loaded
  · rw [heq]
    exact ⟨h.registry, h.guarded, h.same, h.runtime, h.numbered, h.owned, h.locks, h.staged⟩
  · rw [heq]
    refine ⟨h.registry.startReload hstart, by simp, h.same, h.runtime, h.numbered, h.owned, ?_, ?_⟩
    · intro live
      have hfree : a.locks live ≠ some .reload := by
        intro hlock
        obtain ⟨attempt, hsome, -⟩ := (h.locks live).mp hlock
        rw [hattempt] at hsome
        cases hsome
      simp only [hold_locks hlocks live, Option.some.injEq, exists_eq_left']
      split_ifs with hlive
      · exact ⟨fun _ => hlive, fun _ => rfl⟩
      · exact ⟨fun hlock => absurd hlock hfree, fun hmem => absurd hmem hlive⟩
    · intro attempt hsome
      cases hsome
      exact ⟨by simp [Stage.runtime?], by simp [Stage.pairs]⟩

inductive Outside (a : AppState Profile) : AppState Profile → Prop where
  | registry (event : Event) (system : System) (hstep : Yuke.App.step a.system event = some system)
      (hother : ofReload event = false) (hstarts : a.system.starts event = none) :
      Outside a { a with system := system }
  | starts (event : Event) (system : System) (live : LiveSession)
      (hstep : Yuke.App.step a.system event = some system)
      (hother : ofReload event = false) (hstarts : a.system.starts event = some live) :
      Outside a { a with
        system := system
        pool := a.pool.openScript a.handle live
        script := Function.update a.script live (some a.pool.scripts.length) }
  | closeScript (script : Nat) (state : Script) (hscript : a.pool.scripts[script]? = some state)
      (howner : state.owner ∉ a.system.running) :
      Outside a { a with pool := a.pool.closeScript script }
  | locks (live : LiveSession) (lock : Option Locker) (hlock : lock ≠ some .reload)
      (hfree : a.locks live ≠ some .reload) :
      Outside a { a with locks := Function.update a.locks live lock }
  | startTurn (live : LiveSession) (hlock : a.locks live = some .session)
      (hlive : live ∈ a.system.running) :
      Outside a { a with system := a.system.touch live.id, turns := a.turns ++ [live] }

theorem step_cases {event : AppEvent Profile} (hstep : a.step event = some b) :
    a.Outside b ∨ (∃ loaded, a.attempt = none ∧ event = .reload loaded ∧ b = a.reload loaded) ∨
    (∃ attempt failures, a.attempt = some attempt ∧ b = a.goOn attempt failures) ∨
    (∃ attempt text, a.attempt = some attempt ∧ a.failHere attempt text = some b) := by
  cases event with
  | system event =>
    simp only [AppState.step, systemStep] at hstep
    split_ifs at hstep with hother
    obtain ⟨system, hsystem, heq⟩ := Option.map_eq_some_iff.mp hstep
    split at heq
    · next live hstarts =>
      cases heq
      exact .inl (.starts event system live hsystem (by simpa using hother) hstarts)
    · next hstarts =>
      cases heq
      exact .inl (.registry event system hsystem (by simpa using hother) hstarts)
  | closeScript script =>
    simp only [AppState.step] at hstep
    split at hstep
    · next state hscript =>
      split_ifs at hstep with howner
      cases hstep
      exact .inl (.closeScript script state hscript howner)
    · cases hstep
  | lock live =>
    simp only [AppState.step] at hstep
    split_ifs at hstep with hlock
    cases hstep
    exact .inl (.locks live _ (by simp) fun hreload => hlock (by rw [hreload]; rfl))
  | startTurn live =>
    simp only [AppState.step] at hstep
    split_ifs at hstep with hturn
    cases hstep
    exact .inl (.startTurn live hturn.1 hturn.2)
  | unlock live =>
    simp only [AppState.step] at hstep
    split_ifs at hstep with hlock
    cases hstep
    exact .inl (.locks live _ (by simp) fun hreload => by simp [hlock] at hreload)
  | reload loaded =>
    simp only [AppState.step] at hstep
    split_ifs at hstep with hattempt
    cases hstep
    exact .inr (.inl ⟨loaded, by simpa using hattempt, rfl, rfl⟩)
  | goesOn failures =>
    obtain ⟨attempt, hattempt, rfl⟩ := Option.map_eq_some_iff.mp hstep
    exact .inr (.inr (.inl ⟨attempt, failures, hattempt, rfl⟩))
  | fails text =>
    obtain ⟨attempt, hattempt, hfail⟩ := Option.bind_eq_some_iff.mp hstep
    exact .inr (.inr (.inr ⟨attempt, text, hattempt, hfail⟩))

theorem Sound.outside (h : a.Sound) (hstep : a.Outside b) : b.Sound := by
  cases hstep with
  | registry event system hstep hother =>
    refine ⟨step_inv h.registry hstep, ?_, h.same, h.runtime, h.numbered, h.owned, h.locks,
      h.staged⟩
    rw [step_reload hstep hother]
    exact h.guarded
  | starts event system live hstep hother =>
    have hhandle : a.handle < a.pool.runtimes.length := by
      rw [h.same.2]
      exact h.runtime
    refine ⟨step_inv h.registry hstep, ?_, h.same, h.runtime, h.numbered.openScript hhandle, ?_,
      h.locks, fun attempt hattempt => (h.staged attempt hattempt).grows Pool.grows_openScript⟩
    · rw [step_reload hstep hother]
      exact h.guarded
    · intro other script hscript
      simp only [Function.update_apply] at hscript
      split_ifs at hscript with hlive
      · cases hscript
        rw [hlive]
        exact Pool.owns_openScript
      · exact (h.owned other script hscript).grows Pool.grows_openScript
  | closeScript script => exact h.closeScript script
  | locks live lock hlock hfree =>
    refine ⟨h.registry, h.guarded, h.same, h.runtime, h.numbered, h.owned, ?_, h.staged⟩
    intro other
    rw [← h.locks]
    simp only [Function.update_apply]
    split_ifs with hother
    · rw [hother]
      exact ⟨fun heq => absurd heq hlock, fun heq => absurd heq hfree⟩
    · exact .rfl
  | startTurn live =>
    have hstep : Yuke.App.step a.system (.turn live.id) = some (a.system.touch live.id) := rfl
    have hinv : (a.system.touch live.id).Inv := step_inv h.registry hstep
    refine ⟨hinv, ?_, h.same, h.runtime, h.numbered, h.owned, h.locks, h.staged⟩
    rw [System.kept_touch.reload]
    exact h.guarded

theorem step_sound {event : AppEvent Profile} (h : a.Sound) (hstep : a.step event = some b) :
    b.Sound := by
  obtain hstep | ⟨loaded, hattempt, -, rfl⟩ | ⟨attempt, failures, hattempt, rfl⟩ |
    ⟨attempt, text, hattempt, hfail⟩ := step_cases hstep
  · exact h.outside hstep
  · exact h.reload hattempt loaded
  · exact h.goOn hattempt failures
  · exact h.failHere hattempt hfail

end AppState

end Yuke.App
