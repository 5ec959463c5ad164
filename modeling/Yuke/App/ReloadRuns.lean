import Yuke.App.ReloadSteps
import Yuke.Shared.Steps

/-!
# A reload is all or nothing

A reload that fails leaves the app as it was, and everything it started has ended. A reload that
succeeds leaves each open session with a script of the new runtime. Meanwhile no session opens,
closes or starts a turn.
-/

set_option autoImplicit false

namespace Yuke.App

open Yuke.Protocol Yuke.Shared

namespace Pool

variable {p q : Pool} {runtime script : Nat} {live : LiveSession} {stop : Stop}

def Closed (p : Pool) (script : Nat) : Prop :=
  ∃ state, p.scripts[script]? = some state ∧ state.closed = true

def AllClosed (p : Pool) (runtime : Nat) : Prop :=
  ∀ state ∈ p.scripts, state.runtime = runtime → state.closed = true

def Ended (p : Pool) (runtime : Nat) : Prop :=
  (∃ state, p.runtimes[runtime]? = some state ∧ state.stopped) ∧ p.AllClosed runtime

/-- The waits of `stop_runtime` before `stop` are over. -/
def Stopping (p : Pool) (runtime : Nat) : Stop → Prop
  | .plugins => ∃ state, p.runtimes[runtime]? = some state
  | .shutdown => ∃ state, p.runtimes[runtime]? = some state ∧ state.plugins = false
  | .reporter =>
    (∃ state, p.runtimes[runtime]? = some state ∧ state.plugins = false ∧ state.runs = false) ∧
      p.AllClosed runtime

theorem Closed.grows (h : p.Closed script) (hgrows : p.Grows q) : q.Closed script := by
  obtain ⟨state, hstate, hclosed⟩ := h
  obtain ⟨state', hstate', -, -, hkept⟩ := hgrows.scripts _ _ hstate
  exact ⟨state', hstate', hkept hclosed⟩

theorem closed_closeScript (h : script < p.scripts.length) :
    (p.closeScript script).Closed script := by
  refine ⟨p.scripts[script].close, ?_, rfl⟩
  rw [scripts_closeScript, if_pos rfl, List.getElem?_eq_getElem h]
  rfl

theorem allClosed_shutdown : (p.stop runtime .shutdown).AllClosed runtime := by
  intro state hstate hruntime
  rw [scripts_stop] at hstate
  obtain ⟨old, -, rfl⟩ := List.mem_map.mp hstate
  split_ifs at hruntime ⊢ with hold
  · rfl
  · exact absurd ⟨rfl, hruntime⟩ hold

theorem Stopping.next (h : p.Stopping runtime stop) {later : Stop} (hnext : stop.next = some later) :
    (p.stop runtime stop).Stopping runtime later := by
  cases stop with
  | plugins =>
    cases hnext
    obtain ⟨state, hstate⟩ := h
    exact ⟨{ state with plugins := false }, by simp [Pool.stop, hstate], rfl⟩
  | shutdown =>
    cases hnext
    obtain ⟨state, hstate, hplugins⟩ := h
    exact ⟨⟨{ state with runs := false }, by simp [Pool.stop, hstate], hplugins, rfl⟩,
      allClosed_shutdown⟩
  | reporter => cases hnext

theorem Stopping.ended (h : p.Stopping runtime stop) (hnext : stop.next = none) :
    (p.stop runtime stop).Ended runtime := by
  cases stop with
  | plugins | shutdown => cases hnext
  | reporter =>
    obtain ⟨⟨state, hstate, hplugins, hruns⟩, hclosed⟩ := h
    exact ⟨⟨{ state with reports := false }, by simp [Pool.stop, hstate], hplugins, hruns, rfl⟩,
      hclosed⟩

/-- `q` has the runtimes of `p`, and each script of `q` is one of `p` that may have closed. -/
structure Closes (p q : Pool) : Prop where
  runtimes : q.runtimes = p.runtimes
  length : q.scripts.length = p.scripts.length
  scripts : ∀ (script : Nat) (state : Script), q.scripts[script]? = some state →
    ∃ old, p.scripts[script]? = some old ∧ state.runtime = old.runtime ∧
      (old.closed → state.closed)

/-- `q` has the runtimes and scripts of `p` by their numbers, and each script in its runtime. -/
structure Steady (p q : Pool) : Prop where
  runtimes : q.runtimes.length = p.runtimes.length
  length : q.scripts.length = p.scripts.length
  scripts : ∀ (script : Nat) (state : Script), q.scripts[script]? = some state →
    ∃ old, p.scripts[script]? = some old ∧ state.runtime = old.runtime

theorem Closes.steady (h : p.Closes q) : p.Steady q where
  runtimes := by rw [h.runtimes]
  length := h.length
  scripts := by
    intro script state hstate
    obtain ⟨old, hold, hruntime, -⟩ := h.scripts script state hstate
    exact ⟨old, hold, hruntime⟩

theorem steady_stop : p.Steady (p.stop runtime stop) where
  runtimes := length_runtimes_stop stop
  length := by
    rw [scripts_stop]
    exact List.length_map _
  scripts := by
    intro script state hstate
    rw [scripts_stop, List.getElem?_map] at hstate
    obtain ⟨old, hold, rfl⟩ := Option.map_eq_some_iff.mp hstate
    refine ⟨old, hold, ?_⟩
    split_ifs
    · rfl
    · rfl

theorem openScript_cases {state : Script}
    (h : (p.openScript runtime live).scripts[script]? = some state) :
    p.scripts[script]? = some state ∨
      (p.scripts.length ≤ script ∧ state = ⟨runtime, live, false⟩) := by
  rcases lt_or_ge script p.scripts.length with hlt | hle
  · rw [scripts_openScript_of_lt hlt] at h
    exact .inl h
  · unfold openScript at h
    rw [List.getElem?_append_right hle] at h
    exact .inr ⟨hle, List.mem_singleton.mp (List.mem_of_getElem? h)⟩

theorem scripts_stop_of_ne (h : ∀ state, p.scripts[script]? = some state → state.runtime ≠ runtime) :
    (p.stop runtime stop).scripts[script]? = p.scripts[script]? := by
  rw [scripts_stop, List.getElem?_map]
  cases hstate : p.scripts[script]? with
  | none => rfl
  | some state =>
    have hne := h state hstate
    simp [hne]

theorem closes_closeScript : p.Closes (p.closeScript script) := by
  refine ⟨rfl, List.length_modify _ _ _, fun other state hstate => ?_⟩
  rw [scripts_closeScript] at hstate
  split_ifs at hstate
  · obtain ⟨old, hold, rfl⟩ := Option.map_eq_some_iff.mp hstate
    exact ⟨old, hold, rfl, fun _ => rfl⟩
  · exact ⟨state, hstate, rfl, id⟩

theorem AllClosed.closes (h : p.AllClosed runtime) (hcloses : p.Closes q) :
    q.AllClosed runtime := by
  intro state hstate hruntime
  obtain ⟨other, hother⟩ := List.mem_iff_getElem?.mp hstate
  obtain ⟨old, hold, hsame, hclosed⟩ := hcloses.scripts other state hother
  exact hclosed (h old (List.mem_of_getElem? hold) (hsame.symm.trans hruntime))

theorem Stopping.closes (h : p.Stopping runtime stop) (hcloses : p.Closes q) :
    q.Stopping runtime stop := by
  cases stop with
  | plugins | shutdown =>
    unfold Stopping
    rw [hcloses.runtimes]
    exact h
  | reporter =>
    refine ⟨?_, h.2.closes hcloses⟩
    rw [hcloses.runtimes]
    exact h.1

end Pool

structure Plugins where
  runtime : Nat
  pool : Pool
  script : LiveSession → Option Nat

namespace AppState

variable {Profile : Type} {a₀ a b : AppState Profile} {attempt : Attempt Profile}
  {p : Pool} {c d : Plugins} {runtime : Nat}

def plugins (a : AppState Profile) : Plugins := ⟨a.runtime, a.pool, a.script⟩

structure Unchanged (a₀ : AppState Profile) (c : Plugins) : Prop where
  runtime : c.runtime = a₀.runtime
  state : c.pool.runtimes[a₀.runtime]? = a₀.pool.runtimes[a₀.runtime]?
  script : ∀ live ∈ a₀.system.opened, c.script live = a₀.script live
  scripts : ∀ live ∈ a₀.system.opened, ∀ script, a₀.script live = some script →
    c.pool.scripts[script]? = a₀.pool.scripts[script]?

/-- `runtime` is the one that started since `a₀`, and the scripts since then are its scripts. -/
structure Fresh (a₀ : AppState Profile) (p : Pool) (runtime : Nat) : Prop where
  number : runtime = a₀.pool.runtimes.length
  only : p.runtimes.length = runtime + 1
  longer : a₀.pool.scripts.length ≤ p.scripts.length
  scripts : ∀ script state, p.scripts[script]? = some state →
    (state.runtime = runtime ↔ a₀.pool.scripts.length ≤ script)

theorem Fresh.steady {q : Pool} (h : Fresh a₀ p runtime) (hsteady : p.Steady q) :
    Fresh a₀ q runtime where
  number := h.number
  only := hsteady.runtimes.trans h.only
  longer := hsteady.length.symm ▸ h.longer
  scripts := by
    intro script state hstate
    obtain ⟨old, hold, hruntime⟩ := hsteady.scripts script state hstate
    rw [hruntime]
    exact h.scripts script old hold

theorem Fresh.stop (h : Fresh a₀ p runtime) (other : Nat) (stop : Stop) :
    Fresh a₀ (p.stop other stop) runtime :=
  h.steady Pool.steady_stop

theorem Fresh.closeScript (h : Fresh a₀ p runtime) (script : Nat) :
    Fresh a₀ (p.closeScript script) runtime :=
  h.steady Pool.closes_closeScript.steady

theorem Fresh.started (h : Fresh a₀ p runtime) : p.Stopping runtime .plugins := by
  have hlt : runtime < p.runtimes.length := by
    rw [h.only]
    exact Nat.lt_succ_self _
  exact ⟨_, List.getElem?_eq_getElem hlt⟩

/-- `script` is open in `runtime` for `live`, and it opened since `a₀`. -/
def New (a₀ : AppState Profile) (p : Pool) (runtime : Nat) (live : LiveSession) (script : Nat) :
    Prop :=
  a₀.pool.scripts.length ≤ script ∧ p.scripts[script]? = some ⟨runtime, live, false⟩

/-- The sessions of `rest` hold their old scripts, and each other session its new one. `closing` is
the old script that closes now. -/
structure Swaps (a₀ : AppState Profile) (c : Plugins) (runtime : Nat) (closing : Option Nat)
    (rest : List (LiveSession × Nat)) : Prop where
  nodup : (rest.map Prod.fst).Nodup
  left : ∀ pair ∈ rest, pair.1 ∈ a₀.system.opened ∧ New a₀ c.pool runtime pair.1 pair.2 ∧
    c.script pair.1 = a₀.script pair.1
  done : ∀ live ∈ a₀.system.opened, live ∉ rest.map Prod.fst →
    ∃ script, c.script live = some script ∧ New a₀ c.pool runtime live script
  closed : ∀ live ∈ a₀.system.opened, ∀ script, a₀.script live = some script →
    live ∉ rest.map Prod.fst → closing = some script ∨ c.pool.Closed script

/-- What a stage says of the app since the reload began at `a₀`. -/
def StageHolds (a₀ : AppState Profile) (c : Plugins) : Stage → Prop
  | .starting => Unchanged a₀ c ∧ c.pool.runtimes.length = a₀.pool.runtimes.length ∧
    c.pool.scripts.length = a₀.pool.scripts.length
  | .importing runtime _ | .loading runtime =>
    Unchanged a₀ c ∧ Fresh a₀ c.pool runtime ∧ c.pool.runtimes[runtime]? = some {}
  | .opening runtime opened rest =>
    (Unchanged a₀ c ∧ Fresh a₀ c.pool runtime ∧ c.pool.runtimes[runtime]? = some {}) ∧
    (∀ pair ∈ opened, New a₀ c.pool runtime pair.1 pair.2) ∧
    opened.map Prod.fst ++ rest = a₀.system.opened
  | .cleaning runtime left _ => Unchanged a₀ c ∧ Fresh a₀ c.pool runtime ∧
    ∀ script ∈ left, a₀.pool.scripts.length ≤ script
  | .stopping runtime stop _ =>
    Unchanged a₀ c ∧ Fresh a₀ c.pool runtime ∧ c.pool.Stopping runtime stop
  | .replacing runtime old rest => c.runtime = a₀.runtime ∧ Fresh a₀ c.pool runtime ∧
    c.pool.runtimes[runtime]? = some {} ∧ old < a₀.pool.scripts.length ∧
    Swaps a₀ c runtime (some old) rest
  | .ending old stop => old = a₀.runtime ∧ Fresh a₀ c.pool c.runtime ∧
    c.pool.runtimes[c.runtime]? = some {} ∧ Swaps a₀ c c.runtime none [] ∧
    c.pool.Stopping old stop

/-- The app while the reload that began at `a₀` with the profile `loaded` waits. -/
structure Waits (a₀ : AppState Profile) (loaded : Except String Profile) (a : AppState Profile)
    (attempt : Attempt Profile) : Prop where
  current : a.attempt = some attempt
  ready : a₀.system.phase = .ready
  held : attempt.held = a₀.system.opened
  oldProfile : attempt.oldProfile = a₀.profile
  loaded : loaded = .ok a.profile
  open_iff : ∀ live, live ∈ a.system.opened ↔ live ∈ a₀.system.opened
  turns : a.turns = a₀.turns

structure During (a₀ : AppState Profile) (loaded : Except String Profile) (a : AppState Profile)
    (attempt : Attempt Profile) : Prop extends Waits a₀ loaded a attempt where
  stage : StageHolds a₀ a.plugins attempt.stage

/-- A step that opens and closes no session and touches no script of an open session. -/
structure Quiet (a b : AppState Profile) : Prop where
  same : b = { a with system := b.system, pool := b.pool, locks := b.locks }
  open_iff : ∀ live, live ∈ b.system.opened ↔ live ∈ a.system.opened
  closes : a.pool.Closes b.pool
  grows : a.pool.Grows b.pool
  scripts : ∀ script live, a.pool.Owns live script → live ∈ a.system.opened →
    b.pool.scripts[script]? = a.pool.scripts[script]?

section Quiet

variable (h : Quiet a b) (hopen : ∀ live, live ∈ a.system.opened ↔ live ∈ a₀.system.opened)

include h hopen

theorem Unchanged.quiet (ha : a.Sound) (hold : Unchanged a₀ a.plugins) :
    Unchanged a₀ b.plugins := by
  have hsame := h.same
  refine ⟨?_, ?_, ?_, ?_⟩
  · rw [hsame]
    exact hold.runtime
  · refine Eq.trans ?_ hold.state
    change b.pool.runtimes[_]? = a.pool.runtimes[_]?
    rw [h.closes.runtimes]
  · rw [hsame]
    exact hold.script
  · intro live hlive script hscript
    have howns := ha.owned live script ((hold.script live hlive).trans hscript)
    exact (h.scripts script live howns ((hopen live).mpr hlive)).trans
      (hold.scripts live hlive script hscript)

theorem New.quiet {live : LiveSession} {script : Nat} (hlive : live ∈ a₀.system.opened)
    (hnew : New a₀ a.pool runtime live script) : New a₀ b.pool runtime live script := by
  refine ⟨hnew.1, ?_⟩
  rw [h.scripts script live ⟨_, hnew.2, rfl⟩ ((hopen live).mpr hlive)]
  exact hnew.2

theorem Swaps.quiet {closing : Option Nat} {rest : List (LiveSession × Nat)}
    (hswaps : Swaps a₀ a.plugins runtime closing rest) :
    Swaps a₀ b.plugins runtime closing rest := by
  have hscript : b.plugins.script = a.plugins.script := by rw [h.same]; rfl
  refine ⟨hswaps.nodup, ?_, ?_, ?_⟩
  · intro pair hpair
    obtain ⟨hlive, hnew, hold⟩ := hswaps.left pair hpair
    exact ⟨hlive, hnew.quiet h hopen hlive, by rw [hscript, hold]⟩
  · intro live hlive hrest
    obtain ⟨script, hheld, hnew⟩ := hswaps.done live hlive hrest
    exact ⟨script, by rw [hscript, hheld], hnew.quiet h hopen hlive⟩
  · intro live hlive script hold hrest
    rcases hswaps.closed live hlive script hold hrest with hclosing | hclosed
    · exact .inl hclosing
    · exact .inr (hclosed.grows h.grows)

theorem stageHolds_quiet (ha : a.Sound) {stage : Stage}
    (hstage : StageHolds a₀ a.plugins stage) : StageHolds a₀ b.plugins stage := by
  have hruntime : b.plugins.runtime = a.plugins.runtime := by rw [h.same]; rfl
  have hruntimes : b.plugins.pool.runtimes = a.plugins.pool.runtimes := h.closes.runtimes
  have hlength : b.plugins.pool.scripts.length = a.plugins.pool.scripts.length := h.closes.length
  cases stage with
  | starting =>
    obtain ⟨hold, hstarted, hscripts⟩ := hstage
    exact ⟨hold.quiet h hopen ha, by rw [hruntimes, hstarted], by rw [hlength, hscripts]⟩
  | importing runtime left =>
    obtain ⟨hold, hfresh, hruns⟩ := hstage
    exact ⟨hold.quiet h hopen ha, hfresh.steady h.closes.steady, by rw [hruntimes, hruns]⟩
  | loading runtime =>
    obtain ⟨hold, hfresh, hruns⟩ := hstage
    exact ⟨hold.quiet h hopen ha, hfresh.steady h.closes.steady, by rw [hruntimes, hruns]⟩
  | opening runtime opened rest =>
    obtain ⟨⟨hold, hfresh, hruns⟩, hnew, hall⟩ := hstage
    refine ⟨⟨hold.quiet h hopen ha, hfresh.steady h.closes.steady, by rw [hruntimes, hruns]⟩, ?_, hall⟩
    intro pair hpair
    refine (hnew pair hpair).quiet h hopen ?_
    rw [← hall]
    exact List.mem_append_left _ (List.mem_map_of_mem hpair)
  | cleaning runtime left error =>
    obtain ⟨hold, hfresh, hleft⟩ := hstage
    exact ⟨hold.quiet h hopen ha, hfresh.steady h.closes.steady, hleft⟩
  | stopping runtime stop error =>
    obtain ⟨hold, hfresh, hstop⟩ := hstage
    exact ⟨hold.quiet h hopen ha, hfresh.steady h.closes.steady, hstop.closes h.closes⟩
  | replacing runtime old rest =>
    obtain ⟨hsame, hfresh, hruns, hlt, hswaps⟩ := hstage
    exact ⟨hruntime.trans hsame, hfresh.steady h.closes.steady, by rw [hruntimes, hruns], hlt,
      hswaps.quiet h hopen⟩
  | ending old stop =>
    obtain ⟨hsame, hfresh, hruns, hswaps, hstop⟩ := hstage
    unfold StageHolds
    rw [hruntime, hruntimes]
    exact ⟨hsame, hfresh.steady h.closes.steady, hruns, hswaps.quiet h hopen, hstop.closes h.closes⟩

end Quiet

theorem mem_running_iff (h : a.Sound) {live : LiveSession} :
    live ∈ a.system.running ↔ live ∈ a.system.opened := by
  rw [h.registry.alive.running, System.mem_opened]
  constructor
  · exact fun hopen => ⟨live.id, hopen⟩
  · rintro ⟨id, hopen⟩
    rw [h.registry.alive.same_id id live hopen]
    exact hopen

theorem Outside.quiet (ha : a.Sound) (hattempt : a.attempt = some attempt)
    (hheld : ∀ live, live ∈ a.system.opened → live ∈ attempt.held) (h : a.Outside b) :
    Quiet a b := by
  have hreload : a.system.reload.isSome := ha.guarded.mp (by rw [hattempt]; rfl)
  have hcloses : a.pool.Closes a.pool := ⟨rfl, rfl, fun _ state hstate => ⟨state, hstate, rfl, id⟩⟩
  cases h with
  | registry event system hstep =>
    refine ⟨rfl, fun live => ?_, hcloses, .refl _, fun _ _ _ _ => rfl⟩
    simp only [System.mem_opened, step_reloading ha.registry hreload hstep]
  | starts event system live hstep hother hstarts =>
    cases event with
    | started call jobs =>
      simp only [System.starts] at hstarts
      split at hstarts
      · next id fresh hcall =>
        have hphase := ha.registry.owned.guarded.mp hreload
        exact absurd (holds_of_call hcall rfl)
          (Inv.not_holds ha.registry hphase call id)
      · cases hstarts
    | _ => cases hstarts
  | closeScript script state hscript howner =>
    refine ⟨rfl, fun _ => .rfl, Pool.closes_closeScript, Pool.grows_closeScript, ?_⟩
    intro other live howns hlive
    refine Pool.scripts_closeScript_of_ne ?_
    rintro rfl
    obtain ⟨state', hstate', rfl⟩ := howns
    rw [hscript] at hstate'
    cases hstate'
    exact howner ((mem_running_iff ha).mpr hlive)
  | locks live lock hlock hfree =>
    exact ⟨rfl, fun _ => .rfl, hcloses, .refl _, fun _ _ _ _ => rfl⟩
  | startTurn live hlock hlive =>
    have hreloads := (ha.locks live).mpr ⟨attempt, hattempt,
      hheld live ((mem_running_iff ha).mp hlive)⟩
    rw [hlock] at hreloads
    cases hreloads

theorem During.outside {loaded : Except String Profile} (h : During a₀ loaded a attempt)
    (ha : a.Sound) (hstep : a.Outside b) : During a₀ loaded b attempt := by
  have hquiet := hstep.quiet ha h.current fun live hlive => by
    rw [h.held]
    exact (h.open_iff live).mp hlive
  refine ⟨⟨?_, h.ready, h.held, h.oldProfile, ?_, ?_, ?_⟩, ?_⟩
  · rw [hquiet.same]
    exact h.current
  · rw [hquiet.same]
    exact h.loaded
  · exact fun live => (hquiet.open_iff live).trans (h.open_iff live)
  · rw [hquiet.same]
    exact h.turns
  · exact stageHolds_quiet hquiet h.open_iff ha h.stage

section Steps

variable (h₀ : a₀.Sound)

include h₀

theorem Unchanged.withPool (h : Unchanged a₀ c)
    (hstate : p.runtimes[a₀.runtime]? = c.pool.runtimes[a₀.runtime]?)
    (hscripts : ∀ script < a₀.pool.scripts.length, p.scripts[script]? = c.pool.scripts[script]?) :
    Unchanged a₀ { c with pool := p } where
  runtime := h.runtime
  state := hstate.trans h.state
  script := h.script
  scripts := by
    intro live hlive script hscript
    have hlt := (h₀.owned live script hscript).lt
    exact (hscripts script hlt).trans (h.scripts live hlive script hscript)

theorem Unchanged.start (h : Unchanged a₀ c)
    (hruntimes : c.pool.runtimes.length = a₀.pool.runtimes.length) :
    Unchanged a₀ { c with pool := c.pool.start } :=
  h.withPool h₀ (List.getElem?_append_left (hruntimes ▸ h₀.runtime)) fun _ _ => rfl

theorem Unchanged.openScript (h : Unchanged a₀ c) (hfresh : Fresh a₀ c.pool runtime)
    (live : LiveSession) : Unchanged a₀ { c with pool := c.pool.openScript runtime live } :=
  h.withPool h₀ rfl fun _ hscript =>
    Pool.scripts_openScript_of_lt (hscript.trans_le hfresh.longer)

theorem Unchanged.closeScript (h : Unchanged a₀ c) {script : Nat}
    (hscript : a₀.pool.scripts.length ≤ script) :
    Unchanged a₀ { c with pool := c.pool.closeScript script } :=
  h.withPool h₀ rfl fun _ hlt => Pool.scripts_closeScript_of_ne (hlt.trans_le hscript).ne

theorem Unchanged.stop (h : Unchanged a₀ c) (hfresh : Fresh a₀ c.pool runtime) (stop : Stop) :
    Unchanged a₀ { c with pool := c.pool.stop runtime stop } := by
  refine h.withPool h₀ (Pool.runtimes_stop_of_ne stop ?_) fun script hlt => ?_
  · rw [hfresh.number]
    exact h₀.runtime.ne
  · refine Pool.scripts_stop_of_ne fun state hstate hruntime => ?_
    have hle := (hfresh.scripts script state hstate).mp hruntime
    omega

end Steps

theorem fresh_start (hnumbered : p.Numbered)
    (hruntimes : p.runtimes.length = a₀.pool.runtimes.length)
    (hscripts : p.scripts.length = a₀.pool.scripts.length) :
    Fresh a₀ p.start p.runtimes.length where
  number := hruntimes
  only := by simp [Pool.start]
  longer := hscripts.ge
  scripts := by
    intro script state hstate
    have hlt := hnumbered state (List.mem_of_getElem? hstate)
    have hscript := (List.getElem?_eq_some_iff.mp hstate).1
    change script < p.scripts.length at hscript
    omega

theorem Fresh.openScript (h : Fresh a₀ p runtime) (live : LiveSession) :
    Fresh a₀ (p.openScript runtime live) runtime where
  number := h.number
  only := h.only
  longer := by
    have hle := h.longer
    simp only [Pool.openScript, List.length_append, List.length_singleton]
    omega
  scripts := by
    intro script state hstate
    rcases Pool.openScript_cases hstate with hold | ⟨hle, rfl⟩
    · exact h.scripts script state hold
    · exact ⟨fun _ => h.longer.trans hle, fun _ => rfl⟩

theorem New.openScript {live : LiveSession} {script : Nat} (h : New a₀ p runtime live script)
    (other : LiveSession) : New a₀ (p.openScript runtime other) runtime live script := by
  refine ⟨h.1, ?_⟩
  rw [Pool.scripts_openScript_of_lt (List.getElem?_eq_some_iff.mp h.2).1]
  exact h.2

theorem Fresh.new_openScript (h : Fresh a₀ p runtime) (live : LiveSession) :
    New a₀ (p.openScript runtime live) runtime live p.scripts.length :=
  ⟨h.longer, List.getElem?_concat_length⟩

theorem New.closeScript {live : LiveSession} {script old : Nat} (h : New a₀ p runtime live script)
    (hold : old < a₀.pool.scripts.length) : New a₀ (p.closeScript old) runtime live script := by
  refine ⟨h.1, ?_⟩
  rw [Pool.scripts_closeScript_of_ne (hold.trans_le h.1).ne']
  exact h.2

theorem Swaps.closeOld {old : Nat} {rest : List (LiveSession × Nat)}
    (h : Swaps a₀ c runtime (some old) rest) (hold : old < a₀.pool.scripts.length)
    (hfresh : Fresh a₀ c.pool runtime) :
    Swaps a₀ { c with pool := c.pool.closeScript old } runtime none rest := by
  refine ⟨h.nodup, ?_, ?_, ?_⟩
  · intro pair hpair
    obtain ⟨hlive, hnew, hscript⟩ := h.left pair hpair
    exact ⟨hlive, hnew.closeScript hold, hscript⟩
  · intro live hlive hrest
    obtain ⟨script, hscript, hnew⟩ := h.done live hlive hrest
    exact ⟨script, hscript, hnew.closeScript hold⟩
  · intro live hlive script hscript hrest
    rcases h.closed live hlive script hscript hrest with hclosing | hclosed
    · cases hclosing
      exact .inr (Pool.closed_closeScript (hold.trans_le hfresh.longer))
    · exact .inr (hclosed.grows Pool.grows_closeScript)

theorem New.stop {live : LiveSession} {script old : Nat} (h : New a₀ p runtime live script)
    (hne : old ≠ runtime) (stop : Stop) : New a₀ (p.stop old stop) runtime live script := by
  refine ⟨h.1, ?_⟩
  rw [Pool.scripts_stop_of_ne]
  · exact h.2
  · intro state hstate
    rw [h.2] at hstate
    cases hstate
    exact hne.symm

theorem Swaps.stop {old : Nat} (h : Swaps a₀ c runtime none []) (hne : old ≠ runtime)
    (stop : Stop) : Swaps a₀ { c with pool := c.pool.stop old stop } runtime none [] where
  nodup := h.nodup
  left := by simp
  done := by
    intro live hlive hrest
    obtain ⟨script, hscript, hnew⟩ := h.done live hlive hrest
    exact ⟨script, hscript, hnew.stop hne stop⟩
  closed := by
    intro live hlive script hscript hrest
    rcases h.closed live hlive script hscript hrest with hclosing | hclosed
    · cases hclosing
    · exact .inr (hclosed.grows (Pool.grows_stop stop))

theorem Swaps.swap {pair : LiveSession × Nat} {rest : List (LiveSession × Nat)}
    (h : Swaps a₀ c runtime none (pair :: rest)) :
    Swaps a₀ { c with script := Function.update c.script pair.1 (some pair.2) } runtime
      (a₀.script pair.1) rest := by
  obtain ⟨hlive, hnew, hscript⟩ := h.left pair List.mem_cons_self
  have hnodup := List.nodup_cons.mp h.nodup
  refine ⟨hnodup.2, ?_, ?_, ?_⟩
  · intro other hother
    obtain ⟨hopen, hnew', hscript'⟩ := h.left other (List.mem_cons_of_mem _ hother)
    have hne : other.1 ≠ pair.1 := fun heq => hnodup.1 (heq ▸ List.mem_map_of_mem hother)
    refine ⟨hopen, hnew', ?_⟩
    simp only [Function.update_of_ne hne]
    exact hscript'
  · intro live hopen hrest
    by_cases heq : live = pair.1
    · subst heq
      exact ⟨pair.2, Function.update_self .., hnew⟩
    · obtain ⟨script, hheld, hnew'⟩ := h.done live hopen (by simp [heq, hrest])
      exact ⟨script, by simp only [Function.update_of_ne heq]; exact hheld, hnew'⟩
  · intro live hopen script hold hrest
    by_cases heq : live = pair.1
    · subst heq
      exact .inl hold
    · rcases h.closed live hopen script hold (by simp [heq, hrest]) with hclosing | hclosed
      · cases hclosing
      · exact .inr hclosed

/-- The app is as it was at `a₀`, and what started since then has ended. -/
structure Kept (a₀ a : AppState Profile) : Prop where
  profile : a.profile = a₀.profile
  reporter : a.reporter = a₀.reporter
  handle : a.handle = a₀.handle
  plugins : Unchanged a₀ a.plugins
  runtimes : ∀ runtime state, a₀.pool.runtimes.length ≤ runtime →
    a.pool.runtimes[runtime]? = some state → state.stopped
  scripts : ∀ script state, a₀.pool.scripts.length ≤ script →
    a.pool.scripts[script]? = some state → state.closed = true
  phase : a.system.phase = a₀.system.phase
  unguarded : a.system.reload = none
  unlocked : ∀ live, a.locks live ≠ some .reload

/-- The app has a runtime that started since `a₀`, and nothing of the old one is open. -/
structure Replaced (a₀ : AppState Profile) (loaded : Except String Profile)
    (a : AppState Profile) : Prop where
  profile : loaded = .ok a.profile
  runtime : a₀.pool.runtimes.length ≤ a.runtime
  runs : a.pool.runtimes[a.runtime]? = some {}
  reporter : a.reporter = a.runtime
  handle : a.handle = a.runtime
  scripts : ∀ live ∈ a.system.opened, ∃ script, a.script live = some script ∧
    a.pool.scripts[script]? = some ⟨a.runtime, live, false⟩
  oldScripts : ∀ live ∈ a₀.system.opened, ∀ script, a₀.script live = some script →
    a.pool.Closed script
  oldRuntime : a.pool.Ended a₀.runtime
  phase : a.system.phase = .ready
  unguarded : a.system.reload = none
  unlocked : ∀ live, a.locks live ≠ some .reload

structure Over (a₀ : AppState Profile) (loaded : Except String Profile) (a : AppState Profile) :
    Prop where
  attempt : a.attempt = none
  open_iff : ∀ live, live ∈ a.system.opened ↔ live ∈ a₀.system.opened
  turns : a.turns = a₀.turns
  result : (∃ error, a.outcome = some (.error error) ∧ Kept a₀ a) ∨
    (a.outcome = some (.ok ()) ∧ Replaced a₀ loaded a)

theorem Sound.unlocked (h : a.Sound) (hattempt : a.attempt = none) (live : LiveSession) :
    a.locks live ≠ some .reload := by
  intro hlock
  obtain ⟨attempt, hsome, -⟩ := (h.locks live).mp hlock
  rw [hattempt] at hsome
  cases hsome

section Ends

variable {loaded : Except String Profile}

theorem Waits.reloading (h : Waits a₀ loaded a attempt) (ha : a.Sound) :
    a.system.phase = .reloading :=
  ha.registry.owned.guarded.mp (ha.guarded.mp (by rw [h.current]; rfl))

theorem Waits.failed (h : Waits a₀ loaded a attempt) (h₀ : a₀.Sound) (ha : a.Sound)
    (hold : Unchanged a₀ a.plugins)
    (hruntimes : ∀ runtime state, a₀.pool.runtimes.length ≤ runtime →
      a.pool.runtimes[runtime]? = some state → state.stopped)
    (hscripts : ∀ script state, a₀.pool.scripts.length ≤ script →
      a.pool.scripts[script]? = some state → state.closed = true)
    (error : ReloadError) : Over a₀ loaded (a.fail attempt error) where
  attempt := rfl
  open_iff := h.open_iff
  turns := h.turns
  result := by
    have hruntime : a.runtime = a₀.runtime := hold.runtime
    refine .inl ⟨error, rfl, ⟨h.oldProfile, ?_, ?_, hold, hruntimes, hscripts, ?_, rfl,
      (ha.fail h.current error).unlocked rfl⟩⟩
    · exact ha.same.1.trans (hruntime.trans h₀.same.1.symm)
    · exact ha.same.2.trans (hruntime.trans h₀.same.2.symm)
    · change a.system.endReload.phase = _
      rw [h.ready]
      exact if_pos (h.reloading ha)

theorem Waits.succeeded (h : Waits a₀ loaded a attempt) (ha : a.Sound)
    (hfresh : Fresh a₀ a.pool a.runtime) (hruns : a.pool.runtimes[a.runtime]? = some {})
    (hswaps : Swaps a₀ a.plugins a.runtime none []) (hended : a.pool.Ended a₀.runtime) :
    Over a₀ loaded (a.finish attempt (.ok ())) where
  attempt := rfl
  open_iff := h.open_iff
  turns := h.turns
  result := by
    refine .inr ⟨rfl, ⟨h.loaded, hfresh.number.ge, hruns, ha.same.1, ha.same.2, ?_, ?_, hended,
      if_pos (h.reloading ha), rfl, (ha.finish h.current _).unlocked rfl⟩⟩
    · intro live hlive
      obtain ⟨script, hscript, hnew⟩ := hswaps.done live ((h.open_iff live).mp hlive) (by simp)
      exact ⟨script, hscript, hnew.2⟩
    · intro live hlive script hscript
      rcases hswaps.closed live hlive script hscript (by simp) with hclosing | hclosed
      · cases hclosing
      · exact hclosed

theorem Waits.moved (h : Waits a₀ loaded a attempt) (hattempt : b.attempt = a.attempt)
    (hsystem : b.system = a.system) (hprofile : b.profile = a.profile)
    (hturns : b.turns = a.turns) : Waits a₀ loaded b attempt where
  current := hattempt.trans h.current
  ready := h.ready
  held := h.held
  oldProfile := h.oldProfile
  loaded := hprofile ▸ h.loaded
  open_iff := hsystem ▸ h.open_iff
  turns := hturns.trans h.turns

theorem Waits.withPool (h : Waits a₀ loaded a attempt) (p : Pool) :
    Waits a₀ loaded { a with pool := p } attempt :=
  h.moved rfl rfl rfl rfl

theorem Waits.setStage (h : Waits a₀ loaded a attempt) {stage : Stage}
    (hstage : StageHolds a₀ a.plugins stage) :
    During a₀ loaded (a.setStage attempt stage) { attempt with stage := stage } where
  current := rfl
  ready := h.ready
  held := h.held
  oldProfile := h.oldProfile
  loaded := h.loaded
  open_iff := h.open_iff
  turns := h.turns
  stage := hstage

def After (a₀ : AppState Profile) (loaded : Except String Profile) (a : AppState Profile) : Prop :=
  (∃ attempt, During a₀ loaded a attempt) ∨ Over a₀ loaded a

theorem Waits.after (h : Waits a₀ loaded a attempt) {stage : Stage}
    (hstage : StageHolds a₀ a.plugins stage) : After a₀ loaded (a.setStage attempt stage) :=
  .inl ⟨_, h.setStage hstage⟩

theorem Waits.replace (h : Waits a₀ loaded a attempt) (h₀ : a₀.Sound)
    (hsame : a.runtime = a₀.runtime) (hfresh : Fresh a₀ a.pool runtime)
    (hruns : a.pool.runtimes[runtime]? = some {}) {pairs : List (LiveSession × Nat)}
    (hswaps : Swaps a₀ a.plugins runtime none pairs) :
    After a₀ loaded (a.replace attempt runtime pairs) := by
  induction pairs generalizing a with
  | nil =>
    have hlt : a.runtime < a.pool.runtimes.length := by
      rw [hsame, hfresh.only, hfresh.number]
      exact h₀.runtime.trans (Nat.lt_succ_self _)
    have hmoved : Waits a₀ loaded
        { a with runtime := runtime, reporter := runtime, handle := runtime } attempt :=
      h.moved rfl rfl rfl rfl
    refine hmoved.after ⟨hsame, hfresh, hruns, ?_, ?_⟩
    · exact ⟨hswaps.nodup, hswaps.left, hswaps.done, hswaps.closed⟩
    · exact ⟨_, List.getElem?_eq_getElem hlt⟩
  | cons pair rest ih =>
    have hold : a.script pair.1 = a₀.script pair.1 := (hswaps.left pair List.mem_cons_self).2.2
    have hswap := hswaps.swap
    have hmoved : Waits a₀ loaded
        { a with script := Function.update a.script pair.1 (some pair.2) } attempt :=
      h.moved rfl rfl rfl rfl
    rw [← hold] at hswap
    unfold AppState.replace
    split
    · next old hscript =>
      rw [hscript] at hswap
      refine hmoved.after ⟨hsame, hfresh, hruns, ?_, hswap⟩
      rw [hscript] at hold
      exact (h₀.owned _ _ hold.symm).lt
    · next hscript =>
      rw [hscript] at hswap
      exact ih hmoved hsame hfresh hruns hswap

theorem Waits.openNext (h : Waits a₀ loaded a attempt) (h₀ : a₀.Sound)
    (hold : Unchanged a₀ a.plugins) (hfresh : Fresh a₀ a.pool runtime)
    (hruns : a.pool.runtimes[runtime]? = some {}) {opened : List (LiveSession × Nat)}
    {rest : List LiveSession} (hnew : ∀ pair ∈ opened, New a₀ a.pool runtime pair.1 pair.2)
    (hall : opened.map Prod.fst ++ rest = a₀.system.opened) :
    After a₀ loaded (a.openNext attempt runtime opened rest) := by
  unfold AppState.openNext
  split
  · rw [List.append_nil] at hall
    have hmem : ∀ live ∈ a₀.system.opened, live ∈ opened.map Prod.fst := by
      rw [hall]
      exact fun _ hlive => hlive
    refine h.replace h₀ hold.runtime hfresh hruns ⟨?_, ?_, ?_, ?_⟩
    · rw [hall]
      exact h₀.registry.nodup_opened
    · intro pair hpair
      have hlive : pair.1 ∈ a₀.system.opened := hall ▸ List.mem_map_of_mem hpair
      exact ⟨hlive, hnew pair hpair, hold.script _ hlive⟩
    · exact fun live hlive hrest => absurd (hmem live hlive) hrest
    · exact fun live hlive _ _ hrest => absurd (hmem live hlive) hrest
  · exact h.after ⟨⟨hold, hfresh, hruns⟩, hnew, hall⟩

theorem Waits.cleanNext (h : Waits a₀ loaded a attempt) (hold : Unchanged a₀ a.plugins)
    (hfresh : Fresh a₀ a.pool runtime) (error : ReloadError) {left : List Nat}
    (hleft : ∀ script ∈ left, a₀.pool.scripts.length ≤ script) :
    After a₀ loaded (a.cleanNext attempt runtime error left) := by
  unfold AppState.cleanNext
  split
  · exact h.after ⟨hold, hfresh, hfresh.started⟩
  · exact h.after ⟨hold, hfresh, hleft⟩

theorem Waits.stopped (h : Waits a₀ loaded a attempt) (h₀ : a₀.Sound) (ha : a.Sound)
    (hold : Unchanged a₀ a.plugins) (hfresh : Fresh a₀ a.pool runtime)
    (hended : a.pool.Ended runtime) (error : ReloadError) :
    Over a₀ loaded (a.fail attempt error) := by
  refine h.failed h₀ ha hold ?_ ?_ error
  · intro other state hle hstate
    have hlt := (List.getElem?_eq_some_iff.mp hstate).1
    have honly := hfresh.only
    have hnumber := hfresh.number
    obtain rfl : other = runtime := by omega
    obtain ⟨last, hlast, hstopped⟩ := hended.1
    rw [hstate] at hlast
    cases hlast
    exact hstopped
  · intro script state hle hstate
    exact hended.2 state (List.mem_of_getElem? hstate)
      ((hfresh.scripts script state hstate).mpr hle)

theorem During.goOn (h : During a₀ loaded a attempt) (h₀ : a₀.Sound) (ha : a.Sound)
    (failures : List String) : After a₀ loaded (a.goOn attempt failures) := by
  have hstage := h.stage
  have hwaits := h.toWaits
  unfold AppState.goOn
  split <;> rename_i heq <;> rw [heq] at hstage
  · obtain ⟨hold, hruntimes, hscripts⟩ := hstage
    refine (hwaits.withPool _).after ⟨hold.start h₀ hruntimes,
      fresh_start ha.numbered hruntimes hscripts, ?_⟩
    exact List.getElem?_concat_length
  · exact hwaits.after hstage
  · exact hwaits.after hstage
  · obtain ⟨hold, hfresh, hruns⟩ := hstage
    split_ifs
    · exact hwaits.openNext h₀ hold hfresh hruns (by simp) h.held
    · exact hwaits.after ⟨hold, hfresh, hfresh.started⟩
  · next runtime opened live rest =>
    obtain ⟨⟨hold, hfresh, hruns⟩, hnew, hall⟩ := hstage
    refine (hwaits.withPool _).openNext h₀ (hold.openScript h₀ hfresh live)
      (hfresh.openScript live) hruns ?_ ?_
    · intro pair hpair
      rcases List.mem_append.mp hpair with hpair | hpair
      · exact (hnew pair hpair).openScript live
      · cases List.mem_singleton.mp hpair
        exact hfresh.new_openScript live
    · rw [← hall]
      simp
  · obtain ⟨⟨hold, hfresh, hruns⟩, hnew, hall⟩ := hstage
    exact hwaits.openNext h₀ hold hfresh hruns hnew hall
  · obtain ⟨hold, hfresh, hleft⟩ := hstage
    refine (hwaits.withPool _).cleanNext (hold.closeScript h₀ (hleft _ List.mem_cons_self))
      (hfresh.closeScript _) _ ?_
    exact fun script hscript => hleft script (List.mem_cons_of_mem _ hscript)
  · obtain ⟨hold, hfresh, hleft⟩ := hstage
    exact hwaits.cleanNext hold hfresh _ hleft
  · next runtime stop error =>
    obtain ⟨hold, hfresh, hstop⟩ := hstage
    have hold' := hold.stop h₀ hfresh stop
    have hfresh' := hfresh.stop runtime stop
    split
    · next later hnext =>
      exact (hwaits.withPool _).after ⟨hold', hfresh', hstop.next hnext⟩
    · next hnext =>
      exact .inr ((hwaits.withPool _).stopped h₀ (ha.stop runtime stop) hold' hfresh'
        (hstop.ended hnext) error)
  · next runtime old rest =>
    obtain ⟨hsame, hfresh, hruns, hlt, hswaps⟩ := hstage
    exact (hwaits.withPool _).replace h₀ hsame
      (hfresh.closeScript _) hruns (hswaps.closeOld hlt hfresh)
  · next old stop =>
    obtain ⟨rfl, hfresh, hruns, hswaps, hstop⟩ := hstage
    have hne : a₀.runtime ≠ a.runtime := by
      rw [show a.runtime = _ from hfresh.number]
      exact h₀.runtime.ne
    have hfresh' := hfresh.stop a₀.runtime stop
    have hswaps' := hswaps.stop hne stop
    have hruns' : (a.pool.stop a₀.runtime stop).runtimes[a.runtime]? = some {} :=
      (Pool.runtimes_stop_of_ne stop hne.symm).trans hruns
    split
    · next later hnext =>
      exact (hwaits.withPool _).after ⟨rfl, hfresh', hruns', hswaps', hstop.next hnext⟩
    · next hnext =>
      exact .inr ((hwaits.withPool _).succeeded (ha.stop a₀.runtime stop) hfresh' hruns' hswaps'
        (hstop.ended hnext))

theorem During.failHere (h : During a₀ loaded a attempt) (h₀ : a₀.Sound) (ha : a.Sound)
    {text : String} (hfail : a.failHere attempt text = some b) : After a₀ loaded b := by
  have hstage := h.stage
  have hwaits := h.toWaits
  unfold AppState.failHere at hfail
  split at hfail
  · next heq =>
    rw [heq] at hstage
    cases hfail
    obtain ⟨hold, hruntimes, hscripts⟩ := hstage
    refine .inr (hwaits.failed h₀ ha hold ?_ ?_ _)
    · intro runtime state hle hstate
      have hlt : runtime < a.plugins.pool.runtimes.length := (List.getElem?_eq_some_iff.mp hstate).1
      omega
    · intro script state hle hstate
      have hlt : script < a.plugins.pool.scripts.length := (List.getElem?_eq_some_iff.mp hstate).1
      omega
  · next heq =>
    rw [heq] at hstage
    cases hfail
    obtain ⟨hold, hfresh, -⟩ := hstage
    exact hwaits.after ⟨hold, hfresh, hfresh.started⟩
  · next heq =>
    rw [heq] at hstage
    cases hfail
    obtain ⟨⟨hold, hfresh, -⟩, hnew, -⟩ := hstage
    refine hwaits.cleanNext hold hfresh _ ?_
    intro script hscript
    obtain ⟨pair, hpair, rfl⟩ := List.mem_map.mp hscript
    exact (hnew pair hpair).1
  · cases hfail

theorem after_reload (h₀ : a₀.Sound) (hattempt : a₀.attempt = none) :
    After a₀ loaded (a₀.reload loaded) := by
  have hreload : a₀.system.reload = none := by
    rw [← Option.not_isSome_iff_eq_none, ← h₀.guarded, hattempt]
    simp
  obtain ⟨error, heq⟩ | ⟨locks, profile, hready, -, hloaded, hstart, heq⟩ :=
    reload_cases hreload loaded
  · rw [heq]
    refine .inr ⟨hattempt, fun _ => .rfl, rfl, .inl ⟨error, rfl, ?_⟩⟩
    refine ⟨rfl, rfl, rfl, ⟨rfl, rfl, fun _ _ => rfl, fun _ _ _ _ => rfl⟩, ?_, ?_, rfl, hreload,
      h₀.unlocked hattempt⟩
    · intro runtime state hle hstate
      exact absurd (List.getElem?_eq_some_iff.mp hstate).1 hle.not_gt
    · intro script state hle hstate
      exact absurd (List.getElem?_eq_some_iff.mp hstate).1 hle.not_gt
  · rw [heq]
    refine .inl ⟨_, ⟨rfl, hready, rfl, rfl, hloaded, fun _ => .rfl, rfl⟩, ?_⟩
    exact ⟨⟨rfl, rfl, fun _ _ => rfl, fun _ _ _ _ => rfl⟩, rfl, rfl⟩

theorem After.step (h : After a₀ loaded a) (h₀ : a₀.Sound) (ha : a.Sound)
    (hwaits : a.attempt.isSome) {event : AppEvent Profile} (hstep : a.step event = some b) :
    After a₀ loaded b := by
  obtain ⟨attempt, hduring⟩ | hover := h
  · obtain hstep | ⟨loaded, hattempt, -, -⟩ | ⟨other, failures, hattempt, rfl⟩ |
      ⟨other, text, hattempt, hfail⟩ := step_cases hstep
    · exact .inl ⟨attempt, hduring.outside ha hstep⟩
    · rw [hattempt] at hwaits
      cases hwaits
    · rw [hduring.current] at hattempt
      cases hattempt
      exact hduring.goOn h₀ ha failures
    · rw [hduring.current] at hattempt
      cases hattempt
      exact hduring.failHere h₀ ha hfail
  · rw [hover.attempt] at hwaits
    cases hwaits

end Ends

end AppState

open AppState

/-- A reload from `a₀` and any steps while it waits: no session opens, closes or starts a turn. When
the reload is over, it failed and kept everything, or it replaced everything. -/
theorem reload_all_or_nothing {Profile : Type} {profile : Profile} {interface : Bool}
    {before events : List (AppEvent Profile)} {loaded : Except String Profile}
    {a₀ a₁ a : AppState Profile}
    (hbefore : Steps (outcome AppState.step) { profile := profile, interface := interface } before a₀)
    (hreload : a₀.step (.reload loaded) = some a₁)
    (hrun : Steps (when (fun a _ => a.attempt.isSome) (outcome AppState.step)) a₁ events a) :
    (∀ live, live ∈ a.system.opened ↔ live ∈ a₀.system.opened) ∧ a.turns = a₀.turns ∧
    (a.attempt = none →
      (∃ error, a.outcome = some (.error error) ∧ Kept a₀ a) ∨
      (a.outcome = some (.ok ()) ∧ Replaced a₀ loaded a)) := by
  have h₀ : a₀.Sound := hbefore.keeps (sound_start profile interface)
    fun _ _ _ hsound hstep => step_sound hsound hstep
  have hstart : a₁.Sound ∧ After a₀ loaded a₁ := by
    refine ⟨step_sound h₀ hreload, ?_⟩
    simp only [AppState.step] at hreload
    split_ifs at hreload with hattempt
    cases hreload
    exact after_reload h₀ (by simpa using hattempt)
  have hend : a.Sound ∧ After a₀ loaded a :=
    Steps.keeps (P := fun a => a.Sound ∧ After a₀ loaded a) hrun hstart
      fun _ _ _ h hstep => ⟨step_sound h.1 hstep.2, h.2.step h₀ h.1 hstep.1 hstep.2⟩
  obtain ⟨attempt, hduring⟩ | hover := hend.2
  · refine ⟨hduring.open_iff, hduring.turns, fun hnone => ?_⟩
    rw [hduring.current] at hnone
    cases hnone
  · exact ⟨hover.open_iff, hover.turns, fun _ => hover.result⟩

/-- The plugins of an open session do not open in the new runtime. -/
theorem reload_all_or_nothing_unopened :
    ∃ before after : AppState String, before.system.opened = [⟨⟨7⟩, 0⟩] ∧
      before.script ⟨⟨7⟩, 0⟩ = some 0 ∧
      after.outcome = some (.error (.internal "closed")) ∧ Kept before after := by
  have hbefore : ∃ before, [.system (.create 0), .system (.saved 0 ⟨7⟩ true),
      .system (.started 0 none)].foldlM AppState.step
        ({ profile := "old", interface := false } : AppState String) = some before ∧
      before.system.opened = [⟨⟨7⟩, 0⟩] ∧ before.script ⟨⟨7⟩, 0⟩ = some 0 ∧
      ∃ waiting, before.step (.reload (.ok "new")) = some waiting ∧
      ∃ after, Steps (when (fun a _ => a.attempt.isSome) (outcome AppState.step)) waiting
        [.goesOn [], .goesOn [], .goesOn [], .fails "closed", .goesOn [], .goesOn [], .goesOn []]
        after ∧ after.attempt = none ∧ after.outcome = some (.error (.internal "closed")) := by
    refine ⟨_, rfl, rfl, rfl, _, rfl, _, .cons ⟨rfl, rfl⟩ (.cons ⟨rfl, rfl⟩ (.cons ⟨rfl, rfl⟩
      (.cons ⟨rfl, rfl⟩ (.cons ⟨rfl, rfl⟩ (.cons ⟨rfl, rfl⟩ (.cons ⟨rfl, rfl⟩ .start)))))),
      rfl, rfl⟩
  obtain ⟨before, hbefore, hopen, hscript, waiting, hreload, after, hrun, hnone, hout⟩ := hbefore
  have hlaw := reload_all_or_nothing (.of_foldlM hbefore) hreload hrun
  obtain ⟨-, -, hkept⟩ | ⟨hok, -⟩ := hlaw.2.2 hnone
  · exact ⟨before, after, hopen, hscript, hout, hkept⟩
  · rw [hout] at hok
    cases hok

/-- In each run of the app the script of an open session is in a runtime that started, and a reload
that waits has the guard and the locks of exactly the sessions that it holds. -/
theorem app_sound {Profile : Type} {profile : Profile} {interface : Bool}
    {events : List (AppEvent Profile)} {a : AppState Profile}
    (hrun : Steps (outcome AppState.step) { profile := profile, interface := interface } events a) :
    a.Sound :=
  hrun.keeps (sound_start profile interface) fun _ _ _ hsound hstep => step_sound hsound hstep

theorem app_sound_held : ∃ a : AppState String, a.Sound ∧ a.locks ⟨⟨7⟩, 0⟩ = some .reload := by
  have hrun : ∃ a, [.system (.create 0), .system (.saved 0 ⟨7⟩ true), .system (.started 0 none),
      .reload (.ok "new")].foldlM AppState.step
        ({ profile := "old", interface := false } : AppState String) = some a ∧
      a.locks ⟨⟨7⟩, 0⟩ = some .reload := ⟨_, rfl, rfl⟩
  obtain ⟨a, hrun, hlock⟩ := hrun
  exact ⟨a, app_sound (.of_foldlM hrun), hlock⟩

end Yuke.App
