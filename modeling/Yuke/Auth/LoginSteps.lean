import Yuke.Auth.Logins
import Yuke.Shared.Steps

/-!
# The steps of the logins

Each step moves a call, the task of a login, a logout or a write. The writer of a login stands
beside a task that saves, and the writer of a logout beside a logout that removes.
-/

set_option autoImplicit false

namespace Yuke.Auth

open Yuke.Shared (Exclusive)

namespace Logins

variable {s u : Logins} {id call : Nat} {owner : Owner} {writer : Writer} {task : LoginTask}
  {event : LoginEvent}

/-! ## What a step can do -/

inductive CallMoves (s : Logins) : LoginEvent → Logins → Prop
  | starts (call : Nat) (hpending : s.pending = none) :
      CallMoves s (.login call) { s with starting := Function.update s.starting call true }
  | replaces (call id : Nat) (hpending : s.pending = some id) :
      CallMoves s (.login call)
        ({ s with starting := Function.update s.starting call true, pending := none }.stop id)
  | answers (call : Nat) : CallMoves s (.answered call) (s.answered call)
  | fails (call : Nat) :
      CallMoves s (.startFails call) { s with starting := Function.update s.starting call false }
  | counts : CallMoves s .otherAnswered { s with last := s.last + 1 }
  | cancels (id : Nat) (hpending : s.pending = some id) : CallMoves s (.cancel id) (s.stop id)
  | misses (id : Nat) : CallMoves s (.cancel id) s
  | leaves (call : Nat) (hnew : s.logouts call = none) (hpending : s.pending = none) :
      CallMoves s (.logout call) ((s.setLogout call .removing).write (.logout call) none)
  | waits (call id : Nat) (hnew : s.logouts call = none) (hpending : s.pending = some id) :
      CallMoves s (.logout call)
        (({ s with pending := none }.stop id).setLogout call (.waiting id))
  | joins (call id : Nat) (stop : Bool) (hwaits : s.logouts call = some (.waiting id))
      (hended : s.tasks id = some ⟨stop, .ended⟩) :
      CallMoves s (.joined call) ((s.setLogout call .removing).write (.logout call) none)
  | returns (call : Nat) (ended : Except String Unit)
      (hremoved : s.logouts call = some (.removed ended)) :
      CallMoves s (.returned call)
        ((s.setLogout call .returned).tell (.returned call ended.isOk))

inductive TaskMoves (s : Logins) (id : Nat) (task : LoginTask) : LoginEvent → Logins → Prop
  | grants (grant : Grant) (token : String) (login : StoredLogin) (hstage : task.stage = .polling)
      (htoken : grant.refreshToken = some token) :
      TaskMoves s id task (.polled id (.ok grant))
        ((s.setTask id { task with stage := .saving }).write (.login id) (some (.login login)))
  | fails {event : LoginEvent} (outcome : LoginOutcome) (hstage : task.stage = .polling)
      (houtcome : outcome ≠ .succeeded) : TaskMoves s id task event (s.finish id task outcome)
  | ends {event : LoginEvent} (ended : Except String Unit) (hstage : task.stage = .saved ended) :
      TaskMoves s id task event (s.finish id task (outcomeOf ended))

inductive WriteMoves (s : Logins) (owner : Owner) (writer : Writer) : LoginEvent → Logins → Prop
  | takes {event : LoginEvent} (hphase : writer.phase = .locking) (hfree : s.lock = none) :
      WriteMoves s owner writer event
        ({ s with lock := some owner }.setWriter owner (some { writer with phase := .locked }))
  | reads {event : LoginEvent} (entry : Option Stored) (hphase : writer.phase = .locked)
      (hentry : entry = writer.entry ∧ (∀ number, owner ≠ .refresh number) ∨
        ∃ number, owner = .refresh number ∧ (s.file.login s.provider).isSome = true) :
      WriteMoves s owner writer event (s.setWriter owner
        (some ⟨writer.provider, entry, .writing (s.file.set writer.provider entry)⟩))
  | misses {event : LoginEvent} (text : String) (hphase : writer.phase = .locking) :
      WriteMoves s owner writer event (s.wrote owner (.error text))
  | fails {event : LoginEvent} (ended : Except String Unit) (hholds : writer.phase.holds = true)
      (hended : (∃ text, ended = .error text) ∨ ∃ number, owner = .refresh number) :
      WriteMoves s owner writer event (s.release.wrote owner ended)
  | changes {event : LoginEvent} (file : Entries) (ended : Except String Unit)
      (hholds : writer.phase.holds = true) (hwriting : ∀ number, owner = .refresh number →
        ∃ entries, writer.phase = .writing entries)
      (hfile : file = s.file.set writer.provider writer.entry)
      (hended : ended = .ok () ∨ ∃ text, ended = .error text ∧
        event = .write owner .unsynced text) :
      WriteMoves s owner writer event
        (({ s with file := file }.release.wrote owner ended).tellWritten owner)

def Owns (s : Logins) (writer : Writer) : Owner → Prop
  | .login id => (∃ task, s.tasks id = some task ∧ task.stage = .saving) ∧
      writer.provider = s.provider ∧ ∃ login, writer.entry = some (.login login)
  | .logout call => s.logouts call = some .removing ∧ writer.provider = s.provider ∧
      writer.entry = none
  | .key _ => writer.provider = s.provider ∧ ∃ apiKey, writer.entry = some (.apiKey apiKey)
  | .refresh _ => writer.provider = s.provider ∧ (∀ entries, writer.phase = .writing entries →
      (s.file.login s.provider).isSome = true)
  | .other _ => writer.provider ≠ s.provider

def Holds (s : Logins) (owner : Owner) : Prop :=
  ∃ writer, s.writers owner = some writer ∧ writer.phase.holds = true

structure Inv (s : Logins) : Prop where
  lock : Exclusive s.Holds s.lock
  writing : ∀ owner writer entries, s.writers owner = some writer →
    writer.phase = .writing entries → entries = s.file.set writer.provider writer.entry
  owns : ∀ owner writer, s.writers owner = some writer → s.Owns writer owner
  known : ∀ id task, s.tasks id = some task → id ≤ s.last

theorem writeRead_moves (hnone : ∀ number, owner ≠ .refresh number)
    (hphase : writer.phase = .locked) (fails : Option String) :
    WriteMoves s owner writer event (s.writeRead owner writer fails) := by
  have hholds : writer.phase.holds = true := by rw [hphase]; rfl
  unfold writeRead
  split
  next hread =>
    rw [setRead_writing hread]
    exact .reads writer.entry hphase (.inl ⟨rfl, hnone⟩)
  · exact .fails _ hholds (.inl ⟨_, rfl⟩)
  next ok hread =>
    have hmissing := setRead_missing hread
    have hsame : s.file = s.file.set writer.provider writer.entry := by
      rw [hmissing.1, ← hmissing.2]
      exact (Function.update_eq_self _ _).symm
    exact .changes s.file _ hholds (fun number h => absurd h (hnone number)) hsame (.inl rfl)

theorem writeFile_moves {entries : Entries} (hphase : writer.phase = .writing entries)
    (hentries : entries = s.file.set writer.provider writer.entry) (write : Write)
    (text : String) :
    WriteMoves s owner writer (.write owner write text) (s.writeFile owner entries text write) := by
  have hholds : writer.phase.holds = true := by rw [hphase]; rfl
  cases write with
  | written => exact .changes entries _ hholds (fun _ _ => ⟨entries, hphase⟩) hentries (.inl rfl)
  | failed => exact .fails _ hholds (.inl ⟨text, rfl⟩)
  | unsynced =>
    exact .changes entries _ hholds (fun _ _ => ⟨entries, hphase⟩) hentries
      (.inr ⟨text, rfl, rfl⟩)

def writes : LoginEvent → Option Owner
  | .lock owner | .lockFails owner _ | .read owner _ | .write owner _ _ => some owner
  | .refreshRead number _ => some (.refresh number)
  | _ => none

theorem writerStep_moves (hinv : Inv s) (hwriter : s.writers owner = some writer)
    (hwrites : writes event = some owner)
    (hread : ∀ fails number, event ≠ .read (.refresh number) fails)
    (h : s.writerStep owner writer event = some u) : WriteMoves s owner writer event u := by
  cases event with
  | lock other =>
    simp only [writerStep] at h
    split at h
    next hphase =>
      split at h
      · cases h
      next hfree => cases h; exact .takes hphase (by simpa using hfree)
    · cases h
  | lockFails other text =>
    simp only [writerStep] at h
    split at h
    next hphase => cases h; exact .misses text hphase
    · cases h
  | refreshRead number new =>
    cases hwrites
    have howns := hinv.owns _ _ hwriter
    simp only [writerStep] at h
    split at h
    next hphase =>
      split at h
      next hgone => cases h; exact .fails _ (by rw [hphase]; rfl) (.inr ⟨number, rfl⟩)
      next hlogin =>
        cases h
        rw [← howns.1]
        refine .reads _ hphase (.inr ⟨number, rfl, ?_⟩)
        simpa [Option.isSome_iff_ne_none] using hlogin
    · cases h
  | read other fails =>
    cases hwrites
    simp only [writerStep] at h
    split at h
    next hphase =>
      cases h
      refine writeRead_moves ?_ hphase fails
      rintro number rfl
      exact hread fails number rfl
    · cases h
  | write other write text =>
    cases hwrites
    simp only [writerStep] at h
    split at h
    next hphase =>
      cases h
      exact writeFile_moves hphase (hinv.writing _ _ _ hwriter hphase) write text
    · cases h
  | _ => cases h

theorem polled_moves (hstage : task.stage = .polling) (out : Except String Grant) :
    TaskMoves s id task (.polled id out) (s.polled id task out) := by
  cases out with
  | error message => exact .fails _ hstage (by simp)
  | ok grant =>
    cases htoken : grant.refreshToken with
    | none =>
      simp only [polled, htoken]
      exact .fails _ hstage (by simp)
    | some token =>
      simp only [polled, htoken]
      exact .grants grant token _ hstage htoken

theorem taskStep_moves (h : (s.tasks id).bind (fun task =>
      s.taskStep id task event) = some u) (hevent : ∀ number out, event = .polled number out →
        number = id) :
    ∃ task, s.tasks id = some task ∧ TaskMoves s id task event u := by
  obtain ⟨task, htask, h⟩ := Option.bind_eq_some_iff.mp h
  refine ⟨task, htask, ?_⟩
  cases event with
  | polled number out =>
    cases hevent number out rfl
    simp only [taskStep] at h
    split at h
    next hstage => cases h; exact polled_moves hstage out
    · cases h
  | stopped number =>
    simp only [taskStep] at h
    split at h
    next hstage =>
      split at h
      · cases h; exact .fails _ hstage (by simp)
      · cases h
    · cases h
  | finish number =>
    simp only [taskStep] at h
    split at h
    next hstage => cases h; exact .ends _ hstage
    · cases h
  | _ => cases h

theorem logout_moves (hnew : s.logouts call = none) :
    CallMoves s (.logout call) (s.logout call) := by
  cases hpending : s.pending with
  | none =>
    simp only [logout, hpending]
    exact .leaves call hnew hpending
  | some id =>
    simp only [logout, hpending]
    exact .waits call id hnew hpending

theorem login_moves : CallMoves s (.login call) (s.login call) := by
  simp only [login]
  split
  next id hpending => exact .replaces call id hpending
  next hpending => exact .starts call hpending

theorem joined_moves (h : s.step (.joined call) = some u) : CallMoves s (.joined call) u := by
  obtain ⟨leaving, hleaving, h⟩ := Option.bind_eq_some_iff.mp h
  simp only [logoutStep] at h
  split at h
  next id =>
    split at h
    next stop hended =>
      cases h
      exact .joins call id stop hleaving hended
    · cases h
  · cases h

theorem returned_moves (h : s.step (.returned call) = some u) :
    CallMoves s (.returned call) u := by
  obtain ⟨leaving, hleaving, h⟩ := Option.bind_eq_some_iff.mp h
  simp only [logoutStep] at h
  split at h
  · cases h
    exact .returns call _ hleaving
  · cases h

inductive NewWrite (s : Logins) : Logins → Prop
  | key (call : Nat) (apiKey : String) (hnew : s.writers (.key call) = none) :
      NewWrite s (s.write (.key call) (some (.apiKey apiKey)))
  | refresh (number : Nat) (hnew : s.writers (.refresh number) = none) :
      NewWrite s (s.write (.refresh number) none)
  | other (number : Nat) (provider : String) (entry : Option Stored)
      (hnew : s.writers (.other number) = none) (hprovider : provider ≠ s.provider) :
      NewWrite s (s.setWriter (.other number) (some ⟨provider, entry, .locking⟩))

theorem step_cases (hinv : Inv s) (h : s.step event = some u) :
    CallMoves s event u ∨ (∃ id task, s.tasks id = some task ∧ TaskMoves s id task event u) ∨
      NewWrite s u ∨
        ∃ owner writer, s.writers owner = some writer ∧ WriteMoves s owner writer event u := by
  have hwrite {owner : Owner} (hwrites : writes event = some owner)
      (hread : ∀ fails number, event ≠ .read (.refresh number) fails)
      (h : ((s.writers owner).bind fun writer => s.writerStep owner writer event) = some u) :
      ∃ owner writer, s.writers owner = some writer ∧ WriteMoves s owner writer event u := by
    obtain ⟨writer, hwriter, h⟩ := Option.bind_eq_some_iff.mp h
    exact ⟨owner, writer, hwriter, writerStep_moves hinv hwriter hwrites hread h⟩
  cases event with
  | login call =>
    simp only [step] at h
    split at h
    · cases h
    · cases h
      exact .inl login_moves
  | answered call =>
    simp only [step] at h
    split at h
    · cases h
      exact .inl (.answers call)
    · cases h
  | startFails call =>
    simp only [step] at h
    split at h
    · cases h
      exact .inl (.fails call)
    · cases h
  | otherAnswered => cases h; exact .inl .counts
  | cancel id =>
    simp only [step] at h
    split at h
    next hpending => cases h; exact .inl (.cancels id hpending)
    · cases h
      exact .inl (.misses id)
  | polled id out => exact .inr (.inl ⟨id, taskStep_moves h (by rintro _ _ h; cases h; rfl)⟩)
  | stopped id => exact .inr (.inl ⟨id, taskStep_moves h (by simp)⟩)
  | finish id => exact .inr (.inl ⟨id, taskStep_moves h (by simp)⟩)
  | logout call =>
    simp only [step] at h
    split at h
    · cases h
    next hnew =>
      cases h
      exact .inl (logout_moves (by simpa using hnew))
  | joined call => exact .inl (joined_moves h)
  | returned call => exact .inl (returned_moves h)
  | setKey call apiKey =>
    simp only [step] at h
    split at h
    · cases h
    next hnew =>
      cases h
      exact .inr (.inr (.inl (.key call apiKey (by simpa using hnew))))
  | refresh number =>
    simp only [step] at h
    split at h
    · cases h
    next hnew =>
      cases h
      exact .inr (.inr (.inl (.refresh number (by simpa using hnew))))
  | other number provider entry =>
    simp only [step] at h
    split at h
    · cases h
    next hnew =>
      cases h
      simp only [not_or, Option.not_isSome_iff_eq_none] at hnew
      exact .inr (.inr (.inl (.other number provider entry hnew.1 hnew.2)))
  | lock owner => exact .inr (.inr (.inr (hwrite rfl (by simp) h)))
  | lockFails owner text => exact .inr (.inr (.inr (hwrite rfl (by simp) h)))
  | refreshRead number new => exact .inr (.inr (.inr (hwrite rfl (by simp) h)))
  | read owner fails =>
    simp only [step] at h
    split at h
    · cases h
    next hnone =>
      refine .inr (.inr (.inr (hwrite rfl ?_ h)))
      rintro others number heq
      cases heq
      exact hnone rfl
  | write owner write text => exact .inr (.inr (.inr (hwrite rfl (by simp) h)))

@[simp] theorem stop_tasks (other : Nat) : (s.stop id).tasks other =
    if other = id then (s.tasks other).map fun task => { task with stop := true }
    else s.tasks other := by
  unfold stop
  split
  next task htask =>
    by_cases hself : other = id
    · subst hself
      simp [setTask, htask]
    · simp [setTask, hself]
  next htask =>
    by_cases hself : other = id
    · subst hself
      simp [htask]
    · simp [hself]

theorem stop_eq : s.stop id = { s with tasks := (s.stop id).tasks } := by
  unfold stop
  split <;> rfl

@[simp] theorem stop_pending : (s.stop id).pending = s.pending := by
  rw [stop_eq]

@[simp] theorem stop_logouts : (s.stop id).logouts = s.logouts := by
  rw [stop_eq]

@[simp] theorem stop_log : (s.stop id).log = s.log := by
  rw [stop_eq]

@[simp] theorem stop_file : (s.stop id).file = s.file := by
  rw [stop_eq]

@[simp] theorem stop_provider : (s.stop id).provider = s.provider := by
  rw [stop_eq]

@[simp] theorem wrote_tasks (ended : Except String Unit) (other : Nat) :
    (s.wrote owner ended).tasks other =
      if owner = .login other then (s.tasks other).map fun task => { task with stage := .saved ended }
      else s.tasks other := by
  unfold wrote
  cases owner with
  | login id =>
    by_cases hself : other = id
    · subst hself
      dsimp only [setWriter]
      split
      next task htask => simp [setTask, htask]
      next htask => simp [htask]
    · have hne : Owner.login id ≠ .login other := fun h => hself (Owner.login.inj h).symm
      dsimp only [setWriter]
      split
      · simp [setTask, hself, hne]
      · simp [hne]
  | _ => simp [setWriter, setLogout]

@[simp] theorem wrote_logouts (ended : Except String Unit) (other : Nat) :
    (s.wrote owner ended).logouts other =
      if owner = .logout other then some (.removed ended) else s.logouts other := by
  unfold wrote
  cases owner with
  | logout call =>
    by_cases hself : other = call
    · subst hself
      simp [setLogout]
    · have hne : Owner.logout call ≠ .logout other := fun h => hself (Owner.logout.inj h).symm
      simp [setLogout, setWriter, hself, hne]
  | login id =>
    dsimp only
    split <;> simp [setTask, setWriter]
  | _ => simp [setWriter]

theorem wrote_eq (ended : Except String Unit) : s.wrote owner ended = { s with
    writers := Function.update s.writers owner none
    tasks := (s.wrote owner ended).tasks
    logouts := (s.wrote owner ended).logouts } := by
  unfold wrote
  cases owner with
  | login id =>
    dsimp only
    split <;> rfl
  | _ => rfl

theorem tellWritten_eq : s.tellWritten owner = { s with log := (s.tellWritten owner).log } := by
  unfold tellWritten
  cases owner <;> rfl

/-! ## The lock -/

namespace Inv

theorem frame (h : Inv s) (hfile : u.file = s.file) (hlock : u.lock = s.lock)
    (hprovider : u.provider = s.provider) (hwriters : u.writers = s.writers)
    (htasks : ∀ id task, s.tasks id = some task → task.stage = .saving →
      ∃ task, u.tasks id = some task ∧ task.stage = .saving)
    (hlogouts : ∀ call, s.logouts call = some .removing → u.logouts call = some .removing)
    (hknown : ∀ id task, u.tasks id = some task → id ≤ u.last) : Inv u where
  lock := by
    rw [hlock]
    refine h.lock.keep fun owner => ?_
    rw [Holds, hwriters]
    rfl
  writing := by
    rw [hwriters, hfile]
    exact h.writing
  owns := by
    intro owner writer hwriter
    rw [hwriters] at hwriter
    have howns := h.owns owner writer hwriter
    cases owner with
    | login id =>
      obtain ⟨⟨task, htask, hstage⟩, howns⟩ := howns
      rw [← hprovider] at howns
      exact ⟨htasks id task htask hstage, howns⟩
    | logout call =>
      obtain ⟨hremoving, howns⟩ := howns
      rw [← hprovider] at howns
      exact ⟨hlogouts call hremoving, howns⟩
    | key call => simpa only [Owns, hprovider] using howns
    | refresh number => simpa only [Owns, hprovider, hfile] using howns
    | other number => simpa only [Owns, hprovider] using howns
  known := hknown

theorem setWriter (h : Inv s) (hholds : writer.phase.holds = true ↔ s.Holds owner)
    (hwriting : ∀ entries, writer.phase = .writing entries →
      entries = s.file.set writer.provider writer.entry)
    (howns : s.Owns writer owner) : Inv (s.setWriter owner (some writer)) where
  lock := by
    refine h.lock.keep fun other => ?_
    by_cases hself : other = owner
    · subst hself
      simp only [Holds, Logins.setWriter, Function.update_self, Option.some.injEq,
        exists_eq_left']
      exact hholds
    · simp [Holds, Logins.setWriter, hself]
  writing := by
    intro other state entries hstate hphase
    by_cases hself : other = owner
    · subst hself
      have hstate : writer = state := by simpa [Logins.setWriter] using hstate
      subst hstate
      exact hwriting entries hphase
    · exact h.writing other state entries (by simpa [Logins.setWriter, hself] using hstate) hphase
  owns := by
    intro other state hstate
    by_cases hself : other = owner
    · subst hself
      have hstate : writer = state := by simpa [Logins.setWriter] using hstate
      subst hstate
      cases other <;> exact howns
    · have howns := h.owns other state (by simpa [Logins.setWriter, hself] using hstate)
      cases other <;> exact howns
  known := h.known

theorem take (h : Inv s) (hwriter : s.writers owner = some writer) (hfree : s.lock = none) :
    Inv ({ s with lock := some owner }.setWriter owner (some { writer with phase := .locked })) where
  lock := by
    have hlock := h.lock
    rw [hfree] at hlock
    refine hlock.acquire ⟨{ writer with phase := .locked }, by simp [Logins.setWriter], rfl⟩
      fun other hother => ?_
    simp [Holds, Logins.setWriter, hother]
  writing := by
    intro other state entries hstate hwriting
    by_cases hself : other = owner
    · subst hself
      have hstate : { writer with phase := .locked } = state := by
        simpa [Logins.setWriter] using hstate
      subst hstate
      cases hwriting
    · exact h.writing other state entries (by simpa [Logins.setWriter, hself] using hstate) hwriting
  owns := by
    intro other state hstate
    by_cases hself : other = owner
    · subst hself
      have hstate : { writer with phase := .locked } = state := by
        simpa [Logins.setWriter] using hstate
      subst hstate
      have howns := h.owns other writer hwriter
      cases other with
      | refresh number => exact ⟨howns.1, fun entries h => nomatch h⟩
      | _ => exact howns
    · have howns := h.owns other state (by simpa [Logins.setWriter, hself] using hstate)
      cases other <;> exact howns
  known := h.known

theorem wrote {file : Entries} {lock : Option Owner} {ended : Except String Unit} (h : Inv s)
    (hend : file = s.file ∧ lock = s.lock ∧ ¬ s.Holds owner ∨ lock = none ∧ s.Holds owner) :
    Inv ({ s with file := file, lock := lock }.wrote owner ended) := by
  rw [wrote_eq]
  have hother {other : Owner} (hne : other ≠ owner) {state : Writer}
      (hstate : s.writers other = some state) (hholds : state.phase.holds = true) :
      file = s.file := by
    rcases hend with ⟨hfile, _, _⟩ | ⟨_, hheld⟩
    · exact hfile
    · exact absurd (h.lock.unique ⟨state, hstate, hholds⟩ hheld) hne
  refine ⟨?_, ?_, ?_, ?_⟩
  · have hkeep : ∀ other, other ≠ owner →
        ((∃ state, Function.update s.writers owner none other = some state ∧
          state.phase.holds = true) ↔ s.Holds other) := by
      intro other hne
      simp [Holds, hne]
    have hgone : ¬ ∃ state, Function.update s.writers owner none owner = some state ∧
        state.phase.holds = true := by simp
    rcases hend with ⟨_, hlock, hfree⟩ | ⟨hlock, hheld⟩
    · refine Exclusive.keep (hlock ▸ h.lock) fun other => ?_
      by_cases hself : other = owner
      · subst hself
        exact iff_of_false hgone hfree
      · exact hkeep other hself
    · have hold := h.lock
      rw [(h.lock owner).mp hheld] at hold
      rw [hlock]
      exact hold.release hgone hkeep
  · intro other state entries hstate hphase
    have hne : other ≠ owner := by
      rintro rfl
      simp at hstate
    have hold : s.writers other = some state := by simpa [hne] using hstate
    have hfile := hother hne hold (by rw [hphase]; rfl)
    subst hfile
    exact h.writing other state entries hold hphase
  · intro other state hstate
    have hne : other ≠ owner := by
      rintro rfl
      simp at hstate
    have hold : s.writers other = some state := by simpa [hne] using hstate
    have howns := h.owns other state hold
    cases other with
    | login id =>
      obtain ⟨⟨task, htask, hstage⟩, howns⟩ := howns
      exact ⟨⟨task, by simpa [Ne.symm hne] using htask, hstage⟩, howns⟩
    | logout call =>
      obtain ⟨hremoving, howns⟩ := howns
      exact ⟨by simpa [Ne.symm hne] using hremoving, howns⟩
    | key call => exact howns
    | refresh number =>
      refine ⟨howns.1, fun entries hphase => ?_⟩
      have hfile := hother hne hold (by rw [hphase]; rfl)
      subst hfile
      exact howns.2 entries hphase
    | other number => exact howns
  · intro id task htask
    by_cases hself : owner = .login id
    · obtain ⟨before, hbefore, _⟩ := Option.map_eq_some_iff.mp (by simpa [hself] using htask)
      exact h.known id before hbefore
    · exact h.known id task (by simpa [hself] using htask)

theorem tellWritten (h : Inv s) : Inv (s.tellWritten owner) := by
  rw [tellWritten_eq]
  refine ⟨h.lock, h.writing, ?_, h.known⟩
  intro owner writer hwriter
  have howns := h.owns owner writer hwriter
  cases owner <;> exact howns

theorem stop (h : Inv s) : Inv (s.stop id) := by
  rw [stop_eq]
  refine h.frame rfl rfl rfl rfl ?_ (fun _ h => h) ?_
  · intro other task htask hstage
    by_cases hself : other = id
    · exact ⟨{ task with stop := true }, by simp [hself ▸ htask, hself], hstage⟩
    · exact ⟨task, by simp [hself, htask], hstage⟩
  · intro other task htask
    by_cases hself : other = id
    · obtain ⟨before, hbefore, _⟩ := Option.map_eq_some_iff.mp (by simpa [hself] using htask)
      exact hself ▸ h.known id before hbefore
    · exact h.known other task (by simpa [hself] using htask)

theorem setLogout {leaving : Leaving} (h : Inv s)
    (hremoving : s.logouts call = some .removing → leaving = .removing) :
    Inv (s.setLogout call leaving) := by
  refine h.frame rfl rfl rfl rfl (fun _ task htask hstage => ⟨task, htask, hstage⟩) ?_ h.known
  intro other hother
  by_cases hself : other = call
  · subst hself
    simp [Logins.setLogout, hremoving hother]
  · simpa [Logins.setLogout, hself] using hother

theorem leave (h : Inv s) (hnot : s.logouts call ≠ some .removing) :
    Inv ((s.setLogout call .removing).write (.logout call) none) := by
  have hset : Inv (s.setLogout call .removing) := h.setLogout fun _ => rfl
  refine hset.setWriter ?_ (by simp) ⟨by simp [Logins.setLogout], rfl, rfl⟩
  refine iff_of_false Bool.false_ne_true ?_
  rintro ⟨writer, hwriter, _⟩
  exact hnot (h.owns (.logout call) writer hwriter).1

theorem calls (h : Inv s) (hmoves : CallMoves s event u) : Inv u := by
  have hsame (id : Nat) (task : LoginTask) (htask : s.tasks id = some task)
      (hstage : task.stage = .saving) : ∃ task, s.tasks id = some task ∧ task.stage = .saving :=
    ⟨task, htask, hstage⟩
  cases hmoves with
  | starts call hpending => exact h.frame rfl rfl rfl rfl hsame (fun _ h => h) h.known
  | replaces call id hpending =>
    have hcleared : Inv { s with
        starting := Function.update s.starting call true, pending := none } :=
      h.frame rfl rfl rfl rfl hsame (fun _ h => h) h.known
    exact hcleared.stop
  | answers call =>
    refine h.frame rfl rfl rfl rfl ?_ (fun _ h => h) ?_
    · intro id task htask hstage
      have hne : id ≠ s.last + 1 := by
        have hknown := h.known id task htask
        omega
      exact ⟨task, by simpa [answered, hne] using htask, hstage⟩
    · intro id task htask
      by_cases hself : id = s.last + 1
      · exact hself.le
      · have hknown := h.known id task (by simpa [answered, hself] using htask)
        exact hknown.trans (Nat.le_succ _)
  | fails call => exact h.frame rfl rfl rfl rfl hsame (fun _ h => h) h.known
  | counts =>
    refine h.frame rfl rfl rfl rfl hsame (fun _ h => h) fun id task htask => ?_
    exact (h.known id task htask).trans (Nat.le_succ _)
  | cancels id hpending => exact h.stop
  | misses id => exact h
  | leaves call hnew hpending => exact h.leave (by simp [hnew])
  | waits call id hnew hpending =>
    have hcleared : Inv { s with pending := none } :=
      h.frame rfl rfl rfl rfl hsame (fun _ h => h) h.known
    refine hcleared.stop.setLogout ?_
    rw [stop_eq]
    simp [hnew]
  | joins call id stop hwaits hended => exact h.leave (by simp [hwaits])
  | returns call ended hremoved =>
    have hset : Inv (s.setLogout call .returned) := h.setLogout (by simp [hremoved])
    refine hset.frame rfl rfl rfl rfl ?_ (fun _ h => h) hset.known
    exact fun id task htask hstage => ⟨task, htask, hstage⟩

theorem setTask (h : Inv s) (htask : s.tasks id = some task) {stage : Stage}
    (hstage : task.stage ≠ .saving) : Inv (s.setTask id { task with stage := stage }) := by
  refine h.frame rfl rfl rfl rfl ?_ (fun _ h => h) ?_
  · intro other state hstate hsaving
    have hne : other ≠ id := by
      rintro rfl
      rw [htask] at hstate
      cases hstate
      exact hstage hsaving
    exact ⟨state, by simpa [Logins.setTask, hne] using hstate, hsaving⟩
  · intro other state hstate
    by_cases hself : other = id
    · exact hself ▸ h.known id task htask
    · exact h.known other state (by simpa [Logins.setTask, hself] using hstate)

theorem finish {outcome : LoginOutcome} (h : Inv s) (htask : s.tasks id = some task)
    (hstage : task.stage ≠ .saving) : Inv (s.finish id task outcome) := by
  have hset : Inv (s.setTask id { task with stage := .ended }) := h.setTask htask hstage
  refine hset.frame rfl rfl rfl rfl ?_ (fun _ h => h) hset.known
  exact fun other state hstate hsaving => ⟨state, hstate, hsaving⟩

theorem tasks (h : Inv s) (htask : s.tasks id = some task)
    (hmoves : TaskMoves s id task event u) : Inv u := by
  cases hmoves with
  | grants grant token login hstage htoken =>
    have hset : Inv (s.setTask id { task with stage := .saving }) :=
      h.setTask htask (by simp [hstage])
    refine hset.setWriter ?_ (by simp) ⟨⟨{ task with stage := .saving }, ?_, rfl⟩, rfl, login, rfl⟩
    swap
    · simp [Logins.setTask]
    refine iff_of_false Bool.false_ne_true ?_
    rintro ⟨writer, hwriter, _⟩
    obtain ⟨⟨state, hstate, hsaving⟩, _⟩ := h.owns (.login id) writer hwriter
    rw [htask] at hstate
    cases hstate
    rw [hstage] at hsaving
    cases hsaving
  | fails outcome hstage houtcome => exact h.finish htask (by simp [hstage])
  | ends ended hstage => exact h.finish htask (by simp [hstage])

theorem begins (h : Inv s) (hnew : NewWrite s u) : Inv u := by
  have hfree {owner : Owner} (hnone : s.writers owner = none) : ¬ s.Holds owner := by
    rintro ⟨writer, hwriter, _⟩
    rw [hnone] at hwriter
    cases hwriter
  cases hnew with
  | key call apiKey hnone =>
    exact h.setWriter (iff_of_false Bool.false_ne_true (hfree hnone)) (by simp)
      ⟨rfl, apiKey, rfl⟩
  | refresh number hnone =>
    exact h.setWriter (iff_of_false Bool.false_ne_true (hfree hnone)) (by simp) ⟨rfl, by simp⟩
  | other number provider entry hnone hprovider =>
    exact h.setWriter (iff_of_false Bool.false_ne_true (hfree hnone)) (by simp) hprovider

theorem writes (h : Inv s) (hwriter : s.writers owner = some writer)
    (hmoves : WriteMoves s owner writer event u) : Inv u := by
  have howns := h.owns owner writer hwriter
  have hheld (hholds : writer.phase.holds = true) : s.Holds owner := ⟨writer, hwriter, hholds⟩
  cases hmoves with
  | takes hphase hfree => exact h.take hwriter hfree
  | reads entry hphase hentry =>
    refine h.setWriter ?_ ?_ ?_
    · exact iff_of_true rfl (hheld (by rw [hphase]; rfl))
    · rintro entries heq
      cases heq
      rfl
    · rcases hentry with ⟨rfl, hnone⟩ | ⟨number, rfl, hlogin⟩
      · cases owner with
        | refresh number => exact absurd rfl (hnone number)
        | _ => exact howns
      · exact ⟨howns.1, fun _ _ => hlogin⟩
  | misses text hphase =>
    refine h.wrote (.inl ⟨rfl, rfl, ?_⟩)
    rintro ⟨state, hstate, hholds⟩
    rw [hwriter] at hstate
    cases hstate
    rw [hphase] at hholds
    cases hholds
  | fails ended hholds hended => exact h.wrote (.inr ⟨rfl, hheld hholds⟩)
  | changes file ended hholds hwriting hfile hended =>
    exact (h.wrote (.inr ⟨rfl, hheld hholds⟩)).tellWritten

theorem step (h : Inv s) (hstep : s.step event = some u) : Inv u := by
  rcases step_cases h hstep with hcall | ⟨id, task, htask, hmoves⟩ | hnew |
    ⟨owner, writer, hwriter, hmoves⟩
  · exact h.calls hcall
  · exact h.tasks htask hmoves
  · exact h.begins hnew
  · exact h.writes hwriter hmoves

theorem init (provider : String) (file : Entries) :
    Inv { provider := provider, file := file } where
  lock := by
    intro owner
    refine iff_of_false ?_ (by simp)
    rintro ⟨writer, hwriter, _⟩
    cases hwriter
  writing := by simp
  owns := by simp
  known := by simp

end Inv

end Logins

end Yuke.Auth
