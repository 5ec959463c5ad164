import Yuke.Auth.Source

/-!
# The steps of the credentials

Each step moves one call, one task or one writer. Under the lock the file stays as its holder read
it.
-/

set_option autoImplicit false

namespace Yuke.Auth

open Yuke.Shared (Exclusive)

namespace Sources

variable {s u : Sources} {number : Nat} {task : Task} {event : SourceEvent}

def Knows (s : Sources) (task : Task) : Prop :=
  match task.phase with
  | .read stored | .sending stored => s.file.login s.provider = some stored
  | .saving stored new origin =>
    s.file.login s.provider = some stored ∧
      (origin = .given ∨ origin = .kept task.process ∧
        ∀ login, new = some login → login.refreshToken = stored.refreshToken)
  | .writing stored new origin entries =>
    s.file.login s.provider = some stored ∧
      (origin = .given ∨ origin = .kept task.process ∧
        ∀ login, new = some login → login.refreshToken = stored.refreshToken) ∧
      entries = s.file.set s.provider (new.map .login)
  | _ => True

theorem knows_of_free (h : task.phase.holds = false) : s.Knows task := by
  unfold Knows
  split <;> simp_all [Phase.holds]

def pending : Phase → Option String
  | .saving stored _ _ | .writing stored _ _ _ | .saved stored _ true => some stored.refreshToken
  | _ => none

inductive TaskMoves (s : Sources) (number : Nat) (task : Task) : SourceEvent → Sources → Prop
  | goes {event : SourceEvent} (phase : Phase) (hholds : phase.holds = task.phase.holds)
      (hpending : pending phase = pending task.phase)
      (hknows : s.Knows { task with phase := phase }) :
      TaskMoves s number task event (s.setTask number { task with phase := phase })
  | takes {event : SourceEvent} (hphase : task.phase = .locking) (hfree : s.lock = none) :
      TaskMoves s number task event
        ({ s with lock := some (.task number) }.setTask number { task with phase := .locked })
  | leaves {event : SourceEvent} (out : Except AuthError StoredLogin)
      (hholds : task.phase.holds = true) (hpending : pending task.phase = none) :
      TaskMoves s number task event (s.release.setTask number { task with phase := .done out })
  | sends {now : Nat} (stored : StoredLogin) (hphase : task.phase = .read stored)
      (hends : stored.valid now MARGIN = false)
      (hunspent : stored.refreshToken ∉ s.spent task.process) :
      TaskMoves s number task (.check number now)
        ((s.setTask number { task with phase := .sending stored }).tell
          (.sent task.process stored.refreshToken))
  | waits {event : SourceEvent} (stored : StoredLogin) (cause : String)
      (out : Except AuthError StoredLogin) (hphase : task.phase = .sending stored) :
      TaskMoves s number task event
        ((s.tell (.ended task.process stored.refreshToken (.transient cause))).release.setTask
          number { task with phase := .done out })
  | saves {event : SourceEvent} (stored : StoredLogin) (answer : RefreshAnswer)
      (new : Option StoredLogin) (origin : Origin) (hphase : task.phase = .sending stored)
      (hnamed : origin = .given ∨ origin = .kept task.process ∧
        ∀ login, new = some login → login.refreshToken = stored.refreshToken) :
      TaskMoves s number task event
        ((s.tell (.ended task.process stored.refreshToken answer)).setTask number
          { task with phase := .saving stored new origin })
  | unsaved {event : SourceEvent} (stored : StoredLogin) (new : Option StoredLogin)
      (origin : Origin) (failed : Bool) (hphase : task.phase = .saving stored new origin)
      (hgone : failed = false → s.file s.provider = none) :
      TaskMoves s number task event
        (s.release.setTask number { task with phase := .saved stored new failed })
  | writes {event : SourceEvent} (stored : StoredLogin) (new : Option StoredLogin)
      (origin : Origin) (entries : Entries) (write : Write)
      (hphase : task.phase = .writing stored new origin entries) :
      TaskMoves s number task event (s.saveWrite number task stored new origin entries write)
  | records {event : SourceEvent} (stored : StoredLogin) (new : Option StoredLogin)
      (failed : Bool) (hphase : task.phase = .saved stored new failed) :
      TaskMoves s number task event (s.record number task stored new failed)

theorem TaskMoves.ends (out : Except AuthError StoredLogin) (hholds : task.phase.holds = false)
    (hpending : pending task.phase = none) :
    TaskMoves s number task event (s.setTask number { task with phase := .done out }) :=
  .goes _ (by rw [hholds]; rfl) (by rw [hpending]; rfl) trivial

theorem current_moves (hphase : task.phase = .reading) (fails : Option String) (now : Nat) :
    TaskMoves s number task event (s.current number task fails now) := by
  have hends (out : Except AuthError StoredLogin) :
      TaskMoves s number task event (s.setTask number { task with phase := .done out }) :=
    .ends out (by rw [hphase]; rfl) (by rw [hphase]; rfl)
  unfold current
  split
  · exact hends _
  · exact hends _
  · split
    · exact hends _
    · exact .goes _ (by rw [hphase]; rfl) (by rw [hphase]; rfl) trivial

theorem unlocked_moves (hphase : task.phase = .unlocked) (fails : Option String) (now : Nat) :
    TaskMoves s number task event (s.unlocked number task fails now) := by
  have hends (out : Except AuthError StoredLogin) :
      TaskMoves s number task event (s.setTask number { task with phase := .done out }) :=
    .ends out (by rw [hphase]; rfl) (by rw [hphase]; rfl)
  unfold unlocked
  split
  · exact hends _
  · exact hends _
  · split
    · exact hends _
    · exact hends _

theorem readLocked_moves (hphase : task.phase = .locked) (fails : Option String) :
    TaskMoves s number task event (s.readLocked number task fails) := by
  have hholds : task.phase.holds = true := by rw [hphase]; rfl
  have hpending : pending task.phase = none := by rw [hphase]; rfl
  unfold readLocked
  split
  · exact .leaves _ hholds hpending
  · exact .leaves _ hholds hpending
  next stored hstored =>
    exact .goes (.read stored) hholds.symm hpending.symm hstored

theorem refresh_moves {stored : StoredLogin} (hphase : task.phase = .read stored) (now : Nat) :
    TaskMoves s number task (.check number now) (s.refresh number task stored now) := by
  have hholds : task.phase.holds = true := by rw [hphase]; rfl
  have hpending : pending task.phase = none := by rw [hphase]; rfl
  unfold refresh
  split
  · exact .leaves _ hholds hpending
  next hends =>
    split
    · split
      · exact .leaves _ hholds hpending
      · exact .leaves _ hholds hpending
    next hunspent => exact .sends stored hphase (by simpa using hends) hunspent

theorem answered_moves {stored : StoredLogin} (hphase : task.phase = .sending stored)
    (answer : RefreshAnswer) (now : Nat) :
    TaskMoves s number task event (s.answered number task stored answer now) := by
  unfold answered
  cases answer with
  | granted grant =>
    refine .saves stored _ _ _ hphase ?_
    cases htoken : grant.refreshToken with
    | some token => exact .inl rfl
    | none =>
      refine .inr ⟨rfl, fun login hlogin => ?_⟩
      cases hlogin
      simp [StoredLogin.fromGrant, htoken]
  | transient cause =>
    dsimp only
    split
    · exact .waits stored cause _ hphase
    · exact .waits stored cause _ hphase
  | permanent => exact .saves stored _ _ _ hphase (.inl rfl)
  | ambiguous => exact .saves stored _ _ _ hphase (.inl rfl)
  | badResponse => exact .saves stored _ _ _ hphase (.inl rfl)

theorem saveRead_moves {stored : StoredLogin} {new : Option StoredLogin} {origin : Origin}
    (hphase : task.phase = .saving stored new origin) (hknows : s.Knows task) (fails : Bool) :
    TaskMoves s number task event (s.saveRead number task stored new origin fails) := by
  have hholds : task.phase.holds = true := by rw [hphase]; rfl
  have hpending : pending task.phase = some stored.refreshToken := by rw [hphase]; rfl
  simp only [Knows, hphase] at hknows
  unfold saveRead
  cases hread : setRead s.file s.provider (new.map .login) fails with
  | ended ok =>
    refine .unsaved stored new origin _ hphase fun hok => ?_
    cases ok with
    | true => exact setRead_ended hread
    | false => cases hok
  | writing entries =>
    refine .goes (.writing stored new origin entries) hholds.symm hpending.symm ?_
    exact ⟨hknows.1, hknows.2, setRead_writing hread⟩

theorem taskStep_moves (hknows : s.Knows task)
    (hcheck : ∀ of now, event = .check of now → of = number)
    (h : taskStep s number task event = some u) : TaskMoves s number task event u := by
  unfold taskStep at h
  split at h
  · split at h
    next hphase => cases h; exact current_moves hphase _ _
    next hphase => cases h; exact unlocked_moves hphase _ _
    next hphase => cases h; exact readLocked_moves hphase _
    · cases h
  · split at h
    next hphase =>
      split at h
      · cases h
      next hfree => cases h; exact .takes hphase (by simpa using hfree)
    · cases h
  · split at h
    next hphase => cases h; exact .goes _ (by rw [hphase]; rfl) (by rw [hphase]; rfl) trivial
    · cases h
  · split at h
    next hphase => cases h; exact .ends _ (by rw [hphase]; rfl) (by rw [hphase]; rfl)
    · cases h
  · split at h
    next hphase =>
      cases h
      cases hcheck _ _ rfl
      exact refresh_moves hphase _
    · cases h
  · split at h
    next hphase => cases h; exact answered_moves hphase _ _
    · cases h
  · split at h
    next hphase => cases h; exact saveRead_moves hphase hknows _
    · cases h
  · split at h
    next hphase => cases h; exact .writes _ _ _ _ _ hphase
    · cases h
  · split at h
    next hphase => cases h; exact .records _ _ _ hphase
    · cases h
  · cases h

/-! ## The writers and the calls -/

variable {writer : Writer}

inductive WriterMoves (s : Sources) (number : Nat) : Sources → Prop
  | begins (provider : String) (entry : Option Stored)
      (hnew : s.writers number = none) :
      WriterMoves s number (s.setWriter number (some ⟨provider, entry, .locking⟩))
  | takes (writer : Writer) (hwriter : s.writers number = some writer)
      (hphase : writer.phase = .locking) (hfree : s.lock = none) :
      WriterMoves s number ({ s with lock := some (.writer number) }.setWriter number
        (some { writer with phase := .locked }))
  | fails (writer : Writer) (hwriter : s.writers number = some writer)
      (hphase : writer.phase = .locking) :
      WriterMoves s number (s.setWriter number none)
  | reads (writer : Writer) (hwriter : s.writers number = some writer)
      (hphase : writer.phase = .locked) :
      WriterMoves s number (s.setWriter number (some { writer with
        phase := .writing (s.file.set writer.provider writer.entry) }))
  | leaves (writer : Writer) (hwriter : s.writers number = some writer)
      (hphase : writer.phase = .locked) :
      WriterMoves s number (s.release.setWriter number none)
  | writes (writer : Writer) (entries : Entries) (write : Write)
      (hwriter : s.writers number = some writer) (hphase : writer.phase = .writing entries) :
      WriterMoves s number (s.writerWrite number writer entries write)

inductive CallMoves (s : Sources) : SourceEvent → Sources → Prop
  | pushes (process : Nat) (pushed : Pushed) :
      CallMoves s (.push process pushed)
        ({ s with pushed := Function.update s.pushed process (some pushed) }.tell (.pushed process))
  | clears (process : Nat) :
      CallMoves s (.clearPush process)
        ({ s with pushed := Function.update s.pushed process none }.tell (.cleared process))
  | refuses (call task process now : Nat) (pushed : Pushed) (out : Gave)
      (hcall : s.calls call = none) (hpushed : s.pushed process = some pushed)
      (hout : ∀ token account, out ≠ .stored token account) :
      CallMoves s (.credential call task process now)
        (((s.tell (.began process call)).setCall call ⟨process, none⟩).tell (.gave call out))
  | begins (call task process now : Nat) (hcall : s.calls call = none)
      (htask : s.tasks task = none) (hpushed : s.pushed process = none) :
      CallMoves s (.credential call task process now)
        (((s.tell (.began process call)).setCall call ⟨process, some task⟩).setTask task
          ⟨process, .reading⟩)
  | ends (call process task : Nat) (out : Gave)
      (hcall : s.calls call = some ⟨process, some task⟩) :
      CallMoves s (.finish call) ((s.setCall call ⟨process, none⟩).tell (.gave call out))
  | drops (call process task : Nat) (hcall : s.calls call = some ⟨process, some task⟩) :
      CallMoves s (.dropCall call) (s.setCall call ⟨process, none⟩)

theorem writerRead_moves (hwriter : s.writers number = some writer)
    (hphase : writer.phase = .locked) (fails : Bool) :
    WriterMoves s number (s.writerRead number writer fails) := by
  unfold writerRead
  cases hread : setRead s.file writer.provider writer.entry fails with
  | ended ok => exact .leaves writer hwriter hphase
  | writing entries =>
    rw [setRead_writing hread]
    exact .reads writer hwriter hphase

theorem finish_moves {call : Nat} (h : s.step (.finish call) = some u) :
    CallMoves s (.finish call) u := by
  obtain ⟨⟨process, waited⟩, hcall, h⟩ := Option.bind_eq_some_iff.mp h
  obtain ⟨task, htask, h⟩ := Option.bind_eq_some_iff.mp h
  obtain ⟨number, hnumber, _⟩ := Option.bind_eq_some_iff.mp htask
  cases hnumber
  split at h
  next out hphase =>
    cases h
    unfold finish
    cases out with
    | error error => exact .ends call process number _ hcall
    | ok current =>
      dsimp only [setCall]
      split
      · exact .ends call process number _ hcall
      · exact .ends call process number _ hcall
  · cases h

theorem credential_moves {call task process now : Nat} (hcall : s.calls call = none)
    (htask : s.tasks task = none) :
    CallMoves s (.credential call task process now) (s.credential call task process now) := by
  unfold credential
  cases hpushed : s.pushed process with
  | none =>
    simp only [tell, hpushed]
    exact .begins call task process now hcall htask hpushed
  | some pushed =>
    have hrefuses (out : Gave) (hout : ∀ token account, out ≠ .stored token account) :=
      CallMoves.refuses call task process now pushed out hcall hpushed hout
    simp only [tell, hpushed]
    split
    · exact hrefuses (.failed .pushExpired) (by simp)
    · exact hrefuses (.pushed pushed.accessToken pushed.accountId) (by simp)

theorem step_cases (hknows : ∀ number task, s.tasks number = some task → s.Knows task)
    (h : s.step event = some u) :
    CallMoves s event u ∨
      (∃ number task, s.tasks number = some task ∧ TaskMoves s number task event u) ∨
      ∃ number, WriterMoves s number u := by
  have htask {number : Nat} (hcheck : ∀ of now, event = .check of now → of = number)
      (h : ((s.tasks number).bind fun state => taskStep s number state event) = some u) : CallMoves s event u ∨
      (∃ number task, s.tasks number = some task ∧ TaskMoves s number task event u) ∨
      ∃ number, WriterMoves s number u := by
    obtain ⟨task, htask, h⟩ := Option.bind_eq_some_iff.mp h
    exact .inr (.inl ⟨number, task, htask, taskStep_moves (hknows _ _ htask) hcheck h⟩)
  cases event with
  | push process pushed => cases h; exact .inl (.pushes process pushed)
  | clearPush process => cases h; exact .inl (.clears process)
  | credential call task process now =>
    simp only [step] at h
    split at h
    · cases h
    next hnew =>
      cases h
      simp only [not_or, Option.not_isSome_iff_eq_none] at hnew
      exact .inl (credential_moves hnew.1 hnew.2)
  | finish call => exact .inl (finish_moves h)
  | dropCall call =>
    obtain ⟨⟨process, waited⟩, hcall, h⟩ := Option.bind_eq_some_iff.mp h
    obtain ⟨task, hwaited, h⟩ := Option.map_eq_some_iff.mp h
    cases hwaited
    cases h
    exact .inl (.drops call process task hcall)
  | read task fails now => exact htask (by simp) h
  | lock task => exact htask (by simp) h
  | giveUp task => exact htask (by simp) h
  | lockFails task text => exact htask (by simp) h
  | check task now =>
    refine htask ?_ h
    rintro of later hcheck
    cases hcheck
    rfl
  | answer task answer now => exact htask (by simp) h
  | saveRead task fails => exact htask (by simp) h
  | saveWrite task write => exact htask (by simp) h
  | record task => exact htask (by simp) h
  | write writer provider entry =>
    simp only [step] at h
    split at h
    · cases h
    next hnew =>
      cases h
      exact .inr (.inr ⟨writer, .begins provider entry (by simpa using hnew)⟩)
  | writerLock writer =>
    obtain ⟨state, hwriter, h⟩ := Option.bind_eq_some_iff.mp h
    split at h
    next hphase =>
      split at h
      · cases h
      next hfree =>
        cases h
        exact .inr (.inr ⟨writer, .takes state hwriter hphase (by simpa using hfree)⟩)
    · cases h
  | writerFails writer =>
    obtain ⟨state, hwriter, h⟩ := Option.bind_eq_some_iff.mp h
    split at h
    next hphase =>
      cases h
      exact .inr (.inr ⟨writer, .fails state hwriter hphase⟩)
    · cases h
  | writerRead writer fails =>
    obtain ⟨state, hwriter, h⟩ := Option.bind_eq_some_iff.mp h
    split at h
    next hphase =>
      cases h
      exact .inr (.inr ⟨writer, writerRead_moves hwriter hphase fails⟩)
    · cases h
  | writerWrite writer write =>
    obtain ⟨state, hwriter, h⟩ := Option.bind_eq_some_iff.mp h
    split at h
    next hphase =>
      cases h
      exact .inr (.inr ⟨writer, .writes state _ write hwriter hphase⟩)
    · cases h

/-! ## The lock -/

def Holds (s : Sources) : Holder → Prop
  | .task number => ∃ task, s.tasks number = some task ∧ task.phase.holds = true
  | .writer number => ∃ writer, s.writers number = some writer ∧ writer.phase.holds = true

structure Inv (s : Sources) : Prop where
  lock : Exclusive s.Holds s.lock
  knows : ∀ number task, s.tasks number = some task → s.Knows task
  writing : ∀ number writer entries, s.writers number = some writer →
    writer.phase = .writing entries → entries = s.file.set writer.provider writer.entry

theorem holds_setTask_self : (s.setTask number task).Holds (.task number) ↔
    task.phase.holds = true := by
  simp [Holds, setTask]

theorem holds_setTask_other {holder : Holder} (hother : holder ≠ .task number) :
    (s.setTask number task).Holds holder ↔ s.Holds holder := by
  cases holder with
  | task other =>
    have hne : other ≠ number := fun h => hother (congrArg Holder.task h)
    simp [Holds, setTask, hne]
  | writer other => rfl

theorem holds_setWriter_self {writer : Option Writer} :
    (s.setWriter number writer).Holds (.writer number) ↔
      ∃ state, writer = some state ∧ state.phase.holds = true := by
  simp [Holds, setWriter]

theorem holds_setWriter_other {writer : Option Writer} {holder : Holder}
    (hother : holder ≠ .writer number) :
    (s.setWriter number writer).Holds holder ↔ s.Holds holder := by
  cases holder with
  | task other => rfl
  | writer other =>
    have hne : other ≠ number := fun h => hother (congrArg Holder.writer h)
    simp [Holds, setWriter, hne]

namespace Inv

theorem setTask (h : Inv s) (hholds : task.phase.holds = true ↔ s.Holds (.task number))
    (hknows : s.Knows task) : Inv (s.setTask number task) where
  lock := by
    refine h.lock.keep fun holder => ?_
    by_cases hself : holder = .task number
    · rw [hself, holds_setTask_self, hholds]
    · exact holds_setTask_other hself
  knows := by
    intro other state hstate
    by_cases hself : other = number
    · subst hself
      have hstate : state = task := by simpa [Sources.setTask, eq_comm] using hstate
      rw [hstate]
      exact hknows
    · exact h.knows other state (by simpa [Sources.setTask, hself] using hstate)
  writing := h.writing

theorem setWriter {writer : Option Writer} (h : Inv s)
    (hholds : (∃ state, writer = some state ∧ state.phase.holds = true) ↔
      s.Holds (.writer number))
    (hwriting : ∀ state entries, writer = some state → state.phase = .writing entries →
      entries = s.file.set state.provider state.entry) : Inv (s.setWriter number writer) where
  lock := by
    refine h.lock.keep fun holder => ?_
    by_cases hself : holder = .writer number
    · rw [hself, holds_setWriter_self, hholds]
    · exact holds_setWriter_other hself
  knows := h.knows
  writing := by
    intro other state entries hstate hphase
    by_cases hself : other = number
    · subst hself
      exact hwriting state entries (by simpa [Sources.setWriter] using hstate) hphase
    · exact h.writing other state entries (by simpa [Sources.setWriter, hself] using hstate) hphase

theorem of_free (hfree : ∀ holder, ¬ u.Holds holder) (hlock : u.lock = none) : Inv u where
  lock := fun holder => by simp [hfree holder, hlock]
  knows := by
    intro number task htask
    apply knows_of_free
    by_contra hholds
    exact hfree (.task number) ⟨task, htask, by simpa using hholds⟩
  writing := by
    intro number writer entries hwriter hphase
    exact absurd ⟨writer, hwriter, by rw [hphase]; rfl⟩ (hfree (.writer number))

theorem release {holder : Holder} (h : Inv s) (hheld : s.Holds holder) (hgone : ¬ u.Holds holder)
    (hother : ∀ other, other ≠ holder → (u.Holds other ↔ s.Holds other)) (hlock : u.lock = none) :
    Inv u := by
  apply of_free _ hlock
  intro other hholds
  by_cases hself : other = holder
  · rw [hself] at hholds
    exact hgone hholds
  · exact hself (h.lock.unique ((hother other hself).mp hholds) hheld)

theorem releaseTask {file : Entries} (h : Inv s) (hheld : s.Holds (.task number))
    (hgone : task.phase.holds = false) :
    Inv (({ s with file := file }.release).setTask number task) := by
  refine h.release hheld ?_ ?_ rfl
  · rw [holds_setTask_self, hgone]
    exact Bool.false_ne_true
  · intro other hother
    rw [holds_setTask_other hother]
    cases other <;> rfl

theorem releaseWriter {file : Entries} (h : Inv s) (hheld : s.Holds (.writer number)) :
    Inv (({ s with file := file }.release).setWriter number none) := by
  refine h.release hheld ?_ ?_ rfl
  · simp [holds_setWriter_self]
  · intro other hother
    rw [holds_setWriter_other hother]
    cases other <;> rfl

theorem takeTask (h : Inv s) (hfree : s.lock = none) :
    Inv ({ s with lock := some (.task number) }.setTask number { task with phase := .locked }) where
  lock := by
    have hlock := h.lock
    rw [hfree] at hlock
    refine hlock.acquire ?_ fun other hother => ?_
    · rw [holds_setTask_self]
      rfl
    · rw [holds_setTask_other hother]
      cases other <;> rfl
  knows := by
    intro other state hstate
    by_cases hself : other = number
    · subst hself
      have hstate : state = { task with phase := .locked } := by
        simpa [Sources.setTask, eq_comm] using hstate
      rw [hstate]
      trivial
    · exact h.knows other state (by simpa [Sources.setTask, hself] using hstate)
  writing := h.writing

theorem takeWriter (h : Inv s) (hfree : s.lock = none) :
    Inv ({ s with lock := some (.writer number) }.setWriter number
      (some { writer with phase := .locked })) where
  lock := by
    have hlock := h.lock
    rw [hfree] at hlock
    refine hlock.acquire ?_ fun other hother => ?_
    · rw [holds_setWriter_self]
      exact ⟨_, rfl, rfl⟩
    · rw [holds_setWriter_other hother]
      cases other <;> rfl
  knows := h.knows
  writing := by
    intro other state entries hstate hphase
    by_cases hself : other = number
    · subst hself
      have hstate : state = { writer with phase := .locked } := by
        simpa [Sources.setWriter, eq_comm] using hstate
      rw [hstate] at hphase
      cases hphase
    · exact h.writing other state entries (by simpa [Sources.setWriter, hself] using hstate) hphase

theorem tell (h : Inv s) (entry : Entry) : Inv (s.tell entry) := ⟨h.lock, h.knows, h.writing⟩

theorem setCall (h : Inv s) (number : Nat) (call : Call) : Inv (s.setCall number call) :=
  ⟨h.lock, h.knows, h.writing⟩

theorem spend (h : Inv s) (process : Nat) (token : String) : Inv (s.spend process token) :=
  ⟨h.lock, h.knows, h.writing⟩

theorem tellStored (h : Inv s) (entry : Option Stored) (origin : Origin) :
    Inv (s.tellStored entry origin) := by
  unfold Sources.tellStored
  split
  · exact h.tell _
  · exact h
  · exact h

theorem calls (h : Inv s) (hmoves : CallMoves s event u) : Inv u := by
  cases hmoves with
  | pushes process pushed => exact ⟨h.lock, h.knows, h.writing⟩
  | clears process => exact ⟨h.lock, h.knows, h.writing⟩
  | refuses call task process now pushed out hcall hpushed hout =>
    exact ((h.tell _).setCall _ _).tell _
  | begins call task process now hcall htask hpushed =>
    refine ((h.tell _).setCall _ _).setTask ?_ trivial
    refine iff_of_false Bool.false_ne_true ?_
    rintro ⟨state, hstate, _⟩
    rw [show s.tasks task = some state from hstate] at htask
    cases htask
  | ends call process task out hcall => exact (h.setCall _ _).tell _
  | drops call process task hcall => exact h.setCall _ _

theorem tasks (h : Inv s) (htask : s.tasks number = some task)
    (hmoves : TaskMoves s number task event u) : Inv u := by
  have hheld (hholds : task.phase.holds = true) : s.Holds (.task number) := ⟨task, htask, hholds⟩
  have hsame {phase : Phase} (hholds : phase.holds = task.phase.holds) :
      phase.holds = true ↔ s.Holds (.task number) := by
    rw [hholds]
    refine ⟨hheld, ?_⟩
    rintro ⟨state, hstate, hstateHolds⟩
    rw [htask] at hstate
    cases hstate
    exact hstateHolds
  have hknows := h.knows number task htask
  cases hmoves with
  | goes phase hholds hpending hknows => exact h.setTask (hsame hholds) hknows
  | takes hphase hfree => exact h.takeTask hfree
  | leaves out hholds hpending => exact h.releaseTask (hheld hholds) rfl
  | sends stored hphase hends hunspent =>
    simp only [Knows, hphase] at hknows
    refine Inv.tell (h.setTask ?_ ?_) _
    · exact hsame (by rw [hphase]; rfl)
    · exact hknows
  | waits stored cause out hphase =>
    exact (h.tell _).releaseTask (hheld (by rw [hphase]; rfl)) rfl
  | saves stored answer new origin hphase hnamed =>
    simp only [Knows, hphase] at hknows
    refine (h.tell _).setTask ?_ ?_
    · exact hsame (by rw [hphase]; rfl)
    · exact ⟨hknows, hnamed⟩
  | unsaved stored new origin failed hphase hgone =>
    exact h.releaseTask (hheld (by rw [hphase]; rfl)) rfl
  | writes stored new origin entries write hphase =>
    have hwritten : Inv (({ s with file := (setWrite s.file entries write).1 }.release).setTask
        number { task with phase := .saved stored new !(setWrite s.file entries write).2 }) :=
      h.releaseTask (hheld (by rw [hphase]; rfl)) rfl
    unfold saveWrite
    dsimp only
    split
    · exact hwritten
    · exact hwritten.tellStored _ _
  | records stored new failed hphase =>
    have hdone (out : Except AuthError StoredLogin) :
        Inv (s.setTask number { task with phase := .done out }) :=
      h.setTask (hsame (by rw [hphase]; rfl)) trivial
    unfold record
    dsimp only
    split
    · exact (hdone _).spend _ _
    · exact hdone _

theorem writers (h : Inv s) (hmoves : WriterMoves s number u) : Inv u := by
  cases hmoves with
  | begins provider entry hnew =>
    refine h.setWriter ?_ ?_
    · refine iff_of_false ?_ ?_
      · rintro ⟨state, hstate, hholds⟩
        cases hstate
        cases hholds
      · rintro ⟨state, hstate, _⟩
        rw [hnew] at hstate
        cases hstate
    · intro state entries hstate hphase
      cases hstate
      cases hphase
  | takes writer hwriter hphase hfree => exact h.takeWriter hfree
  | fails writer hwriter hphase =>
    refine h.setWriter ?_ (by simp)
    refine iff_of_false (by simp) ?_
    rintro ⟨state, hstate, hholds⟩
    rw [hwriter] at hstate
    cases hstate
    rw [hphase] at hholds
    cases hholds
  | reads writer hwriter hphase =>
    refine h.setWriter ?_ ?_
    · exact iff_of_true ⟨_, rfl, rfl⟩ ⟨writer, hwriter, by rw [hphase]; rfl⟩
    · intro state entries hstate hentries
      cases hstate
      cases hentries
      rfl
  | leaves writer hwriter hphase => exact h.releaseWriter ⟨writer, hwriter, by rw [hphase]; rfl⟩
  | writes writer entries write hwriter hphase =>
    have hwritten : Inv (({ s with file := (setWrite s.file entries write).1 }.release).setWriter
        number none) :=
      h.releaseWriter ⟨writer, hwriter, by rw [hphase]; rfl⟩
    unfold writerWrite
    dsimp only
    split
    · exact hwritten
    · exact hwritten.tellStored _ _

theorem step (h : Inv s) (hstep : s.step event = some u) : Inv u := by
  rcases step_cases h.knows hstep with hcall | ⟨number, task, htask, hmoves⟩ | ⟨number, hmoves⟩
  · exact h.calls hcall
  · exact h.tasks htask hmoves
  · exact h.writers hmoves

theorem init (provider : String) (file : Entries) :
    Inv { provider := provider, file := file } := by
  apply of_free _ rfl
  rintro (number | number) ⟨state, hstate, _⟩
  · cases hstate
  · cases hstate

end Inv

end Sources

end Yuke.Auth
