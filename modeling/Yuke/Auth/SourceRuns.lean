import Yuke.Auth.SourceSteps
import Yuke.Shared.Log

/-!
# What a refresh token can meet

A refresh that ends with a grant or without an answer can have spent its token. The token is out of
the file, or it goes into the spent ones after the save, so a later call must not pass its check
between the two.
-/

set_option autoImplicit false

namespace Yuke.Auth

open Yuke.Shared (Steps outcome when Since not_since_nil since_snoc split_snoc)

/-- A new login, a grant, or the own grant stores a token that this process may send again. -/
def Origin.renews (process : Nat) : Origin → Prop
  | .login | .given => True
  | .kept other => other = process

/-- A refresh of `process` can have spent `token`, and no login and no grant stored it since. -/
def Dead (process : Nat) (token : String) : List Entry → Prop :=
  Since (fun entry => ∃ answer, entry = .ended process token answer ∧ answer.spends = true)
    (fun entry => ∃ origin, entry = .stored token origin ∧ origin.renews process)

def NeverResent (log : List Entry) : Prop :=
  ∀ before process token answer middle after,
    log = before ++ .ended process token answer :: (middle ++ .sent process token :: after) →
    answer.spends = true → ∃ origin, .stored token origin ∈ middle ∧ origin.renews process

/-- The last word of `credential/update` to `process` is a token. -/
def PushedNow (process : Nat) : List Entry → Prop :=
  Since (· = .pushed process) (· = .cleared process)

def PushWins (log : List Entry) : Prop :=
  ∀ before process call after, log = before ++ .began process call :: after →
    PushedNow process before → ∀ token account, .gave call (.stored token account) ∉ log

section Traces

variable {log : List Entry} {entry : Entry}

theorem neverResent_snoc (h : NeverResent log)
    (hsent : ∀ process token, entry = .sent process token → ¬ Dead process token log) :
    NeverResent (log ++ [entry]) := by
  intro before process token answer middle after hlog hspends
  rw [← List.cons_append, ← List.append_assoc] at hlog
  rcases split_snoc.mp hlog with ⟨rest, _, hlog⟩ | ⟨_, hentry, hlog⟩
  · rw [List.append_assoc, List.cons_append] at hlog
    exact h before process token answer middle rest hlog hspends
  · by_contra hnone
    refine hsent process token hentry ⟨before, _, middle, hlog, ⟨answer, rfl, hspends⟩, ?_⟩
    rintro other hother ⟨origin, rfl, hrenews⟩
    exact hnone ⟨origin, hother, hrenews⟩

end Traces

namespace Sources

variable {s u : Sources} {number : Nat} {task : Task} {event : SourceEvent}

/-- The file holds a login with `token`. -/
def Stores (s : Sources) (token : String) : Prop :=
  ∃ stored, s.file.login s.provider = some stored ∧ stored.refreshToken = token

/-- A save of `process` ended or ends, and `token` is spent when it failed. -/
def Pending (s : Sources) (process : Nat) (token : String) : Prop :=
  ∃ number task, s.tasks number = some task ∧ task.process = process ∧
    pending task.phase = some token

/-- `process` does not send `token`, or its save is not over. -/
def Covers (s : Sources) (process : Nat) (token : String) : Prop :=
  token ∈ s.spent process ∨ s.Pending process token ∨ ¬ s.Stores token

def Spends (s : Sources) : Prop := ∀ process token, Dead process token s.log → s.Covers process token

variable {task' : Task} {process : Nat} {token : String} {entry : Entry}

theorem pending_setTask (htask : s.tasks number = some task)
    (hprocess : task'.process = task.process)
    (hpending : ∀ token, pending task.phase = some token → pending task'.phase = some token)
    (h : s.Pending process token) : (s.setTask number task').Pending process token := by
  obtain ⟨other, state, hstate, hof, htoken⟩ := h
  by_cases hself : other = number
  · subst hself
    rw [htask] at hstate
    cases hstate
    exact ⟨other, task', by simp [setTask], hprocess.trans hof, hpending token htoken⟩
  · exact ⟨other, state, by simpa [setTask, hself] using hstate, hof, htoken⟩

theorem covers_setTask (htask : s.tasks number = some task)
    (hprocess : task'.process = task.process)
    (hpending : ∀ token, pending task.phase = some token → pending task'.phase = some token)
    (h : s.Covers process token) : (s.setTask number task').Covers process token := by
  rcases h with hspent | hsaving | hgone
  · exact .inl hspent
  · exact .inr (.inl (pending_setTask htask hprocess hpending hsaving))
  · exact .inr (.inr hgone)

theorem dead_tell (h : Dead process token (s.tell entry).log)
    (hentry : ∀ answer, entry = .ended process token answer → answer.spends = false) :
    Dead process token s.log := by
  rcases since_snoc.mp h with ⟨answer, hended, hspends⟩ | ⟨hdead, _⟩
  · rw [hentry answer hended] at hspends
    cases hspends
  · exact hdead

theorem login_of_set {entries : Entries} {entry : Option Stored}
    (hentries : entries = s.file.set s.provider entry) {stored : StoredLogin}
    (hlogin : entries.login s.provider = some stored) : entry = some (.login stored) := by
  rw [Entries.login_eq_some, hentries, Entries.set_self] at hlogin
  exact hlogin

theorem not_stores_written {stored : StoredLogin} {new : Option StoredLogin} {origin : Origin}
    {entries : Entries} (hphase : task.phase = .writing stored new origin entries)
    (hknows : s.Knows task) (hdead : ∀ login, new = some login → login.refreshToken = token →
      ¬ origin.renews process) (hof : stored.refreshToken ≠ token ∨ task.process = process) :
    ∀ login, entries.login s.provider = some login → login.refreshToken ≠ token := by
  simp only [Knows, hphase] at hknows
  obtain ⟨_, hnamed, hentries⟩ := hknows
  intro login hlogin htoken
  obtain ⟨fresh, hnew, hfresh⟩ := Option.map_eq_some_iff.mp (login_of_set hentries hlogin)
  cases hfresh
  have hrenews := hdead login hnew htoken
  rcases hnamed with hgiven | ⟨hkept, hsame⟩
  · rw [hgiven] at hrenews
    exact hrenews trivial
  · rw [hkept] at hrenews
    rcases hof with hother | hself
    · exact hother ((hsame login hnew).symm.trans htoken)
    · exact hrenews hself

theorem tellStored_eq {stored : Option Stored} {origin : Origin} :
    s.tellStored stored origin = s ∨
      ∃ login, stored = some (.login login) ∧
        s.tellStored stored origin = s.tell (.stored login.refreshToken origin) := by
  unfold tellStored
  split
  next login => exact .inr ⟨login, rfl, rfl⟩
  · exact .inl rfl
  · exact .inl rfl

theorem dead_tellStored {stored : Option Stored} {origin : Origin}
    (h : Dead process token (s.tellStored stored origin).log) :
    Dead process token s.log ∧ ∀ login, stored = some (.login login) →
      login.refreshToken = token → ¬ origin.renews process := by
  unfold tellStored at h
  split at h
  next login =>
    rcases since_snoc.mp h with ⟨answer, hended, _⟩ | ⟨hdead, hnone⟩
    · cases hended
    · refine ⟨hdead, ?_⟩
      rintro other hother rfl hrenews
      cases hother
      exact hnone ⟨origin, rfl, hrenews⟩
  next login => exact ⟨h, by simp⟩
  · exact ⟨h, by simp⟩

theorem covers_tellStored {stored : Option Stored} {origin : Origin}
    (h : s.Covers process token) : (s.tellStored stored origin).Covers process token := by
  rcases tellStored_eq with heq | ⟨login, _, heq⟩
  · rw [heq]
    exact h
  · rw [heq]
    exact h

namespace Spends

theorem setTask (h : Spends s) (htask : s.tasks number = some task)
    (hprocess : task'.process = task.process)
    (hpending : ∀ token, pending task.phase = some token → pending task'.phase = some token) :
    Spends (s.setTask number task') := by
  intro process token hdead
  exact covers_setTask htask hprocess hpending (h process token hdead)

theorem tell (h : Spends s)
    (hentry : ∀ process token answer, entry = .ended process token answer →
      answer.spends = false) : Spends (s.tell entry) := by
  intro process token hdead
  exact h process token (dead_tell hdead (hentry process token))

theorem written {stored : StoredLogin} {new : Option StoredLogin} {origin : Origin}
    {entries : Entries} (h : Spends s) (hinv : Inv s) (htask : s.tasks number = some task)
    (hphase : task.phase = .writing stored new origin entries) (write : Write) :
    Spends (s.saveWrite number task stored new origin entries write) := by
  have hknows := hinv.knows number task htask
  have hstored : s.file.login s.provider = some stored := by
    simp only [Knows, hphase] at hknows
    exact hknows.1
  have hpending : ∀ token, pending task.phase = some token →
      pending (.saved stored new true) = some token := by
    rw [hphase]
    exact fun _ h => h
  cases write with
  | failed =>
    have hsaved : Spends (s.setTask number { task with phase := .saved stored new true }) :=
      h.setTask htask rfl hpending
    exact hsaved
  | written =>
    intro process token hdead
    obtain ⟨hdead, hnone⟩ := dead_tellStored hdead
    apply covers_tellStored
    have hgone := not_stores_written hphase hknows fun login hlogin => hnone login (by simp [hlogin])
    rcases h process token hdead with hspent | hsaving | hout
    · exact .inl hspent
    · obtain ⟨other, state, hstate, hof, htoken⟩ := hsaving
      by_cases hself : other = number
      · subst hself
        rw [htask] at hstate
        cases hstate
        refine .inr (.inr ?_)
        rintro ⟨login, hlogin, hsame⟩
        exact hgone (.inr hof) login hlogin hsame
      · refine .inr (.inl ⟨other, state, ?_, hof, htoken⟩)
        simpa [Sources.setTask, release, hself] using hstate
    · refine .inr (.inr ?_)
      rintro ⟨login, hlogin, hsame⟩
      exact hgone (.inl fun hold => hout ⟨stored, hstored, hold⟩) login hlogin hsame
  | unsynced =>
    intro process token hdead
    obtain ⟨hdead, hnone⟩ := dead_tellStored hdead
    apply covers_tellStored
    have hgone := not_stores_written hphase hknows fun login hlogin => hnone login (by simp [hlogin])
    rcases h process token hdead with hspent | hsaving | hout
    · exact .inl hspent
    · have hsaved : (s.setTask number { task with phase := .saved stored new true }).Pending
          process token := pending_setTask htask rfl hpending hsaving
      exact .inr (.inl hsaved)
    · refine .inr (.inr ?_)
      rintro ⟨login, hlogin, hsame⟩
      exact hgone (.inl fun hold => hout ⟨stored, hstored, hold⟩) login hlogin hsame

theorem records {stored : StoredLogin} {new : Option StoredLogin} {failed : Bool} (h : Spends s)
    (htask : s.tasks number = some task) (hphase : task.phase = .saved stored new failed) :
    Spends (s.record number task stored new failed) := by
  unfold record
  dsimp only
  cases failed with
  | false =>
    refine h.setTask htask rfl ?_
    rw [hphase]
    simp [pending]
  | true =>
    intro process token hdead
    rcases h process token hdead with hspent | ⟨other, state, hstate, hof, htoken⟩ | hout
    · left
      by_cases hself : process = task.process
      · simpa [spend, Sources.setTask, hself] using Or.inr (hself ▸ hspent)
      · simpa [spend, Sources.setTask, hself] using hspent
    · by_cases hself : other = number
      · subst hself
        rw [htask] at hstate
        cases hstate
        rw [hphase] at htoken
        cases htoken
        left
        simp [spend, Sources.setTask, ← hof]
      · refine .inr (.inl ⟨other, state, ?_, hof, htoken⟩)
        simpa [spend, Sources.setTask, hself] using hstate
    · exact .inr (.inr hout)

theorem tasks (h : Spends s) (hinv : Inv s) (htask : s.tasks number = some task)
    (hmoves : TaskMoves s number task event u) : Spends u := by
  cases hmoves with
  | goes phase hholds hpending hknows =>
    exact h.setTask htask rfl fun token htoken => hpending.trans htoken
  | takes hphase hfree =>
    have hlocked : Spends (s.setTask number { task with phase := .locked }) :=
      h.setTask htask rfl (by simp [hphase, pending])
    exact hlocked
  | leaves out hholds hpending =>
    have hdone : Spends (s.setTask number { task with phase := .done out }) :=
      h.setTask htask rfl (by simp [hpending])
    exact hdone
  | sends stored hphase hends hunspent =>
    exact tell (h.setTask htask rfl (by simp [hphase, pending])) (by simp)
  | waits stored cause out hphase =>
    have htold : Spends (s.tell (.ended task.process stored.refreshToken (.transient cause))) := by
      refine h.tell fun process token answer hanswer => ?_
      cases hanswer
      rfl
    have hdone : Spends ((s.tell (.ended task.process stored.refreshToken
        (.transient cause))).setTask number { task with phase := .done out }) :=
      htold.setTask htask rfl (by simp [hphase, pending])
    exact hdone
  | saves stored answer new origin hphase hnamed =>
    intro process token hdead
    rcases since_snoc.mp hdead with ⟨_, hended, _⟩ | ⟨hdead, _⟩
    · cases hended
      exact .inr (.inl ⟨number, { task with phase := .saving stored new origin },
        by simp [Sources.setTask], rfl, rfl⟩)
    · exact covers_setTask (s := s.tell _) htask rfl (by simp [hphase, pending]) (h process token hdead)
  | unsaved stored new origin failed hphase hgone =>
    have hknows := hinv.knows number task htask
    simp only [Knows, hphase] at hknows
    have hstored := Entries.login_eq_some.mp hknows.1
    cases failed with
    | false =>
      rw [hgone rfl] at hstored
      cases hstored
    | true =>
      have hsaved : Spends (s.setTask number { task with phase := .saved stored new true }) :=
        h.setTask htask rfl (by rw [hphase]; exact fun _ h => h)
      exact hsaved
  | writes stored new origin entries write hphase => exact h.written hinv htask hphase write
  | records stored new failed hphase => exact h.records htask hphase

theorem of_file (h : Spends s) (hlog : ∀ process token, Dead process token u.log →
      Dead process token s.log) (hspent : u.spent = s.spent) (htasks : u.tasks = s.tasks)
    (hfile : ∀ process token, Dead process token u.log → u.Stores token → s.Stores token) :
    Spends u := by
  intro process token hdead
  rcases h process token (hlog process token hdead) with hin | hsaving | hout
  · rw [← hspent] at hin
    exact .inl hin
  · rw [Pending, ← htasks] at hsaving
    exact .inr (.inl hsaving)
  · exact .inr (.inr fun hstores => hout (hfile process token hdead hstores))

theorem writers (h : Spends s) (hinv : Inv s) (hmoves : WriterMoves s number u) : Spends u := by
  cases hmoves with
  | begins provider entry hnew => exact h
  | takes writer hwriter hphase hfree => exact h
  | fails writer hwriter hphase => exact h
  | reads writer hwriter hphase => exact h
  | leaves writer hwriter hphase => exact h
  | writes writer entries write hwriter hphase =>
    have hentries := hinv.writing number writer entries hwriter hphase
    unfold writerWrite
    dsimp only
    split
    next hkept =>
      refine h.of_file (fun _ _ hdead => hdead) rfl rfl fun process token _ hstores => ?_
      obtain ⟨login, hlogin, htoken⟩ := hstores
      have hlogin : (setWrite s.file entries write).1.login s.provider = some login := hlogin
      refine ⟨login, ?_, htoken⟩
      rw [Entries.login_eq_some] at hlogin ⊢
      rcases hkept with hfailed | hother
      · rw [hfailed] at hlogin
        exact hlogin
      · have hsame := s.file.set_of_ne (Ne.symm hother) writer.entry
        rw [← hentries] at hsame
        cases write with
        | failed => exact hlogin
        | written => exact hsame.symm.trans hlogin
        | unsynced => exact hsame.symm.trans hlogin
    next hchanged =>
      simp only [not_or, ne_eq, not_not] at hchanged
      have hfile : (setWrite s.file entries write).1 = entries := by
        cases write with
        | failed => exact absurd rfl hchanged.1
        | written => rfl
        | unsynced => rfl
      rw [hchanged.2] at hentries
      refine h.of_file (fun _ _ hdead => (dead_tellStored hdead).1) ?_ ?_ ?_
      · unfold tellStored
        split <;> rfl
      · unfold tellStored
        split <;> rfl
      · intro process token hdead hstores
        have hnone := (dead_tellStored hdead).2
        have hstores : ∃ login, entries.login s.provider = some login ∧
            login.refreshToken = token := by
          rw [← hfile]
          unfold tellStored at hstores
          split at hstores
          · exact hstores
          · exact hstores
          · exact hstores
        obtain ⟨login, hlogin, htoken⟩ := hstores
        exact absurd trivial (hnone login (login_of_set hentries hlogin) htoken)

theorem calls (h : Spends s) (hmoves : CallMoves s event u) : Spends u := by
  cases hmoves with
  | pushes process pushed =>
    have hsame : Spends { s with pushed := Function.update s.pushed process (some pushed) } := h
    exact hsame.tell (by simp)
  | clears process =>
    have hsame : Spends { s with pushed := Function.update s.pushed process none } := h
    exact hsame.tell (by simp)
  | refuses call task process now pushed out hcall hpushed hout =>
    have hcalls : Spends ((s.tell (.began process call)).setCall call ⟨process, none⟩) :=
      h.tell (by simp)
    exact hcalls.tell (by simp)
  | begins call task process now hcall htask hpushed =>
    have hcalls : Spends ((s.tell (.began process call)).setCall call ⟨process, some task⟩) :=
      h.tell (by simp)
    intro of token hdead
    rcases hcalls of token hdead with hin | ⟨other, state, hstate, hof, htoken⟩ | hout
    · exact .inl hin
    · refine .inr (.inl ⟨other, state, ?_, hof, htoken⟩)
      have hne : other ≠ task := by
        rintro rfl
        rw [show s.tasks other = some state from hstate] at htask
        cases htask
      simpa [Sources.setTask, hne] using hstate
    · exact .inr (.inr hout)
  | ends call process task out hcall =>
    have hcalls : Spends (s.setCall call ⟨process, none⟩) := h
    exact hcalls.tell (by simp)
  | drops call process task hcall => exact h

theorem step (h : Spends s) (hinv : Inv s) (hstep : s.step event = some u) : Spends u := by
  rcases step_cases hinv.knows hstep with hcall | ⟨number, task, htask, hmoves⟩ | ⟨number, hmoves⟩
  · exact h.calls hcall
  · exact h.tasks hinv htask hmoves
  · exact h.writers hinv hmoves

end Spends

def ofRefresh : Entry → Bool
  | .sent _ _ | .ended _ _ _ | .stored _ _ => true
  | .pushed _ | .cleared _ | .began _ _ | .gave _ _ => false

/-- The task in `number` sends `token` at its check. -/
def SendsNow (s : Sources) (number now : Nat) (task : Task) (token : String) : Prop :=
  s.tasks number = some task ∧ ∃ stored, task.phase = .read stored ∧
    stored.refreshToken = token ∧ stored.valid now MARGIN = false ∧ token ∉ s.spent task.process

structure Refreshes (s : Sources) (event : SourceEvent) (u : Sources) : Prop where
  calls : u.calls = s.calls
  pushed : u.pushed = s.pushed
  log : u.log = s.log ∨ ∃ entry, u.log = s.log ++ [entry] ∧ ofRefresh entry = true ∧
    ∀ process token, entry = .sent process token → ∃ number now task,
      event = .check number now ∧ task.process = process ∧ s.SendsNow number now task token

theorem refreshes_tellStored {stored : Option Stored} {origin : Origin} (hcalls : u.calls = s.calls)
    (hpushed : u.pushed = s.pushed) (hlog : u.log = s.log) :
    Refreshes s event (u.tellStored stored origin) := by
  rcases tellStored_eq with heq | ⟨login, _, heq⟩
  · rw [heq]
    exact ⟨hcalls, hpushed, .inl hlog⟩
  · rw [heq]
    refine ⟨hcalls, hpushed, .inr ⟨_, congrArg (· ++ _) hlog, rfl, by simp⟩⟩

theorem refreshes_of_task (htask : s.tasks number = some task)
    (hmoves : TaskMoves s number task event u) : Refreshes s event u := by
  cases hmoves with
  | goes phase hholds hpending hknows => exact ⟨rfl, rfl, .inl rfl⟩
  | takes hphase hfree => exact ⟨rfl, rfl, .inl rfl⟩
  | leaves out hholds hpending => exact ⟨rfl, rfl, .inl rfl⟩
  | sends stored hphase hends hunspent =>
    refine ⟨rfl, rfl, .inr ⟨_, rfl, rfl, fun process token hsent => ?_⟩⟩
    cases hsent
    exact ⟨number, _, task, rfl, rfl, htask, stored, hphase, rfl, hends, hunspent⟩
  | waits stored cause out hphase => exact ⟨rfl, rfl, .inr ⟨_, rfl, rfl, by simp⟩⟩
  | saves stored answer new origin hphase hnamed =>
    exact ⟨rfl, rfl, .inr ⟨_, rfl, rfl, by simp⟩⟩
  | unsaved stored new origin failed hphase hgone => exact ⟨rfl, rfl, .inl rfl⟩
  | writes stored new origin entries write hphase =>
    unfold saveWrite
    dsimp only
    split
    · exact ⟨rfl, rfl, .inl rfl⟩
    · exact refreshes_tellStored rfl rfl rfl
  | records stored new failed hphase =>
    unfold record
    dsimp only
    split
    · exact ⟨rfl, rfl, .inl rfl⟩
    · exact ⟨rfl, rfl, .inl rfl⟩

theorem refreshes_of_writer (hmoves : WriterMoves s number u) : Refreshes s event u := by
  cases hmoves with
  | begins provider entry hnew => exact ⟨rfl, rfl, .inl rfl⟩
  | takes writer hwriter hphase hfree => exact ⟨rfl, rfl, .inl rfl⟩
  | fails writer hwriter hphase => exact ⟨rfl, rfl, .inl rfl⟩
  | reads writer hwriter hphase => exact ⟨rfl, rfl, .inl rfl⟩
  | leaves writer hwriter hphase => exact ⟨rfl, rfl, .inl rfl⟩
  | writes writer entries write hwriter hphase =>
    unfold writerWrite
    dsimp only
    split
    · exact ⟨rfl, rfl, .inl rfl⟩
    · exact refreshes_tellStored rfl rfl rfl

/-- No call of a process sends a token while another call of it stands between its failed save and
the record of it. -/
def Recorded (s : Sources) : SourceEvent → Prop
  | .check number now => ∀ task token, s.SendsNow number now task token →
      ∀ other state stored new, s.tasks other = some state → state.process = task.process →
        state.phase = .saved stored new true → stored.refreshToken ≠ token
  | _ => True

theorem not_dead_of_sends (hinv : Inv s) (hspends : Spends s) {number now : Nat} {task : Task}
    {token : String} (hrecorded : Recorded s (.check number now))
    (hsends : s.SendsNow number now task token) : ¬ Dead task.process token s.log := by
  intro hdead
  obtain ⟨htask, stored, hphase, htoken, hends, hunspent⟩ := id hsends
  have hknows := hinv.knows number task htask
  simp only [Knows, hphase] at hknows
  rcases hspends task.process token hdead with hspent | ⟨other, state, hstate, hof, hpending⟩ | hout
  · exact hunspent hspent
  · have hfree : state.phase.holds = false := by
      by_contra hholds
      have hother : s.Holds (.task other) := ⟨state, hstate, by simpa using hholds⟩
      have hown : s.Holds (.task number) := ⟨task, htask, by rw [hphase]; rfl⟩
      cases hinv.lock.unique hother hown
      rw [htask] at hstate
      cases hstate
      rw [hphase] at hpending
      cases hpending
    unfold pending at hpending
    split at hpending
    next hsaving =>
      rw [hsaving] at hfree
      cases hfree
    next hwriting =>
      rw [hwriting] at hfree
      cases hfree
    next hsaved =>
      exact hrecorded task token hsends other state _ _ hstate hof hsaved (Option.some.inj hpending)
    · cases hpending
  · exact hout ⟨stored, hknows, htoken⟩

theorem neverResent_step (h : NeverResent s.log) (hinv : Inv s) (hspends : Spends s)
    (hrecorded : Recorded s event) (hstep : s.step event = some u) : NeverResent u.log := by
  have hrefreshes (hrefreshes : Refreshes s event u) : NeverResent u.log := by
    rcases hrefreshes.log with hlog | ⟨entry, hlog, _, hsent⟩
    · rw [hlog]
      exact h
    · rw [hlog]
      refine neverResent_snoc h fun process token hentry => ?_
      obtain ⟨number, now, task, hevent, hprocess, hsends⟩ := hsent process token hentry
      subst hevent
      rw [← hprocess]
      exact not_dead_of_sends hinv hspends hrecorded hsends
  rcases step_cases hinv.knows hstep with hcall | ⟨number, task, htask, hmoves⟩ | ⟨number, hmoves⟩
  · cases hcall with
    | pushes process pushed => exact neverResent_snoc h (by simp)
    | clears process => exact neverResent_snoc h (by simp)
    | refuses call task process now pushed out hcall hpushed hout =>
      exact neverResent_snoc (neverResent_snoc h (by simp)) (by simp)
    | begins call task process now hcall htask hpushed => exact neverResent_snoc h (by simp)
    | ends call process task out hcall => exact neverResent_snoc h (by simp)
    | drops call process task hcall => exact h
  · exact hrefreshes (refreshes_of_task htask hmoves)
  · exact hrefreshes (refreshes_of_writer hmoves)

structure Pushes (s : Sources) : Prop where
  pushed : ∀ process, (s.pushed process).isSome = true ↔ PushedNow process s.log
  gave : ∀ call out, .gave call out ∈ s.log → s.calls call ≠ none
  ended : ∀ before process call after, s.log = before ++ .began process call :: after →
    PushedNow process before → ∃ of, s.calls call = some ⟨of, none⟩
  wins : PushWins s.log

namespace Pushes

theorem same (h : Pushes s) (hpushed : u.pushed = s.pushed) (hlog : u.log = s.log)
    (hknown : ∀ call, s.calls call ≠ none → u.calls call ≠ none)
    (hended : ∀ call of, s.calls call = some ⟨of, none⟩ → u.calls call = some ⟨of, none⟩) :
    Pushes u := by
  refine ⟨?_, ?_, ?_, ?_⟩
  · rw [hpushed, hlog]
    exact h.pushed
  · rw [hlog]
    exact fun call out hgave => hknown call (h.gave call out hgave)
  · rw [hlog]
    intro before process call after hsplit hnow
    obtain ⟨of, hcall⟩ := h.ended before process call after hsplit hnow
    exact ⟨of, hended call of hcall⟩
  · rw [hlog]
    exact h.wins

theorem grow {entry : Entry} (h : Pushes s) (hlog : u.log = s.log ++ [entry])
    (hpushed : ∀ process, (u.pushed process).isSome = true ↔ PushedNow process u.log)
    (hknown : ∀ call, s.calls call ≠ none → u.calls call ≠ none)
    (hended : ∀ call of, s.calls call = some ⟨of, none⟩ → u.calls call = some ⟨of, none⟩)
    (hgave : ∀ call out, entry = .gave call out → u.calls call ≠ none ∧
      ((∃ of, s.calls call = some ⟨of, none⟩) → ∀ token account, out ≠ .stored token account))
    (hbegan : ∀ process call, entry = .began process call → s.calls call = none ∧
      ((s.pushed process).isSome = true → ∃ of, u.calls call = some ⟨of, none⟩)) :
    Pushes u := by
  refine ⟨hpushed, ?_, ?_, ?_⟩
  · intro call out hin
    rw [hlog] at hin
    rcases List.mem_append.mp hin with hold | hnew
    · exact hknown call (h.gave call out hold)
    · exact (hgave call out (List.mem_singleton.mp hnew).symm).1
  · intro before process call after hsplit hnow
    rw [hlog] at hsplit
    rcases split_snoc.mp hsplit with ⟨rest, _, hsplit⟩ | ⟨_, hentry, hbefore⟩
    · obtain ⟨of, hcall⟩ := h.ended before process call rest hsplit hnow
      exact ⟨of, hended call of hcall⟩
    · rw [← hbefore] at hnow
      exact (hbegan process call hentry).2 ((h.pushed process).mpr hnow)
  · intro before process call after hsplit hnow token account hin
    rw [hlog] at hsplit hin
    rcases split_snoc.mp hsplit with ⟨rest, _, hsplit⟩ | ⟨_, hentry, hbefore⟩
    · rcases List.mem_append.mp hin with hold | hnew
      · exact h.wins before process call rest hsplit hnow token account hold
      · have hcall := h.ended before process call rest hsplit hnow
        exact (hgave call _ (List.mem_singleton.mp hnew).symm).2 hcall token account rfl
    · rw [hentry] at hin
      rcases List.mem_append.mp hin with hold | hnew
      · exact h.gave call _ hold (hbegan process call hentry).1
      · cases List.mem_singleton.mp hnew

theorem refreshes (h : Pushes s) (hrefreshes : Refreshes s event u) : Pushes u := by
  obtain ⟨hcalls, hpushed, hlog⟩ := hrefreshes
  have hknown : ∀ call, s.calls call ≠ none → u.calls call ≠ none := by simp [hcalls]
  have hended : ∀ call of, s.calls call = some ⟨of, none⟩ → u.calls call = some ⟨of, none⟩ := by
    simp [hcalls]
  rcases hlog with hlog | ⟨entry, hlog, hentry, _⟩
  · exact h.same hpushed hlog hknown hended
  · refine h.grow hlog (fun process => ?_) hknown hended ?_ ?_
    · rw [hpushed, hlog, h.pushed process, PushedNow, since_snoc]
      cases entry <;> simp_all [ofRefresh]
    · rintro call out rfl
      cases hentry
    · rintro process call rfl
      cases hentry

theorem pushedNow_tell {entry : Entry} {process : Nat} (hpush : entry ≠ .pushed process)
    (hclear : entry ≠ .cleared process) :
    PushedNow process (s.log ++ [entry]) ↔ PushedNow process s.log := by
  rw [PushedNow, since_snoc]
  simp [hpush, hclear]

theorem setCall_keeps {call : Nat} {state : Call} (hopen : ∀ of, s.calls call ≠ some ⟨of, none⟩) :
    (∀ other, s.calls other ≠ none → (s.setCall call state).calls other ≠ none) ∧
      ∀ other of, s.calls other = some ⟨of, none⟩ →
        (s.setCall call state).calls other = some ⟨of, none⟩ := by
  constructor
  · intro other hother
    by_cases hself : other = call <;> simp [setCall, hself, hother]
  · intro other of hother
    have hne : other ≠ call := by
      rintro rfl
      exact hopen of hother
    simpa [setCall, hne] using hother

theorem calls (h : Pushes s) (hmoves : CallMoves s event u) : Pushes u := by
  have hsame {entry : Entry} (hpush : ∀ process, entry ≠ .pushed process)
      (hclear : ∀ process, entry ≠ .cleared process) (process : Nat) :
      (s.pushed process).isSome = true ↔ PushedNow process (s.log ++ [entry]) :=
    (h.pushed process).trans (pushedNow_tell (hpush process) (hclear process)).symm
  cases hmoves with
  | pushes process pushed =>
    refine h.grow rfl (fun other => ?_) (fun _ h => h) (fun _ _ h => h) (by simp) (by simp)
    by_cases hself : other = process
    · subst hself
      simp [tell, PushedNow, since_snoc]
    · simp [tell, PushedNow, since_snoc, hself, h.pushed other, Ne.symm hself]
  | clears process =>
    refine h.grow rfl (fun other => ?_) (fun _ h => h) (fun _ _ h => h) (by simp) (by simp)
    by_cases hself : other = process
    · subst hself
      simp [tell, PushedNow, since_snoc]
    · simp [tell, PushedNow, since_snoc, hself, h.pushed other, Ne.symm hself]
  | refuses call task process now pushed out hcall hpushed hout =>
    have hset := @setCall_keeps s call ⟨process, none⟩ (by simp [hcall])
    have hbegan : Pushes ((s.tell (.began process call)).setCall call ⟨process, none⟩) := by
      refine h.grow rfl (hsame (by simp) (by simp)) hset.1 hset.2 (by simp) ?_
      rintro other number hbegan
      cases hbegan
      exact ⟨hcall, fun _ => ⟨process, by simp [setCall]⟩⟩
    refine hbegan.grow rfl ?_ (fun _ h => h) (fun _ _ h => h) ?_ (by simp)
    · intro other
      exact (hbegan.pushed other).trans (pushedNow_tell (by simp) (by simp)).symm
    · rintro other given hgave
      cases hgave
      exact ⟨by simp [setCall, tell], fun _ => hout⟩
  | begins call task process now hcall htask hpushed =>
    have hset := @setCall_keeps s call ⟨process, some task⟩ (by simp [hcall])
    have hbegan : Pushes ((s.tell (.began process call)).setCall call ⟨process, some task⟩) := by
      refine h.grow rfl (hsame (by simp) (by simp)) hset.1 hset.2 (by simp) ?_
      rintro other number hbegan
      cases hbegan
      refine ⟨hcall, fun hsome => ?_⟩
      rw [hpushed] at hsome
      cases hsome
    exact hbegan.same rfl rfl (fun _ h => h) (fun _ _ h => h)
  | ends call process task out hcall =>
    have hset := @setCall_keeps s call ⟨process, none⟩ (by simp [hcall])
    refine h.grow rfl (hsame (by simp) (by simp)) hset.1 hset.2 ?_ (by simp)
    rintro other given hgave
    cases hgave
    refine ⟨by simp [setCall, tell], ?_⟩
    rintro ⟨of, hended⟩
    rw [hcall] at hended
    cases hended
  | drops call process task hcall =>
    have hset := @setCall_keeps s call ⟨process, none⟩ (by simp [hcall])
    exact h.same rfl rfl hset.1 hset.2

theorem step (h : Pushes s) (hinv : Inv s) (hstep : s.step event = some u) : Pushes u := by
  rcases step_cases hinv.knows hstep with hcall | ⟨number, task, htask, hmoves⟩ | ⟨number, hmoves⟩
  · exact h.calls hcall
  · exact h.refreshes (refreshes_of_task htask hmoves)
  · exact h.refreshes (@refreshes_of_writer _ _ _ event hmoves)

theorem init (provider : String) (file : Entries) :
    Pushes { provider := provider, file := file } where
  pushed := fun process => by simp [PushedNow, not_since_nil]
  gave := by simp
  ended := by simp
  wins := by simp [PushWins]

end Pushes

def OneAtProvider (s : Sources) : Prop :=
  ∀ number other state task stored new, s.tasks number = some state → s.tasks other = some task →
    state.phase = .sending stored → task.phase = .sending new → number = other

/-- The holder of the lock is before its write of the entry of `provider`. -/
def MayWrite (s : Sources) (provider : String) : Prop :=
  (∃ number task stored new origin entries, s.lock = some (.task number) ∧
    s.tasks number = some task ∧ task.phase = .writing stored new origin entries ∧
      s.provider = provider) ∨
  ∃ number writer entries, s.lock = some (.writer number) ∧ s.writers number = some writer ∧
    writer.phase = .writing entries ∧ writer.provider = provider

def WritesOwn (s : Sources) : Prop :=
  ∀ event u provider, s.step event = some u → u.file provider ≠ s.file provider →
    s.MayWrite provider

theorem oneAtProvider_of_inv (h : Inv s) : OneAtProvider s := by
  intro number other state task stored new hstate htask hsending hother
  have hheld : s.Holds (.task number) := ⟨state, hstate, by rw [hsending]; rfl⟩
  have hotherHeld : s.Holds (.task other) := ⟨task, htask, by rw [hother]; rfl⟩
  cases h.lock.unique hheld hotherHeld
  rfl

theorem file_tellStored {stored : Option Stored} {origin : Origin} :
    (s.tellStored stored origin).file = s.file := by
  unfold tellStored
  split <;> rfl

theorem setWrite_of_ne {entries : Entries} {provider other : String} {entry : Option Stored}
    {write : Write} (hentries : entries = s.file.set provider entry)
    (h : (setWrite s.file entries write).1 other ≠ s.file other) : provider = other := by
  by_contra hne
  have hsame := s.file.set_of_ne (Ne.symm hne) entry
  rw [← hentries] at hsame
  cases write with
  | written => exact h hsame
  | failed => exact h rfl
  | unsynced => exact h hsame

theorem writesOwn_of_inv (h : Inv s) : WritesOwn s := by
  intro event u provider hstep hchanged
  rcases step_cases h.knows hstep with hcall | ⟨number, task, htask, hmoves⟩ | ⟨number, hmoves⟩
  · cases hcall <;> exact absurd rfl hchanged
  · cases hmoves with
    | writes stored new origin entries write hphase =>
      have hknows := h.knows number task htask
      simp only [Knows, hphase] at hknows
      have hfile : (setWrite s.file entries write).1 provider ≠ s.file provider := by
        unfold saveWrite at hchanged
        dsimp only at hchanged
        split at hchanged
        · exact hchanged
        · rw [file_tellStored] at hchanged
          exact hchanged
      have hlock := (h.lock (.task number)).mp ⟨task, htask, by rw [hphase]; rfl⟩
      exact .inl ⟨number, task, stored, new, origin, entries, hlock, htask, hphase,
        setWrite_of_ne hknows.2.2 hfile⟩
    | records stored new failed hphase =>
      unfold record at hchanged
      dsimp only at hchanged
      split at hchanged <;> exact absurd rfl hchanged
    | goes | takes | leaves | sends | waits | saves | unsaved => exact absurd rfl hchanged
  · cases hmoves with
    | writes writer entries write hwriter hphase =>
      have hfile : (setWrite s.file entries write).1 provider ≠ s.file provider := by
        unfold writerWrite at hchanged
        dsimp only at hchanged
        split at hchanged
        · exact hchanged
        · rw [file_tellStored] at hchanged
          exact hchanged
      have hlock := (h.lock (.writer number)).mp ⟨writer, hwriter, by rw [hphase]; rfl⟩
      exact .inr ⟨number, writer, entries, hlock, hwriter, hphase,
        setWrite_of_ne (h.writing number writer entries hwriter hphase) hfile⟩
    | begins | takes | fails | reads | leaves => exact absurd rfl hchanged

variable {provider : String} {file : Entries} {events : List SourceEvent}

theorem inv_of_run (h : Steps (outcome step) { provider := provider, file := file } events s) :
    Inv s ∧ Spends s ∧ Pushes s := by
  refine Steps.keeps (P := fun s => Inv s ∧ Spends s ∧ Pushes s) h
    ⟨.init provider file, ?_, .init provider file⟩ ?_
  · intro process token hdead
    exact absurd hdead not_since_nil
  · rintro t event u ⟨hinv, hspends, hpushes⟩ hstep
    exact ⟨hinv.step hstep, hspends.step hinv hstep, hpushes.step hinv hstep⟩

theorem neverResent_of_run
    (h : Steps (when Recorded (outcome step)) { provider := provider, file := file } events s) :
    NeverResent s.log := by
  have hall : (Inv s ∧ Spends s) ∧ NeverResent s.log := by
    refine Steps.keeps (P := fun s => (Inv s ∧ Spends s) ∧ NeverResent s.log) h
      ⟨⟨.init provider file, ?_⟩, ?_⟩ ?_
    · intro process token hdead
      exact absurd hdead not_since_nil
    · intro before process token answer middle after hlog
      simp at hlog
    · rintro t event u ⟨⟨hinv, hspends⟩, hnever⟩ ⟨hrecorded, hstep⟩
      exact ⟨⟨hinv.step hstep, hspends.step hinv hstep⟩,
        neverResent_step hnever hinv hspends hrecorded hstep⟩
  exact hall.2

def expiredLogin : StoredLogin := ⟨"access", "refresh", 0, none⟩

def refreshed : RefreshAnswer := .granted ⟨"access2", some "refresh2", 10000000, none⟩

def expiredFile : Entries := fun provider =>
  if provider = "openai" then some (.login expiredLogin) else none

def savedRun : List SourceEvent :=
  [.credential 0 0 0 1, .read 0 none 1, .lock 0, .read 0 none 1, .check 0 1, .answer 0 refreshed 1,
    .saveRead 0 false, .saveWrite 0 .written, .record 0, .finish 0]

/-- The save of a call fails, and another call sends the token before the first one records it. -/
def unsavedRun : List SourceEvent :=
  [.credential 0 0 0 1, .credential 1 1 0 1, .read 0 none 1, .read 1 none 1, .lock 0,
    .read 0 none 1, .check 0 1, .answer 0 refreshed 1, .saveRead 0 true, .lock 1, .read 1 none 1,
    .check 1 1]

/-- In each run the provider has one refresh at most, a write changes its own entry only, and a
push wins over the login. In a run where no call sends a token whose failed save is not recorded,
a token that its refresh can have spent is not sent again. -/
theorem spent_token_never_resent (provider : String) (file : Entries) (events : List SourceEvent)
    (s : Sources) :
    (Steps (outcome step) { provider := provider, file := file } events s →
      OneAtProvider s ∧ WritesOwn s ∧ PushWins s.log) ∧
    (Steps (when Recorded (outcome step)) { provider := provider, file := file } events s →
      NeverResent s.log) := by
  refine ⟨fun hrun => ?_, neverResent_of_run⟩
  obtain ⟨hinv, _, hpushes⟩ := inv_of_run hrun
  exact ⟨oneAtProvider_of_inv hinv, writesOwn_of_inv hinv, hpushes.wins⟩

/-- A call refreshes the login and saves it, and no token goes out twice. -/
theorem spent_token_never_resent_saved :
    ∃ s, Steps (when Recorded (outcome step)) { provider := "openai", file := expiredFile } savedRun
      s ∧ NeverResent s.log := by
  have hrun : ∃ s, Steps (when Recorded (outcome step))
      { provider := "openai", file := expiredFile } savedRun s := by
    refine ⟨_, .cons ⟨trivial, rfl⟩ (.cons ⟨trivial, rfl⟩ (.cons ⟨trivial, rfl⟩
      (.cons ⟨trivial, rfl⟩ (.cons ⟨?_, rfl⟩ (.cons ⟨trivial, rfl⟩ (.cons ⟨trivial, rfl⟩
        (.cons ⟨trivial, rfl⟩ (.cons ⟨trivial, rfl⟩ (.cons ⟨trivial, rfl⟩ .start)))))))))⟩
    intro task token _ other state stored new hstate _ hsaved
    cases other with
    | zero =>
      cases hstate
      cases hsaved
    | succ other => cases hstate
  obtain ⟨s, hrun⟩ := hrun
  exact ⟨s, hrun, (spent_token_never_resent "openai" expiredFile savedRun s).2 hrun⟩

/-- A failed save lets the next call of the process send the spent token again. -/
theorem spent_token_resent :
    ¬ ∀ (provider : String) (file : Entries) (events : List SourceEvent) (s : Sources),
      Steps (outcome step) { provider := provider, file := file } events s → NeverResent s.log := by
  intro h
  have hrun : ∃ s, unsavedRun.foldlM step { provider := "openai", file := expiredFile } = some s ∧
      s.log = [.began 0 0, .began 0 1, .sent 0 "refresh", .ended 0 "refresh" refreshed,
        .sent 0 "refresh"] := ⟨_, rfl, rfl⟩
  obtain ⟨s, hrun, hlog⟩ := hrun
  obtain ⟨origin, horigin, _⟩ := h "openai" expiredFile unsavedRun s (.of_foldlM hrun)
    [.began 0 0, .began 0 1, .sent 0 "refresh"] 0 "refresh" refreshed [] [] hlog rfl
  cases horigin

end Sources

end Yuke.Auth
