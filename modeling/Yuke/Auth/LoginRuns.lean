import Yuke.Auth.LoginSteps
import Yuke.Shared.Log

/-!
# The ends of the logins

The marks of one login, and those of one logout, follow from where it stands. A logout that finds no
other login leaves none that can still save.
-/

set_option autoImplicit false

namespace Yuke.Auth

open Yuke.Shared (Steps outcome when split_snoc)

namespace Logins

variable {s u : Logins} {id call : Nat} {owner : Owner} {writer : Writer} {task : LoginTask}
  {event : LoginEvent} {torn : Prop}

/-! ## The marks of one login and of one logout -/

def ofLogin (id : Nat) : Mark → Bool
  | .answered other | .ended other _ | .stored (.login other) => other = id
  | _ => false

def ofLogout (call : Nat) : Mark → Bool
  | .removed other | .returned other _ => other = call
  | _ => false

def stageOf (s : Logins) (id : Nat) : Option Stage := (s.tasks id).map LoginTask.stage

/-- The marks of the login `id` at its stage. A torn save has its effect and ends as failed. -/
inductive Course (torn : Prop) (id : Nat) : Option Stage → List Mark → Prop
  | fresh : Course torn id none []
  | polling : Course torn id (some .polling) [.answered id]
  | saving : Course torn id (some .saving) [.answered id]
  | saved : Course torn id (some (.saved (.ok ()))) [.answered id, .stored (.login id)]
  | unsaved (text : String) : Course torn id (some (.saved (.error text))) [.answered id]
  | torn (text : String) (h : torn) :
      Course torn id (some (.saved (.error text))) [.answered id, .stored (.login id)]
  | ended (outcome : LoginOutcome) (h : outcome ≠ .succeeded) :
      Course torn id (some .ended) [.answered id, .ended id outcome]
  | endedSaved : Course torn id (some .ended)
      [.answered id, .stored (.login id), .ended id .succeeded]
  | endedTorn (text : String) (h : torn) : Course torn id (some .ended)
      [.answered id, .stored (.login id), .ended id (.failed text)]

/-- The marks of the logout `call` where it stands. -/
inductive Removal (call : Nat) : Option Leaving → List Mark → Prop
  | fresh : Removal call none []
  | waiting (id : Nat) : Removal call (some (.waiting id)) []
  | removing : Removal call (some .removing) []
  | removed : Removal call (some (.removed (.ok ()))) [.removed call]
  | failed (text : String) : Removal call (some (.removed (.error text))) []
  | torn (text : String) : Removal call (some (.removed (.error text))) [.removed call]
  | returned : Removal call (some .returned) [.removed call, .returned call true]
  | returnedFailed : Removal call (some .returned) [.returned call false]
  | returnedTorn : Removal call (some .returned) [.removed call, .returned call false]

structure Courses (torn : Prop) (s : Logins) : Prop where
  login : ∀ id, Course torn id (s.stageOf id) (s.log.filter (ofLogin id))
  logout : ∀ call, Removal call (s.logouts call) (s.log.filter (ofLogout call))
  served : ∀ id, s.stageOf id = some .saving → ∃ writer, s.writers (.login id) = some writer

theorem stageOf_stop (other : Nat) : (s.stop id).stageOf other = s.stageOf other := by
  unfold stageOf
  rw [stop_tasks]
  split
  · rw [Option.map_map]
    rfl
  · rfl

theorem stageOf_setTask (other : Nat) {stage : Stage} :
    (s.setTask id { task with stage := stage }).stageOf other =
      if other = id then some stage else s.stageOf other := by
  by_cases hself : other = id <;> simp [stageOf, setTask, hself]

theorem stageOf_wrote (ended : Except String Unit) (other : Nat) :
    (s.wrote owner ended).stageOf other =
      if owner = .login other then (s.stageOf other).map fun _ => .saved ended
      else s.stageOf other := by
  unfold stageOf
  rw [wrote_tasks]
  split
  · cases s.tasks other <;> rfl
  · rfl

theorem stageOf_tellWritten (other : Nat) :
    (s.tellWritten owner).stageOf other = s.stageOf other := by
  cases owner <;> rfl

theorem logouts_tellWritten : (s.tellWritten owner).logouts = s.logouts := by
  cases owner <;> rfl

theorem wrote_setFile {file : Entries} {lock : Option Owner} (ended : Except String Unit) :
    { s with file := file, lock := lock }.wrote owner ended =
      { s.wrote owner ended with file := file, lock := lock } := by
  unfold wrote
  cases owner with
  | login id =>
    dsimp only [setWriter]
    split <;> rfl
  | _ => rfl

theorem tellWritten_setFile {file : Entries} {lock : Option Owner} :
    { s with file := file, lock := lock }.tellWritten owner =
      { s.tellWritten owner with file := file, lock := lock } := by
  cases owner <;> rfl

theorem wrote_log (ended : Except String Unit) : (s.wrote owner ended).log = s.log := by
  rw [wrote_eq]

namespace Courses

theorem same (h : Courses torn s) (hlog : u.log = s.log)
    (hlogin : ∀ id, u.stageOf id = s.stageOf id ∨
      Course torn id (u.stageOf id) (s.log.filter (ofLogin id)))
    (hlogout : ∀ call, u.logouts call = s.logouts call ∨
      Removal call (u.logouts call) (s.log.filter (ofLogout call)))
    (hserved : ∀ id, u.stageOf id = some .saving → ∃ writer, u.writers (.login id) = some writer) :
    Courses torn u where
  login := by
    intro id
    rw [hlog]
    rcases hlogin id with hsame | hmoves
    · rw [hsame]
      exact h.login id
    · exact hmoves
  logout := by
    intro call
    rw [hlog]
    rcases hlogout call with hsame | hmoves
    · rw [hsame]
      exact h.logout call
    · exact hmoves
  served := hserved

theorem grow {mark : Mark} (h : Courses torn s) (hlog : u.log = s.log ++ [mark])
    (hlogin : ∀ id, u.stageOf id = s.stageOf id ∧ ofLogin id mark = false ∨
      ofLogin id mark = true ∧
        Course torn id (u.stageOf id) (s.log.filter (ofLogin id) ++ [mark]))
    (hlogout : ∀ call, u.logouts call = s.logouts call ∧ ofLogout call mark = false ∨
      ofLogout call mark = true ∧
        Removal call (u.logouts call) (s.log.filter (ofLogout call) ++ [mark]))
    (hserved : ∀ id, u.stageOf id = some .saving → ∃ writer, u.writers (.login id) = some writer) :
    Courses torn u where
  login := by
    intro id
    rw [hlog, List.filter_append]
    rcases hlogin id with ⟨hsame, hother⟩ | ⟨hself, hmoves⟩
    · simpa [hsame, hother] using h.login id
    · simpa [hself] using hmoves
  logout := by
    intro call
    rw [hlog, List.filter_append]
    rcases hlogout call with ⟨hsame, hother⟩ | ⟨hself, hmoves⟩
    · simpa [hsame, hother] using h.logout call
    · simpa [hself] using hmoves
  served := hserved

theorem setLogout {leaving : Leaving} (h : Courses torn s)
    (hmoves : Removal call (some leaving) (s.log.filter (ofLogout call))) :
    Courses torn (s.setLogout call leaving) := by
  refine h.same rfl (fun _ => .inl rfl) (fun other => ?_) h.served
  by_cases hself : other = call
  · subst hself
    exact .inr (by simpa [Logins.setLogout] using hmoves)
  · exact .inl (by simp [Logins.setLogout, hself])

theorem setWriter {writer : Option Writer} (h : Courses torn s)
    (hlogin : ∀ id, owner = .login id → writer ≠ none) :
    Courses torn (s.setWriter owner writer) := by
  refine h.same rfl (fun _ => .inl rfl) (fun _ => .inl rfl) fun id hstage => ?_
  obtain ⟨before, hbefore⟩ := h.served id hstage
  by_cases hself : Owner.login id = owner
  · obtain ⟨after, hafter⟩ := Option.ne_none_iff_exists'.mp (hlogin id hself.symm)
    exact ⟨after, by simp [Logins.setWriter, hself, hafter]⟩
  · exact ⟨before, by simpa [Logins.setWriter, hself] using hbefore⟩

theorem stop (h : Courses torn s) : Courses torn (s.stop id) := by
  refine h.same ?_ (fun other => .inl (stageOf_stop other)) ?_ ?_
  · rw [stop_eq]
  · rw [stop_eq]
    exact fun _ => .inl rfl
  · intro other hstage
    rw [stageOf_stop] at hstage
    rw [stop_eq]
    exact h.served other hstage

theorem leave (h : Courses torn s)
    (hmoves : Removal call (some .removing) (s.log.filter (ofLogout call))) :
    Courses torn ((s.setLogout call .removing).write (.logout call) none) :=
  (h.setLogout hmoves).setWriter (by simp)

theorem calls (h : Courses torn s) (hinv : Inv s) (hmoves : CallMoves s event u) :
    Courses torn u := by
  cases hmoves with
  | starts call hpending => exact h.same rfl (fun _ => .inl rfl) (fun _ => .inl rfl) h.served
  | replaces call id hpending =>
    have hcleared : Courses torn { s with
        starting := Function.update s.starting call true, pending := none } :=
      h.same rfl (fun _ => .inl rfl) (fun _ => .inl rfl) h.served
    exact hcleared.stop
  | answers call =>
    have hstage (id : Nat) : (s.answered call).stageOf id =
        if id = s.last + 1 then some .polling else s.stageOf id := by
      by_cases hself : id = s.last + 1 <;> simp [stageOf, answered, hself]
    refine h.grow rfl (fun id => ?_) (fun _ => .inl ⟨rfl, rfl⟩) ?_
    · rw [hstage]
      by_cases hself : id = s.last + 1
      · subst hself
        have hfresh : s.stageOf (s.last + 1) = none := by
          cases htask : s.tasks (s.last + 1) with
          | none => simp [stageOf, htask]
          | some task =>
            have hknown := hinv.known _ task htask
            omega
        have hcourse := h.login (s.last + 1)
        rw [hfresh] at hcourse
        refine .inr ⟨by simp [ofLogin], ?_⟩
        generalize s.log.filter (ofLogin (s.last + 1)) = marks at hcourse ⊢
        cases hcourse
        simpa using Course.polling
      · exact .inl ⟨by simp [hself], by simp [ofLogin, Ne.symm hself]⟩
    · intro id hsaving
      rw [hstage] at hsaving
      split at hsaving
      · cases hsaving
      · exact h.served id hsaving
  | fails call => exact h.same rfl (fun _ => .inl rfl) (fun _ => .inl rfl) h.served
  | counts => exact h.same rfl (fun _ => .inl rfl) (fun _ => .inl rfl) h.served
  | cancels id hpending => exact h.stop
  | misses id => exact h
  | leaves call hnew hpending =>
    have hremoval := h.logout call
    rw [hnew] at hremoval
    refine h.leave ?_
    generalize s.log.filter (ofLogout call) = marks at hremoval ⊢
    cases hremoval
    exact .removing
  | waits call id hnew hpending =>
    have hcleared : Courses torn { s with pending := none } :=
      h.same rfl (fun _ => .inl rfl) (fun _ => .inl rfl) h.served
    have hremoval := h.logout call
    rw [hnew] at hremoval
    refine hcleared.stop.setLogout ?_
    rw [stop_eq]
    dsimp only
    generalize s.log.filter (ofLogout call) = marks at hremoval ⊢
    cases hremoval
    exact .waiting id
  | joins call id stop hwaits hended =>
    have hremoval := h.logout call
    rw [hwaits] at hremoval
    refine h.leave ?_
    generalize s.log.filter (ofLogout call) = marks at hremoval ⊢
    cases hremoval
    exact .removing
  | returns call ended hremoved =>
    have hremoval := h.logout call
    rw [hremoved] at hremoval
    refine h.grow rfl (fun _ => .inl ⟨rfl, rfl⟩) (fun other => ?_) h.served
    by_cases hself : other = call
    · subst hself
      refine .inr ⟨by simp [ofLogout], ?_⟩
      generalize s.log.filter (ofLogout other) = marks at hremoval ⊢
      rw [show ((s.setLogout other .returned).tell (.returned other ended.isOk)).logouts other =
        some .returned by simp [Logins.setLogout, tell]]
      cases hremoval with
      | removed => exact .returned
      | failed text => exact .returnedFailed
      | torn text => exact .returnedTorn
    · exact .inl ⟨by simp [Logins.setLogout, tell, hself], by simp [ofLogout, Ne.symm hself]⟩

theorem finish {outcome : LoginOutcome} (h : Courses torn s)
    (hmoves : Course torn id (some .ended) (s.log.filter (ofLogin id) ++ [.ended id outcome])) :
    Courses torn (s.finish id task outcome) := by
  have hstage (other : Nat) : (s.finish id task outcome).stageOf other =
      if other = id then some .ended else s.stageOf other :=
    stageOf_setTask other
  refine h.grow rfl (fun other => ?_) (fun _ => .inl ⟨rfl, rfl⟩) fun other hsaving => ?_
  · rw [hstage]
    by_cases hself : other = id
    · subst hself
      exact .inr ⟨by simp [ofLogin], by simpa using hmoves⟩
    · exact .inl ⟨by simp [hself], by simp [ofLogin, Ne.symm hself]⟩
  · rw [hstage] at hsaving
    split at hsaving
    · cases hsaving
    · exact h.served other hsaving

theorem tasks (h : Courses torn s) (htask : s.tasks id = some task)
    (hmoves : TaskMoves s id task event u) : Courses torn u := by
  have hcourse := h.login id
  have hstageOf : s.stageOf id = some task.stage := by simp [stageOf, htask]
  cases hmoves with
  | grants grant token login hstage htoken =>
    rw [hstageOf, hstage] at hcourse
    have hmoved (other : Nat) : ((s.setTask id { task with stage := .saving }).write (.login id)
        (some (.login login))).stageOf other =
          if other = id then some .saving else s.stageOf other :=
      stageOf_setTask other
    refine h.same rfl (fun other => ?_) (fun _ => .inl rfl) fun other hsaving => ?_
    · rw [hmoved]
      by_cases hself : other = id
      · subst hself
        refine .inr ?_
        generalize s.log.filter (ofLogin other) = marks at hcourse ⊢
        cases hcourse
        simpa using Course.saving
      · exact .inl (by simp [hself])
    · by_cases hself : other = id
      · exact ⟨⟨s.provider, some (.login login), .locking⟩, by simp [hself, write, Logins.setWriter,
          setTask]⟩
      · rw [hmoved, if_neg hself] at hsaving
        obtain ⟨writer, hwriter⟩ := h.served other hsaving
        have hne : Owner.login other ≠ .login id := fun h => hself (Owner.login.inj h)
        exact ⟨writer, by simpa [write, Logins.setWriter, setTask, hne] using hwriter⟩
  | fails outcome hstage houtcome =>
    rw [hstageOf, hstage] at hcourse
    refine h.finish ?_
    generalize s.log.filter (ofLogin id) = marks at hcourse ⊢
    cases hcourse
    exact .ended outcome houtcome
  | ends ended hstage =>
    rw [hstageOf, hstage] at hcourse
    refine h.finish ?_
    generalize s.log.filter (ofLogin id) = marks at hcourse ⊢
    cases hcourse with
    | saved => exact .endedSaved
    | unsaved text => exact .ended _ (by simp [outcomeOf])
    | torn text htorn => exact .endedTorn text htorn

theorem begins (h : Courses torn s) (hnew : NewWrite s u) : Courses torn u := by
  cases hnew with
  | key call apiKey hnone => exact h.setWriter (by simp)
  | refresh number hnone => exact h.setWriter (by simp)
  | other number provider entry hnone hprovider => exact h.setWriter (by simp)

theorem setFile {file : Entries} {lock : Option Owner} (h : Courses torn s) :
    Courses torn { s with file := file, lock := lock } :=
  h.same rfl (fun _ => .inl rfl) (fun _ => .inl rfl) h.served

theorem served_wrote {ended : Except String Unit} (h : Courses torn s) {id : Nat}
    (hsaving : (s.wrote owner ended).stageOf id = some .saving) :
    ∃ writer, (s.wrote owner ended).writers (.login id) = some writer := by
  rw [stageOf_wrote] at hsaving
  split at hsaving
  · cases hstage : s.stageOf id with
    | none => simp [hstage] at hsaving
    | some stage => simp [hstage] at hsaving
  next hne =>
    obtain ⟨writer, hwriter⟩ := h.served id hsaving
    refine ⟨writer, ?_⟩
    rw [wrote_eq]
    simpa [Ne.symm hne] using hwriter

theorem wrote {ended : Except String Unit} (h : Courses torn s) (howns : s.Owns writer owner)
    (hended : (∃ text, ended = .error text) ∨ ∃ number, owner = .refresh number) :
    Courses torn (s.wrote owner ended) := by
  refine h.same (wrote_log ended) (fun id => ?_) (fun call => ?_) fun id => h.served_wrote
  · rw [stageOf_wrote]
    split
    next hself =>
      subst hself
      obtain ⟨⟨task, htask, hstage⟩, _⟩ := howns
      have hcourse := h.login id
      have hsaving : s.stageOf id = some .saving := by simp [stageOf, htask, hstage]
      rw [hsaving] at hcourse ⊢
      rcases hended with ⟨text, rfl⟩ | ⟨number, hrefresh⟩
      · right
        generalize s.log.filter (ofLogin id) = marks at hcourse ⊢
        cases hcourse
        exact .unsaved text
      · cases hrefresh
    · exact .inl rfl
  · rw [wrote_logouts]
    split
    next hself =>
      subst hself
      have hremoval := h.logout call
      rw [howns.1] at hremoval
      rcases hended with ⟨text, rfl⟩ | ⟨number, hrefresh⟩
      · right
        generalize s.log.filter (ofLogout call) = marks at hremoval ⊢
        cases hremoval
        exact .failed text
      · cases hrefresh
    · exact .inl rfl

theorem written {ended : Except String Unit} (h : Courses torn s) (howns : s.Owns writer owner)
    (hended : ended = .ok () ∨ ∃ text, ended = .error text ∧ (∀ id, owner = .login id → torn)) :
    Courses torn ((s.wrote owner ended).tellWritten owner) := by
  have hserved : ∀ id, ((s.wrote owner ended).tellWritten owner).stageOf id = some .saving →
      ∃ writer, ((s.wrote owner ended).tellWritten owner).writers (.login id) = some writer := by
    rw [tellWritten_eq]
    exact fun id => h.served_wrote
  cases owner with
  | login id =>
    obtain ⟨⟨task, htask, hstage⟩, _⟩ := howns
    have hsaving : s.stageOf id = some .saving := by simp [stageOf, htask, hstage]
    have hcourse := h.login id
    rw [hsaving] at hcourse
    refine h.grow (congrArg (· ++ [Mark.stored (.login id)]) (wrote_log ended)) (fun other => ?_)
      (fun call => .inl ⟨by simp [logouts_tellWritten], rfl⟩) hserved
    rw [stageOf_tellWritten, stageOf_wrote]
    by_cases hself : other = id
    · subst hself
      refine .inr ⟨by simp [ofLogin], ?_⟩
      rw [if_pos rfl, hsaving]
      generalize s.log.filter (ofLogin other) = marks at hcourse ⊢
      cases hcourse
      rcases hended with rfl | ⟨text, rfl, htorn⟩
      · exact .saved
      · exact .torn text (htorn other rfl)
    · have hne : Owner.login id ≠ .login other := fun h => hself (Owner.login.inj h).symm
      exact .inl ⟨if_neg hne, by simp [ofLogin, Ne.symm hself]⟩
  | logout call =>
    have hremoval := h.logout call
    rw [howns.1] at hremoval
    refine h.grow (congrArg (· ++ [Mark.removed call]) (wrote_log ended))
      (fun id => .inl ⟨?_, rfl⟩) (fun other => ?_) hserved
    · rw [stageOf_tellWritten, stageOf_wrote]
      exact if_neg (by simp)
    · by_cases hself : other = call
      · subst hself
        refine .inr ⟨by simp [ofLogout], ?_⟩
        rw [logouts_tellWritten, wrote_logouts, if_pos rfl]
        generalize s.log.filter (ofLogout other) = marks at hremoval ⊢
        cases hremoval
        rcases hended with rfl | ⟨text, rfl, _⟩
        · exact .removed
        · exact .torn text
      · refine .inl ⟨?_, by simp [ofLogout, Ne.symm hself]⟩
        rw [logouts_tellWritten, wrote_logouts]
        exact if_neg fun h => hself (Owner.logout.inj h).symm
  | key call =>
    have hkey : Courses torn (s.setWriter (.key call) none) := h.setWriter (by simp)
    exact hkey.grow rfl (fun _ => .inl ⟨rfl, rfl⟩) (fun _ => .inl ⟨rfl, rfl⟩) hkey.served
  | refresh number => exact h.setWriter (by simp)
  | other number => exact h.setWriter (by simp)

theorem writes (h : Courses torn s) (hinv : Inv s) (hwriter : s.writers owner = some writer)
    (htorn : ∀ id text, event = .write (.login id) .unsynced text → torn)
    (hmoves : WriteMoves s owner writer event u) : Courses torn u := by
  have howns := hinv.owns owner writer hwriter
  cases hmoves with
  | takes hphase hfree =>
    have hset : Courses torn (s.setWriter owner (some { writer with phase := .locked })) :=
      h.setWriter (by simp)
    exact hset.setFile
  | reads entry hphase hentry => exact h.setWriter (by simp)
  | misses text hphase => exact h.wrote howns (.inl ⟨text, rfl⟩)
  | fails ended hholds hended =>
    rw [release, wrote_setFile]
    exact (h.wrote howns hended).setFile
  | changes file ended hholds hwriting hfile hended =>
    change Courses torn (({ s with file := file, lock := none }.wrote owner ended).tellWritten owner)
    rw [wrote_setFile, tellWritten_setFile]
    refine (h.written howns ?_).setFile
    rcases hended with hok | ⟨text, htext, hevent⟩
    · exact .inl hok
    · refine .inr ⟨text, htext, ?_⟩
      rintro id rfl
      exact htorn id text hevent

theorem step (h : Courses torn s) (hinv : Inv s)
    (htorn : ∀ id text, event = .write (.login id) .unsynced text → torn)
    (hstep : s.step event = some u) : Courses torn u := by
  rcases step_cases hinv hstep with hcall | ⟨id, task, htask, hmoves⟩ | hnew |
    ⟨owner, writer, hwriter, hmoves⟩
  · exact h.calls hinv hcall
  · exact h.tasks htask hmoves
  · exact h.begins hnew
  · exact h.writes hinv hwriter htorn hmoves

theorem init (provider : String) (file : Entries) :
    Courses torn { provider := provider, file := file } where
  login := fun _ => .fresh
  logout := fun _ => .fresh
  served := by simp [stageOf]

end Courses

def isEnd (id : Nat) : Mark → Bool
  | .ended other _ => other = id
  | _ => false

structure EndsOnce (s : Logins) : Prop where
  once : ∀ id, s.log.countP (isEnd id) ≤ 1
  answered : ∀ before id out after, s.log = before ++ .ended id out :: after →
    .answered id ∈ before
  ends : ∀ id, .answered id ∈ s.log → ∃ events t out,
    Steps (outcome step) s events t ∧ .ended id out ∈ t.log
  saved : ∀ id, .ended id .succeeded ∈ s.log → .stored (.login id) ∈ s.log
  cancelled : ∀ id, .ended id .cancelled ∈ s.log → .stored (.login id) ∉ s.log

theorem mem_course (id : Nat) {mark : Mark} (hof : ofLogin id mark = true) :
    mark ∈ s.log ↔ mark ∈ s.log.filter (ofLogin id) := by
  simp [List.mem_filter, hof]

theorem Course.once {stage : Option Stage} {marks : List Mark} (h : Course torn id stage marks) :
    marks.countP (isEnd id) ≤ 1 := by
  cases h <;> simp [isEnd]

theorem Course.head {stage : Option Stage} {mark : Mark} {marks : List Mark}
    (h : Course torn id stage (mark :: marks)) : mark = .answered id := by
  cases h <;> rfl

theorem ends_of_saved {ended : Except String Unit} (htask : s.tasks id = some task)
    (hstage : task.stage = .saved ended) :
    ∃ t out, s.step (.finish id) = some t ∧ .ended id out ∈ t.log := by
  refine ⟨s.finish id task (outcomeOf ended), outcomeOf ended, ?_, by simp [finish, tell]⟩
  simp [step, taskStep, htask, hstage]

theorem ends_of_saving (hwriter : s.writers (.login id) = some writer)
    (htask : s.tasks id = some task) : ∃ events t out,
      Steps (outcome step) s events t ∧ .ended id out ∈ t.log := by
  have hlast (event : LoginEvent) (lock : Option Owner)
      (hstep : s.step event = some ({ s with lock := lock }.wrote (.login id) (.error ""))) :
      ∃ events t out, Steps (outcome step) s events t ∧ .ended id out ∈ t.log := by
    have hsaved : ({ s with lock := lock }.wrote (.login id) (.error "")).tasks id =
        some { task with stage := .saved (.error "") } := by
      simp [htask]
    obtain ⟨t, out, hfinish, hended⟩ := ends_of_saved hsaved rfl
    exact ⟨_, t, out, .cons hstep (.cons hfinish .start), hended⟩
  cases hphase : writer.phase with
  | locking => exact hlast (.lockFails (.login id) "") s.lock (by
      simp [step, hwriter, writerStep, hphase])
  | locked => exact hlast (.read (.login id) (some "")) none (by
      simp [step, hwriter, writerStep, hphase, writeRead, setRead, release, Owner.isRefresh])
  | writing entries => exact hlast (.write (.login id) .failed "") none (by
      simp [step, hwriter, writerStep, hphase, writeFile, release])

theorem ends_of_answered (h : Courses torn s) (hanswered : .answered id ∈ s.log) :
    ∃ events t out, Steps (outcome step) s events t ∧ .ended id out ∈ t.log := by
  have hmem := (mem_course id (by simp [ofLogin])).mp hanswered
  have hcourse := h.login id
  cases htask : s.tasks id with
  | none =>
    rw [stageOf, htask] at hcourse
    generalize s.log.filter (ofLogin id) = marks at hcourse hmem
    cases hcourse
    cases hmem
  | some task =>
    have hstageOf : s.stageOf id = some task.stage := by simp [stageOf, htask]
    cases hstage : task.stage with
    | polling =>
      refine ⟨[.polled id (.error "")], s.finish id task (.failed ""), .failed "", ?_, ?_⟩
      · refine .cons ?_ .start
        simp [outcome, step, taskStep, htask, hstage, polled]
      · simp [finish, tell]
    | saving =>
      obtain ⟨writer, hwriter⟩ := h.served id (by rw [hstageOf, hstage])
      exact ends_of_saving hwriter htask
    | saved ended =>
      obtain ⟨t, out, hfinish, hended⟩ := ends_of_saved htask hstage
      exact ⟨_, t, out, .cons hfinish .start, hended⟩
    | ended =>
      rw [hstageOf, hstage] at hcourse
      have hended : ∃ out, .ended id out ∈ s.log.filter (ofLogin id) := by
        generalize s.log.filter (ofLogin id) = marks at hcourse
        cases hcourse with
        | ended out hout => exact ⟨out, by simp⟩
        | endedSaved => exact ⟨.succeeded, by simp⟩
        | endedTorn text htorn => exact ⟨.failed text, by simp⟩
      obtain ⟨out, hended⟩ := hended
      exact ⟨[], s, out, .start, (List.mem_filter.mp hended).1⟩

theorem endsOnce_of_courses (h : Courses torn s) : EndsOnce s where
  once := by
    intro id
    have hcount : s.log.countP (isEnd id) = (s.log.filter (ofLogin id)).countP (isEnd id) := by
      rw [List.countP_filter]
      refine List.countP_congr fun mark _ => ?_
      cases mark <;> simp [isEnd, ofLogin]
    rw [hcount]
    exact (h.login id).once
  answered := by
    intro before id out after hlog
    have hcourse := h.login id
    rw [hlog, List.filter_append, List.filter_cons_of_pos (by simp [ofLogin])] at hcourse
    cases hbefore : before.filter (ofLogin id) with
    | nil =>
      rw [hbefore] at hcourse
      cases hcourse.head
    | cons mark marks =>
      rw [hbefore] at hcourse
      have hmem : mark ∈ before.filter (ofLogin id) := by simp [hbefore]
      rw [hcourse.head] at hmem
      exact (List.mem_filter.mp hmem).1
  ends := fun id => ends_of_answered h
  saved := by
    intro id hended
    rw [mem_course id (by simp [ofLogin])] at hended ⊢
    have hcourse := h.login id
    generalize s.stageOf id = stage at hcourse
    generalize s.log.filter (ofLogin id) = marks at hcourse hended ⊢
    cases hcourse <;> simp_all
  cancelled := by
    intro id hended
    rw [mem_course id (by simp [ofLogin])] at hended ⊢
    have hcourse := h.login id
    generalize s.stageOf id = stage at hcourse
    generalize s.log.filter (ofLogin id) = marks at hcourse hended ⊢
    cases hcourse <;> simp_all

theorem told_of_courses (h : Courses False s) {out : LoginOutcome}
    (hstored : .stored (.login id) ∈ s.log) (hended : .ended id out ∈ s.log) :
    out = .succeeded := by
  rw [mem_course id (by simp [ofLogin])] at hstored hended
  have hcourse := h.login id
  generalize s.stageOf id = stage at hcourse
  generalize s.log.filter (ofLogin id) = marks at hcourse hstored hended
  cases hcourse <;> simp_all

end Logins

end Yuke.Auth
