import Yuke.Auth.LoginRuns

/-!
# A logout is final

In a run where a newer login, a second logout and a late start keep out of the way, the map of
logins and the wait of a logout tell which login can still save.
-/

set_option autoImplicit false

namespace Yuke.Auth

open Yuke.Shared (Exclusive Steps outcome when split_snoc)

namespace Logins

variable {s u : Logins} {id call : Nat} {owner : Owner} {writer : Writer} {task : LoginTask}
  {event : LoginEvent}

/-- The map holds the login `id`, or a logout waits for it. -/
def Kept (s : Logins) (id : Nat) : Prop :=
  s.pending = some id ∨ ∃ call, s.logouts call = some (.waiting id)

def Idle (s : Logins) : Prop := ∀ id, s.pending = some id → s.stageOf id ≠ some .saving

/-- A login that saves is not replaced, a replaced one takes no grant, no start is answered during
a logout, one logout waits at most, and no save of a login is torn. -/
def Careful (s : Logins) : LoginEvent → Prop
  | .login _ => Idle s
  | .answered _ => Idle s ∧ ∀ call leaving, s.logouts call = some leaving →
      leaving.inProgress = false
  | .polled id (.ok grant) => grant.refreshToken.isSome = true → s.Kept id
  | .logout _ => ∀ call id, s.logouts call ≠ some (.waiting id)
  | .write (.login _) .unsynced _ => False
  | _ => True

structure Places (s : Logins) : Prop where
  empty : ∀ call leaving, s.logouts call = some leaving → leaving.inProgress = true →
    s.pending = none
  alone : ∀ call other id leaving, s.logouts call = some (.waiting id) →
    s.logouts other = some leaving → leaving.inProgress = true → call = other
  kept : ∀ id, s.stageOf id = some .saving → s.Kept id

/-- The login `id` polls or saves, and it is not replaced. -/
def Saves (s : Logins) (id : Nat) : Prop :=
  (s.stageOf id = some .polling ∨ s.stageOf id = some .saving) ∧ s.Kept id

namespace Places

theorem unique (h : Places s) {other : Nat} (hid : s.Kept id) (hother : s.Kept other) :
    id = other := by
  rcases hid with hid | ⟨call, hid⟩
  · rcases hother with hother | ⟨call, hother⟩
    · exact Option.some.inj (hid.symm.trans hother)
    · rw [h.empty call _ hother rfl] at hid
      cases hid
  · rcases hother with hother | ⟨number, hother⟩
    · rw [h.empty call _ hid rfl] at hother
      cases hother
    · cases h.alone call number id _ hid hother rfl
      rw [hid] at hother
      cases hother
      rfl

theorem not_kept (h : Places s) {leaving : Leaving} (hleaving : s.logouts call = some leaving)
    (hprogress : leaving.inProgress = true) (hnot : ∀ id, leaving ≠ .waiting id) : ¬ s.Kept id := by
  rintro (hpending | ⟨other, hother⟩)
  · rw [h.empty call leaving hleaving hprogress] at hpending
    cases hpending
  · cases h.alone other call id leaving hother hleaving hprogress
    rw [hleaving] at hother
    exact hnot id (Option.some.inj hother)

theorem same (h : Places s) (hpending : s.pending = none → u.pending = none)
    (hlogouts : u.logouts = s.logouts)
    (hstage : ∀ id, u.stageOf id = some .saving → s.stageOf id = some .saving)
    (hkept : ∀ id, u.stageOf id = some .saving → s.Kept id → u.Kept id) : Places u where
  empty := by
    rw [hlogouts]
    exact fun call leaving hleaving hprogress => hpending (h.empty call leaving hleaving hprogress)
  alone := by
    rw [hlogouts]
    exact h.alone
  kept := fun id hsaving => hkept id hsaving (h.kept id (hstage id hsaving))

theorem stop (h : Places s) : Places (s.stop id) := by
  refine h.same (fun hnone => stop_pending.trans hnone) stop_logouts (fun other hsaving => ?_) ?_
  · exact (stageOf_stop other).symm.trans hsaving
  · intro other _ hkept
    simpa [Kept] using hkept

theorem move {leaving : Leaving} (h : Places s)
    (hlogouts : u.logouts = Function.update s.logouts call (some leaving))
    (hempty : leaving.inProgress = true → u.pending = none)
    (hpending : s.pending = none → u.pending = none)
    (halone : ∀ other another, other ≠ call → s.logouts other = some another →
      another.inProgress = true → leaving.inProgress = true →
        (∀ id, leaving ≠ .waiting id) ∧ ∀ id, another ≠ .waiting id)
    (hkept : ∀ id, u.stageOf id = some .saving → u.Kept id) : Places u where
  empty := by
    intro other another hanother hprogress
    rw [hlogouts] at hanother
    by_cases hself : other = call
    · subst hself
      rw [Function.update_self] at hanother
      cases hanother
      exact hempty hprogress
    · rw [Function.update_of_ne hself] at hanother
      exact hpending (h.empty other another hanother hprogress)
  alone := by
    intro first other waited another hwaits hanother hprogress
    rw [hlogouts] at hwaits hanother
    by_cases hfirst : first = call
    · by_cases hother : other = call
      · rw [hfirst, hother]
      · rw [hfirst, Function.update_self] at hwaits
        rw [Function.update_of_ne hother] at hanother
        cases hwaits
        exact absurd rfl ((halone other another hother hanother hprogress rfl).1 waited)
    · rw [Function.update_of_ne hfirst] at hwaits
      by_cases hother : other = call
      · rw [hother, Function.update_self] at hanother
        cases hanother
        exact absurd rfl ((halone first _ hfirst hwaits rfl hprogress).2 waited)
      · rw [Function.update_of_ne hother] at hanother
        exact h.alone first other waited another hwaits hanother hprogress
  kept := hkept

theorem calls (h : Places s) (hcareful : Careful s event) (hmoves : CallMoves s event u) :
    Places u := by
  have hsame {saved : Prop} (h : saved) : saved := h
  cases hmoves with
  | starts call hpending => exact h.same hsame rfl (fun _ => hsame) (fun _ _ => hsame)
  | replaces call number hpending =>
    have hcleared : Places { s with
        starting := Function.update s.starting call true, pending := none } := by
      refine h.same (fun _ => rfl) rfl (fun _ => hsame) ?_
      rintro other hsaving (hother | hwaits)
      · exact absurd hsaving (hcareful other hother)
      · exact .inr hwaits
    exact hcleared.stop
  | answers call =>
    obtain ⟨hidle, hnone⟩ := hcareful
    refine ⟨?_, h.alone, ?_⟩
    · intro other leaving hleaving hprogress
      rw [hnone other leaving hleaving] at hprogress
      cases hprogress
    · intro number hsaving
      have hold : s.stageOf number = some .saving := by
        by_cases hself : number = s.last + 1
        · simp [stageOf, answered, hself] at hsaving
        · simpa [stageOf, answered, hself] using hsaving
      rcases h.kept number hold with hpending | ⟨other, hwaits⟩
      · exact absurd hold (hidle number hpending)
      · cases hnone other _ hwaits
  | fails call => exact h.same hsame rfl (fun _ => hsame) (fun _ _ => hsame)
  | counts => exact h.same hsame rfl (fun _ => hsame) (fun _ _ => hsame)
  | cancels number hpending => exact h.stop
  | misses number => exact h
  | leaves call hnew hpending =>
    refine h.move rfl (fun _ => hpending) hsame ?_ ?_
    · rintro other another _ hanother _ _
      exact ⟨by simp, fun waited hwaits => hcareful other waited (hwaits ▸ hanother)⟩
    · intro number hsaving
      rcases h.kept number hsaving with hsame | ⟨other, hwaits⟩
      · exact .inl hsame
      · exact absurd hwaits (hcareful other number)
  | waits call number hnew hpending =>
    have hlogouts : (({ s with pending := none }.stop number).setLogout call
        (.waiting number)).logouts = Function.update s.logouts call (some (.waiting number)) := by
      simp [setLogout]
    refine h.move hlogouts (fun _ => ?_) (fun _ => ?_) ?_ ?_
    · simp [setLogout]
    · simp [setLogout]
    · intro other another _ hanother hprogress _
      rw [h.empty other another hanother hprogress] at hpending
      cases hpending
    · intro saving hsaving
      have hold : s.stageOf saving = some .saving :=
        (stageOf_stop (s := { s with pending := none }) saving).symm.trans hsaving
      rcases h.kept saving hold with hsame | ⟨other, hwaits⟩
      · rw [hpending] at hsame
        cases hsame
        exact .inr ⟨call, by simp [setLogout]⟩
      · exact absurd hwaits (hcareful other saving)
  | joins call number stop hwaits hended =>
    refine h.move rfl (fun _ => h.empty call _ hwaits rfl) hsame ?_ ?_
    · intro other another hother hanother hprogress _
      exact absurd (h.alone call other number another hwaits hanother hprogress).symm hother
    · intro saving hsaving
      rcases h.kept saving hsaving with hsame | ⟨other, hother⟩
      · exact .inl hsame
      · cases h.alone other call saving _ hother hwaits rfl
        rw [hwaits] at hother
        cases hother
        have hold : s.stageOf number = some .saving := hsaving
        simp [stageOf, hended] at hold
  | returns call ended hremoved =>
    refine h.move rfl (by simp [Leaving.inProgress]) hsame (by simp [Leaving.inProgress]) ?_
    intro saving hsaving
    rcases h.kept saving hsaving with hsame | ⟨other, hother⟩
    · exact .inl hsame
    · refine .inr ⟨other, ?_⟩
      have hne : other ≠ call := by
        rintro rfl
        rw [hremoved] at hother
        cases hother
      simpa [setLogout, tell, hne] using hother

theorem finish {outcome : LoginOutcome} (h : Places s) : Places (s.finish id task outcome) := by
  have hstage (other : Nat) : (s.finish id task outcome).stageOf other =
      if other = id then some .ended else s.stageOf other :=
    stageOf_setTask other
  refine h.same (fun hnone => ?_) rfl (fun other hsaving => ?_) fun other hsaving hkept => ?_
  · simp [Logins.finish, Logins.setTask, tell, hnone]
  · rw [hstage] at hsaving
    split at hsaving
    · cases hsaving
    · exact hsaving
  · rw [hstage] at hsaving
    split at hsaving
    · cases hsaving
    next hother =>
      rcases hkept with hpending | hwaits
      · left
        have hne : id ≠ other := fun h => hother h.symm
        simp [Logins.finish, Logins.setTask, tell, hpending, Ne.symm hne]
      · exact .inr hwaits

theorem tasks (h : Places s) (hcareful : Careful s event) (hmoves : TaskMoves s id task event u) :
    Places u := by
  cases hmoves with
  | grants grant token login hstage htoken =>
    refine ⟨h.empty, h.alone, fun other hsaving => ?_⟩
    by_cases hself : other = id
    · rw [hself]
      exact hcareful (by simp [htoken])
    · have hold : s.stageOf other = some .saving := by
        have hmoved : (s.setTask id { task with stage := .saving }).stageOf other =
            s.stageOf other := (stageOf_setTask other).trans (if_neg hself)
        exact hmoved.symm.trans hsaving
      exact h.kept other hold
  | fails outcome hstage houtcome => exact h.finish
  | ends ended hstage => exact h.finish

theorem wrote {ended : Except String Unit} (h : Places s) (howns : s.Owns writer owner) :
    Places (s.wrote owner ended) := by
  have hstage (other : Nat) (hsaving : (s.wrote owner ended).stageOf other = some .saving) :
      s.stageOf other = some .saving := by
    rw [stageOf_wrote] at hsaving
    split at hsaving
    · cases hold : s.stageOf other <;> simp [hold] at hsaving
    · exact hsaving
  have hpending : (s.wrote owner ended).pending = s.pending := by rw [wrote_eq]
  cases owner with
  | logout call =>
    have hremoving := howns.1
    have hlogouts : (s.wrote (.logout call) ended).logouts =
        Function.update s.logouts call (some (.removed ended)) := rfl
    refine h.move hlogouts (fun _ => ?_) (fun hnone => hpending.trans hnone) ?_ ?_
    · exact hpending.trans (h.empty call _ hremoving rfl)
    · intro other another hother hanother hprogress _
      refine ⟨by simp, ?_⟩
      rintro waited rfl
      exact hother (h.alone other call waited _ hanother hremoving rfl)
    · intro other hsaving
      rcases h.kept other (hstage other hsaving) with hsame | ⟨number, hwaits⟩
      · exact .inl (hpending.trans hsame)
      · refine .inr ⟨number, ?_⟩
        have hne : number ≠ call := by
          rintro rfl
          rw [hremoving] at hwaits
          cases hwaits
        rw [hlogouts, Function.update_of_ne hne]
        exact hwaits
  | login number =>
    have hlogouts : (s.wrote (.login number) ended).logouts = s.logouts := by
      funext call
      simp
    refine h.same (fun hnone => hpending.trans hnone) hlogouts hstage fun other _ hkept => ?_
    rwa [Kept, hpending, hlogouts]
  | _ => exact h.same (fun hnone => hnone) rfl hstage (fun _ _ hkept => hkept)

theorem setFile {file : Entries} {lock : Option Owner} (h : Places s) :
    Places { s with file := file, lock := lock } := ⟨h.empty, h.alone, h.kept⟩

theorem setWriter {writer : Option Writer} (h : Places s) : Places (s.setWriter owner writer) :=
  ⟨h.empty, h.alone, h.kept⟩

theorem writes (h : Places s) (howns : s.Owns writer owner)
    (hmoves : WriteMoves s owner writer event u) : Places u := by
  cases hmoves with
  | takes hphase hfree => exact ⟨h.empty, h.alone, h.kept⟩
  | reads entry hphase hentry => exact h.setWriter
  | misses text hphase => exact h.wrote howns
  | fails ended hholds hended =>
    rw [release, wrote_setFile]
    exact (h.wrote howns).setFile
  | changes file ended hholds hwriting hfile hended =>
    change Places (({ s with file := file, lock := none }.wrote owner ended).tellWritten owner)
    rw [wrote_setFile, tellWritten_setFile, tellWritten_eq]
    have hwrote : Places (s.wrote owner ended) := h.wrote howns
    exact ⟨hwrote.empty, hwrote.alone, hwrote.kept⟩

theorem step (h : Places s) (hinv : Inv s) (hcareful : Careful s event)
    (hstep : s.step event = some u) : Places u := by
  rcases step_cases hinv hstep with hcall | ⟨id, task, _, hmoves⟩ | hnew |
    ⟨owner, writer, hwriter, hmoves⟩
  · exact h.calls hcareful hcall
  · exact h.tasks hcareful hmoves
  · cases hnew <;> exact h.setWriter
  · exact h.writes (hinv.owns owner writer hwriter) hmoves

end Places

structure Traces (s : Logins) : Prop where
  newest : ∀ id other, s.Kept id → .stored (.login other) ∈ s.log → other ≤ id
  replaced : ∀ before other after id, s.log = before ++ .stored (.login other) :: after →
    .stored (.login id) ∈ after → other ≤ id
  late : ∀ before id after call, s.log = before ++ .answered id :: after →
    .removed call ∈ before → ∃ ok, .returned call ok ∈ before
  after : ∀ before call rest id, s.log = before ++ .removed call :: rest → s.Saves id →
    .answered id ∈ rest
  gone : ∀ before call rest, s.log = before ++ .removed call :: rest →
    (∀ number, .stored (.key number) ∉ rest) →
    (∀ id, .stored (.login id) ∈ rest → .answered id ∉ rest) → s.file s.provider = none

namespace Traces

theorem same (h : Traces s) (hlog : u.log = s.log) (hprovider : u.provider = s.provider)
    (hkept : ∀ id, u.Kept id → s.Kept id) (hsaves : ∀ id, u.Saves id → s.Saves id)
    (hfile : s.file s.provider = none → u.file s.provider = none) : Traces u where
  newest := by
    rw [hlog]
    exact fun id other hid => h.newest id other (hkept id hid)
  replaced := by
    rw [hlog]
    exact h.replaced
  late := by
    rw [hlog]
    exact h.late
  after := by
    rw [hlog]
    exact fun before call rest id hsplit hid => h.after before call rest id hsplit (hsaves id hid)
  gone := by
    rw [hlog, hprovider]
    exact fun before call rest hsplit hkey hlogin => hfile (h.gone before call rest hsplit hkey hlogin)

theorem grow {mark : Mark} (h : Traces s) (hlog : u.log = s.log ++ [mark])
    (hprovider : u.provider = s.provider)
    (hnewest : ∀ id other, u.Kept id → .stored (.login other) ∈ s.log ∨
      mark = .stored (.login other) → other ≤ id)
    (hstored : ∀ id other, mark = .stored (.login id) → .stored (.login other) ∈ s.log →
      other ≤ id)
    (hanswered : ∀ id call, mark = .answered id → .removed call ∈ s.log →
      ∃ ok, .returned call ok ∈ s.log)
    (hsaves : ∀ id, u.Saves id → s.Saves id ∨ mark = .answered id)
    (hremoved : ∀ call id, mark = .removed call → ¬ u.Saves id)
    (hgone : (∀ call, mark ≠ .removed call) → (∀ number, mark ≠ .stored (.key number)) →
      (∀ id, mark = .stored (.login id) → ¬ s.Saves id) → s.file s.provider = none →
      u.file s.provider = none)
    (hfile : ∀ call, mark = .removed call → u.file s.provider = none) : Traces u where
  newest := by
    intro id other hid hin
    rw [hlog] at hin
    refine hnewest id other hid ?_
    rcases List.mem_append.mp hin with hold | hnew
    · exact .inl hold
    · exact .inr (List.mem_singleton.mp hnew).symm
  replaced := by
    intro before other after id hsplit hin
    rw [hlog] at hsplit
    rcases split_snoc.mp hsplit with ⟨rest, hrest, hsplit⟩ | ⟨hnil, _, _⟩
    · rw [hrest] at hin
      rcases List.mem_append.mp hin with hold | hnew
      · exact h.replaced before other rest id hsplit hold
      · refine hstored id other (List.mem_singleton.mp hnew).symm ?_
        rw [hsplit]
        simp
    · rw [hnil] at hin
      cases hin
  late := by
    intro before id after call hsplit hin
    rw [hlog] at hsplit
    rcases split_snoc.mp hsplit with ⟨rest, _, hsplit⟩ | ⟨_, hmark, hbefore⟩
    · exact h.late before id rest call hsplit hin
    · rw [← hbefore] at hin ⊢
      exact hanswered id call hmark hin
  after := by
    intro before call rest id hsplit hid
    rw [hlog] at hsplit
    rcases split_snoc.mp hsplit with ⟨more, hrest, hsplit⟩ | ⟨_, hmark, _⟩
    · rw [hrest]
      rcases hsaves id hid with hold | hnew
      · exact List.mem_append_left _ (h.after before call more id hsplit hold)
      · simp [hnew]
    · exact absurd hid (hremoved call id hmark)
  gone := by
    intro before call rest hsplit hkey hlogin
    rw [hlog] at hsplit
    rw [hprovider]
    rcases split_snoc.mp hsplit with ⟨more, hrest, hold⟩ | ⟨_, hmark, _⟩
    · subst hrest
      by_cases hremoval : ∃ call, mark = .removed call
      · obtain ⟨other, hother⟩ := hremoval
        exact hfile other hother
      · refine hgone (fun other hother => hremoval ⟨other, hother⟩) ?_ ?_ ?_
        · rintro number rfl
          exact hkey number (by simp)
        · rintro id rfl hid
          have hanswered := h.after before call more id hold hid
          exact hlogin id (by simp) (List.mem_append_left _ hanswered)
        · refine h.gone before call more hold (fun number hin => ?_) fun id hin hanswered => ?_
          · exact hkey number (List.mem_append_left _ hin)
          · exact hlogin id (List.mem_append_left _ hin) (List.mem_append_left _ hanswered)
    · exact hfile call hmark

theorem stored_known (hcourses : Courses False s) (hinv : Inv s)
    (hstored : .stored (.login id) ∈ s.log) : id ≤ s.last := by
  rw [mem_course id (by simp [ofLogin])] at hstored
  have hcourse := hcourses.login id
  cases htask : s.tasks id with
  | none =>
    rw [stageOf, htask] at hcourse
    generalize s.log.filter (ofLogin id) = marks at hcourse hstored
    cases hcourse
    cases hstored
  | some task => exact hinv.known id task htask

theorem returned_of_removed (hcourses : Courses False s)
    (hnone : ∀ leaving, s.logouts call = some leaving → leaving.inProgress = false)
    (hremoved : .removed call ∈ s.log) : ∃ ok, .returned call ok ∈ s.log := by
  have hin : Mark.removed call ∈ s.log.filter (ofLogout call) := by
    simp [List.mem_filter, hremoved, ofLogout]
  have hremoval := hcourses.logout call
  have hreturned : ∃ ok, Mark.returned call ok ∈ s.log.filter (ofLogout call) := by
    generalize s.logouts call = leaving at hremoval hnone
    generalize s.log.filter (ofLogout call) = marks at hremoval hin
    cases hremoval with
    | returned => exact ⟨true, by simp⟩
    | returnedTorn => exact ⟨false, by simp⟩
    | removed | torn => cases hnone _ rfl
    | fresh | waiting | removing | failed | returnedFailed => simp at hin
  obtain ⟨ok, hreturned⟩ := hreturned
  exact ⟨ok, (List.mem_filter.mp hreturned).1⟩

theorem stop (h : Traces s) : Traces (s.stop id) := by
  have hkept (other : Nat) (hid : (s.stop id).Kept other) : s.Kept other := by
    simpa [Kept] using hid
  refine h.same stop_log stop_provider hkept ?_ (fun hnone => ?_)
  · rintro other ⟨hstage, hid⟩
    rw [stageOf_stop] at hstage
    exact ⟨hstage, hkept other hid⟩
  · rw [stop_file]
    exact hnone

theorem leave (h : Traces s) {leaving : Leaving} (hnot : ∀ id, leaving ≠ .waiting id) :
    Traces (s.setLogout call leaving) := by
  have hkept (id : Nat) (hid : (s.setLogout call leaving).Kept id) : s.Kept id := by
    rcases hid with hpending | ⟨other, hwaits⟩
    · exact .inl hpending
    · refine .inr ⟨other, ?_⟩
      by_cases hself : other = call
      · rw [hself] at hwaits
        simp [setLogout, hnot] at hwaits
      · simpa [setLogout, hself] using hwaits
  refine h.same rfl rfl hkept ?_ fun hnone => hnone
  rintro id ⟨hstage, hid⟩
  exact ⟨hstage, hkept id hid⟩

theorem setWriter {writer : Option Writer} (h : Traces s) : Traces (s.setWriter owner writer) :=
  h.same rfl rfl (fun _ hid => hid) (fun _ hid => hid) fun hnone => hnone

theorem calls (h : Traces s) (hcourses : Courses False s) (hinv : Inv s)
    (hcareful : Careful s event) (hmoves : CallMoves s event u) : Traces u := by
  have hsame {old : Prop} (h : old) : old := h
  cases hmoves with
  | starts call hpending => exact h.same rfl rfl (fun _ => hsame) (fun _ => hsame) hsame
  | replaces call number hpending =>
    have hcleared : Traces { s with
        starting := Function.update s.starting call true, pending := none } := by
      refine h.same rfl rfl ?_ ?_ hsame
      · rintro other (hother | hwaits)
        · cases hother
        · exact .inr hwaits
      · rintro other ⟨hstage, hother | hwaits⟩
        · cases hother
        · exact ⟨hstage, .inr hwaits⟩
    exact hcleared.stop
  | answers call =>
    obtain ⟨_, hnone⟩ := hcareful
    have hkept {id : Nat} (hid : (s.answered call).Kept id) : id = s.last + 1 := by
      rcases hid with hpending | ⟨other, hwaits⟩
      · exact (Option.some.inj hpending).symm
      · cases hnone other _ hwaits
    have hlog : (s.answered call).log = s.log ++ [.answered (s.last + 1)] := rfl
    refine h.grow hlog rfl ?_ (by simp) ?_ ?_ (by simp) (fun _ _ _ => hsame) (by simp)
    · rintro id other hid (hin | hmark)
      · rw [hkept hid]
        exact (stored_known hcourses hinv hin).trans (Nat.le_succ _)
      · cases hmark
    · intro id other _ hremoved
      exact returned_of_removed hcourses (hnone other) hremoved
    · rintro id ⟨_, hid⟩
      rw [hkept hid]
      exact .inr rfl
  | fails call => exact h.same rfl rfl (fun _ => hsame) (fun _ => hsame) hsame
  | counts => exact h.same rfl rfl (fun _ => hsame) (fun _ => hsame) hsame
  | cancels number hpending => exact h.stop
  | misses number => exact h
  | leaves call hnew hpending => exact (h.leave (by simp)).setWriter
  | waits call number hnew hpending =>
    have hkept (id : Nat) (hid : (({ s with pending := none }.stop number).setLogout call
        (.waiting number)).Kept id) : s.Kept id := by
      rcases hid with hpending' | ⟨other, hwaits⟩
      · simp [setLogout] at hpending'
      · by_cases hself : other = call
        · have heq : number = id := by simpa [setLogout, hself] using hwaits
          exact .inl (heq ▸ hpending)
        · exact .inr ⟨other, by simpa [setLogout, hself] using hwaits⟩
    refine h.same ?_ ?_ hkept ?_ fun hnone => ?_
    · simp [setLogout]
    · simp [setLogout]
    · rintro id ⟨hstage, hid⟩
      have hold : ({ s with pending := none }.stop number).stageOf id = s.stageOf id :=
        stageOf_stop id
      refine ⟨?_, hkept id hid⟩
      rcases hstage with hpolling | hsaving
      · exact .inl (hold.symm.trans hpolling)
      · exact .inr (hold.symm.trans hsaving)
    · simpa [setLogout] using hnone
  | joins call number stop hwaits hended => exact (h.leave (by simp)).setWriter
  | returns call ended hremoved =>
    have hleft : Traces (s.setLogout call .returned) := h.leave (by simp)
    have hlog : ((s.setLogout call .returned).tell (.returned call ended.isOk)).log =
        (s.setLogout call .returned).log ++ [.returned call ended.isOk] := rfl
    refine hleft.grow hlog rfl ?_ (by simp) (by simp) (fun _ => .inl) (by simp)
      (fun _ _ _ => hsame) (by simp)
    rintro id other hid (hin | hmark)
    · exact hleft.newest id other hid hin
    · cases hmark

theorem finish {outcome : LoginOutcome} (h : Traces s) : Traces (s.finish id task outcome) := by
  have hkept (other : Nat) (hother : (s.finish id task outcome).Kept other) : s.Kept other := by
    rcases hother with hpending | hwaits
    · left
      by_cases hself : s.pending = some id
      · simp [Logins.finish, Logins.setTask, tell, hself] at hpending
      · simpa [Logins.finish, Logins.setTask, tell, hself] using hpending
    · exact .inr hwaits
  have hlog : (s.finish id task outcome).log = s.log ++ [.ended id outcome] := rfl
  refine h.grow hlog rfl ?_ (by simp) (by simp) ?_ (by simp) (fun _ _ _ hnone => hnone) (by simp)
  · rintro other stored hother (hin | hmark)
    · exact h.newest other stored (hkept other hother) hin
    · cases hmark
  · rintro other ⟨hstage, hother⟩
    left
    have hold : (s.finish id task outcome).stageOf other =
        if other = id then some .ended else s.stageOf other := stageOf_setTask other
    rw [hold] at hstage
    split at hstage
    · simp at hstage
    · exact ⟨hstage, hkept other hother⟩

theorem tasks (h : Traces s) (htask : s.tasks id = some task)
    (hmoves : TaskMoves s id task event u) : Traces u := by
  cases hmoves with
  | grants grant token login hstage htoken =>
    have hset : Traces (s.setTask id { task with stage := .saving }) := by
      refine h.same rfl rfl (fun _ hid => hid) ?_ fun hnone => hnone
      rintro other ⟨hstages, hother⟩
      rw [stageOf_setTask] at hstages
      split at hstages
      next hself =>
        subst hself
        exact ⟨.inl (by simp [stageOf, htask, hstage]), hother⟩
      · exact ⟨hstages, hother⟩
    exact hset.setWriter
  | fails outcome hstage houtcome => exact h.finish
  | ends ended hstage => exact h.finish

theorem kept_wrote {file : Entries} {lock : Option Owner} {ended : Except String Unit}
    (hid : ({ s with file := file, lock := lock }.wrote owner ended).Kept id) : s.Kept id := by
  rcases hid with hpending | ⟨call, hwaits⟩
  · rw [wrote_eq] at hpending
    exact .inl hpending
  · rw [wrote_logouts] at hwaits
    split at hwaits
    · cases hwaits
    · exact .inr ⟨call, hwaits⟩

theorem saves_wrote {file : Entries} {lock : Option Owner} {ended : Except String Unit}
    (hid : ({ s with file := file, lock := lock }.wrote owner ended).Saves id) : s.Saves id := by
  obtain ⟨hstage, hid⟩ := hid
  refine ⟨?_, kept_wrote hid⟩
  rw [stageOf_wrote] at hstage
  split at hstage
  · cases hold : stageOf { s with file := file, lock := lock } id <;> simp [hold] at hstage
  · exact hstage

theorem kept_tellWritten : (s.tellWritten owner).Kept id ↔ s.Kept id := by
  cases owner <;> rfl

theorem wrote {file : Entries} {lock : Option Owner} {ended : Except String Unit} (h : Traces s)
    (hfile : s.file s.provider = none → file s.provider = none) :
    Traces ({ s with file := file, lock := lock }.wrote owner ended) := by
  refine h.same (wrote_log ended) ?_ (fun _ hid => kept_wrote hid) (fun _ hid => saves_wrote hid) ?_
  · rw [wrote_eq]
  · rw [wrote_eq]
    exact hfile

theorem written {file : Entries} {ended : Except String Unit} (h : Traces s) (hplaces : Places s)
    (howns : s.Owns writer owner) (hwriting : ∀ number, owner = .refresh number →
      ∃ entries, writer.phase = .writing entries)
    (hfile : file = s.file.set writer.provider writer.entry) :
    Traces (({ s with file := file }.release.wrote owner ended).tellWritten owner) := by
  have hkept (other : Nat) (hother : (({ s with file := file }.release.wrote owner
      ended).tellWritten owner).Kept other) : s.Kept other := by
    exact kept_wrote (kept_tellWritten.mp hother)
  have hsaves (other : Nat) (hother : (({ s with file := file }.release.wrote owner
      ended).tellWritten owner).Saves other) : s.Saves other := by
    obtain ⟨hstage, hother⟩ := hother
    rw [stageOf_tellWritten] at hstage
    exact saves_wrote ⟨hstage, kept_tellWritten.mp hother⟩
  have hnewFile : (({ s with file := file }.release.wrote owner ended).tellWritten owner).file =
      file := by
    rw [tellWritten_eq, wrote_eq]
    rfl
  have hprovider : (({ s with file := file }.release.wrote owner ended).tellWritten owner).provider =
      s.provider := by
    rw [tellWritten_eq, wrote_eq]
    rfl
  have hlog : ({ s with file := file }.release.wrote owner ended).log = s.log := wrote_log ended
  cases owner with
  | login id =>
    obtain ⟨⟨task, htask, hstage⟩, _⟩ := howns
    have hsaving : s.stageOf id = some .saving := by simp [stageOf, htask, hstage]
    have hid : s.Kept id := hplaces.kept id hsaving
    refine h.grow (congrArg (· ++ [Mark.stored (.login id)]) hlog) hprovider ?_ ?_ (by simp)
      (fun other hother => .inl (hsaves other hother)) (by simp) ?_ (by simp)
    · rintro other stored hother (hin | hmark)
      · exact h.newest other stored (hkept other hother) hin
      · cases hmark
        exact (hplaces.unique hid (hkept other hother)).le
    · rintro other stored hmark hin
      cases hmark
      exact h.newest id stored hid hin
    · intro _ _ hnot _
      exact absurd ⟨.inr hsaving, hid⟩ (hnot id rfl)
  | logout call =>
    obtain ⟨hremoving, hwriterProvider, hentry⟩ := howns
    have hgone : file s.provider = none := by
      rw [hfile, hwriterProvider, hentry]
      exact Entries.set_self _ _ _
    refine h.grow (congrArg (· ++ [Mark.removed call]) hlog) hprovider ?_ (by simp) (by simp)
      (fun other hother => .inl (hsaves other hother)) ?_ ?_ ?_
    · rintro other stored hother (hin | hmark)
      · exact h.newest other stored (hkept other hother) hin
      · cases hmark
    · rintro number other hmark hother
      exact hplaces.not_kept hremoving rfl (by simp) (hsaves other hother).2
    · intro _ _ _ _
      rw [hnewFile]
      exact hgone
    · intro _ _
      rw [hnewFile]
      exact hgone
  | key call =>
    refine h.grow (congrArg (· ++ [Mark.stored (.key call)]) hlog) hprovider ?_ (by simp) (by simp)
      (fun other hother => .inl (hsaves other hother)) (by simp) ?_ (by simp)
    · rintro other stored hother (hin | hmark)
      · exact h.newest other stored (hkept other hother) hin
      · cases hmark
    · intro _ hnot _ _
      exact absurd rfl (hnot call)
  | refresh number =>
    have hwrote : Traces ({ s with file := file, lock := none }.wrote (.refresh number) ended) := by
      refine h.wrote fun hnone => ?_
      obtain ⟨entries, hphase⟩ := hwriting number rfl
      obtain ⟨login, hlogin⟩ := Option.isSome_iff_exists.mp (howns.2 entries hphase)
      rw [Entries.login_eq_some, hnone] at hlogin
      cases hlogin
    exact hwrote
  | other number =>
    have hwrote : Traces ({ s with file := file, lock := none }.wrote (.other number) ended) := by
      refine h.wrote fun hnone => ?_
      rw [hfile, Entries.set_of_ne _ (Ne.symm howns)]
      exact hnone
    exact hwrote

theorem writes (h : Traces s) (hplaces : Places s) (howns : s.Owns writer owner)
    (hmoves : WriteMoves s owner writer event u) : Traces u := by
  cases hmoves with
  | takes hphase hfree => exact h.same rfl rfl (fun _ hid => hid) (fun _ hid => hid) fun hnone => hnone
  | reads entry hphase hentry => exact h.setWriter
  | misses text hphase => exact h.wrote fun hnone => hnone
  | fails ended hholds hended => exact h.wrote fun hnone => hnone
  | changes file ended hholds hwriting hfile hended =>
    exact h.written hplaces howns hwriting hfile

theorem step (h : Traces s) (hplaces : Places s) (hcourses : Courses False s) (hinv : Inv s)
    (hcareful : Careful s event) (hstep : s.step event = some u) : Traces u := by
  rcases step_cases hinv hstep with hcall | ⟨id, task, htask, hmoves⟩ | hnew |
    ⟨owner, writer, hwriter, hmoves⟩
  · exact h.calls hcourses hinv hcareful hcall
  · exact h.tasks htask hmoves
  · cases hnew <;> exact h.setWriter
  · exact h.writes hplaces (hinv.owns owner writer hwriter) hmoves

end Traces

structure LogoutFinal (s : Logins) : Prop where
  told : ∀ id out, .stored (.login id) ∈ s.log → .ended id out ∈ s.log → out = .succeeded
  replaced : ∀ before other after id, s.log = before ++ .stored (.login other) :: after →
    id < other → .stored (.login id) ∉ after
  gone : ∀ before call middle after,
    s.log = before ++ .removed call :: (middle ++ .returned call true :: after) →
    (∀ number, .stored (.key number) ∉ middle ++ after) →
    (∀ id, .stored (.login id) ∈ middle ++ after → .answered id ∉ after) →
      s.file s.provider = none

def isReturn : Mark → Bool
  | .returned _ _ => true
  | _ => false

theorem Removal.once {leaving : Option Leaving} {marks : List Mark}
    (h : Removal call leaving marks) : marks.countP isReturn ≤ 1 := by
  cases h <;> simp [isReturn]

theorem returned_once (h : Courses False s) {before after : List Mark} {ok other : Bool}
    (hlog : s.log = before ++ .returned call ok :: after) : .returned call other ∉ before := by
  intro hin
  have hremoval := h.logout call
  have hmem : Mark.returned call other ∈ before.filter (ofLogout call) := by
    simp [List.mem_filter, hin, ofLogout]
  rw [hlog, List.filter_append, List.filter_cons_of_pos (by simp [ofLogout])] at hremoval
  have htwo := hremoval.once
  have hone : 0 < (before.filter (ofLogout call)).countP isReturn :=
    List.countP_pos_iff.mpr ⟨_, hmem, rfl⟩
  rw [List.countP_append, List.countP_cons_of_pos rfl] at htwo
  omega

theorem logoutFinal_of_inv (hcourses : Courses False s) (htraces : Traces s) : LogoutFinal s where
  told := fun id out hstored hended => told_of_courses hcourses hstored hended
  replaced := by
    intro before other after id hlog hlt hin
    have hle := htraces.replaced before other after id hlog hin
    omega
  gone := by
    intro before call middle after hlog hkey hlogin
    refine htraces.gone before call _ hlog (fun number hin => ?_) fun id hin hanswered => ?_
    · refine hkey number ?_
      simpa using hin
    · have hin : .stored (.login id) ∈ middle ++ after := by simpa using hin
      have hmiddle : .answered id ∈ middle := by
        have hnot := hlogin id hin
        simpa [hnot] using hanswered
      obtain ⟨first, last, hsplit⟩ := List.append_of_mem hmiddle
      have hearly : s.log = (before ++ .removed call :: first) ++ .answered id ::
          (last ++ .returned call true :: after) := by
        rw [hlog, hsplit]
        simp
      obtain ⟨ok, hreturned⟩ := htraces.late _ id _ call hearly (by simp)
      have hlast : s.log = (before ++ .removed call :: middle) ++ .returned call true :: after := by
        rw [hlog]
        simp
      refine @returned_once _ _ hcourses _ _ _ ok hlast ?_
      rw [hsplit]
      simp only [List.mem_append, List.mem_cons] at hreturned ⊢
      tauto

variable {provider : String} {file : Entries} {events : List LoginEvent}

theorem endsOnce_of_run (h : Steps (outcome step) { provider := provider, file := file } events s) :
    EndsOnce s := by
  have hall : Inv s ∧ Courses True s := by
    refine Steps.keeps (P := fun s => Inv s ∧ Courses True s) h
      ⟨.init provider file, .init provider file⟩ ?_
    rintro t event u ⟨hinv, hcourses⟩ hstep
    exact ⟨hinv.step hstep, hcourses.step hinv (fun _ _ _ => trivial) hstep⟩
  exact endsOnce_of_courses hall.2

theorem logoutFinal_of_run
    (h : Steps (when Careful (outcome step)) { provider := provider, file := file } events s) :
    LogoutFinal s := by
  have hall : (Inv s ∧ Courses False s) ∧ Places s ∧ Traces s := by
    refine Steps.keeps (P := fun s => (Inv s ∧ Courses False s) ∧ Places s ∧ Traces s) h
      ⟨⟨.init provider file, .init provider file⟩, ?_, ?_⟩ ?_
    · exact ⟨by simp, by simp, by simp [stageOf]⟩
    · exact ⟨by simp, by simp, by simp, by simp, by simp⟩
    · rintro t event u ⟨⟨hinv, hcourses⟩, hplaces, htraces⟩ ⟨hcareful, hstep⟩
      refine ⟨⟨hinv.step hstep, hcourses.step hinv ?_ hstep⟩, ?_, ?_⟩
      · rintro id text rfl
        exact hcareful
      · exact hplaces.step hinv hcareful hstep
      · exact htraces.step hplaces hcourses hinv hcareful hstep
  exact logoutFinal_of_inv hall.1.2 hall.2.2

def approval : Grant := ⟨"access", some "refresh", 10000000, none⟩

def orderlyRun : List LoginEvent :=
  [.login 0, .answered 0, .polled 1 (.ok approval), .lock (.login 1), .read (.login 1) none,
    .write (.login 1) .written "", .finish 1, .logout 0, .lock (.logout 0), .read (.logout 0) none,
    .write (.logout 0) .written "", .returned 0]

/-- A login saves while a second login takes it out of the map, so the logout does not wait. -/
def lateRun : List LoginEvent :=
  [.login 0, .answered 0, .polled 1 (.ok approval), .login 1, .logout 0, .lock (.logout 0),
    .read (.logout 0) none, .returned 0, .lock (.login 1), .read (.login 1) none,
    .write (.login 1) .written ""]

/-- In each run one writer at most holds the lock, and it writes the entries that the file has at
that moment, with its own entry set. -/
theorem no_entry_lost
    (h : Steps (outcome step) { provider := provider, file := file } events s) :
    Exclusive s.Holds s.lock ∧ ∀ owner writer entries, s.writers owner = some writer →
      writer.phase = .writing entries → entries = s.file.set writer.provider writer.entry := by
  have hinv : Inv s := Steps.keeps (P := Inv) h (.init provider file) fun _ _ _ hinv hstep =>
    hinv.step hstep
  exact ⟨hinv.lock, hinv.writing⟩

theorem no_entry_lost_late :
    ∃ s, (lateRun.take 10).foldlM step { provider := "openai", file := fun _ => none } = some s ∧
      Exclusive s.Holds s.lock ∧ ∀ owner writer entries, s.writers owner = some writer →
        writer.phase = .writing entries → entries = s.file.set writer.provider writer.entry := by
  have hrun : ∃ s, (lateRun.take 10).foldlM step { provider := "openai", file := fun _ => none } =
    some s := ⟨_, rfl⟩
  obtain ⟨s, hrun⟩ := hrun
  exact ⟨s, hrun, no_entry_lost (.of_foldlM hrun)⟩

end Logins

end Yuke.Auth
