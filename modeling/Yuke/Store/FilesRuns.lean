import Yuke.Shared.Steps
import Yuke.Store.FilesLeases

/-!
# The runs of several processes

What holds in each state of a run whose sweeps and cleanups meet the condition.
-/

set_option autoImplicit false

namespace Yuke.Store.Files

open Yuke.Ai (Digest)
open Yuke.Protocol (SessionId)
open Yuke.Shared

variable {s s' : State} {c : CallId} {call : Call} {id : SessionId} {op : Op} {rest : List Op}
  {event : Event}

theorem Fits.makeFolder {kind : Kind} (h : Fits kind (.makeFolder :: rest)) :
    .ensure ∉ rest ∧ ¬ kind.IsWrite := by
  rcases h.cases with h | h <;> cases kind <;> simp_all [Kind.program, Kind.cleanup, Kind.IsWrite]

theorem Fits.returned {kind : Kind} (h : Fits kind (.returned :: rest)) : rest = [] := by
  rcases h.cases with h | h <;> cases kind <;> simp_all [Kind.program, Kind.cleanup]

theorem inv_reads (h : Inv s) (hcall : s.calls c = some call) (hrest : call.rest = op :: rest)
    (hop : op ∉ [.copyRows, .deleteRows, .listBlobs, .dropLock, .tryLock, .rename])
    {cleanup : List Op} (hcleanup : cleanup = [] ∨ cleanup = call.kind.cleanup)
    (hensure : op = .ensure → (s.slots call.session).row ≠ none)
    (hload : op = .load → (s.slots call.session).row ≠ none)
    (hleft : op = .copyBlobs → call.left = []) {returned : List (SessionId × Digest)}
    (hreturned : ∀ id blob, (id, blob) ∈ returned → (id, blob) ∈ s.returned ∨
      Gone s id ∨ (s.slots id).Has blob) :
    Inv ({ s with returned := returned }.setCall c
      { call with rest := rest, cleanup := cleanup }) := by
  simp only [List.mem_cons, List.not_mem_nil, not_or, or_false] at hop
  obtain ⟨hcopyRows, hdeleteRows, hlistBlobs, hdropLock, htryLock, hrename⟩ := hop
  apply inv_grows h hcall hrest
  · rfl
  · rfl
  · rfl
  · rfl
  · rfl
  · exact hreturned
  · intro id
    exact .refl _
  · intro id hfolder
    exact h.used id (.inl hfolder)
  · simp only [List.mem_cons, List.not_mem_nil, not_or, or_false]
    exact ⟨hcopyRows, hdeleteRows, hlistBlobs, hdropLock, htryLock⟩
  · exact hcleanup
  · intro heq
    exact h.known_of_row (hensure heq)
  · exact hload
  · intro f hfile
    exact .inl hfile
  · exact (h.calls c call hcall).written
  · intro blob heq
    exact absurd heq hrename
  · exact hleft

theorem inv_folder (h : Inv s) (hcall : s.calls c = some call) (hrest : call.rest = op :: rest)
    (hop : op ∈ [.makeFolder, .openLock, .writeTemporary, .rename])
    (hused : (s.slots call.session).used = true) {file : Option LockId}
    {temporary : Option (Temporary × Digest)}
    (hstep : FolderStep s s' c call.session
      { call with rest := rest, file := file, temporary := temporary })
    (hfile : ∀ f, file = some f → call.file = some f ∨ (s'.slots call.session).lock = some f)
    (hwritten : ∀ blob name content, call.kind = .put blob → temporary = some (name, content) →
      content = blob)
    (hrename : ∀ blob, op = .rename → call.kind = .put blob → (s'.slots call.session).Has blob) :
    Inv s' := by
  have hout : ∀ other, other ∉ [.makeFolder, .openLock, .writeTemporary, .rename] → op ≠ other := by
    rintro other hother rfl
    exact hother hop
  apply inv_grows h hcall hrest
  · exact hstep.calls
  · exact hstep.owners
  · exact hstep.leases
  · exact hstep.holders
  · exact hstep.copied
  · intro id blob hlog
    rw [hstep.returned] at hlog
    exact .inl hlog
  · exact hstep.grows
  · intro id hfolder
    rcases hstep.new id hfolder with heq | hold
    · rwa [heq]
    · exact h.used id (.inl hold)
  · simp only [List.mem_cons, List.not_mem_nil, not_or, or_false]
    exact ⟨hout _ (by decide), hout _ (by decide), hout _ (by decide), hout _ (by decide),
      hout _ (by decide)⟩
  · exact (h.calls c call hcall).cleanup
  · intro heq
    exact absurd heq (hout _ (by decide))
  · intro heq
    exact absurd heq (hout _ (by decide))
  · exact hfile
  · exact hwritten
  · exact hrename
  · intro heq
    exact absurd heq (hout _ (by decide))

theorem CallOk.used_of_makeFolder (h : CallOk s c call) (hrest : call.rest = .makeFolder :: rest) :
    (s.slots call.session).used = true := by
  have hfits := h.fits
  rw [hrest] at hfits
  obtain ⟨hensure, hwrite⟩ := hfits.makeFolder
  by_cases hcopy : .copyRows ∈ call.rest
  · exact (h.forker hcopy).1
  · by_cases hsweep : call.kind = .sweep
    · exact h.swept hsweep
    · refine (h.known ?_ hcopy hsweep hwrite).1
      rw [hrest, List.mem_cons, not_or]
      exact ⟨by decide, hensure⟩

theorem inv_perform (h : Inv s) (hcall : s.calls c = some call) (hrest : call.rest = op :: rest)
    (hsettled : s.settled (.run c) = true)
    (hstep : s.perform c { call with rest := rest } op = some s') : Inv s' := by
  have hok := h.calls c call hcall
  have hsame : ∀ id blob, (id, blob) ∈ s.returned → (id, blob) ∈ s.returned ∨
      Gone s id ∨ (s.slots id).Has blob := fun _ _ hin => .inl hin
  cases op with
  | ensure =>
    simp only [State.perform] at hstep
    split_ifs at hstep with hrow
    cases hstep
    exact inv_reads h hcall hrest (by decide) hok.cleanup (fun _ => hrow) (by intros; contradiction) (by intros; contradiction) hsame
  | absent =>
    simp only [State.perform] at hstep
    split_ifs at hstep
    cases hstep
    exact inv_reads h hcall hrest (by decide) hok.cleanup (by intros; contradiction) (by intros; contradiction) (by intros; contradiction) hsame
  | makeFolder =>
    simp only [State.perform, Option.some.injEq] at hstep
    subst hstep
    refine inv_folder h hcall hrest (by decide) (hok.used_of_makeFolder hrest)
      (folderStep fun old hold => ?_) (fun f hfile => .inl hfile) hok.written (by intros; contradiction)
    rw [hold]
    exact ⟨fun f hlock => hlock, fun blob hblob => hblob⟩
  | openLock =>
    simp only [State.perform] at hstep
    split at hstep
    · cases hstep
    · next folder hfolder =>
      have hused := h.used call.session (.inl (by rw [hfolder]; exact Option.some_ne_none _))
      split at hstep
      · next f hlock =>
        cases hstep
        refine inv_folder h hcall hrest (by decide) hused
          ⟨fun _ => .refl _, fun _ hsome => .inr hsome, rfl, rfl, rfl, rfl, rfl, rfl⟩ ?_
          hok.written (by intros; contradiction)
        intro g hfile
        cases hfile
        right
        rw [Slot.lock, show (State.setCall s c _).slots = s.slots from rfl, hfolder]
        exact hlock
      · next hlock =>
        cases hstep
        refine inv_folder h hcall hrest (by decide) hused (folderStep fun old hold => ?_) ?_
          hok.written (by intros; contradiction)
        · rw [hfolder] at hold
          cases hold
          refine ⟨fun f hsome => ?_, fun blob hblob => hblob⟩
          rw [hlock] at hsome
          cases hsome
        · intro g hfile
          cases hfile
          right
          simp [Slot.lock, State.setCall, State.setFolder, State.setSlot]
  | tryLock => exact inv_tryLock h hcall hrest hsettled hstep
  | listBlobs => exact inv_listBlobs h hcall hrest hstep
  | copyBlobs =>
    simp only [State.perform] at hstep
    split_ifs at hstep with hdone
    cases hstep
    exact inv_reads h hcall hrest (by decide) hok.cleanup (by intros; contradiction) (by intros; contradiction) (fun _ => hdone.1) hsame
  | syncFolder =>
    simp only [State.perform] at hstep
    split_ifs at hstep
    cases hstep
    exact inv_reads h hcall hrest (by decide) hok.cleanup (by intros; contradiction) (by intros; contradiction) (by intros; contradiction) hsame
  | copyRows => exact inv_copyRows h hcall hrest hstep
  | load =>
    simp only [State.perform] at hstep
    split_ifs at hstep with hrow
    cases hstep
    exact inv_reads h hcall hrest (by decide) (.inl rfl) (by intros; contradiction) (fun _ => hrow) (by intros; contradiction) hsame
  | lease => exact inv_lease h hcall hrest hstep
  | writeTemporary =>
    simp only [State.perform] at hstep
    split at hstep
    · next blob hkind =>
      obtain ⟨hfolder, name, hwrite⟩ := writeTemporary_step hstep
      refine inv_folder h hcall hrest (by decide) (h.used _ (.inl hfolder)) hwrite
        (fun f hfile => .inl hfile) ?_ (by intros; contradiction)
      intro other _ content hput hsome
      cases hsome
      cases hkind.symm.trans hput
      rfl
    · cases hstep
  | rename =>
    simp only [State.perform] at hstep
    obtain ⟨name, blob, htemporary, hfolder, hhas, hrenamed⟩ := rename_step hstep
    refine inv_folder h hcall hrest (by decide) (h.used _ (.inl hfolder)) hrenamed
      (fun f hfile => .inl hfile) (by intros; contradiction) ?_
    intro other _ hput
    rw [← hok.written other name blob hput htemporary]
    exact hhas
  | returned =>
    simp only [State.perform] at hstep
    split at hstep
    · next blob hkind =>
      cases hstep
      refine inv_reads h hcall hrest (by decide) hok.cleanup (by intros; contradiction) (by intros; contradiction) (by intros; contradiction) ?_
      intro id other hlog
      rcases List.mem_cons.mp hlog with heq | hold
      · cases heq
        right
        apply hok.placed blob hkind
        have hfits := hok.fits
        rw [hrest] at hfits ⊢
        rw [hfits.returned]
        decide
      · exact .inl hold
    · cases hstep
  | deleteRows => exact inv_deleteRows h hcall hrest hsettled hstep
  | dropLock => exact inv_dropLock h hcall hrest hsettled hstep
  | removeFolder => exact inv_removeFolder h hcall hrest hstep
  | save => exact inv_save h hcall hrest hstep
  | dropOwner => exact inv_dropOwner h hcall hrest hstep

theorem inv_step (h : Inv s) (hsettled : s.settled event = true)
    (hstep : s.step event = some s') : Inv s' := by
  cases event with
  | start process c kind id => exact inv_start h hstep
  | run c =>
    simp only [State.step] at hstep
    split at hstep
    · next call hcall =>
      split at hstep
      · next op rest hrest => exact inv_perform h hcall hrest hsettled hstep
      · cases hstep
    · cases hstep
  | copy c blob => exact inv_copy h hstep
  | place c => exact inv_place h hstep
  | skip c blob => exact inv_skip h hstep
  | unlink c entry => exact inv_unlink h hstep
  | fail c => exact inv_fail h hstep
  | forget c => exact inv_forget h hstep
  | drop process id => exact inv_drop h hstep
  | stop process => exact inv_stop h hstep

theorem inv_empty : Inv {} := by
  constructor
  · intro id hsome
    simp at hsome
  · intro id _
    rfl
  · intro c call hcall
    cases hcall
  · intro f holder hholder
    cases hholder
  · intro process id f howner
    cases howner
  · intro process id
    simp
  · exact List.nodup_nil
  · intro id blob hlog
    simp at hlog
  · intro id forked hrow
    exact absurd rfl hrow

structure Stays (slot slot' : Slot) : Prop where
  folder : slot.folder ≠ none → slot'.folder ≠ none
  lock : ∀ f, slot.lock = some f → slot'.lock = some f
  has : ∀ blob, slot.Has blob → slot'.Has blob

theorem Stays.refl (slot : Slot) : Stays slot slot := ⟨id, fun _ => id, fun _ => id⟩

theorem Grows.stays {slot slot' : Slot} (h : Grows slot slot') : Stays slot slot' :=
  ⟨h.folder, h.lock, h.has⟩

theorem stays_update {slot : Slot} (hslots : s'.slots = Function.update s.slots id slot)
    (hfolder : slot.folder = (s.slots id).folder) (other : SessionId) :
    Stays (s.slots other) (s'.slots other) := by
  rw [hslots]
  by_cases heq : other = id
  · subst heq
    rw [Function.update_self]
    constructor
    · rw [hfolder]
      exact fun hsome => hsome
    · intro f
      unfold Slot.lock
      rw [hfolder]
      exact fun hlock => hlock
    · intro blob
      unfold Slot.Has
      rw [hfolder]
      exact fun hhas => hhas
  · rw [Function.update_of_ne heq]
    exact .refl _

theorem perform_stays (hop : op ≠ .removeFolder) (hstep : s.perform c call op = some s')
    (id : SessionId) : Stays (s.slots id) (s'.slots id) := by
  cases op with
  | ensure | absent | copyBlobs | syncFolder | load =>
    simp only [State.perform] at hstep
    split_ifs at hstep
    cases hstep
    exact .refl _
  | makeFolder =>
    simp only [State.perform, Option.some.injEq] at hstep
    subst hstep
    refine (grows_setFolder (fun old hold => ?_) id).stays
    rw [hold]
    exact ⟨fun f hlock => hlock, fun blob hblob => hblob⟩
  | openLock =>
    simp only [State.perform] at hstep
    split at hstep
    · cases hstep
    · next folder hfolder =>
      split at hstep
      · cases hstep
        exact .refl _
      · next hlock =>
        cases hstep
        refine (grows_setFolder (s := s) (fun old hold => ?_) id).stays
        rw [hfolder] at hold
        cases hold
        refine ⟨fun f hsome => ?_, fun blob hblob => hblob⟩
        rw [hlock] at hsome
        cases hsome
  | tryLock =>
    simp only [State.perform] at hstep
    split at hstep
    · cases hstep
    · split_ifs at hstep
      cases hstep
      exact .refl _
  | listBlobs =>
    simp only [State.perform] at hstep
    split at hstep
    · split at hstep
      · cases hstep
      · cases hstep
        refine stays_update rfl ?_ id
        rfl
    · cases hstep
  | copyRows =>
    simp only [State.perform] at hstep
    split at hstep
    · split at hstep
      · cases hstep
      · cases hstep
        refine stays_update rfl ?_ id
        rfl
    · cases hstep
  | lease =>
    simp only [State.perform] at hstep
    split at hstep
    · cases hstep
    · cases hstep
      simp only [State.setCall, removeHolder_slots]
      exact .refl _
  | writeTemporary =>
    simp only [State.perform] at hstep
    split at hstep
    · obtain ⟨_, _, hwrite⟩ := writeTemporary_step hstep
      exact (hwrite.grows id).stays
    · cases hstep
  | rename =>
    obtain ⟨_, _, _, _, _, hrenamed⟩ := rename_step hstep
    exact (hrenamed.grows id).stays
  | returned =>
    simp only [State.perform] at hstep
    split at hstep
    · cases hstep
      exact .refl _
    · cases hstep
  | deleteRows =>
    cases hstep
    refine stays_update rfl ?_ id
    rfl
  | dropLock | dropOwner =>
    cases hstep
    simp only [State.setCall, removeHolder_slots]
    exact .refl _
  | removeFolder => exact absurd rfl hop
  | save =>
    simp only [State.perform] at hstep
    split at hstep
    · cases hstep
      refine stays_update rfl ?_ id
      rfl
    · cases hstep

theorem step_stays (hstep : s.step event = some s') (id : SessionId) :
    Stays (s.slots id) (s'.slots id) ∨ ∃ c call, s.calls c = some call ∧
      call.rest.head? = some .removeFolder ∧ call.session = id := by
  cases event with
  | start process c kind other =>
    left
    simp only [State.step, State.start] at hstep
    by_cases hfree : s.calls c ≠ none
    · rw [if_pos hfree] at hstep
      cases hstep
    rw [if_neg hfree] at hstep
    cases kind with
    | create =>
      simp only at hstep
      split_ifs at hstep
      cases hstep
      refine stays_update rfl ?_ id
      rfl
    | fork source cut =>
      simp only at hstep
      split at hstep
      · cases hstep
      · split_ifs at hstep
        cases hstep
        refine stays_update rfl ?_ id
        rfl
    | sweep =>
      simp only at hstep
      split_ifs at hstep
      cases hstep
      exact .refl _
    | write blobs =>
      simp only at hstep
      split at hstep <;> cases hstep <;> exact .refl _
    | «open» | put _ | delete =>
      cases hstep
      exact .refl _
  | run c =>
    simp only [State.step] at hstep
    split at hstep
    · next call hcall =>
      split at hstep
      · next op rest hrest =>
        by_cases hop : op = .removeFolder
        · subst hop
          by_cases hid : call.session = id
          · right
            exact ⟨c, call, hcall, by rw [hrest]; rfl, hid⟩
          · left
            simp only [State.perform] at hstep
            have hother : ∀ folder, (s.setFolder call.session folder).slots id = s.slots id :=
              fun folder => Function.update_of_ne (fun heq => hid heq.symm) _ _
            split at hstep
            · cases hstep
              exact .refl _
            · split_ifs at hstep
              cases hstep
              have hsame : ((s.setFolder call.session none).setCall c
                  { call with rest := rest }).slots id = s.slots id := hother none
              rw [hsame]
              exact .refl _
        · exact .inl (perform_stays hop hstep id)
      · cases hstep
    · cases hstep
  | copy c blob =>
    left
    simp only [State.step] at hstep
    split at hstep
    · split_ifs at hstep
      obtain ⟨_, _, hwrite⟩ := writeTemporary_step hstep
      exact (hwrite.grows id).stays
    · cases hstep
  | place c =>
    left
    simp only [State.step] at hstep
    split at hstep
    · split at hstep
      · obtain ⟨renamed, hrename, rfl⟩ := Option.map_eq_some_iff.mp hstep
        obtain ⟨_, _, _, _, _, hrenamed⟩ := rename_step hrename
        exact (hrenamed.grows id).stays
      · cases hstep
    · cases hstep
  | skip c blob =>
    left
    simp only [State.step] at hstep
    split at hstep
    · split_ifs at hstep
      cases hstep
      exact .refl _
    · cases hstep
  | unlink c entry =>
    simp only [State.step] at hstep
    split at hstep
    · next call hcall =>
      split_ifs at hstep with hrest
      by_cases hid : call.session = id
      · exact .inr ⟨c, call, hcall, hrest, hid⟩
      · left
        obtain ⟨folder, _, rfl⟩ := Option.map_eq_some_iff.mp hstep
        rw [show (s.setFolder call.session _).slots id = s.slots id from
          Function.update_of_ne (fun heq => hid heq.symm) _ _]
        exact .refl _
    · cases hstep
  | fail c =>
    left
    simp only [State.step] at hstep
    split at hstep
    · cases hstep
      simp only [State.setCall, removeHolder_slots]
      exact .refl _
    · cases hstep
  | forget c =>
    left
    simp only [State.step] at hstep
    split at hstep
    · split_ifs at hstep
      cases hstep
      simp only [State.setCall, removeHolder_slots]
      exact .refl _
    · cases hstep
  | drop process session =>
    left
    simp only [State.step] at hstep
    split_ifs at hstep
    cases hstep
    simp only [removeHolder_slots]
    exact .refl _
  | stop process =>
    left
    cases hstep
    exact .refl _

def SettledSteps : State → Event → State → Prop :=
  when (fun s event => s.settled event = true) (outcome State.step)

theorem run_inv {events : List Event} (hrun : Steps SettledSteps {} events s) : Inv s :=
  hrun.keeps inv_empty fun _ _ _ h hstep => inv_step h hstep.1 hstep.2

/-- What a store keeps of each saved session, whatever the processes do. -/
structure Safe (s : State) : Prop where
  /-- Each blob that a put returned or a fork copied is readable. -/
  readable : ∀ id blob, (s.slots id).row ≠ none →
    (id, blob) ∈ s.returned ∨ (id, blob) ∈ s.copied → s.readable id blob = true
  /-- A fork has the blobs that its copied events name, as far as the source had them. -/
  forked : ∀ id row forked, (s.slots id).row = some row → (s.slots id).forked = some forked →
    ∀ blobs ∈ row.events.take forked.cut, ∀ blob ∈ blobs, blob ∈ forked.had →
      s.readable id blob = true
  /-- A call removes only the folder of a session that has no row. -/
  removed : ∀ c call, s.calls c = some call → call.rest.head? = some .removeFolder →
    (s.slots call.session).row = none
  /-- No two leases are of one session. -/
  single : (s.leases.map (·.2)).Nodup
  /-- A lease has the lock of its session, and no delete of the session has one. -/
  leased : ∀ process id, (process, id) ∈ s.leases →
    (∃ f, s.owners process id = some f ∧ .owner process id ∈ s.holders f ∧
      (s.slots id).lock = some f) ∧
    ∀ c call, s.calls c = some call → call.kind = .delete → call.session = id → call.held = none
  /-- A write that a lease began keeps the lock of its session, and no other call has it. -/
  written : ∀ c call f, s.calls c = some call → call.kind.IsWrite → call.held = some f →
    call.holder c ∈ s.holders f ∧ (s.slots call.session).lock = some f ∧
    ∀ other call', s.calls other = some call' → ¬ call'.kind.IsWrite → call'.held ≠ some f

theorem Inv.safe (h : Inv s) : Safe s := by
  constructor
  · intro id blob hrow hlog
    rw [readable_iff]
    exact (h.blobs id blob hlog).resolve_left (not_gone_of_row hrow)
  · intro id row forked hrow hforked _ _ blob _ hhad
    rw [readable_iff]
    exact h.forked id forked (by rw [hrow]; exact Option.some_ne_none row) hforked blob hhad
  · intro c call hcall hrest
    exact ((h.calls c call hcall).gone_of_remove hrest).2.2
  · exact h.single
  · intro process id hlease
    obtain ⟨f, howner⟩ := Option.ne_none_iff_exists'.mp ((h.leases process id).mp hlease)
    obtain ⟨hholder, hlock, hrow⟩ := h.owners process id f howner
    refine ⟨⟨f, howner, hholder, hlock⟩, ?_⟩
    intro c call hcall hkind hsession
    cases hheld : call.held with
    | none => rfl
    | some g =>
      obtain ⟨hin, hsame⟩ := (h.calls c call hcall).held g hheld
      rw [hsession] at hsame
      rw [hsame.resolve_left (not_gone_of_row hrow)] at hlock
      cases hlock
      simp only [Call.holder, hkind] at hin
      cases h.alone hin hholder
  · intro c call f hcall hwrite hheld
    have hok := h.calls c call hcall
    obtain ⟨hholder, hlock⟩ := hok.held f hheld
    have hrow := hok.write hwrite (by rw [hheld]; exact Option.some_ne_none f)
    refine ⟨hholder, hlock.resolve_left (not_gone_of_row hrow), ?_⟩
    intro other call' hcall' hnot hheld'
    obtain ⟨hin, _⟩ := (h.calls other call' hcall').held f hheld'
    rw [holder_of_not_write hnot] at hin
    have heq := h.alone hin hholder
    have hwriter : call.holder c = .write call.process c := by
      unfold Call.holder
      split
      · rfl
      · next hkind =>
        cases hcase : call.kind with
        | write blobs => exact absurd hcase (hkind blobs)
        | _ =>
          rw [hcase] at hwrite
          exact hwrite.elim
    rw [hwriter] at heq
    cases heq

/-- A saved session keeps its folder and its blobs and has one writer. -/
theorem saved_session_safe {events : List Event} (hrun : Steps SettledSteps {} events s) :
    Safe s ∧ ∀ event s', SettledSteps s event s' → ∀ id, (s.slots id).row ≠ none →
      Stays (s.slots id) (s'.slots id) := by
  have h := run_inv hrun
  refine ⟨h.safe, ?_⟩
  intro event s' hstep id hrow
  rcases step_stays hstep.2 id with hstays | ⟨c, call, hcall, hrest, hsession⟩
  · exact hstays
  · have hnone := h.safe.removed c call hcall hrest
    rw [hsession] at hnone
    exact absurd hnone hrow

/-- The session with the id `n`. -/
def session (n : Nat) : SessionId := ⟨BitVec.ofNat 128 n⟩

def picture : Digest := ⟨Vector.replicate 32 0⟩

/-- A fork of a session with one blob. Its folder is found before its rows are there, and the lease
ends before the sweep of process 2 takes the lock. -/
def forkRun (sweep : List Event) : List Event :=
  [.start 1 0 .create (session 1), .run 0, .run 0, .run 0, .run 0,
    .start 1 1 (.put picture) (session 1), .run 1, .run 1, .run 1, .run 1, .run 1, .run 1,
    .start 1 2 (.fork (session 1) 1) (session 2), .run 2, .run 2, .start 2 3 .sweep (session 2),
    .run 3, .run 2, .run 2, .copy 2 picture, .place 2, .run 2, .run 2, .run 2, .run 2, .run 2,
    .drop 1 (session 2)] ++ sweep

def lateSweep : List Event :=
  forkRun [.run 3, .run 3, .run 3, .run 3, .unlink 3 (.blob picture), .unlink 3 .lock, .run 3]

/-- Process 2 opens the session of a create before the create takes the lock. The create fails and
deletes the rows and the folder, so a delete that found the row before takes a new lock. -/
def openedCreate : List Event :=
  [.start 1 0 .create (session 1), .start 2 1 .open (session 1), .run 1, .run 1, .run 1, .run 1,
    .run 1, .run 1, .start 3 2 .delete (session 1), .run 2, .run 0, .run 0, .fail 0, .run 0,
    .unlink 0 .lock, .run 0, .run 2, .run 2, .run 2]

theorem saved_session_safe_fork : ∃ s, Steps SettledSteps {} (forkRun [.run 3, .run 3, .fail 3]) s ∧
    ((s.slots (session 2)).row).isSome = true ∧ s.readable (session 2) picture = true := by
  have hrun : ∃ s, (forkRun [.run 3, .run 3, .fail 3]).foldlM
      (guarded (fun s event => s.settled event = true) State.step) {} = some s ∧
      ((s.slots (session 2)).row).isSome = true ∧ (session 2, picture) ∈ s.copied :=
    ⟨_, rfl, rfl, List.mem_cons_self⟩
  obtain ⟨s, hrun, hrow, hcopied⟩ := hrun
  have hsteps : Steps SettledSteps {} (forkRun [.run 3, .run 3, .fail 3]) s := Steps.of_guarded hrun
  refine ⟨s, hsteps, hrow, (saved_session_safe hsteps).1.readable _ _ ?_ (.inr hcopied)⟩
  intro hnone
  rw [hnone] at hrow
  cases hrow

/-- A sweep removes the folder of a saved session, and a failed create lets a lease and a delete hold
two locks of one session. -/
theorem sweep_removes_saved_fork :
    (∃ s, Steps (outcome State.step) {} lateSweep s ∧ ((s.slots (session 2)).row).isSome = true ∧
      (session 2, picture) ∈ s.copied ∧ (s.slots (session 2)).folder = none ∧
      s.readable (session 2) picture = false) ∧
    ∃ s, Steps (outcome State.step) {} openedCreate s ∧ (2, session 1) ∈ s.leases ∧
      s.owners 2 (session 1) = some 0 ∧ (s.calls 2).map (·.held) = some (some 1) ∧
      (s.calls 2).map (·.kind) = some .delete := by
  constructor
  · have hrun : ∃ s, lateSweep.foldlM State.step {} = some s ∧
        ((s.slots (session 2)).row).isSome = true ∧ (session 2, picture) ∈ s.copied ∧
        (s.slots (session 2)).folder = none ∧ s.readable (session 2) picture = false :=
      ⟨_, rfl, rfl, List.mem_cons_self, rfl, rfl⟩
    obtain ⟨s, hrun, hrest⟩ := hrun
    exact ⟨s, .of_foldlM hrun, hrest⟩
  · have hrun : ∃ s, openedCreate.foldlM State.step {} = some s ∧ (2, session 1) ∈ s.leases ∧
        s.owners 2 (session 1) = some 0 ∧ (s.calls 2).map (·.held) = some (some 1) ∧
        (s.calls 2).map (·.kind) = some .delete :=
      ⟨_, rfl, List.mem_cons_self, rfl, rfl, rfl⟩
    obtain ⟨s, hrun, hrest⟩ := hrun
    exact ⟨s, .of_foldlM hrun, hrest⟩

end Yuke.Store.Files
