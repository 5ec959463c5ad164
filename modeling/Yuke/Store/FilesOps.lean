import Yuke.Store.FilesSteps

/-!
# The operations

The lemma of each operation. The steps that keep the rows go through their frame, and the four
operations on the rows change one slot.
-/

set_option autoImplicit false

namespace Yuke.Store.Files

open Yuke.Ai (Digest)
open Yuke.Protocol (SessionId)

variable {s s' : State} {c c' : CallId} {call : Call} {id : SessionId} {blob : Digest} {f : LockId}
  {op : Op} {rest : List Op} {lost : Holder} {process : ProcessId}

/-! ## Operations that end with less -/

theorem Fits.ensure {kind : Kind} (h : Fits kind rest) (hin : .ensure ∈ rest) :
    kind.cleanup = [] := by
  rcases h with h | h <;> cases kind <;> have hin' := h.subset hin <;>
    simp_all [Kind.program, Kind.cleanup]

theorem Fits.dropOwner {kind : Kind} (h : Fits kind (.dropOwner :: rest)) : rest = [] := by
  rcases h.cases with h | h <;> cases kind <;> simp_all [Kind.program, Kind.cleanup]

theorem Fits.tryLock {kind : Kind} (h : Fits kind (.tryLock :: rest)) : ¬ kind.IsWrite := by
  rcases h.cases with h | h <;> cases kind <;> simp_all [Kind.program, Kind.cleanup, Kind.IsWrite]

theorem kind_of_cleanup {kind : Kind} (h : kind.cleanup ≠ []) :
    kind.cleanup = [.deleteRows, .removeFolder] ∧ (kind = .create ∨ ∃ source cut,
      kind = .fork source cut) := by
  cases kind <;> simp_all [Kind.cleanup]

theorem known_of_failed (h : Inv s) (hcall : s.calls c = some call) (hcleanup : call.kind.cleanup ≠ [])
    (hslots : s'.slots = s.slots) (hcalls : ∀ other, other ≠ c → s'.calls other = s.calls other)
    (hout : ∀ call', s'.calls c = some call' → .copyRows ∉ call'.rest) : Known s' call.session := by
  have hok := h.calls c call hcall
  obtain ⟨_, hkind⟩ := kind_of_cleanup hcleanup
  have hfork : ∀ {other}, s'.forking call.session = true → (s.slots call.session).forked = some other →
      other.call ≠ c ∧ s.forking call.session = true := by
    intro other hforking hother
    obtain ⟨forked, call', hforked, hcall', hsession, hcopy⟩ := forking_iff.mp hforking
    rw [hslots, hother] at hforked
    cases hforked
    have hne : other.call ≠ c := by
      intro heq
      rw [heq] at hcall'
      exact hout call' hcall' hcopy
    rw [hcalls _ hne] at hcall'
    exact ⟨hne, forking_iff.mpr ⟨other, call', hother, hcall', hsession, hcopy⟩⟩
  have hnone : s'.forking call.session = true → False := by
    intro hforking
    obtain ⟨forked, _, hforked, _⟩ := forking_iff.mp hforking
    rw [hslots] at hforked
    obtain ⟨hne, hold⟩ := hfork hforking hforked
    by_cases hcopy : .copyRows ∈ call.rest
    · obtain ⟨_, _, _, mine, _, hmine, hcallee⟩ := hok.forker hcopy
      rw [hforked] at hmine
      cases hmine
      exact hne hcallee
    · have hknown := hok.known (fun hin => hcleanup (hok.fits.ensure hin)) hcopy
        (by rcases hkind with hkind | ⟨_, _, hkind⟩ <;> simp [hkind])
        (by rcases hkind with hkind | ⟨_, _, hkind⟩ <;> simp [hkind, Kind.IsWrite])
      rw [hknown.2] at hold
      cases hold
  constructor
  · rw [hslots]
    by_cases hcopy : .copyRows ∈ call.rest
    · exact (hok.forker hcopy).1
    · exact (hok.known (fun hin => hcleanup (hok.fits.ensure hin)) hcopy
        (by rcases hkind with hkind | ⟨_, _, hkind⟩ <;> simp [hkind])
        (by rcases hkind with hkind | ⟨_, _, hkind⟩ <;> simp [hkind, Kind.IsWrite])).1
  · cases hforking : s'.forking call.session with
    | false => rfl
    | true => exact (hnone hforking).elim

theorem inv_fail (h : Inv s) (hstep : s.step (.fail c) = some s') : Inv s' := by
  simp only [State.step] at hstep
  split at hstep
  · next call hcall =>
    have hok := h.calls c call hcall
    have hcleanup : call.cleanup ≠ [] → call.kind.cleanup ≠ [] ∧ call.cleanup = call.kind.cleanup := by
      intro hne
      have heq := hok.cleanup.resolve_left hne
      rw [heq] at hne
      exact ⟨hne, heq⟩
    have hout : ∀ {op}, op ∈ call.cleanup → op = .deleteRows ∨ op = .removeFolder := by
      intro op hop
      obtain ⟨hne, heq⟩ := hcleanup (List.ne_nil_of_mem hop)
      rw [heq, (kind_of_cleanup hne).1] at hop
      simpa using hop
    have hcopies : .copyRows ∉ call.cleanup := by
      intro hcopy
      rcases hout hcopy with heq | heq <;> cases heq
    have hs' := (Option.some.inj hstep).symm
    refine inv_release h hcall _ hs' rfl (fun hcopy => absurd hcopy hcopies) ?_
    intro hslots hframe hrest
    obtain ⟨hne, heq⟩ := hcleanup hrest
    obtain ⟨hops, hkind⟩ := kind_of_cleanup hne
    have hknown : Known s' call.session := by
      refine known_of_failed h hcall hne hslots hframe.calls ?_
      intro call' hcall'
      rw [hs'] at hcall'
      simp only [State.setCall, Function.update_self] at hcall'
      split_ifs at hcall'
      cases hcall'
      exact hcopies
    constructor
    · right
      exact heq ▸ List.suffix_rfl
    · exact .inl rfl
    · intro _
      exact hknown.1
    · intro _ _ _ _
      exact hknown
    · intro hcopy
      exact absurd hcopy hcopies
    · intro hdelete
      rcases hkind with hkind | ⟨_, _, hkind⟩ <;> cases hdelete.symm.trans hkind
    · intro _ hrows
      refine absurd ?_ hrows
      simp [heq, hops]
    · intro f hfile
      cases hfile
    · intro f hheld
      cases hheld
    · intro _ hin
      rcases hin with hin | ⟨hdelete, _⟩
      · rcases hout hin with heq | heq <;> cases heq
      · rcases hkind with hkind | ⟨_, _, hkind⟩ <;> cases hdelete.symm.trans hkind
    · intro hlease
      cases hlease.symm.trans (heq.trans hops)
    · intro _ hheld
      exact absurd rfl hheld
    · intro blob name content hput
      rcases hkind with hkind | ⟨_, _, hkind⟩ <;> cases hput.symm.trans hkind
    · intro blob hput
      rcases hkind with hkind | ⟨_, _, hkind⟩ <;> cases hput.symm.trans hkind
    · intro source cut forked _ hcopy
      exact absurd hcopy hcopies
    · intro hcopy
      exact absurd hcopy hcopies
  · cases hstep

theorem inv_forget (h : Inv s) (hstep : s.step (.forget c) = some s') : Inv s' := by
  simp only [State.step] at hstep
  split at hstep
  · next call hcall =>
    split_ifs at hstep
    refine inv_release h hcall _ (Option.some.inj hstep).symm rfl ?_ ?_
    · intro hcopy
      cases hcopy
    · intro _ _ hrest
      exact absurd rfl hrest
  · cases hstep

theorem inv_dropOwner (h : Inv s) (hcall : s.calls c = some call)
    (hrest : call.rest = .dropOwner :: rest)
    (hstep : s.perform c { call with rest := rest } .dropOwner = some s') : Inv s' := by
  refine inv_release h hcall _ (Option.some.inj hstep).symm rfl ?_ fun _ _ hne => ?_
  · intro hcopy
    rw [hrest]
    exact List.mem_cons_of_mem _ hcopy
  have hfits := (h.calls c call hcall).fits
  rw [hrest] at hfits
  exact absurd hfits.dropOwner hne

theorem inv_dropLock (h : Inv s) (hcall : s.calls c = some call)
    (hrest : call.rest = .dropLock :: rest) (hsettled : s.settled (.run c) = true)
    (hstep : s.perform c { call with rest := rest } .dropLock = some s') : Inv s' := by
  refine inv_release h hcall _ (Option.some.inj hstep).symm rfl ?_ fun hslots hframe _ => ?_
  · intro hcopy
    rw [hrest]
    exact List.mem_cons_of_mem _ hcopy
  have hok := h.calls c call hcall
  have hfits := hok.fits
  rw [hrest] at hfits
  obtain ⟨hlast, hkind⟩ := hfits.dropLock
  have hgone : Gone s call.session := by
    rcases hkind with hsweep | hdelete
    · simp only [State.settled, hcall, hrest, hsweep] at hsettled
      simp only [ne_eq, not_true_eq_false, false_or, Bool.not_eq_true, decide_eq_true_eq] at hsettled
      exact ⟨⟨hok.swept hsweep, hsettled.2⟩, hsettled.1⟩
    · refine hok.deleted hdelete ?_
      rw [hrest, hlast]
      decide
  apply hok.advance hcall hrest hframe
  · rw [hslots]
  · decide
  · exact hok.cleanup
  · intro heq
    cases heq
  · intro _
    exact hframe.gone_of_gone hgone
  · intro f hfile
    exact hframe.lock_of (hok.file f hfile)
  · intro f hheld
    cases hheld
  · intro _ hin
    rw [hlast] at hin
    simp at hin
  · intro hlease
    rw [hlast] at hlease
    cases hlease
  · intro _ hheld
    exact absurd rfl hheld
  · exact hok.written
  · intro blob heq
    cases heq
  · intro heq
    cases heq

theorem inv_tryLock (h : Inv s) (hcall : s.calls c = some call)
    (hrest : call.rest = .tryLock :: rest) (hsettled : s.settled (.run c) = true)
    (hstep : s.perform c { call with rest := rest } .tryLock = some s') : Inv s' := by
  have hok := h.calls c call hcall
  have hfits := hok.fits
  rw [hrest] at hfits
  simp only [State.perform] at hstep
  split at hstep
  · cases hstep
  · next f hfile =>
    split_ifs at hstep with hfree
    cases hstep
    have hframe : Frame s ({ s with holders := Function.update s.holders f [call.holder c] }.setCall
        c { call with rest := rest, held := some f }) c (call.holder c) := by
      apply Frame.of_rows h
      · intro other hne
        exact Function.update_of_ne hne _ _
      · intro call' hcall' hcopy
        simp only [State.setCall, Function.update_self] at hcall'
        split_ifs at hcall'
        cases hcall'
        refine ⟨call, hcall, rfl, ?_⟩
        rw [hrest]
        exact List.mem_cons_of_mem _ hcopy
      · rfl
      · rfl
      · intro id
        exact ⟨rfl, rfl, rfl⟩
      · intro id _
        exact .refl _
      · intro id hfolder
        exact h.used id (.inl hfolder)
      · intro g holder hholder _
        by_cases heq : g = f
        · subst heq
          rw [hfree] at hholder
          cases hholder
        · simpa [State.setCall, heq] using hholder
      · intro g
        by_cases heq : g = f
        · subst heq
          simp only [State.setCall, Function.update_self]
          exact exclusive_single _
        · simpa [State.setCall, heq] using h.exclusive g
    refine hframe.inv h rfl ?_ fun id blob hlog => .inl hlog
    intro call' hcall'
    simp only [State.setCall, Function.update_self] at hcall'
    split_ifs at hcall'
    cases hcall'
    apply hok.advance hcall hrest hframe
    · rfl
    · decide
    · exact hok.cleanup
    · intro heq
      cases heq
    · intro heq
      cases heq
    · intro g hg
      exact hframe.lock_of (hok.file g hg)
    · intro g hg
      cases hg
      refine ⟨?_, hframe.lock_of (hok.file f hfile)⟩
      simp [State.setCall]
    · intro _ _ hnone
      cases hnone
    · intro hlease
      rw [hlease] at hfits
      rcases hfits.before_lease with hop | ⟨_, hkind⟩
      · cases hop
      · have hrow : (s.slots call.session).row ≠ none := by
          simpa [State.settled, hcall, hrest, hkind] using hsettled
        exact hrow
    · intro hwrite
      exact absurd hwrite hfits.tryLock
    · exact hok.written
    · intro blob heq
      cases heq
    · intro heq
      cases heq

theorem CallOk.gone_of_remove (hok : CallOk s c call) (hrest : call.rest.head? = some .removeFolder) :
    call.rest = [.removeFolder] ∧ Gone s call.session := by
  obtain ⟨rest, heq⟩ := List.head?_eq_some_iff.mp hrest
  have hfits := hok.fits
  rw [heq] at hfits
  rw [hfits.removeFolder] at heq
  refine ⟨heq, ?_⟩
  apply hok.removing <;> simp [heq]

theorem frame_of_gone (h : Inv s) (hcall : s.calls c = some call) (hgone : Gone s id)
    (folder : Option Folder) (next : Option Call)
    (hnext : ∀ call', next = some call' → call' = call) :
    Frame s { s.setFolder id folder with calls := Function.update s.calls c next } c
      (call.holder c) := by
  have hrows : ∀ other, Rows (s.slots other) ((s.setFolder id folder).slots other) := by
    intro other
    by_cases heq : other = id
    · subst heq
      simp only [State.setFolder, State.setSlot, Function.update_self]
      exact ⟨rfl, rfl, rfl⟩
    · simp only [State.setFolder, State.setSlot, Function.update_of_ne heq]
      exact ⟨rfl, rfl, rfl⟩
  apply Frame.of_rows h
  · intro other hne
    exact Function.update_of_ne hne _ _
  · intro call' hcall' hcopy
    simp only [Function.update_self] at hcall'
    rw [hnext call' hcall'] at hcopy ⊢
    exact ⟨call, hcall, rfl, hcopy⟩
  · rfl
  · rfl
  · exact hrows
  · intro other hother
    have hne : other ≠ id := by
      rintro rfl
      exact hother hgone
    simp only [State.setFolder, State.setSlot, Function.update_of_ne hne]
    exact .refl _
  · intro other hfolder
    by_cases heq : other = id
    · subst heq
      exact hgone.1.1
    · simp only [State.setFolder, State.setSlot, Function.update_of_ne heq] at hfolder
      exact h.used other (.inl hfolder)
  · intro f holder hholder _
    exact hholder
  · exact h.exclusive

theorem inv_removeFolder (h : Inv s) (hcall : s.calls c = some call)
    (hrest : call.rest = .removeFolder :: rest)
    (hstep : s.perform c { call with rest := rest } .removeFolder = some s') : Inv s' := by
  obtain ⟨hlast, hgone⟩ := (h.calls c call hcall).gone_of_remove (by rw [hrest]; rfl)
  have hend : rest = [] := by
    rw [hrest] at hlast
    simpa using hlast
  subst hend
  have hinv : ∀ folder, Inv { s.setFolder call.session folder with
      calls := Function.update s.calls c none } := by
    intro folder
    refine (frame_of_gone h hcall hgone folder none ?_).inv h rfl ?_ fun id blob hlog => .inl hlog
    · intro call' hcall'
      cases hcall'
    · intro call' hcall'
      simp only [Function.update_self] at hcall'
      cases hcall'
  simp only [State.perform] at hstep
  split at hstep
  · next hnone =>
    cases hstep
    have hsame := hinv none
    simp only [State.setFolder, State.setSlot] at hsame
    rw [← hnone, Function.update_eq_self] at hsame
    exact hsame
  · split_ifs at hstep
    cases hstep
    exact hinv none

theorem inv_unlink (h : Inv s) {entry : Entry} (hstep : s.step (.unlink c entry) = some s') :
    Inv s' := by
  simp only [State.step] at hstep
  split at hstep
  · next call hcall =>
    split_ifs at hstep with hrest
    obtain ⟨folder, _, rfl⟩ := Option.map_eq_some_iff.mp hstep
    have hok := h.calls c call hcall
    obtain ⟨_, hgone⟩ := hok.gone_of_remove hrest
    have hframe := frame_of_gone h hcall hgone (some (folder.unlink entry)) (some call) fun call' hcall' => (Option.some.inj hcall').symm
    rw [← hcall, Function.update_eq_self] at hframe
    refine hframe.inv h rfl ?_ fun id blob hlog => .inl hlog
    intro call' hcall'
    have heq : call = call' := Option.some.inj (hcall.symm.trans hcall')
    subst heq
    apply hframe.callOk hok hcall
    · intro forked hforked _
      simp only [State.setFolder, State.setSlot, Function.update_self]
      exact hforked
    · intro f hholder
      exact hholder
  · cases hstep

/-! ## Operations on the rows -/

theorem Frame.of_slot (h : Inv s) (hcall : s.calls c = some call) (slot : Slot) (call' : Call)
    (hslots : s'.slots = Function.update s.slots call.session slot)
    (hcalls : s'.calls = Function.update s.calls c (if call'.rest = [] then none else some call'))
    (howners : s'.owners = s.owners) (hleases : s'.leases = s.leases)
    (hholders : s'.holders = s.holders) (hsession : call'.session = call.session)
    (hcopy : .copyRows ∈ call'.rest → .copyRows ∈ call.rest)
    (hused : slot.used = (s.slots call.session).used)
    (hfolder : slot.folder = (s.slots call.session).folder)
    (hsource : slot.forked.map (·.call) = (s.slots call.session).forked.map (·.call))
    (hsome : slot.row ≠ none → (s.slots call.session).used = true)
    (hgone : Gone s call.session → slot.row = none)
    (hforking : s.forking call.session = true → s'.forking call.session = true → slot.row = none)
    (howned : (s.slots call.session).row ≠ none → s.owned call.session = true → slot.row ≠ none)
    (hothers : ∀ forked, (s.slots call.session).forked = some forked → forked.call ≠ c →
      slot.forked = some forked)
    (hhad : slot.row ≠ none → ∀ forked, slot.forked = some forked → ∀ blob ∈ forked.had,
      (s.slots call.session).Has blob) : Frame s s' c (call.holder c) := by
  have hself : s'.slots call.session = slot := by rw [hslots, Function.update_self]
  have hother : ∀ id, id ≠ call.session → s'.slots id = s.slots id := by
    intro id hne
    rw [hslots, Function.update_of_ne hne]
  have hstill : ∀ id, s'.forking id = true → s.forking id = true := by
    intro id
    apply forking_of
    · intro id
      by_cases heq : id = call.session
      · rw [heq, hself, hsource]
      · rw [hother id heq]
    · intro other call'' hcall'' hin
      by_cases heq : other = c
      · subst heq
        rw [hcalls, Function.update_self] at hcall''
        split_ifs at hcall''
        cases hcall''
        exact ⟨call, hcall, hsession.symm, hcopy hin⟩
      · rw [hcalls, Function.update_of_ne heq] at hcall''
        exact ⟨call'', hcall'', rfl, hin⟩
  have hsame : ∀ id, (s'.slots id).used = (s.slots id).used ∧
      (s'.slots id).folder = (s.slots id).folder := by
    intro id
    by_cases heq : id = call.session
    · rw [heq, hself]
      exact ⟨hused, hfolder⟩
    · rw [hother id heq]
      exact ⟨rfl, rfl⟩
  have hlock : ∀ id, (s'.slots id).lock = (s.slots id).lock := by
    intro id
    unfold Slot.lock
    rw [(hsame id).2]
  have hhas : ∀ id blob, (s.slots id).Has blob → (s'.slots id).Has blob := by
    intro id blob
    unfold Slot.Has
    rw [(hsame id).2]
    exact fun h => h
  have hkept : Kept s s' c := by
    constructor
    · intro id hold
      rwa [(hsame id).1]
    · intro id hknown
      constructor
      · rw [(hsame id).1]
        exact hknown.1
      · cases hfork : s'.forking id with
        | false => rfl
        | true =>
          rw [← hknown.2]
          exact (hstill id hfork).symm
    · intro id hold
      by_cases heq : id = call.session
      · subst heq
        rw [hself]
        exact hgone hold
      · rw [hother id heq]
        exact hold.2
    · intro id _ hold
      rwa [(hsame id).2]
    · intro id f _ hold
      rwa [hlock]
    · intro id blob _ hold
      exact hhas id blob hold
    · intro id hrow hown
      by_cases heq : id = call.session
      · subst heq
        rw [hself]
        exact howned hrow hown
      · rwa [hother id heq]
    · intro id forked hforked hne
      by_cases heq : id = call.session
      · subst heq
        rw [hself]
        exact hothers forked hforked hne
      · rwa [hother id heq]
  refine ⟨hkept, ?_, howners, hleases, ?_, ?_, ?_, ?_, ?_⟩
  · intro other hne
    rw [hcalls, Function.update_of_ne hne]
  · intro id hany
    rw [(hsame id).1]
    by_cases heq : id = call.session
    · subst heq
      rw [hself] at hany
      rcases hany with hany | hany | hany
      · rw [hfolder] at hany
        exact h.used _ (.inl hany)
      · exact hsome hany
      · refine h.used _ (.inr (.inr fun hnone => hany ?_))
        rw [hnone] at hsource
        simpa using hsource
    · rw [hother id heq] at hany
      exact h.used id hany
  · intro id hfork
    by_cases heq : id = call.session
    · subst heq
      rw [hself]
      exact hforking (hstill _ hfork) hfork
    · rw [hother id heq]
      exact h.forking id (hstill id hfork)
  · intro id forked hrow hforked blob hblob
    apply hhas
    by_cases heq : id = call.session
    · subst heq
      rw [hself] at hrow hforked
      exact hhad hrow forked hforked blob hblob
    · rw [hother id heq] at hrow hforked
      exact h.forked id forked hrow hforked blob hblob
  · intro f holder hholder _
    rwa [hholders]
  · rw [hholders]
    exact h.exclusive

theorem CallOk.forking (hok : CallOk s c call) (hcall : s.calls c = some call)
    (hcopy : .copyRows ∈ call.rest) : s.forking call.session = true := by
  obtain ⟨_, _, _, forked, _, hforked, heq⟩ := hok.forker hcopy
  exact forking_iff.mpr ⟨forked, call, hforked, by rw [heq]; exact hcall, rfl, hcopy⟩

theorem inv_save (h : Inv s) (hcall : s.calls c = some call) (hrest : call.rest = .save :: rest)
    (hstep : s.perform c { call with rest := rest } .save = some s') : Inv s' := by
  have hok := h.calls c call hcall
  simp only [State.perform] at hstep
  split at hstep
  · next blobs row hkind hrow =>
    have hs' := (Option.some.inj hstep).symm
    have hself : s'.slots call.session =
        { s.slots call.session with row := some ⟨row.events ++ [blobs]⟩ } := by
      rw [hs']
      exact Function.update_self ..
    have hcalls : s'.calls = Function.update s.calls c
        (if rest = [] then none else some { call with rest := rest }) := by
      rw [hs']
      rfl
    have hsome : (s.slots call.session).row ≠ none := by
      rw [hrow]
      exact Option.some_ne_none row
    have hnext : (s'.slots call.session).row ≠ none := by
      rw [hself]
      exact Option.some_ne_none _
    have hknown := h.known_of_row hsome
    have hframe : Frame s s' c (call.holder c) := by
      apply Frame.of_slot h hcall { s.slots call.session with row := some ⟨row.events ++ [blobs]⟩ }
        { call with rest := rest }
      · rw [hs']
        rfl
      · exact hcalls
      · rw [hs']
        rfl
      · rw [hs']
        rfl
      · rw [hs']
        rfl
      · rfl
      · intro hcopy
        rw [hrest]
        exact List.mem_cons_of_mem _ hcopy
      · rfl
      · rfl
      · rfl
      · intro _
        exact hknown.1
      · intro hgone
        exact absurd hgone (not_gone_of_row hsome)
      · intro hforking
        rw [hknown.2] at hforking
        cases hforking
      · intro _ _ hnone
        cases hnone
      · intro forked hforked _
        exact hforked
      · intro _ forked hforked
        exact h.forked _ forked hsome hforked
    refine hframe.inv h rfl ?_ ?_
    · intro call' hcall'
      rw [hcalls, Function.update_self] at hcall'
      split_ifs at hcall'
      cases hcall'
      apply hok.advance hcall hrest hframe
      · rw [hself]
      · decide
      · exact hok.cleanup
      · intro heq
        cases heq
      · intro heq
        cases heq
      · intro f hfile
        exact hframe.lock_of (hok.file f hfile)
      · intro f hheld
        obtain ⟨hholder, hlock⟩ := hok.held f hheld
        rw [hs']
        exact ⟨hholder, hs' ▸ hframe.lock_of hlock⟩
      · intro hout hin
        apply hok.locked
        · rw [hrest, List.mem_cons, not_or]
          exact ⟨by decide, hout⟩
        · rw [hrest]
          rcases hin with hin | ⟨hdelete, hin⟩
          · exact .inl (List.mem_cons_of_mem _ hin)
          · exact .inr ⟨hdelete, List.mem_cons_of_mem _ hin⟩
      · intro _
        exact hnext
      · intro _ _
        exact hnext
      · exact hok.written
      · intro blob heq
        cases heq
      · intro heq
        cases heq
    · intro id blob hlog
      rw [hs'] at hlog
      exact .inl hlog
  · cases hstep

theorem not_owned_of_delete (h : Inv s) (hcall : s.calls c = some call)
    (hrest : call.rest = .deleteRows :: rest) (hsettled : s.settled (.run c) = true)
    (hrow : (s.slots call.session).row ≠ none) : s.owned call.session = false := by
  have hok := h.calls c call hcall
  have hfits := hok.fits
  rw [hrest] at hfits
  rcases hfits.deleteRows with ⟨hkind, hlast⟩ | ⟨_, hkind⟩
  · have hheld : call.held ≠ none := by
      apply hok.locked
      · rw [hrest, hlast]
        decide
      · right
        rw [hrest]
        exact ⟨hkind, List.mem_cons_self⟩
    obtain ⟨f, hf⟩ := Option.ne_none_iff_exists'.mp hheld
    obtain ⟨hholder, hlock⟩ := hok.held f hf
    have hlock' := hlock.resolve_left (not_gone_of_row hrow)
    cases howned : s.owned call.session with
    | false => rfl
    | true =>
      obtain ⟨g, hg, holder, hin, howns⟩ := owned_iff.mp howned
      rw [hlock'] at hg
      cases hg
      have heq := h.exclusive f _ hholder _ hin
      simp only [Call.holder, hkind] at heq
      have hsame : Holder.call call.process c = holder := by
        cases holder with
        | call _ _ => exact heq
        | owner _ _ => exact heq
        | write _ _ => exact heq
      subst hsame
      simp [State.owns, hcall, hrest] at howns
  · have hne : call.kind ≠ .delete := by
      rcases hkind with hkind | ⟨_, _, hkind⟩ <;> simp [hkind]
    simpa [State.settled, hcall, hrest, hne] using hsettled

theorem inv_deleteRows (h : Inv s) (hcall : s.calls c = some call)
    (hrest : call.rest = .deleteRows :: rest) (hsettled : s.settled (.run c) = true)
    (hstep : s.perform c { call with rest := rest } .deleteRows = some s') : Inv s' := by
  have hok := h.calls c call hcall
  have hfits := hok.fits
  rw [hrest] at hfits
  have hs' := (Option.some.inj hstep).symm
  have hself : s'.slots call.session = { s.slots call.session with row := none } := by
    rw [hs']
    exact Function.update_self ..
  have hcalls : s'.calls = Function.update s.calls c
      (if rest = [] then none else some { call with rest := rest }) := by
    rw [hs']
    rfl
  have hkind : call.kind ≠ .sweep ∧ ¬ call.kind.IsWrite ∧ (∀ blob, call.kind ≠ .put blob) := by
    rcases hfits.deleteRows with ⟨hkind, _⟩ | ⟨_, hkind | ⟨_, _, hkind⟩⟩ <;>
      simp [hkind, Kind.IsWrite]
  have hout : ∀ {op}, op ∈ rest → op = .dropLock ∨ op = .removeFolder := by
    intro op hop
    rcases hfits.deleteRows with ⟨_, hlast⟩ | ⟨hlast, _⟩
    · rw [hlast] at hop
      simpa using hop
    · rw [hlast] at hop
      simp only [List.mem_singleton] at hop
      exact .inr hop
  have hnot : ∀ op, op ≠ .dropLock → op ≠ .removeFolder → op ∉ rest := by
    intro op hdrop hremove hop
    rcases hout hop with heq | heq
    · exact hdrop heq
    · exact hremove heq
  have hknown : Known s call.session := by
    apply hok.known
    · rw [hrest, List.mem_cons, not_or]
      exact ⟨by decide, hnot _ (by decide) (by decide)⟩
    · rw [hrest, List.mem_cons, not_or]
      exact ⟨by decide, hnot _ (by decide) (by decide)⟩
    · exact hkind.1
    · exact hkind.2.1
  have hframe : Frame s s' c (call.holder c) := by
    apply Frame.of_slot h hcall { s.slots call.session with row := none } { call with rest := rest }
    · rw [hs']
      rfl
    · exact hcalls
    · rw [hs']
      rfl
    · rw [hs']
      rfl
    · rw [hs']
      rfl
    · rfl
    · intro hcopy
      exact absurd hcopy (hnot _ (by decide) (by decide))
    · rfl
    · rfl
    · rfl
    · intro hsome
      exact absurd rfl hsome
    · intro _
      rfl
    · intro _ _
      rfl
    · intro hrow howned
      rw [not_owned_of_delete h hcall hrest hsettled hrow] at howned
      cases howned
    · intro forked hforked _
      exact hforked
    · intro hsome
      exact absurd rfl hsome
  have hgone : Gone s' call.session := by
    refine ⟨hframe.known _ hknown, ?_⟩
    rw [hself]
  refine hframe.inv h rfl ?_ ?_
  · intro call' hcall'
    rw [hcalls, Function.update_self] at hcall'
    split_ifs at hcall'
    cases hcall'
    constructor
    · exact hfits.tail
    · exact hok.cleanup
    · intro _
      exact hgone.1.1
    · intro _ _ _ _
      exact hgone.1
    · intro hcopy
      exact absurd hcopy (hnot _ (by decide) (by decide))
    · intro _ _
      exact hgone
    · intro _ _ _
      exact hgone
    · intro _ _
      exact .inl hgone
    · intro f hheld
      rw [hs']
      exact ⟨(hok.held f hheld).1, .inl (hs' ▸ hgone)⟩
    · intro _ hin
      rcases hin with hin | ⟨_, hin⟩
      · exact absurd hin (hnot _ (by decide) (by decide))
      · exact absurd hin (hnot _ (by decide) (by decide))
    · intro hlease
      have hin : Op.lease ∈ rest := by
        rw [show rest = [.lease] from hlease]
        exact List.mem_singleton_self _
      exact absurd hin (hnot _ (by decide) (by decide))
    · intro hwrite
      exact absurd hwrite hkind.2.1
    · exact hok.written
    · intro blob hput
      exact absurd hput (hkind.2.2 blob)
    · intro _ _ _ _ hcopy
      exact absurd hcopy (hnot _ (by decide) (by decide))
    · intro hcopy
      exact absurd hcopy (hnot _ (by decide) (by decide))
  · intro id blob hlog
    rw [hs'] at hlog
    exact .inl hlog

end Yuke.Store.Files
