import Yuke.Store.FilesOps

/-!
# The copies of a fork

The listing of the source notes what the source has. Each of these blobs comes to the folder of the
fork before its rows, unless the source is gone, and then the rows do not come either.
-/

set_option autoImplicit false

namespace Yuke.Store.Files

open Yuke.Ai (Digest)
open Yuke.Protocol (SessionId)

variable {s s' : State} {c c' : CallId} {call : Call} {id : SessionId} {blob : Digest} {f : LockId}
  {op : Op} {rest : List Op} {lost : Holder} {process : ProcessId}

theorem inv_listBlobs (h : Inv s) (hcall : s.calls c = some call)
    (hrest : call.rest = .listBlobs :: rest)
    (hstep : s.perform c { call with rest := rest } .listBlobs = some s') : Inv s' := by
  have hok := h.calls c call hcall
  have hfits := hok.fits
  rw [hrest] at hfits
  have hlast := hfits.listBlobs
  have hcopy : .copyRows ∈ call.rest := by
    rw [hrest, hlast]
    decide
  have hforking := hok.forking hcall hcopy
  obtain ⟨hused, source, cut, forked, hkind, hforked, hmine⟩ := hok.forker hcopy
  simp only [State.perform, hkind, hforked] at hstep
  split at hstep
  · cases hstep
  · next folder hfolder =>
    have hs' := (Option.some.inj hstep).symm
    have hself : s'.slots call.session =
        { s.slots call.session with forked := some { forked with had := folder.blobs } } := by
      rw [hs']
      exact Function.update_self ..
    have hcalls : s'.calls = Function.update s.calls c (if rest = [] then none else
        some { call with rest := rest, left := folder.blobs }) := by
      rw [hs', ← hkind]
      rfl
    have hframe : Frame s s' c (call.holder c) := by
      apply Frame.of_slot h hcall
        { s.slots call.session with forked := some { forked with had := folder.blobs } }
        { call with rest := rest, left := folder.blobs }
      · rw [hs']
        rfl
      · exact hcalls
      · rw [hs']
        rfl
      · rw [hs']
        rfl
      · rw [hs']
        rfl
      · rfl
      · intro _
        exact hcopy
      · rfl
      · rfl
      · rw [hforked]
        rfl
      · intro _
        exact hused
      · intro hgone
        exact absurd hgone (not_gone_of_forking hforking)
      · intro _ _
        exact h.forking _ hforking
      · intro hrow
        exact absurd (h.forking _ hforking) hrow
      · intro other hother hne
        rw [hforked] at hother
        cases hother
        exact absurd hmine hne
      · intro hrow
        exact absurd (h.forking _ hforking) hrow
    refine hframe.inv h rfl ?_ ?_
    · intro call' hcall'
      rw [hcalls, Function.update_self] at hcall'
      split_ifs at hcall'
      cases hcall'
      constructor
      · exact hfits.tail
      · exact hok.cleanup
      · intro _
        exact hframe.stays _ hused
      · intro _ hout
        refine absurd ?_ hout
        simp [hlast]
      · intro _
        exact ⟨hframe.stays _ hused, source, cut, { forked with had := folder.blobs }, hkind,
          congrArg Slot.forked hself, hmine⟩
      · intro hdelete
        cases hdelete.symm.trans hkind
      · intro hremove
        simp [hlast] at hremove
      · intro f hfile
        exact hframe.lock_of (hok.file f hfile)
      · intro f hheld
        obtain ⟨hholder, hlock⟩ := hok.held f hheld
        rw [hs']
        exact ⟨hholder, hs' ▸ hframe.lock_of hlock⟩
      · intro _ _
        apply hok.locked
        · rw [hrest, hlast]
          decide
        · left
          rw [hrest, hlast]
          decide
      · intro hlease
        simp [hlast] at hlease
      · intro hwrite
        rw [hkind] at hwrite
        exact hwrite.elim
      · exact hok.written
      · intro blob hput
        cases hput.symm.trans hkind
      · intro source' cut' forked' hkind' _ _ hforked' blob hblob
        cases hkind.symm.trans hkind'
        rw [hself] at hforked'
        cases hforked'
        by_cases hgone : Gone s source
        · exact .inl (hframe.gone_of_gone hgone)
        · right
          exact ⟨hframe.has _ _ hgone ⟨folder, hfolder, hblob⟩, .inl hblob⟩
      · intro _ hout
        refine absurd ?_ hout
        simp [hlast]
    · intro id blob hlog
      rw [hs'] at hlog
      exact .inl hlog

theorem inv_copyRows (h : Inv s) (hcall : s.calls c = some call)
    (hrest : call.rest = .copyRows :: rest)
    (hstep : s.perform c { call with rest := rest } .copyRows = some s') : Inv s' := by
  have hok := h.calls c call hcall
  have hfits := hok.fits
  rw [hrest] at hfits
  have hlast := hfits.copyRows
  have hcopy : .copyRows ∈ call.rest := by
    rw [hrest]
    exact List.mem_cons_self
  have hforking := hok.forking hcall hcopy
  obtain ⟨hused, source, cut, forked, hkind, hforked, hmine⟩ := hok.forker hcopy
  simp only [State.perform, hkind] at hstep
  split at hstep
  · cases hstep
  · next row hrow =>
    have hs' := (Option.some.inj hstep).symm
    have hself : s'.slots call.session =
        { s.slots call.session with row := some ⟨row.events.take cut⟩ } := by
      rw [hs']
      exact Function.update_self ..
    have hcalls : s'.calls = Function.update s.calls c
        (if rest = [] then none else some { call with rest := rest }) := by
      rw [hs', ← hkind]
      rfl
    have hsource : ¬ Gone s source := by
      apply not_gone_of_row
      rw [hrow]
      exact Option.some_ne_none row
    -- Nothing is left to copy, so each blob that the source had is in the folder.
    have hleft : call.left = [] := by
      apply hok.copied hcopy
      rw [hrest, hlast]
      decide
    have hhad : ∀ blob ∈ forked.had, (s.slots call.session).Has blob := by
      intro blob hblob
      have hcopied := hok.copying source cut forked hkind hcopy (by rw [hrest, hlast]; decide)
        hforked blob hblob
      obtain ⟨_, hin | hhas⟩ := hcopied.resolve_left hsource
      · rw [hleft] at hin
        cases hin
      · exact hhas
    have hdone : s'.forking call.session = true → False := by
      intro hstill
      obtain ⟨other, call', hother, hcall', _, hin⟩ := forking_iff.mp hstill
      rw [hself] at hother
      have heq : forked = other := Option.some.inj (hforked.symm.trans hother)
      subst heq
      rw [hmine, hcalls, Function.update_self] at hcall'
      split_ifs at hcall'
      cases hcall'
      simp [hlast] at hin
    have hframe : Frame s s' c (call.holder c) := by
      apply Frame.of_slot h hcall { s.slots call.session with row := some ⟨row.events.take cut⟩ }
        { call with rest := rest }
      · rw [hs']
        rfl
      · exact hcalls
      · rw [hs']
        rfl
      · rw [hs']
        rfl
      · rw [hs']
        rfl
      · rfl
      · intro _
        exact hcopy
      · rfl
      · rfl
      · rfl
      · intro _
        exact hused
      · intro hgone
        exact absurd hgone (not_gone_of_forking hforking)
      · intro _ hstill
        exact (hdone hstill).elim
      · intro hnone
        exact absurd (h.forking _ hforking) hnone
      · intro other hother _
        exact hother
      · intro _ other hother
        have heq : forked = other := Option.some.inj (hforked.symm.trans hother)
        rw [← heq]
        exact hhad
    refine hframe.inv h rfl ?_ ?_
    · intro call' hcall'
      rw [hcalls, Function.update_self] at hcall'
      split_ifs at hcall'
      cases hcall'
      constructor
      · exact hfits.tail
      · exact hok.cleanup
      · intro _
        exact hframe.stays _ hused
      · intro _ _ _ _
        refine ⟨hframe.stays _ hused, ?_⟩
        cases hstill : s'.forking call.session with
        | false => rfl
        | true => exact (hdone hstill).elim
      · intro hin
        simp [hlast] at hin
      · intro hdelete
        cases hdelete.symm.trans hkind
      · intro hremove
        simp [hlast] at hremove
      · intro f hfile
        exact hframe.lock_of (hok.file f hfile)
      · intro f hheld
        obtain ⟨hholder, hlock⟩ := hok.held f hheld
        rw [hs']
        exact ⟨hholder, hs' ▸ hframe.lock_of hlock⟩
      · intro _ _
        apply hok.locked
        · rw [hrest, hlast]
          decide
        · left
          rw [hrest, hlast]
          decide
      · intro hlease
        simp [hlast] at hlease
      · intro hwrite
        rw [hkind] at hwrite
        exact hwrite.elim
      · exact hok.written
      · intro blob hput
        cases hput.symm.trans hkind
      · intro _ _ _ _ hin
        simp [hlast] at hin
      · intro hin
        simp [hlast] at hin
    · intro id blob hlog
      rw [hs'] at hlog
      exact .inl hlog

/-! ## The loop of the copies -/

theorem copying_iff : s.copying c = some call ↔
    s.calls c = some call ∧ call.rest.head? = some .copyBlobs := by
  unfold State.copying
  constructor
  · intro h
    split at h
    · next other hother =>
      split_ifs at h with hrest
      cases h
      exact ⟨hother, hrest⟩
    · cases h
  · rintro ⟨hcall, hrest⟩
    simp [hcall, hrest]

theorem source_of_kind {source : SessionId} {cut : Nat} (hkind : call.kind = .fork source cut) :
    State.source? call = some source := by
  unfold State.source?
  rw [hkind]

theorem Fits.copyBlobs {kind : Kind} (h : Fits kind rest) (hin : .copyBlobs ∈ rest)
    (blob : Digest) : kind ≠ .put blob := by
  rcases h with h | h <;> cases kind <;> have hin' := h.subset hin <;>
    simp_all [Kind.program, Kind.cleanup]

theorem CallOk.setLeft (h : CallOk s c call) (hrest : call.rest.head? = some .copyBlobs)
    {temporary : Option (Temporary × Digest)} {left : List Digest}
    (hleft : ∀ source cut, call.kind = .fork source cut → ∀ blob ∈ call.left,
      Gone s source ∨ ¬ (s.slots source).Has blob ∨ blob ∈ left ∨
        (s.slots call.session).Has blob) :
    CallOk s c { call with temporary := temporary, left := left } := by
  have hin : .copyBlobs ∈ call.rest := List.mem_of_mem_head? hrest
  refine ⟨h.fits, h.cleanup, h.swept, h.known, h.forker, h.deleted, h.removing, h.file, ?_, h.locked,
    h.lease, h.write, ?_, h.placed, ?_, ?_⟩
  · exact h.held
  · intro blob name content hput
    exact absurd hput (h.fits.copyBlobs hin blob)
  · intro source cut forked hkind hcopy hlist hforked blob hblob
    rcases h.copying source cut forked hkind hcopy hlist hforked blob hblob with
      hgone | ⟨hsource, hold | hhas⟩
    · exact .inl hgone
    · rcases hleft source cut hkind blob hold with hgone | hnot | hnew
      · exact .inl hgone
      · exact absurd hsource hnot
      · exact .inr ⟨hsource, hnew⟩
    · exact .inr ⟨hsource, .inr hhas⟩
  · intro _ hout
    exact absurd hin hout

theorem inv_loop (h : Inv s) (hcall : s.calls c = some call)
    (hrest : call.rest.head? = some .copyBlobs) {temporary : Option (Temporary × Digest)}
    {left : List Digest}
    (hstep : FolderStep s s' c call.session { call with temporary := temporary, left := left })
    {s'' : State} (hs'' : s'' = { s' with copied := s''.copied })
    (hcopied : ∀ id blob, (id, blob) ∈ s''.copied →
      (id, blob) ∈ s.copied ∨ (s'.slots id).Has blob)
    (hold : ∀ id, (s'.slots id).folder ≠ none → (s.slots id).folder ≠ none)
    (hleft : ∀ source cut, call.kind = .fork source cut → ∀ blob ∈ call.left,
      ¬ (s'.slots source).Has blob ∨ blob ∈ left ∨ (s'.slots call.session).Has blob) :
    Inv s'' := by
  have hok := h.calls c call hcall
  have hin : .copyBlobs ∈ call.rest := List.mem_of_mem_head? hrest
  have hne : call.rest ≠ [] := List.ne_nil_of_mem hin
  have hslots : s''.slots = s'.slots := by rw [hs'']
  have hcalls : s''.calls = Function.update s.calls c
      (some { call with temporary := temporary, left := left }) := by
    rw [hs'']
    simpa [hne] using hstep.calls
  have hholders : s''.holders = s.holders := by
    rw [hs'']
    exact hstep.holders
  have hframe : Frame s s'' c (call.holder c) := by
    apply Frame.of_rows h
    · intro other hother
      rw [hcalls, Function.update_of_ne hother]
    · intro call' hcall' hcopy
      rw [hcalls, Function.update_self] at hcall'
      cases hcall'
      exact ⟨call, hcall, rfl, hcopy⟩
    · rw [hs'']
      exact hstep.owners
    · rw [hs'']
      exact hstep.leases
    · intro id
      rw [hslots]
      exact (hstep.grows id).toRows
    · intro id _
      rw [hslots]
      exact hstep.grows id
    · intro id hsome
      rw [hslots] at hsome
      exact h.used id (.inl (hold id hsome))
    · intro f holder hholder _
      rwa [hholders]
    · rw [hholders]
      exact h.exclusive
  refine hframe.inv h rfl ?_ ?_
  · intro call' hcall'
    rw [hcalls, Function.update_self] at hcall'
    cases hcall'
    refine (hframe.callOk hok hcall ?_ ?_).setLeft hrest ?_
    · intro forked hforked _
      rw [hslots]
      exact (hstep.grows _).forked.trans hforked
    · intro f hholder
      rwa [hholders]
    · intro source cut hkind blob hblob
      rw [hslots]
      exact .inr (hleft source cut hkind blob hblob)
  · intro id blob hlog
    rcases hlog with hlog | hlog
    · rw [hs''] at hlog
      have hold := hstep.returned ▸ hlog
      exact .inl (.inl hold)
    · rcases hcopied id blob hlog with hold | hhas
      · exact .inl (.inr hold)
      · right
        right
        rwa [hslots]

theorem inv_copy (h : Inv s) (hstep : s.step (.copy c blob) = some s') : Inv s' := by
  simp only [State.step] at hstep
  split at hstep
  · next call hcopying =>
    obtain ⟨hcall, hrest⟩ := copying_iff.mp hcopying
    split_ifs at hstep
    obtain ⟨hfolder, temporary, hfolderStep⟩ := writeTemporary_step hstep
    refine inv_loop h hcall hrest hfolderStep rfl ?_ (hfolderStep.old hfolder) ?_
    · intro id blob hlog
      rw [hfolderStep.copied] at hlog
      exact .inl hlog
    · intro _ _ _ blob hblob
      exact .inr (.inl hblob)
  · cases hstep

theorem inv_place (h : Inv s) (hstep : s.step (.place c) = some s') : Inv s' := by
  simp only [State.step] at hstep
  split at hstep
  · next call hcopying =>
    obtain ⟨hcall, hrest⟩ := copying_iff.mp hcopying
    split at hstep
    · next name blob htemporary =>
      obtain ⟨renamed, hrename, rfl⟩ := Option.map_eq_some_iff.mp hstep
      obtain ⟨_, _, hsame, hfolder, hhas, hfolderStep⟩ := rename_step hrename
      cases htemporary.symm.trans hsame
      refine inv_loop h hcall hrest hfolderStep rfl ?_ (hfolderStep.old hfolder) ?_
      · intro id other hlog
        rcases List.mem_cons.mp hlog with heq | hold
        · cases heq
          exact .inr hhas
        · rw [hfolderStep.copied] at hold
          exact .inl hold
      · intro _ _ _ other hother
        by_cases heq : other = blob
        · rw [heq]
          exact .inr (.inr hhas)
        · right
          left
          exact List.mem_filter.mpr ⟨hother, decide_eq_true heq⟩
    · cases hstep
  · cases hstep

theorem inv_skip (h : Inv s) (hstep : s.step (.skip c blob) = some s') : Inv s' := by
  simp only [State.step] at hstep
  split at hstep
  · next call hcopying =>
    obtain ⟨hcall, hrest⟩ := copying_iff.mp hcopying
    split_ifs at hstep with hmissing
    cases hstep
    have hstay : FolderStep s (s.setCall c { call with left := call.left.filter (· ≠ blob) }) c
        call.session { call with left := call.left.filter (· ≠ blob) } :=
      ⟨fun _ => .refl _, fun _ hsome => .inr hsome, rfl, rfl, rfl, rfl, rfl, rfl⟩
    refine inv_loop h hcall hrest hstay rfl ?_ (fun _ hsome => hsome) ?_
    · intro id other hlog
      exact .inl hlog
    · intro source cut hkind other hother
      by_cases heq : other = blob
      · left
        rw [source_of_kind hkind] at hmissing
        rw [heq, ← readable_iff]
        exact hmissing
      · right
        left
        exact List.mem_filter.mpr ⟨hother, decide_eq_true heq⟩
  · cases hstep

end Yuke.Store.Files
