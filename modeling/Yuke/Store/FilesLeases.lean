import Yuke.Store.FilesForks

/-!
# The leases and the starts of the calls

A lease takes over the lock of its call. A write clones the lock of the owners, and a create or a fork
generates its id.
-/

set_option autoImplicit false

namespace Yuke.Store.Files

open Yuke.Ai (Digest)
open Yuke.Protocol (SessionId)

variable {s s' : State} {c c' : CallId} {call : Call} {id : SessionId} {blob : Digest} {f : LockId}
  {op : Op} {rest : List Op} {process : ProcessId}

/-! ## Leases -/

theorem inv_holders (h : Inv s) (hslots : s'.slots = s.slots)
    (hcalls : ∀ c call, s'.calls c = some call → s.calls c = some call)
    (hreturned : s'.returned = s.returned) (hcopied : s'.copied = s.copied)
    (hstays : ∀ c call, s'.calls c = some call → ∀ f, call.holder c ∈ s.holders f →
      call.holder c ∈ s'.holders f)
    (hexclusive : ∀ f, Exclusive (s'.holders f))
    (howners : ∀ process id f, s'.owners process id = some f → .owner process id ∈ s'.holders f ∧
      (s.slots id).lock = some f ∧ (s.slots id).row ≠ none)
    (hleases : ∀ process id, (process, id) ∈ s'.leases ↔ s'.owners process id ≠ none)
    (hsingle : (s'.leases.map (·.2)).Nodup) : Inv s' := by
  have hforking : ∀ id, s'.forking id = true → s.forking id = true := by
    intro id
    apply forking_of
    · intro id
      rw [hslots]
    · intro c call hcall hcopy
      exact ⟨call, hcalls c call hcall, rfl, hcopy⟩
  have hkept : ∀ c, Kept s s' c := by
    intro c
    constructor
    · intro id hused
      rwa [hslots]
    · intro id hknown
      constructor
      · rw [hslots]
        exact hknown.1
      · cases hfork : s'.forking id with
        | false => rfl
        | true =>
          rw [← hknown.2]
          exact (hforking id hfork).symm
    · intro id hgone
      rw [hslots]
      exact hgone.2
    · intro id _ hfolder
      rwa [hslots]
    · intro id f _ hlock
      rwa [hslots]
    · intro id blob _ hhas
      rwa [hslots]
    · intro id hrow _
      rwa [hslots]
    · intro id forked hforked _
      rwa [hslots]
  constructor
  · rw [hslots]
    exact h.used
  · intro id hfork
    rw [hslots]
    exact h.forking id (hforking id hfork)
  · intro c call hcall
    have hold := hcalls c call hcall
    apply (hkept c).callOk (h.calls c call hold) hold
    · intro forked hforked _
      rwa [hslots]
    · exact hstays c call hcall
  · exact hexclusive
  · intro process id f howner
    rw [hslots]
    exact howners process id f howner
  · exact hleases
  · exact hsingle
  · intro id blob hlog
    rw [hreturned, hcopied] at hlog
    exact (hkept 0).has_of (h.blobs id blob hlog)
  · rw [hslots]
    exact h.forked

theorem inv_drop (h : Inv s) (hstep : s.step (.drop process id) = some s') : Inv s' := by
  simp only [State.step] at hstep
  split_ifs at hstep with hlease
  cases hstep
  apply inv_holders h
  · exact removeHolder_slots _ _ _
  · intro c call hcall
    simpa using hcall
  · exact removeHolder_returned _ _ _
  · exact removeHolder_copied _ _ _
  · intro c call _ f hholder
    exact mem_removeHolder hholder (holder_ne_owner call process)
  · intro f
    exact (h.exclusive f).subset fun holder => of_mem_removeHolder
  · intro other session f howner
    have hne : (other, session) ≠ (process, id) := by
      rintro ⟨⟩
      simp at howner
    have hold : s.owners other session = some f := by
      by_cases heq : other = process
      · subst heq
        have hsession : session ≠ id := fun heq => hne (by rw [heq])
        simpa [hsession] using howner
      · simpa [heq] using howner
    obtain ⟨hholder, hlock, hrow⟩ := h.owners other session f hold
    refine ⟨mem_removeHolder hholder ?_, hlock, hrow⟩
    intro heq
    cases heq
    exact hne rfl
  · intro other session
    have hnodup : s.leases.Nodup := List.Nodup.of_map _ h.single
    by_cases heq : (other, session) = (process, id)
    · cases heq
      simp [hnodup.mem_erase_iff]
    · have hsame : (Function.update s.owners process
          (Function.update (s.owners process) id none)) other session = s.owners other session := by
        by_cases hother : other = process
        · subst hother
          have hsession : session ≠ id := fun hsame => heq (by rw [hsame])
          simp [hsession]
        · simp [hother]
      simp only [removeHolder_owners, removeHolder_leases]
      rw [hsame, ← h.leases, hnodup.mem_erase_iff]
      exact ⟨fun hin => hin.2, fun hin => ⟨heq, hin⟩⟩
  · simp only [removeHolder_leases]
    exact h.single.sublist ((List.erase_sublist ..).map _)

theorem inv_stop (h : Inv s) (hstep : s.step (.stop process) = some s') : Inv s' := by
  cases hstep
  apply inv_holders h
  · rfl
  · intro c call hcall
    exact (Option.filter_eq_some_iff.mp hcall).1
  · rfl
  · rfl
  · intro c call hcall f hholder
    have hprocess := (Option.filter_eq_some_iff.mp hcall).2
    refine List.mem_filter.mpr ⟨hholder, ?_⟩
    have hsame : (call.holder c).process = call.process := by
      unfold Call.holder
      split <;> rfl
    rwa [hsame]
  · intro f
    exact (h.exclusive f).subset fun holder hholder => (List.mem_filter.mp hholder).1
  · intro other id f howner
    have hne : other ≠ process := by
      rintro rfl
      simp at howner
    simp only [Function.update_of_ne hne] at howner
    obtain ⟨hholder, hrest⟩ := h.owners other id f howner
    exact ⟨List.mem_filter.mpr ⟨hholder, decide_eq_true hne⟩, hrest⟩
  · intro other id
    by_cases heq : other = process
    · subst heq
      simp
    · simp [heq, h.leases]
  · exact h.single.sublist ((List.filter_sublist ..).map _)

theorem Fits.not_write {kind : Kind} (h : Fits kind [.lease]) : ¬ kind.IsWrite := by
  rcases h.cases with h | h <;> cases kind <;> simp_all [Kind.program, Kind.cleanup, Kind.IsWrite]

theorem holder_of_not_write (hwrite : ¬ call.kind.IsWrite) :
    call.holder c = .call call.process c := by
  unfold Call.holder
  split
  · next hkind =>
    rw [hkind] at hwrite
    exact (hwrite trivial).elim
  · rfl

theorem Inv.alone (h : Inv s) {holder : Holder} (hcall : .call process c ∈ s.holders f)
    (hholder : holder ∈ s.holders f) : holder = .call process c := by
  have hcompatible := h.exclusive f _ hcall _ hholder
  cases holder with
  | call _ _ => exact hcompatible.symm
  | owner _ _ => exact hcompatible.symm
  | write _ _ => exact hcompatible.symm

theorem inv_lease (h : Inv s) (hcall : s.calls c = some call) (hrest : call.rest = .lease :: rest)
    (hstep : s.perform c { call with rest := rest } .lease = some s') : Inv s' := by
  have hok := h.calls c call hcall
  have hfits := hok.fits
  rw [hrest] at hfits
  have hend := hfits.lease
  subst hend
  have hwrite := hfits.not_write
  have hrow := hok.lease hrest
  simp only [State.perform] at hstep
  split at hstep
  · cases hstep
  · next f hheld =>
    obtain ⟨hin, hlock⟩ := hok.held f hheld
    have hlock' := hlock.resolve_left (not_gone_of_row hrow)
    rw [holder_of_not_write hwrite] at hin
    -- The owners of no store have the session, since the call holds its lock alone.
    have hfree : ∀ other, s.owners other call.session = none := by
      intro other
      cases howner : s.owners other call.session with
      | none => rfl
      | some g =>
        obtain ⟨hholder, hsame, _⟩ := h.owners other call.session g howner
        rw [hlock'] at hsame
        cases hsame
        cases h.alone hin hholder
    have hs' := (Option.some.inj hstep).symm
    rw [hfree] at hs'
    have hholders : ∀ g, s'.holders g = if g = f then
        .owner call.process call.session ::
          (s.holders f).filter (· ≠ Holder.call call.process c) else s.holders g := by
      intro g
      have hsame : ({ call with rest := [] } : Call).holder c = .call call.process c :=
        holder_of_not_write hwrite
      rw [hs']
      by_cases heq : g = f
      · subst heq
        simp [State.setCall, State.removeHolder, hsame]
      · simp [State.setCall, State.removeHolder, heq]
    have hmem : ∀ g holder, holder ∈ s.holders g → holder ≠ .call call.process c →
        holder ∈ s'.holders g := by
      intro g holder hholder hne
      rw [hholders]
      split_ifs with heq
      · subst heq
        exact List.mem_cons_of_mem _ (List.mem_filter.mpr ⟨hholder, decide_eq_true hne⟩)
      · exact hholder
    have howners : s'.owners = Function.update s.owners call.process
        (Function.update (s.owners call.process) call.session (some f)) := by
      rw [hs']
      rfl
    have hleases : s'.leases = (call.process, call.session) :: s.leases := by
      rw [hs']
      rfl
    have hout : ∀ other, (other, call.session) ∉ s.leases := by
      intro other hlease
      exact (h.leases other call.session).mp hlease (hfree other)
    apply inv_holders h
    · rw [hs']
      rfl
    · intro other call' hcall'
      by_cases heq : other = c
      · subst heq
        rw [hs'] at hcall'
        simp [State.setCall] at hcall'
      · rw [hs'] at hcall'
        simpa [State.setCall, State.removeHolder, heq] using hcall'
    · rw [hs']
      rfl
    · rw [hs']
      rfl
    · intro other call' hcall' g hholder
      refine hmem g _ hholder fun hsame => ?_
      have heq : other = c := by
        rw [← holder_of_not_write hwrite] at hsame
        exact holder_inj hsame
      subst heq
      rw [hs'] at hcall'
      simp [State.setCall] at hcall'
    · intro g
      rw [hholders]
      split_ifs with heq
      · have hnone : (s.holders f).filter (· ≠ Holder.call call.process c) = [] := by
          rw [List.filter_eq_nil_iff]
          intro holder hholder
          simp [h.alone hin hholder]
        rw [hnone]
        exact exclusive_single _
      · exact h.exclusive g
    · intro other id g howner
      rw [howners] at howner
      by_cases heq : other = call.process ∧ id = call.session
      · obtain ⟨rfl, rfl⟩ := heq
        simp only [Function.update_self, Option.some.injEq] at howner
        subst howner
        refine ⟨?_, hlock', hrow⟩
        rw [hholders, if_pos rfl]
        exact List.mem_cons_self
      · have hold : s.owners other id = some g := by
          by_cases hother : other = call.process
          · subst hother
            have hid : id ≠ call.session := fun hid => heq ⟨rfl, hid⟩
            simpa [hid] using howner
          · simpa [hother] using howner
        obtain ⟨hholder, hrest⟩ := h.owners other id g hold
        exact ⟨hmem g _ hholder (by simp), hrest⟩
    · intro other id
      rw [howners, hleases, List.mem_cons, h.leases]
      by_cases hother : other = call.process
      · subst hother
        by_cases hid : id = call.session
        · subst hid
          simp
        · simp [hid]
      · simp [hother]
    · rw [hleases, List.map_cons, List.nodup_cons]
      refine ⟨?_, h.single⟩
      intro hin
      obtain ⟨⟨other, id⟩, hlease, hid⟩ := List.mem_map.mp hin
      simp only at hid
      subst hid
      exact hout other hlease

/-! ## The start of a call -/

theorem callOk_begin {kind : Kind} (hkind : kind.cleanup = [])
    (hsweep : kind = .sweep → (s.slots id).used = true) {held : Option LockId}
    (hheld : ∀ f, held = some f → kind.IsWrite ∧
      ({ Call.begin kind process id with held := held } : Call).holder c ∈ s.holders f ∧
      (s.slots id).lock = some f ∧ (s.slots id).row ≠ none) :
    CallOk s c { Call.begin kind process id with held := held } := by
  constructor
  · exact .inl List.suffix_rfl
  · exact .inr rfl
  · exact hsweep
  · intro hensure _ hne hwrite
    cases kind <;> simp_all [Call.begin, Kind.program, Kind.cleanup, Kind.IsWrite]
  · intro hcopy
    cases kind <;> simp_all [Call.begin, Kind.program, Kind.cleanup]
  · intro hdelete hout
    cases kind <;> simp_all [Call.begin, Kind.program]
  · intro hremove hrows hdrop
    cases kind <;> simp_all [Call.begin, Kind.program, Kind.cleanup]
  · intro f hfile
    cases hfile
  · intro f hf
    obtain ⟨_, hin, hlock, _⟩ := hheld f hf
    exact ⟨hin, .inr hlock⟩
  · intro hout hin
    cases kind <;> simp_all [Call.begin, Kind.program, Kind.cleanup]
  · intro hlease
    cases kind <;> simp_all [Call.begin, Kind.program, Kind.cleanup]
  · intro _ hne
    obtain ⟨f, hf⟩ := Option.ne_none_iff_exists'.mp hne
    exact (hheld f hf).2.2.2
  · intro blob name content _ hsome
    cases hsome
  · intro blob hput hout
    cases kind <;> simp_all [Call.begin, Kind.program]
  · intro source cut forked hfork
    cases kind <;> simp_all [Call.begin, Kind.program, Kind.cleanup]
  · intro hcopy
    cases kind <;> simp_all [Call.begin, Kind.program, Kind.cleanup]

theorem Inv.slot_of_unused (h : Inv s) (hunused : (s.slots id).used = false) :
    (s.slots id).folder = none ∧ (s.slots id).row = none ∧ (s.slots id).forked = none := by
  have hnot : ¬ ((s.slots id).folder ≠ none ∨ (s.slots id).row ≠ none ∨
      (s.slots id).forked ≠ none) := by
    intro hsome
    rw [h.used id hsome] at hunused
    cases hunused
  simpa [not_or] using hnot

theorem frame_new (h : Inv s) (call : Call) (hunused : (s.slots call.session).used = false)
    (slot : Slot)
    (hs' : s' = { s with
      slots := Function.update s.slots call.session slot
      calls := Function.update s.calls c (some call) })
    (hused : slot.used = true) (hforked : slot.row = none ∨ slot.forked = none) : Frame s s' c (call.holder c) := by
  obtain ⟨hnofolder, _, hnofork⟩ := h.slot_of_unused hunused
  have hself : s'.slots call.session = slot := by
    rw [hs']
    exact Function.update_self ..
  have hother : ∀ id, id ≠ call.session → s'.slots id = s.slots id := by
    intro id hne
    rw [hs']
    exact Function.update_of_ne hne ..
  have hcalls : ∀ other, other ≠ c → s'.calls other = s.calls other := by
    intro other hne
    rw [hs']
    exact Function.update_of_ne hne ..
  have hforking : ∀ id, id ≠ call.session → s'.forking id = true → s.forking id = true := by
    intro id hne hfork
    obtain ⟨forked, call', hsome, hcall', hsession, hin⟩ := forking_iff.mp hfork
    rw [hother id hne] at hsome
    have hnot : forked.call ≠ c := by
      intro heq
      rw [heq, hs'] at hcall'
      simp only [Function.update_self, Option.some.injEq] at hcall'
      rw [← hcall'] at hsession
      exact hne hsession.symm
    rw [hcalls _ hnot] at hcall'
    exact forking_iff.mpr ⟨forked, call', hsome, hcall', hsession, hin⟩
  have hknown_ne : ∀ {id}, (s.slots id).used = true → id ≠ call.session := by
    rintro id hid rfl
    rw [hunused] at hid
    cases hid
  have hkept : Kept s s' c := by
    constructor
    · intro id hid
      rwa [hother id (hknown_ne hid)]
    · intro id hknown
      have hne := hknown_ne hknown.1
      constructor
      · rw [hother id hne]
        exact hknown.1
      · cases hfork : s'.forking id with
        | false => rfl
        | true =>
          rw [← hknown.2]
          exact (hforking id hne hfork).symm
    · intro id hgone
      rw [hother id (hknown_ne hgone.1.1)]
      exact hgone.2
    · intro id _ hsome
      by_cases heq : id = call.session
      · rw [heq] at hsome
        exact absurd hnofolder hsome
      · rwa [hother id heq]
    · intro id f _ hlock
      by_cases heq : id = call.session
      · rw [heq, Slot.lock, hnofolder] at hlock
        cases hlock
      · rwa [hother id heq]
    · intro id blob _ hhas
      by_cases heq : id = call.session
      · obtain ⟨folder, hsome, _⟩ := hhas
        rw [heq, hnofolder] at hsome
        cases hsome
      · rwa [hother id heq]
    · intro id hrow _
      rwa [hother id (hknown_ne (h.used id (.inr (.inl hrow))))]
    · intro id forked hsome _
      have hid := h.used id (.inr (.inr (by rw [hsome]; exact Option.some_ne_none _)))
      rwa [hother id (hknown_ne hid)]
  refine ⟨hkept, hcalls, ?_, ?_, ?_, ?_, ?_, ?_, ?_⟩
  · rw [hs']
  · rw [hs']
  · intro id hsome
    by_cases heq : id = call.session
    · rw [heq, hself]
      exact hused
    · rw [hother id heq] at hsome ⊢
      exact h.used id hsome
  · intro id hfork
    by_cases heq : id = call.session
    · obtain ⟨forked, call', hsome, hcall', hsession, hin⟩ := forking_iff.mp hfork
      rw [heq, hself] at hsome ⊢
      by_contra hrow
      rcases hforked with hnone | hnone
      · exact hrow hnone
      · rw [hnone] at hsome
        cases hsome
    · rw [hother id heq]
      exact h.forking id (hforking id heq hfork)
  · intro id forked hrow hsome blob hblob
    by_cases heq : id = call.session
    · rw [heq, hself] at hrow hsome
      rcases hforked with hnone | hnone
      · exact absurd hnone hrow
      · rw [hnone] at hsome
        cases hsome
    · rw [hother id heq] at hrow hsome ⊢
      exact h.forked id forked hrow hsome blob hblob
  · intro f holder hholder _
    rwa [hs']
  · intro f
    rw [hs']
    exact h.exclusive f

theorem inv_create (h : Inv s) (hunused : (s.slots id).used = false)
    (hs' : s' = (s.setSlot id { s.slots id with used := true, row := some ⟨[[]]⟩ }).setCall c
      (Call.begin .create process id)) : Inv s' := by
  obtain ⟨_, _, hforked⟩ := h.slot_of_unused hunused
  have hframe : Frame s s' c ((Call.begin .create process id).holder c) := by
    exact frame_new h (Call.begin .create process id) hunused _ hs' rfl (.inr hforked)
  have hself : s'.slots id = { s.slots id with used := true, row := some ⟨[[]]⟩ } := by
    rw [hs']
    exact Function.update_self ..
  have hknown : Known s' id := by
    constructor
    · rw [hself]
    · cases hfork : s'.forking id with
      | false => rfl
      | true =>
        obtain ⟨_, _, hsome, _⟩ := forking_iff.mp hfork
        rw [hself] at hsome
        cases hforked.symm.trans hsome
  refine hframe.inv h rfl ?_ ?_
  · intro call' hcall'
    rw [hs'] at hcall'
    simp only [State.setCall, Function.update_self] at hcall'
    cases hcall'
    constructor
    · exact .inl List.suffix_rfl
    · exact .inr rfl
    · intro hsweep
      cases hsweep
    · intro _ _ _ _
      exact hknown
    · intro hcopy
      simp [Call.begin, Kind.program] at hcopy
    · intro hdelete
      cases hdelete
    · intro hremove
      simp [Call.begin, Kind.program] at hremove
    · intro f hfile
      cases hfile
    · intro f hheld
      cases hheld
    · intro hout
      simp [Call.begin, Kind.program] at hout
    · intro hlease
      cases hlease
    · intro hwrite
      exact hwrite.elim
    · intro blob name content hput
      cases hput
    · intro blob hput
      cases hput
    · intro source cut forked hfork
      cases hfork
    · intro hcopy
      simp [Call.begin, Kind.program] at hcopy
  · intro id blob hlog
    rw [hs'] at hlog
    exact .inl hlog

theorem inv_fork (h : Inv s) {source : SessionId} {cut : Nat}
    (hunused : (s.slots id).used = false)
    (hs' : s' = (s.setSlot id
      { s.slots id with used := true, forked := some ⟨c, source, cut, []⟩ }).setCall c
      (Call.begin (.fork source cut) process id)) : Inv s' := by
  obtain ⟨_, hrow, _⟩ := h.slot_of_unused hunused
  have hframe : Frame s s' c ((Call.begin (.fork source cut) process id).holder c) := by
    exact frame_new h (Call.begin (.fork source cut) process id) hunused _ hs' rfl (.inl hrow)
  have hself : s'.slots id =
      { s.slots id with used := true, forked := some ⟨c, source, cut, []⟩ } := by
    rw [hs']
    exact Function.update_self ..
  refine hframe.inv h rfl ?_ ?_
  · intro call' hcall'
    rw [hs'] at hcall'
    simp only [State.setCall, Function.update_self] at hcall'
    cases hcall'
    constructor
    · exact .inl List.suffix_rfl
    · exact .inr rfl
    · intro hsweep
      cases hsweep
    · intro _ hout
      simp [Call.begin, Kind.program] at hout
    · intro _
      exact ⟨congrArg Slot.used hself, source, cut, ⟨c, source, cut, []⟩, rfl,
        congrArg Slot.forked hself, rfl⟩
    · intro hdelete
      cases hdelete
    · intro hremove
      simp [Call.begin, Kind.program] at hremove
    · intro f hfile
      cases hfile
    · intro f hheld
      cases hheld
    · intro hout
      simp [Call.begin, Kind.program] at hout
    · intro hlease
      cases hlease
    · intro hwrite
      exact hwrite.elim
    · intro blob name content hput
      cases hput
    · intro blob hput
      cases hput
    · intro _ _ _ _ _ hout
      simp [Call.begin, Kind.program] at hout
    · intro _ hout
      simp [Call.begin, Kind.program] at hout
  · intro id blob hlog
    rw [hs'] at hlog
    exact .inl hlog

theorem exclusive_write {holders : List Holder} (h : Exclusive holders)
    (howner : .owner process id ∈ holders) {writer : ProcessId} :
    Exclusive (.write writer c :: holders) := by
  have hshares : ∀ holder ∈ holders, Holder.Compatible (.write writer c) holder ∧
      Holder.Compatible holder (.write writer c) := by
    intro holder hin
    have hcompatible := h _ howner holder hin
    cases holder with
    | call _ _ => cases hcompatible
    | owner _ _ => exact ⟨trivial, trivial⟩
    | write _ _ => exact ⟨trivial, trivial⟩
  intro one hone other hother
  rcases List.mem_cons.mp hone with rfl | hone
  · rcases List.mem_cons.mp hother with rfl | hother
    · trivial
    · exact (hshares other hother).1
  · rcases List.mem_cons.mp hother with rfl | hother
    · exact (hshares one hone).2
    · exact h one hone other hother

theorem Kind.no_copyRows {kind : Kind} (h : kind.cleanup = []) : .copyRows ∉ kind.program := by
  cases kind <;> simp_all [Kind.program, Kind.cleanup]

theorem inv_begin (h : Inv s) (c : CallId) (kind : Kind) (process : ProcessId) (id : SessionId)
    (hkind : kind.cleanup = [])
    (hsweep : kind = .sweep → (s.slots id).used = true) (held : Option LockId)
    (hs' : s' = { s with
      holders := s'.holders
      calls := Function.update s.calls c (some { Call.begin kind process id with held := held }) })
    (hholders : ∀ f holder, holder ∈ s.holders f → holder ∈ s'.holders f)
    (hexclusive : ∀ f, Exclusive (s'.holders f))
    (hheld : ∀ f, held = some f → kind.IsWrite ∧
      ({ Call.begin kind process id with held := held } : Call).holder c ∈ s'.holders f ∧
      (s.slots id).lock = some f ∧ (s.slots id).row ≠ none) : Inv s' := by
  have hslots : s'.slots = s.slots := by rw [hs']
  have hframe : Frame s s' c ((Call.begin kind process id).holder c) := by
    apply Frame.of_rows h
    · intro other hne
      rw [hs']
      exact Function.update_of_ne hne _ _
    · intro call' hcall' hcopy
      rw [hs'] at hcall'
      simp only [Function.update_self, Option.some.injEq] at hcall'
      subst hcall'
      exact absurd hcopy (Kind.no_copyRows hkind)
    · rw [hs']
    · rw [hs']
    · intro id
      rw [hslots]
      exact ⟨rfl, rfl, rfl⟩
    · intro id _
      rw [hslots]
      exact .refl _
    · intro id hfolder
      rw [hslots] at hfolder
      exact h.used id (.inl hfolder)
    · intro f holder hholder _
      exact hholders f holder hholder
    · exact hexclusive
  refine hframe.inv h rfl ?_ ?_
  · intro call' hcall'
    rw [hs'] at hcall'
    simp only [Function.update_self, Option.some.injEq] at hcall'
    subst hcall'
    refine callOk_begin hkind ?_ ?_
    · rwa [hslots]
    · rwa [hslots]
  · intro id blob hlog
    rw [hs'] at hlog
    exact .inl hlog

theorem inv_start (h : Inv s) {kind : Kind} (hstep : s.step (.start process c kind id) = some s') :
    Inv s' := by
  simp only [State.step, State.start] at hstep
  by_cases hfree : s.calls c ≠ none
  · rw [if_pos hfree] at hstep
    cases hstep
  rw [if_neg hfree] at hstep
  have hplain : kind.cleanup = [] → (kind = .sweep → (s.slots id).used = true) →
      Inv (s.setCall c (Call.begin kind process id)) := by
    intro hcleanup hsweep
    refine inv_begin h c kind process id hcleanup hsweep none ?_ (fun _ _ hin => hin) h.exclusive ?_
    · have hprogram : (Call.begin kind process id).rest ≠ [] := by
        cases kind <;> simp [Call.begin, Kind.program]
      simp only [State.setCall, hprogram, if_false]
      rfl
    · intro f hf
      cases hf
  cases kind with
  | create =>
    simp only at hstep
    split_ifs at hstep with hused
    exact inv_create h (by simpa using hused) (Option.some.inj hstep).symm
  | fork source cut =>
    simp only at hstep
    split at hstep
    · cases hstep
    · split_ifs at hstep with hused
      rw [not_or] at hused
      exact inv_fork h (by simpa using hused.1) (Option.some.inj hstep).symm
  | sweep =>
    simp only at hstep
    split_ifs at hstep with hfolder
    cases hstep
    exact hplain rfl fun _ => h.used id (.inl hfolder)
  | write blobs =>
    simp only at hstep
    split at hstep
    · cases hstep
      exact hplain rfl (by intros; contradiction)
    · next f howner =>
      obtain ⟨hholder, hlock, hrow⟩ := h.owners process id f howner
      cases hstep
      refine inv_begin h c (.write blobs) process id rfl (by intros; contradiction) (some f) rfl ?_ ?_ ?_
      · intro g holder hin
        by_cases heq : g = f
        · subst heq
          simp [State.setCall, hin]
        · simpa [State.setCall, heq] using hin
      · intro g
        by_cases heq : g = f
        · subst heq
          simp only [State.setCall, Function.update_self]
          exact exclusive_write (h.exclusive g) hholder
        · simpa [State.setCall, heq] using h.exclusive g
      · intro g hg
        cases hg
        exact ⟨trivial, by simp [State.setCall, Call.holder, Call.begin], hlock, hrow⟩
  | «open» =>
    cases hstep
    exact hplain rfl (by intros; contradiction)
  | put blob =>
    cases hstep
    exact hplain rfl (by intros; contradiction)
  | delete =>
    cases hstep
    exact hplain rfl (by intros; contradiction)

end Yuke.Store.Files
