import Yuke.Store.FilesCalls

/-!
# The steps of one call

An operation of a call changes the rows or the folder of its own session, or the holders of one lock.
-/

set_option autoImplicit false

namespace Yuke.Store.Files

open Yuke.Ai (Digest)
open Yuke.Protocol (SessionId)

variable {s s' : State} {c c' : CallId} {call : Call} {id : SessionId} {blob : Digest} {f : LockId}
  {op : Op} {rest : List Op} {lost : Holder}

structure Rows (slot slot' : Slot) : Prop where
  used : slot'.used = slot.used
  row : slot'.row = slot.row
  forked : slot'.forked = slot.forked

structure Grows (slot slot' : Slot) : Prop extends Rows slot slot' where
  folder : slot.folder ≠ none → slot'.folder ≠ none
  lock : ∀ f, slot.lock = some f → slot'.lock = some f
  has : ∀ blob, slot.Has blob → slot'.Has blob

theorem Grows.refl (slot : Slot) : Grows slot slot :=
  ⟨⟨rfl, rfl, rfl⟩, id, fun _ => id, fun _ => id⟩

theorem grows_setFolder {folder : Folder}
    (hfolder : ∀ old, (s.slots id).folder = some old →
      (∀ f, old.lock = some f → folder.lock = some f) ∧ ∀ blob ∈ old.blobs, blob ∈ folder.blobs)
    (other : SessionId) : Grows (s.slots other) ((s.setFolder id (some folder)).slots other) := by
  by_cases heq : other = id
  · subst heq
    simp only [State.setFolder, State.setSlot, Function.update_self]
    constructor
    · exact ⟨rfl, rfl, rfl⟩
    · intro _ hnone
      cases hnone
    · intro f hlock
      cases hold : (s.slots other).folder with
      | none =>
        rw [Slot.lock, hold] at hlock
        cases hlock
      | some old =>
        rw [Slot.lock, hold] at hlock
        exact (hfolder old hold).1 f hlock
    · rintro blob ⟨old, hold, hblob⟩
      exact ⟨folder, rfl, (hfolder old hold).2 blob hblob⟩
  · simp only [State.setFolder, State.setSlot, Function.update_of_ne heq]
    exact .refl _

theorem forking_of (hforked : ∀ id, (s'.slots id).forked.map (·.call) =
      (s.slots id).forked.map (·.call))
    (hcalls : ∀ c call', s'.calls c = some call' → .copyRows ∈ call'.rest →
      ∃ call, s.calls c = some call ∧ call.session = call'.session ∧ .copyRows ∈ call.rest)
    (h : s'.forking id = true) : s.forking id = true := by
  obtain ⟨forked', call', hforked', hcall', hsession, hcopy⟩ := forking_iff.mp h
  have hsame := hforked id
  rw [hforked'] at hsame
  obtain ⟨forked, hfork, heq⟩ := Option.map_eq_some_iff.mp hsame.symm
  obtain ⟨call, hcall, hsession', hcopy'⟩ := hcalls _ call' hcall' hcopy
  refine forking_iff.mpr ⟨forked, call, hfork, ?_, hsession'.trans hsession, hcopy'⟩
  rw [heq]
  exact hcall

theorem Frame.of_rows (h : Inv s)
    (hcalls : ∀ other, other ≠ c → s'.calls other = s.calls other)
    (hnext : ∀ call', s'.calls c = some call' → .copyRows ∈ call'.rest → ∃ call,
      s.calls c = some call ∧ call.session = call'.session ∧ .copyRows ∈ call.rest)
    (howners : s'.owners = s.owners) (hleases : s'.leases = s.leases)
    (hrows : ∀ id, Rows (s.slots id) (s'.slots id))
    (hgrows : ∀ id, ¬ Gone s id → Grows (s.slots id) (s'.slots id))
    (hnew : ∀ id, (s'.slots id).folder ≠ none → (s.slots id).used = true)
    (hholders : ∀ f holder, holder ∈ s.holders f → holder ≠ lost → holder ∈ s'.holders f)
    (hexclusive : ∀ f, Exclusive (s'.holders f)) : Frame s s' c lost := by
  have hforking : ∀ id, s'.forking id = true → s.forking id = true := by
    intro id
    apply forking_of
    · intro id
      rw [(hrows id).forked]
    · intro other call' hother hcopy
      by_cases heq : other = c
      · subst heq
        exact hnext call' hother hcopy
      · rw [hcalls other heq] at hother
        exact ⟨call', hother, rfl, hcopy⟩
  have hkept : Kept s s' c := by
    constructor
    · intro id hused
      rwa [(hrows id).used]
    · intro id hknown
      constructor
      · rw [(hrows id).used]
        exact hknown.1
      · cases hfork : s'.forking id with
        | false => rfl
        | true =>
          rw [← hknown.2]
          exact (hforking id hfork).symm
    · intro id hgone
      rw [(hrows id).row]
      exact hgone.2
    · intro id hgone
      exact (hgrows id hgone).folder
    · intro id f hgone
      exact (hgrows id hgone).lock f
    · intro id blob hgone
      exact (hgrows id hgone).has blob
    · intro id hrow _
      rwa [(hrows id).row]
    · intro id forked hforked _
      rwa [(hrows id).forked]
  refine ⟨hkept, hcalls, howners, hleases, ?_, ?_, ?_, hholders, hexclusive⟩
  · intro id hsome
    rw [(hrows id).used]
    rw [(hrows id).row, (hrows id).forked] at hsome
    rcases hsome with hfolder | hrest
    · exact hnew id hfolder
    · exact h.used id (.inr hrest)
  · intro id hfork
    rw [(hrows id).row]
    exact h.forking id (hforking id hfork)
  · intro id forked hrow hforked blob hblob
    rw [(hrows id).row] at hrow
    rw [(hrows id).forked] at hforked
    exact (hgrows id (not_gone_of_row hrow)).has blob (h.forked id forked hrow hforked blob hblob)

/-! ## The call after an operation -/

theorem CallOk.advance (h : CallOk s c call) (hcall : s.calls c = some call)
    (hrest : call.rest = op :: rest) (hframe : Frame s s' c lost)
    {file held : Option LockId} {temporary : Option (Temporary × Digest)} {cleanup : List Op}
    (hforked : (s'.slots call.session).forked = (s.slots call.session).forked)
    (hop : op ≠ .copyRows ∧ op ≠ .deleteRows ∧ op ≠ .listBlobs)
    (hcleanup : cleanup = [] ∨ cleanup = call.kind.cleanup)
    (hensure : op = .ensure → Known s' call.session)
    (hdrop : op = .dropLock → Gone s' call.session)
    (hfile : ∀ f, file = some f → Gone s' call.session ∨ (s'.slots call.session).lock = some f)
    (hheld : ∀ f, held = some f → call.holder c ∈ s'.holders f ∧
      (Gone s' call.session ∨ (s'.slots call.session).lock = some f))
    (hlocked : .tryLock ∉ rest → .lease ∈ rest ∨ (call.kind = .delete ∧ .deleteRows ∈ rest) →
      held ≠ none)
    (hlease : rest = [.lease] → (s'.slots call.session).row ≠ none)
    (hwrite : call.kind.IsWrite → held ≠ none → (s'.slots call.session).row ≠ none)
    (hwritten : ∀ blob name content, call.kind = .put blob → temporary = some (name, content) →
      content = blob)
    (hrename : ∀ blob, op = .rename → call.kind = .put blob →
      Gone s' call.session ∨ (s'.slots call.session).Has blob)
    (hcopied : op = .copyBlobs → call.left = []) :
    CallOk s' c { call with
      rest := rest, file := file, held := held, temporary := temporary, cleanup := cleanup } := by
  have hmem : ∀ {other}, other ∉ rest → op ≠ other → other ∉ call.rest := by
    intro other hout hne
    rw [hrest, List.mem_cons, not_or]
    exact ⟨hne.symm, hout⟩
  have hin : ∀ {other}, other ∈ rest → other ∈ call.rest := by
    intro other hother
    rw [hrest]
    exact List.mem_cons_of_mem _ hother
  obtain ⟨hcopyRows, hdeleteRows, hlistBlobs⟩ := hop
  constructor
  · have hfits := h.fits
    rw [hrest] at hfits
    exact hfits.tail
  · exact hcleanup
  · intro hsweep
    exact hframe.stays _ (h.swept hsweep)
  · intro hout hcopy hsweep hwrites
    by_cases heq : op = .ensure
    · exact hensure heq
    · exact hframe.known _ (h.known (hmem hout heq) (hmem hcopy hcopyRows) hsweep hwrites)
  · intro hcopy
    obtain ⟨hused, source, cut, forked, hkind, hsome, hcalls⟩ := h.forker (hin hcopy)
    exact ⟨hframe.stays _ hused, source, cut, forked, hkind, hforked.trans hsome, hcalls⟩
  · intro hdelete hout
    exact hframe.gone_of_gone (h.deleted hdelete (hmem hout hdeleteRows))
  · intro hremove hout hdropped
    by_cases heq : op = .dropLock
    · exact hdrop heq
    · exact hframe.gone_of_gone
        (h.removing (hin hremove) (hmem hout hdeleteRows) (hmem hdropped heq))
  · exact hfile
  · exact hheld
  · exact hlocked
  · exact hlease
  · exact hwrite
  · exact hwritten
  · intro blob hput hout
    by_cases heq : op = .rename
    · exact hrename blob heq hput
    · exact hframe.has_of (h.placed blob hput (hmem hout heq))
  · intro source cut forked hkind hcopy hlist hsome blob hblob
    rw [hforked] at hsome
    obtain ⟨_, _, _, old, _, hold, hcalls⟩ := h.forker (hin hcopy)
    have hfork : s.forking call.session = true :=
      forking_iff.mpr ⟨old, call, hold, by rw [hcalls]; exact hcall, rfl, hin hcopy⟩
    by_cases hgone : Gone s source
    · exact .inl (hframe.gone_of_gone hgone)
    · right
      obtain ⟨hsource, hleft⟩ := (h.copying source cut forked hkind (hin hcopy)
        (hmem hlist hlistBlobs) hsome blob hblob).resolve_left hgone
      refine ⟨hframe.has _ _ hgone hsource, ?_⟩
      rcases hleft with hleft | hhas
      · exact .inl hleft
      · exact .inr (hframe.has _ _ (not_gone_of_forking hfork) hhas)
  · intro hcopy hout
    by_cases heq : op = .copyBlobs
    · exact hcopied heq
    · exact h.copied (hin hcopy) (hmem hout heq)

theorem inv_grows (h : Inv s) (hcall : s.calls c = some call) (hrest : call.rest = op :: rest)
    {file : Option LockId} {temporary : Option (Temporary × Digest)} {cleanup : List Op}
    (hcalls : s'.calls = Function.update s.calls c (if rest = [] then none else some { call with
      rest := rest, file := file, temporary := temporary, cleanup := cleanup }))
    (howners : s'.owners = s.owners) (hleases : s'.leases = s.leases)
    (hholders : s'.holders = s.holders) (hcopied : s'.copied = s.copied)
    (hreturned : ∀ id blob, (id, blob) ∈ s'.returned → (id, blob) ∈ s.returned ∨
      Gone s id ∨ (s.slots id).Has blob)
    (hgrows : ∀ id, Grows (s.slots id) (s'.slots id))
    (hnew : ∀ id, (s'.slots id).folder ≠ none → (s.slots id).used = true)
    (hop : op ∉ [.copyRows, .deleteRows, .listBlobs, .dropLock, .tryLock])
    (hcleanup : cleanup = [] ∨ cleanup = call.kind.cleanup)
    (hensure : op = .ensure → Known s call.session)
    (hload : op = .load → (s.slots call.session).row ≠ none)
    (hfile : ∀ f, file = some f → call.file = some f ∨ (s'.slots call.session).lock = some f)
    (hwritten : ∀ blob name content, call.kind = .put blob → temporary = some (name, content) →
      content = blob)
    (hrename : ∀ blob, op = .rename → call.kind = .put blob → (s'.slots call.session).Has blob)
    (hleft : op = .copyBlobs → call.left = []) : Inv s' := by
  simp only [List.mem_cons, List.not_mem_nil, not_or, or_false] at hop
  obtain ⟨hcopyRows, hdeleteRows, hlistBlobs, hdropLock, htryLock⟩ := hop
  have hok := h.calls c call hcall
  have hframe : Frame s s' c (call.holder c) := by
    apply Frame.of_rows h
    · intro other hne
      rw [hcalls, Function.update_of_ne hne]
    · intro call' hcall' hcopy
      rw [hcalls, Function.update_self] at hcall'
      split_ifs at hcall'
      cases hcall'
      refine ⟨call, hcall, rfl, ?_⟩
      rw [hrest]
      exact List.mem_cons_of_mem _ hcopy
    · exact howners
    · exact hleases
    · intro id
      exact (hgrows id).toRows
    · intro id _
      exact hgrows id
    · exact hnew
    · intro f holder hholder _
      rwa [hholders]
    · rw [hholders]
      exact h.exclusive
  refine hframe.inv h rfl ?_ ?_
  · intro call' hcall'
    rw [hcalls, Function.update_self] at hcall'
    split_ifs at hcall'
    cases hcall'
    apply hok.advance hcall hrest hframe
    · exact (hgrows _).forked
    · exact ⟨hcopyRows, hdeleteRows, hlistBlobs⟩
    · exact hcleanup
    · intro heq
      exact hframe.known _ (hensure heq)
    · intro heq
      exact absurd heq hdropLock
    · intro f hf
      rcases hfile f hf with hold | hlock
      · exact hframe.lock_of (hok.file f hold)
      · exact .inr hlock
    · intro f hf
      obtain ⟨hholder, hlock⟩ := hok.held f hf
      rw [hholders]
      exact ⟨hholder, hframe.lock_of hlock⟩
    · intro hout hin
      apply hok.locked
      · rw [hrest, List.mem_cons, not_or]
        exact ⟨fun heq => htryLock heq.symm, hout⟩
      · rw [hrest]
        rcases hin with hin | ⟨hkind, hin⟩
        · exact .inl (List.mem_cons_of_mem _ hin)
        · exact .inr ⟨hkind, List.mem_cons_of_mem _ hin⟩
    · intro hlast
      rw [(hgrows _).row]
      have hfits := hok.fits
      rw [hrest, hlast] at hfits
      rcases hfits.before_lease with hop | ⟨hop, _⟩
      · exact hload hop
      · exact absurd hop htryLock
    · intro hwrite hheld
      rw [(hgrows _).row]
      exact hok.write hwrite hheld
    · exact hwritten
    · intro blob hop hput
      exact .inr (hrename blob hop hput)
    · exact hleft
  · intro id blob hlog
    rcases hlog with hlog | hlog
    · rcases hreturned id blob hlog with hold | hnew
      · exact .inl (.inl hold)
      · exact .inr (hframe.has_of hnew)
    · rw [hcopied] at hlog
      exact .inl (.inr hlog)

/-- The folder of the call grows, and the call goes on as `call'`. -/
structure FolderStep (s s' : State) (c : CallId) (id : SessionId) (call' : Call) : Prop where
  grows : ∀ other, Grows (s.slots other) (s'.slots other)
  new : ∀ other, (s'.slots other).folder ≠ none → other = id ∨ (s.slots other).folder ≠ none
  calls : s'.calls = Function.update s.calls c (if call'.rest = [] then none else some call')
  owners : s'.owners = s.owners
  leases : s'.leases = s.leases
  holders : s'.holders = s.holders
  returned : s'.returned = s.returned
  copied : s'.copied = s.copied

theorem folderStep {folder : Folder} {call' : Call} {nextLock : LockId}
    {nextTemporary : ProcessId → Nat}
    (hfolder : ∀ old, (s.slots id).folder = some old →
      (∀ f, old.lock = some f → folder.lock = some f) ∧ ∀ blob ∈ old.blobs, blob ∈ folder.blobs) :
    FolderStep s (({ s with nextLock := nextLock, nextTemporary := nextTemporary }.setFolder id
      (some folder)).setCall c call') c id call' := by
  constructor
  · exact grows_setFolder hfolder
  · intro other hsome
    by_cases heq : other = id
    · exact .inl heq
    · right
      simpa [State.setCall, State.setFolder, State.setSlot, heq] using hsome
  · rfl
  · rfl
  · rfl
  · rfl
  · rfl
  · rfl

theorem FolderStep.old {call' : Call} (h : FolderStep s s' c id call')
    (hfolder : (s.slots id).folder ≠ none) (other : SessionId)
    (hsome : (s'.slots other).folder ≠ none) : (s.slots other).folder ≠ none := by
  rcases h.new other hsome with heq | hold
  · rw [heq]
    exact hfolder
  · exact hold

theorem writeTemporary_step (hstep : s.writeTemporary c call blob = some s') :
    (s.slots call.session).folder ≠ none ∧ ∃ name,
      FolderStep s s' c call.session { call with temporary := some (name, blob) } := by
  unfold State.writeTemporary at hstep
  split at hstep
  · cases hstep
  · next folder hfolder =>
    cases hstep
    refine ⟨by simp [hfolder], _, folderStep fun old hold => ?_⟩
    rw [hfolder] at hold
    cases hold
    exact ⟨fun f hlock => hlock, fun blob hblob => hblob⟩

theorem rename_step (hstep : s.rename c call = some s') : ∃ name blob,
    call.temporary = some (name, blob) ∧ (s.slots call.session).folder ≠ none ∧
      (s'.slots call.session).Has blob ∧
      FolderStep s s' c call.session { call with temporary := none } := by
  unfold State.rename at hstep
  split at hstep
  · next folder name blob hfolder htemporary =>
    split_ifs at hstep with hname
    cases hstep
    refine ⟨name, blob, htemporary, by simp [hfolder], ?_, folderStep fun old hold => ?_⟩
    · refine ⟨_, by simp [State.setCall, State.setFolder, State.setSlot]; rfl, ?_⟩
      exact List.mem_insert_self
    · rw [hfolder] at hold
      cases hold
      exact ⟨fun f hlock => hlock, fun other hother => List.mem_insert_of_mem hother⟩
  · cases hstep

section

variable (s) (lock : Option LockId) (holder : Holder)

@[simp] theorem removeHolder_slots : (s.removeHolder lock holder).slots = s.slots := by
  cases lock <;> rfl

@[simp] theorem removeHolder_calls : (s.removeHolder lock holder).calls = s.calls := by
  cases lock <;> rfl

@[simp] theorem removeHolder_owners : (s.removeHolder lock holder).owners = s.owners := by
  cases lock <;> rfl

@[simp] theorem removeHolder_leases : (s.removeHolder lock holder).leases = s.leases := by
  cases lock <;> rfl

@[simp] theorem removeHolder_returned : (s.removeHolder lock holder).returned = s.returned := by
  cases lock <;> rfl

@[simp] theorem removeHolder_copied : (s.removeHolder lock holder).copied = s.copied := by
  cases lock <;> rfl

end

theorem mem_removeHolder {lock : Option LockId} {holder : Holder} (hmem : holder ∈ s.holders f)
    (hne : holder ≠ lost) : holder ∈ (s.removeHolder lock lost).holders f := by
  cases lock with
  | none => exact hmem
  | some g =>
    by_cases heq : f = g
    · subst heq
      simp [State.removeHolder, hmem, hne]
    · simpa [State.removeHolder, heq] using hmem

theorem of_mem_removeHolder {lock : Option LockId} {holder : Holder}
    (hmem : holder ∈ (s.removeHolder lock lost).holders f) : holder ∈ s.holders f := by
  cases lock with
  | none => exact hmem
  | some g =>
    by_cases heq : f = g
    · subst heq
      simp only [State.removeHolder, Function.update_self] at hmem
      exact (List.mem_filter.mp hmem).1
    · simpa [State.removeHolder, heq] using hmem

theorem Exclusive.subset {holders holders' : List Holder} (h : Exclusive holders)
    (hsub : ∀ holder ∈ holders', holder ∈ holders) : Exclusive holders' :=
  fun holder hholder other hother => h holder (hsub holder hholder) other (hsub other hother)

theorem Holder.Compatible.refl (holder : Holder) : holder.Compatible holder := by
  cases holder with
  | call process c => exact rfl
  | owner process id => exact rfl
  | write process c => trivial

theorem exclusive_single (holder : Holder) : Exclusive [holder] := by
  intro one hone other hother
  rw [List.mem_singleton] at hone hother
  subst hone hother
  exact .refl _

theorem inv_release (h : Inv s) (hcall : s.calls c = some call) (call' : Call)
    (hs' : s' = (s.removeHolder call.held (call.holder c)).setCall c call')
    (hsession : call'.session = call.session)
    (hcopy : .copyRows ∈ call'.rest → .copyRows ∈ call.rest)
    (hown : s'.slots = s.slots → Frame s s' c (call.holder c) → call'.rest ≠ [] →
      CallOk s' c call') : Inv s' := by
  have hslots : s'.slots = s.slots := by
    rw [hs']
    exact removeHolder_slots _ _ _
  have hcalls : s'.calls = Function.update s.calls c
      (if call'.rest = [] then none else some call') := by
    rw [hs']
    simp only [State.setCall, removeHolder_calls]
  have hholders : s'.holders = (s.removeHolder call.held (call.holder c)).holders := by
    rw [hs']
    rfl
  have hframe : Frame s s' c (call.holder c) := by
    apply Frame.of_rows h
    · intro other hne
      rw [hcalls, Function.update_of_ne hne]
    · intro call'' hcall'' hin
      rw [hcalls, Function.update_self] at hcall''
      split_ifs at hcall''
      cases hcall''
      exact ⟨call, hcall, hsession.symm, hcopy hin⟩
    · rw [hs']
      exact removeHolder_owners _ _ _
    · rw [hs']
      exact removeHolder_leases _ _ _
    · intro id
      rw [hslots]
      exact ⟨rfl, rfl, rfl⟩
    · intro id _
      rw [hslots]
      exact .refl _
    · intro id hfolder
      rw [hslots] at hfolder
      exact h.used id (.inl hfolder)
    · intro f holder hholder hne
      rw [hholders]
      exact mem_removeHolder hholder hne
    · intro f
      rw [hholders]
      exact (h.exclusive f).subset fun holder => of_mem_removeHolder
  refine hframe.inv h rfl ?_ ?_
  · intro call'' hcall''
    rw [hcalls, Function.update_self] at hcall''
    split_ifs at hcall'' with hend
    cases hcall''
    exact hown hslots hframe hend
  · intro id blob hlog
    rw [hs'] at hlog
    simp only [State.setCall, removeHolder_returned, removeHolder_copied] at hlog
    exact .inl hlog

end Yuke.Store.Files
