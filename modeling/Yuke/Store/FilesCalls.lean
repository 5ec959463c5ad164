import Yuke.Store.Files

/-!
# What the calls know of their sessions

A session that is gone stays gone, since an id is not generated twice. The folder of every other
session keeps its lock file and its blobs.
-/

set_option autoImplicit false

namespace Yuke.Store.Files

open Yuke.Ai (Digest)
open Yuke.Protocol (SessionId)

variable {s s' : State} {c c' : CallId} {call : Call} {id : SessionId} {blob : Digest} {f : LockId}
  {op : Op} {rest : List Op}

def Known (s : State) (id : SessionId) : Prop := (s.slots id).used = true ∧ s.forking id = false

def Gone (s : State) (id : SessionId) : Prop := Known s id ∧ (s.slots id).row = none

def Slot.lock (slot : Slot) : Option LockId := slot.folder.bind (·.lock)

def Slot.Has (slot : Slot) (blob : Digest) : Prop := ∃ folder, slot.folder = some folder ∧
  blob ∈ folder.blobs

theorem readable_iff : s.readable id blob = true ↔ (s.slots id).Has blob := by
  unfold State.readable Slot.Has
  cases (s.slots id).folder with
  | none => simp
  | some folder => simp

theorem forking_iff : s.forking id = true ↔ ∃ forked call, (s.slots id).forked = some forked ∧
    s.calls forked.call = some call ∧ call.session = id ∧ .copyRows ∈ call.rest := by
  unfold State.forking
  constructor
  · intro h
    split at h
    · next forked hforked =>
      split at h
      · next call hcall =>
        simp only [decide_eq_true_eq] at h
        exact ⟨forked, call, hforked, hcall, h⟩
      · cases h
    · cases h
  · rintro ⟨forked, call, hforked, hcall, h⟩
    rw [hforked]
    simp only [hcall]
    exact decide_eq_true h

theorem owned_iff : s.owned id = true ↔
    ∃ f, (s.slots id).lock = some f ∧ ∃ holder ∈ s.holders f, s.owns holder = true := by
  unfold State.owned Slot.lock
  constructor
  · intro h
    split at h
    · next folder hfolder =>
      split at h
      · next f hlock =>
        rw [List.any_eq_true] at h
        exact ⟨f, by rw [hfolder]; exact hlock, h⟩
      · cases h
    · cases h
  · rintro ⟨f, hlock, h⟩
    cases hfolder : (s.slots id).folder with
    | none =>
      rw [hfolder] at hlock
      cases hlock
    | some folder =>
      rw [hfolder] at hlock
      have hlock' : folder.lock = some f := hlock
      simp only [hlock']
      exact List.any_eq_true.mpr h

def Fits (kind : Kind) (rest : List Op) : Prop := rest <:+ kind.program ∨ rest <:+ kind.cleanup

theorem Fits.tail {kind : Kind} (h : Fits kind (op :: rest)) : Fits kind rest := by
  rcases h with h | h
  · exact .inl ((List.suffix_cons op rest).trans h)
  · exact .inr ((List.suffix_cons op rest).trans h)

theorem Fits.cases {kind : Kind} (h : Fits kind (op :: rest)) :
    op :: rest ∈ kind.program.tails ∨ op :: rest ∈ kind.cleanup.tails := by
  rcases h with h | h
  · exact .inl ((List.mem_tails _ _).mpr h)
  · exact .inr ((List.mem_tails _ _).mpr h)

theorem Fits.lease {kind : Kind} (h : Fits kind (.lease :: rest)) : rest = [] := by
  rcases h.cases with h | h <;> cases kind <;> simp_all [Kind.program, Kind.cleanup]

theorem Fits.copyRows {kind : Kind} (h : Fits kind (.copyRows :: rest)) :
    rest = [.load, .lease] := by
  rcases h.cases with h | h <;> cases kind <;> simp_all [Kind.program, Kind.cleanup]

theorem Fits.removeFolder {kind : Kind} (h : Fits kind (.removeFolder :: rest)) : rest = [] := by
  rcases h.cases with h | h <;> cases kind <;> simp_all [Kind.program, Kind.cleanup]

theorem Fits.before_lease {kind : Kind} (h : Fits kind [op, .lease]) :
    op = .load ∨ (op = .tryLock ∧ kind = .create) := by
  rcases h.cases with h | h <;> cases kind <;> simp_all [Kind.program, Kind.cleanup]

theorem Fits.dropLock {kind : Kind} (h : Fits kind (.dropLock :: rest)) :
    rest = [.removeFolder] ∧ (kind = .sweep ∨ kind = .delete) := by
  rcases h.cases with h | h <;> cases kind <;> simp_all [Kind.program, Kind.cleanup]

theorem Fits.deleteRows {kind : Kind} (h : Fits kind (.deleteRows :: rest)) :
    (kind = .delete ∧ rest = [.dropLock, .removeFolder]) ∨
      (rest = [.removeFolder] ∧ (kind = .create ∨ ∃ source cut, kind = .fork source cut)) := by
  rcases h.cases with h | h <;> cases kind <;> simp_all [Kind.program, Kind.cleanup]

theorem Fits.listBlobs {kind : Kind} (h : Fits kind (.listBlobs :: rest)) :
    rest = [.copyBlobs, .syncFolder, .copyRows, .load, .lease] := by
  rcases h.cases with h | h <;> cases kind <;> simp_all [Kind.program, Kind.cleanup]

def Kind.IsWrite : Kind → Prop
  | .write _ => True
  | _ => False

structure CallOk (s : State) (c : CallId) (call : Call) : Prop where
  fits : Fits call.kind call.rest
  cleanup : call.cleanup = [] ∨ call.cleanup = call.kind.cleanup
  swept : call.kind = .sweep → (s.slots call.session).used = true
  known : .ensure ∉ call.rest → .copyRows ∉ call.rest → call.kind ≠ .sweep →
    ¬ call.kind.IsWrite → Known s call.session
  forker : .copyRows ∈ call.rest → (s.slots call.session).used = true ∧ ∃ source cut forked,
    call.kind = .fork source cut ∧ (s.slots call.session).forked = some forked ∧ forked.call = c
  deleted : call.kind = .delete → .deleteRows ∉ call.rest → Gone s call.session
  removing : .removeFolder ∈ call.rest → .deleteRows ∉ call.rest → .dropLock ∉ call.rest →
    Gone s call.session
  file : ∀ f, call.file = some f → Gone s call.session ∨ (s.slots call.session).lock = some f
  held : ∀ f, call.held = some f → call.holder c ∈ s.holders f ∧
    (Gone s call.session ∨ (s.slots call.session).lock = some f)
  locked : .tryLock ∉ call.rest →
    .lease ∈ call.rest ∨ (call.kind = .delete ∧ .deleteRows ∈ call.rest) → call.held ≠ none
  lease : call.rest = [.lease] → (s.slots call.session).row ≠ none
  write : call.kind.IsWrite → call.held ≠ none → (s.slots call.session).row ≠ none
  written : ∀ blob name content, call.kind = .put blob → call.temporary = some (name, content) →
    content = blob
  placed : ∀ blob, call.kind = .put blob → .rename ∉ call.rest →
    Gone s call.session ∨ (s.slots call.session).Has blob
  copying : ∀ source cut forked, call.kind = .fork source cut → .copyRows ∈ call.rest →
    .listBlobs ∉ call.rest → (s.slots call.session).forked = some forked →
    ∀ blob ∈ forked.had, Gone s source ∨ ((s.slots source).Has blob ∧
      (blob ∈ call.left ∨ (s.slots call.session).Has blob))
  copied : .copyRows ∈ call.rest → .copyBlobs ∉ call.rest → call.left = []

/-- A call holds a lock alone. The owners of one store share it with their writes. -/
def Holder.Compatible : Holder → Holder → Prop
  | .write _ _, .write _ _ | .write _ _, .owner _ _ | .owner _ _, .write _ _ => True
  | holder, other => holder = other

def Exclusive (holders : List Holder) : Prop :=
  ∀ holder ∈ holders, ∀ other ∈ holders, holder.Compatible other

structure Inv (s : State) : Prop where
  used : ∀ id, (s.slots id).folder ≠ none ∨ (s.slots id).row ≠ none ∨ (s.slots id).forked ≠ none →
    (s.slots id).used = true
  forking : ∀ id, s.forking id = true → (s.slots id).row = none
  calls : ∀ c call, s.calls c = some call → CallOk s c call
  exclusive : ∀ f, Exclusive (s.holders f)
  owners : ∀ process id f, s.owners process id = some f → .owner process id ∈ s.holders f ∧
    (s.slots id).lock = some f ∧ (s.slots id).row ≠ none
  leases : ∀ process id, (process, id) ∈ s.leases ↔ s.owners process id ≠ none
  single : (s.leases.map (·.2)).Nodup
  blobs : ∀ id blob, (id, blob) ∈ s.returned ∨ (id, blob) ∈ s.copied →
    Gone s id ∨ (s.slots id).Has blob
  forked : ∀ id forked, (s.slots id).row ≠ none → (s.slots id).forked = some forked →
    ∀ blob ∈ forked.had, (s.slots id).Has blob

theorem Inv.known_of_row (h : Inv s) (hrow : (s.slots id).row ≠ none) : Known s id := by
  constructor
  · exact h.used id (.inr (.inl hrow))
  · cases hforking : s.forking id with
    | false => rfl
    | true => exact absurd (h.forking id hforking) hrow

theorem not_gone_of_row (hrow : (s.slots id).row ≠ none) : ¬ Gone s id := fun h => hrow h.2

theorem not_gone_of_forking (hforking : s.forking id = true) : ¬ Gone s id := by
  intro h
  rw [h.1.2] at hforking
  cases hforking

theorem owned_of_holder {holder : Holder} (hlock : (s.slots id).lock = some f)
    (hholder : holder ∈ s.holders f) (howns : s.owns holder = true) : s.owned id = true :=
  owned_iff.mpr ⟨f, hlock, holder, hholder, howns⟩

theorem Inv.owned_of_owner (h : Inv s) {process : ProcessId}
    (howner : s.owners process id = some f) : s.owned id = true :=
  owned_of_holder (h.owners process id f howner).2.1 (h.owners process id f howner).1 rfl

theorem CallOk.owned (h : CallOk s c call) (hcall : s.calls c = some call)
    (howns : call.rest = [.lease] ∨ (call.kind.IsWrite ∧ call.held ≠ none)) :
    s.owned call.session = true := by
  have hheld : call.held ≠ none := by
    rcases howns with hrest | ⟨_, hheld⟩
    · refine h.locked ?_ (.inl ?_) <;> simp [hrest]
    · exact hheld
  have hrow : (s.slots call.session).row ≠ none := by
    rcases howns with hrest | ⟨hwrite, _⟩
    · exact h.lease hrest
    · exact h.write hwrite hheld
  obtain ⟨f, hf⟩ := Option.ne_none_iff_exists'.mp hheld
  obtain ⟨hholder, hgone | hlock⟩ := h.held f hf
  · exact absurd hgone (not_gone_of_row hrow)
  · refine owned_of_holder hlock hholder ?_
    unfold Call.holder
    split
    · rfl
    · next hkind =>
      rcases howns with hrest | ⟨hwrite, _⟩
      · simp [State.owns, hcall, hrest]
      · cases hcase : call.kind with
        | write blobs => exact absurd hcase (hkind blobs)
        | _ =>
          rw [hcase] at hwrite
          exact hwrite.elim

theorem holder_ne_owner (call : Call) (process : ProcessId) : call.holder c ≠ .owner process id := by
  unfold Call.holder
  split <;> exact Holder.noConfusion

theorem holder_inj {other : Call} (heq : other.holder c' = call.holder c) : c' = c := by
  unfold Call.holder at heq
  split at heq <;> split at heq <;> simp_all

/-! ## What a step leaves as it is -/

/-- What a step of call `c` leaves true of every session. -/
structure Kept (s s' : State) (c : CallId) : Prop where
  stays : ∀ id, (s.slots id).used = true → (s'.slots id).used = true
  known : ∀ id, Known s id → Known s' id
  gone : ∀ id, Gone s id → (s'.slots id).row = none
  folder : ∀ id, ¬ Gone s id → (s.slots id).folder ≠ none → (s'.slots id).folder ≠ none
  lock : ∀ id f, ¬ Gone s id → (s.slots id).lock = some f → (s'.slots id).lock = some f
  has : ∀ id blob, ¬ Gone s id → (s.slots id).Has blob → (s'.slots id).Has blob
  rows : ∀ id, (s.slots id).row ≠ none → s.owned id = true → (s'.slots id).row ≠ none
  others : ∀ id forked, (s.slots id).forked = some forked → forked.call ≠ c →
    (s'.slots id).forked = some forked

namespace Kept

variable (hkept : Kept s s' c)

include hkept

theorem gone_of_gone (h : Gone s id) : Gone s' id := ⟨hkept.known id h.1, hkept.gone id h⟩

theorem lock_of (h : Gone s id ∨ (s.slots id).lock = some f) :
    Gone s' id ∨ (s'.slots id).lock = some f := by
  by_cases hgone : Gone s id
  · exact .inl (hkept.gone_of_gone hgone)
  · exact .inr (hkept.lock id f hgone (h.resolve_left hgone))

theorem has_of (h : Gone s id ∨ (s.slots id).Has blob) : Gone s' id ∨ (s'.slots id).Has blob := by
  by_cases hgone : Gone s id
  · exact .inl (hkept.gone_of_gone hgone)
  · exact .inr (hkept.has id blob hgone (h.resolve_left hgone))

theorem callOk (h : CallOk s c' call) (hcall : s.calls c' = some call)
    (hforked : ∀ forked, (s.slots call.session).forked = some forked → forked.call = c' →
      (s'.slots call.session).forked = some forked)
    (hholders : ∀ f, call.holder c' ∈ s.holders f → call.holder c' ∈ s'.holders f) :
    CallOk s' c' call := by
  have howned := h.owned hcall
  constructor
  · exact h.fits
  · exact h.cleanup
  · intro hsweep
    exact hkept.stays _ (h.swept hsweep)
  · intro hensure hcopy hsweep hwrite
    exact hkept.known _ (h.known hensure hcopy hsweep hwrite)
  · intro hcopy
    obtain ⟨hused, source, cut, forked, hkind, hsome, hcalls⟩ := h.forker hcopy
    exact ⟨hkept.stays _ hused, source, cut, forked, hkind, hforked forked hsome hcalls, hcalls⟩
  · intro hdelete hrows
    exact hkept.gone_of_gone (h.deleted hdelete hrows)
  · intro hremove hrows hdrop
    exact hkept.gone_of_gone (h.removing hremove hrows hdrop)
  · intro f hfile
    exact hkept.lock_of (h.file f hfile)
  · intro f hheld
    obtain ⟨hholder, hlock⟩ := h.held f hheld
    exact ⟨hholders f hholder, hkept.lock_of hlock⟩
  · exact h.locked
  · intro hrest
    exact hkept.rows _ (h.lease hrest) (howned (.inl hrest))
  · intro hwrite hheld
    exact hkept.rows _ (h.write hwrite hheld) (howned (.inr ⟨hwrite, hheld⟩))
  · exact h.written
  · intro blob hput hrename
    exact hkept.has_of (h.placed blob hput hrename)
  · intro source cut forked hkind hcopy hlist hsome blob hblob
    obtain ⟨_, _, _, old, _, hold, hcalls⟩ := h.forker hcopy
    have hsame := hforked old hold hcalls
    rw [hsome] at hsame
    cases hsame
    have hfork : s.forking call.session = true :=
      forking_iff.mpr ⟨forked, call, hold, by rw [hcalls]; exact hcall, rfl, hcopy⟩
    by_cases hgone : Gone s source
    · exact .inl (hkept.gone_of_gone hgone)
    · right
      obtain ⟨hsource, hleft⟩ :=
        (h.copying source cut forked hkind hcopy hlist hold blob hblob).resolve_left hgone
      refine ⟨hkept.has _ _ hgone hsource, ?_⟩
      rcases hleft with hleft | hhas
      · exact .inl hleft
      · exact .inr (hkept.has _ _ (not_gone_of_forking hfork) hhas)
  · exact h.copied

end Kept

/-- The step of call `c`, with the holder that gives a lock back. -/
structure Frame (s s' : State) (c : CallId) (lost : Holder) : Prop extends Kept s s' c where
  calls : ∀ other, other ≠ c → s'.calls other = s.calls other
  owners : s'.owners = s.owners
  leases : s'.leases = s.leases
  used : ∀ id, (s'.slots id).folder ≠ none ∨ (s'.slots id).row ≠ none ∨
    (s'.slots id).forked ≠ none → (s'.slots id).used = true
  forking : ∀ id, s'.forking id = true → (s'.slots id).row = none
  forked : ∀ id forked, (s'.slots id).row ≠ none → (s'.slots id).forked = some forked →
    ∀ blob ∈ forked.had, (s'.slots id).Has blob
  holders : ∀ f holder, holder ∈ s.holders f → holder ≠ lost → holder ∈ s'.holders f
  exclusive : ∀ f, Exclusive (s'.holders f)

theorem Frame.inv {lost : Holder} (hframe : Frame s s' c lost) (h : Inv s)
    (hlost : lost = call.holder c) (hown : ∀ call, s'.calls c = some call → CallOk s' c call)
    (hblobs : ∀ id blob, (id, blob) ∈ s'.returned ∨ (id, blob) ∈ s'.copied →
      ((id, blob) ∈ s.returned ∨ (id, blob) ∈ s.copied) ∨ Gone s' id ∨ (s'.slots id).Has blob) :
    Inv s' := by
  constructor
  · exact hframe.used
  · exact hframe.forking
  · intro other call hcall
    by_cases heq : other = c
    · subst heq
      exact hown call hcall
    · rw [hframe.calls other heq] at hcall
      apply hframe.callOk (h.calls other call hcall) hcall
      · intro forked hforked hcalls
        exact hframe.others _ forked hforked (by rwa [hcalls])
      · intro f hholder
        refine hframe.holders f _ hholder fun hsame => heq ?_
        rw [hlost] at hsame
        exact holder_inj hsame
  · exact hframe.exclusive
  · intro process id f howner
    rw [hframe.owners] at howner
    obtain ⟨hholder, hlock, hrow⟩ := h.owners process id f howner
    have hne : Holder.owner process id ≠ lost := by
      rw [hlost]
      exact (holder_ne_owner _ process).symm
    refine ⟨hframe.holders f _ hholder hne, ?_, ?_⟩
    · exact hframe.lock id f (not_gone_of_row hrow) hlock
    · exact hframe.rows id hrow (h.owned_of_owner howner)
  · rw [hframe.leases, hframe.owners]
    exact h.leases
  · rw [hframe.leases]
    exact h.single
  · intro id blob hlog
    rcases hblobs id blob hlog with hold | hnew
    · exact hframe.has_of (h.blobs id blob hold)
    · exact hnew
  · exact hframe.forked

end Yuke.Store.Files
