import Yuke.App.Sessions

/-!
# What the registry keeps

Each slot that changes belongs to one call, each open session runs once, and the count of an open
session is the count of its living attachments.
-/

set_option autoImplicit false

namespace Yuke.App

open Yuke.Protocol

namespace System

/-- A call opens or closes session `id`. -/
def Changing (s : System) (id : SessionId) : Prop :=
  s.slots.lookup id = some .opening ∨ s.slots.lookup id = some .closing

/-- The slot of session `id` is open with `live`. -/
def OpenAs (s : System) (id : SessionId) (live : LiveSession) : Prop :=
  ∃ state, s.slots.lookup id = some (.open state) ∧ state.live = live

/-- The call holds the transition of session `id`. -/
def Holds (s : System) (call : Nat) (id : SessionId) : Prop :=
  (s.calls call).bind Call.transition? = some id

structure Owned (s : System) : Prop where
  held : ∀ call id, s.Holds call id → s.phase ≠ .stopped → s.Changing id
  unique : ∀ call call' id, s.Holds call id → s.Holds call' id → call = call'
  owned : ∀ id, s.Changing id → ∃ call, s.Holds call id
  stopped : s.phase = .stopped → s.slots = ∅
  guarded : s.reload.isSome ↔ s.phase = .reloading
  quiet : s.phase = .reloading → ∀ id, ¬ s.Changing id

structure Alive (s : System) : Prop where
  same_id : ∀ id live, s.OpenAs id live → live.id = id
  running : ∀ live, live ∈ s.running ↔ s.OpenAs live.id live
  nodup : s.running.Nodup
  numbers : ∀ live ∈ s.running, live.number < s.started

structure Counted (s : System) : Prop where
  same_id : ∀ attachment ∈ s.attachments, attachment.live.id = attachment.id
  numbers : ∀ attachment ∈ s.attachments, attachment.live.number < s.started
  count : ∀ id state, s.slots.lookup id = some (.open state) →
    state.attachments = s.attachments.countP fun attachment => attachment.live = state.live

structure Inv (s : System) : Prop where
  owned : s.Owned
  alive : s.Alive
  counted : s.Counted

section Slots

variable {s : System} {id other : SessionId} {slot : Slot} {call : Nat} {state : Option Call}

@[simp] theorem lookup_setSlot_self : (s.setSlot id slot).slots.lookup id = some slot :=
  AList.lookup_insert _

theorem lookup_setSlot_of_ne (h : other ≠ id) :
    (s.setSlot id slot).slots.lookup other = s.slots.lookup other :=
  AList.lookup_insert_ne h

theorem lookup_dropTransition_of_ne (h : other ≠ id) :
    (s.dropTransition id).slots.lookup other = s.slots.lookup other := by
  unfold dropTransition
  split
  · exact AList.lookup_erase_ne h
  · exact AList.lookup_erase_ne h
  · rfl

theorem lookup_dropTransition_of_changing (h : s.Changing id) :
    (s.dropTransition id).slots.lookup id = none := by
  unfold dropTransition
  rcases h with h | h <;> rw [h] <;> exact AList.lookup_erase _ _

theorem dropTransition_of_not_changing (h : ¬ s.Changing id) : s.dropTransition id = s := by
  unfold dropTransition
  split
  · next hslot => exact absurd (.inl hslot) h
  · next hslot => exact absurd (.inr hslot) h
  · rfl

theorem not_changing_dropTransition : ¬ (s.dropTransition id).Changing id := by
  by_cases h : s.Changing id
  · rintro (hopening | hclosing)
    · rw [lookup_dropTransition_of_changing h] at hopening
      cases hopening
    · rw [lookup_dropTransition_of_changing h] at hclosing
      cases hclosing
  · rwa [dropTransition_of_not_changing h]

theorem dropTransition_frame : s.dropTransition id = { s with slots := (s.dropTransition id).slots } := by
  unfold dropTransition
  split <;> rfl

theorem holds_setCall_self :
    (s.setCall call state).Holds call id ↔ state.bind Call.transition? = some id := by
  simp [Holds, setCall]

theorem holds_setCall_of_ne {call' : Nat} (h : call' ≠ call) :
    (s.setCall call state).Holds call' id ↔ s.Holds call' id := by
  simp [Holds, setCall, h]

end Slots

/-! ## Steps that open and close nothing -/

structure Kept (s s' : System) : Prop where
  changing : ∀ id, s'.Changing id ↔ s.Changing id
  openAs : ∀ id live, s'.OpenAs id live ↔ s.OpenAs id live
  holds : ∀ call id, s'.Holds call id ↔ s.Holds call id
  phase : s'.phase = s.phase
  reload : s'.reload = s.reload
  running : s'.running = s.running
  started : s'.started = s.started
  empty : s.slots = ∅ → s'.slots = ∅

section Kept

variable {s s' s'' : System} {id : SessionId} {call : Nat}

theorem Kept.refl (s : System) : Kept s s :=
  ⟨fun _ => .rfl, fun _ _ => .rfl, fun _ _ => .rfl, rfl, rfl, rfl, rfl, fun h => h⟩

theorem Kept.trans (h : Kept s s') (h' : Kept s' s'') : Kept s s'' where
  changing := fun id => (h'.changing id).trans (h.changing id)
  openAs := fun id live => (h'.openAs id live).trans (h.openAs id live)
  holds := fun call id => (h'.holds call id).trans (h.holds call id)
  phase := h'.phase.trans h.phase
  reload := h'.reload.trans h.reload
  running := h'.running.trans h.running
  started := h'.started.trans h.started
  empty := fun hempty => h'.empty (h.empty hempty)

theorem Owned.kept (h : s.Owned) (hkept : Kept s s') : s'.Owned where
  held := by
    intro call id hholds hphase
    rw [hkept.changing]
    exact h.held call id ((hkept.holds call id).mp hholds) (hkept.phase ▸ hphase)
  unique := by
    intro call call' id hholds hholds'
    exact h.unique call call' id ((hkept.holds call id).mp hholds) ((hkept.holds call' id).mp hholds')
  owned := by
    intro id hchanging
    obtain ⟨call, hholds⟩ := h.owned id ((hkept.changing id).mp hchanging)
    exact ⟨call, (hkept.holds call id).mpr hholds⟩
  stopped := fun hphase => hkept.empty (h.stopped (hkept.phase ▸ hphase))
  guarded := by
    rw [hkept.reload, hkept.phase]
    exact h.guarded
  quiet := by
    intro hphase id
    rw [hkept.changing]
    exact h.quiet (hkept.phase ▸ hphase) id

theorem Alive.kept (h : s.Alive) (hkept : Kept s s') : s'.Alive where
  same_id := fun id live hopen => h.same_id id live ((hkept.openAs id live).mp hopen)
  running := by
    intro live
    rw [hkept.running, hkept.openAs]
    exact h.running live
  nodup := by
    rw [hkept.running]
    exact h.nodup
  numbers := by
    rw [hkept.running, hkept.started]
    exact h.numbers

theorem kept_setSlot {state state' : Open} (hslot : s.slots.lookup id = some (.open state))
    (hlive : state'.live = state.live) : Kept s (s.setSlot id (.open state')) where
  changing := by
    intro other
    by_cases hother : other = id
    · subst hother
      simp [Changing, hslot]
    · simp only [Changing, lookup_setSlot_of_ne hother]
  openAs := by
    intro other live
    by_cases hother : other = id
    · subst hother
      simp [OpenAs, hslot, hlive]
    · simp only [OpenAs, lookup_setSlot_of_ne hother]
  holds := fun _ _ => .rfl
  phase := rfl
  reload := rfl
  running := rfl
  started := rfl
  empty := by
    intro hempty
    rw [hempty] at hslot
    cases hslot

theorem kept_setCall {state : Option Call}
    (hstate : state.bind Call.transition? = (s.calls call).bind Call.transition?) :
    Kept s (s.setCall call state) where
  changing := fun _ => .rfl
  openAs := fun _ _ => .rfl
  holds := by
    intro call' id
    by_cases hcall : call' = call
    · subst hcall
      rw [holds_setCall_self, hstate]
      exact .rfl
    · exact holds_setCall_of_ne hcall
  phase := rfl
  reload := rfl
  running := rfl
  started := rfl
  empty := fun hempty => hempty

theorem kept_attach (h : s.attach id = .ok s') : Kept s s' := by
  unfold attach at h
  split at h
  · next state hslot =>
    cases h
    have hset : Kept s (s.setSlot id (.open
        { state with attachments := state.attachments + 1, deadline := none })) :=
      kept_setSlot hslot rfl
    exact ⟨hset.changing, hset.openAs, hset.holds, rfl, rfl, rfl, rfl, hset.empty⟩
  · cases h

theorem kept_detach (attachment : Attachment) : Kept s (s.detach attachment) := by
  unfold detach
  dsimp only
  split
  · next state hslot =>
    split
    · have hset : Kept s (s.setSlot attachment.id (.open
          { state with attachments := state.attachments - 1 })) := kept_setSlot hslot rfl
      exact ⟨hset.changing, hset.openAs, hset.holds, rfl, rfl, rfl, rfl, hset.empty⟩
    · exact ⟨fun _ => .rfl, fun _ _ => .rfl, fun _ _ => .rfl, rfl, rfl, rfl, rfl, fun h => h⟩
  · exact ⟨fun _ => .rfl, fun _ _ => .rfl, fun _ _ => .rfl, rfl, rfl, rfl, rfl, fun h => h⟩

theorem kept_touch : Kept s (s.touch id) := by
  unfold touch
  split
  · next state hslot => exact kept_setSlot hslot rfl
  · exact .refl s

theorem kept_reportIdle (jobs : Option Nat) : Kept s (s.reportIdle id jobs) := by
  unfold reportIdle
  split
  · next state hslot =>
    split
    · exact .refl s
    · have hset : Kept s (s.setSlot id (.open
          { state with deadline := some (s.now + jobs.getD grace) })) := kept_setSlot hslot rfl
      exact ⟨hset.changing, hset.openAs, hset.holds, rfl, rfl, rfl, rfl, hset.empty⟩
  · exact .refl s

end Kept

/-! ## The count of the attachments -/

section Counted

variable {s s' : System} {id : SessionId}

theorem Counted.same (h : s.Counted) (hattachments : s'.attachments = s.attachments)
    (hstarted : s.started ≤ s'.started)
    (hopen : ∀ id state', s'.slots.lookup id = some (.open state') → ∃ state,
      s.slots.lookup id = some (.open state) ∧ state.live = state'.live ∧
        state.attachments = state'.attachments) : s'.Counted where
  same_id := by
    rw [hattachments]
    exact h.same_id
  numbers := by
    rw [hattachments]
    exact fun attachment hmem => (h.numbers attachment hmem).trans_le hstarted
  count := by
    intro id state' hslot
    obtain ⟨state, hslot', hlive, hcount⟩ := hopen id state' hslot
    rw [hattachments, ← hlive, ← hcount]
    exact h.count id state hslot'

theorem Counted.setSlot (h : s.Counted) {state state' : Open}
    (hslot : s.slots.lookup id = some (.open state)) (hlive : state'.live = state.live)
    (hcount : state'.attachments = state.attachments) :
    (s.setSlot id (.open state')).Counted := by
  refine h.same rfl le_rfl fun other found hfound => ?_
  by_cases hother : other = id
  · subst hother
    rw [lookup_setSlot_self] at hfound
    cases hfound
    exact ⟨state, hslot, hlive.symm, hcount.symm⟩
  · rw [lookup_setSlot_of_ne hother] at hfound
    exact ⟨found, hfound, rfl, rfl⟩

theorem Counted.touch (h : s.Counted) : (s.touch id).Counted := by
  unfold System.touch
  split
  · next state hslot => exact h.setSlot hslot rfl rfl
  · exact h

theorem Counted.reportIdle (h : s.Counted) (jobs : Option Nat) : (s.reportIdle id jobs).Counted := by
  unfold System.reportIdle
  split
  · next state hslot =>
    split
    · exact h
    · have hset : (s.setSlot id (.open
          { state with deadline := some (s.now + jobs.getD grace) })).Counted :=
        h.setSlot hslot rfl rfl
      exact ⟨hset.same_id, hset.numbers, hset.count⟩
  · exact h

theorem Alive.live_ne (h : s.Alive) {other : SessionId} {state state' : Open}
    (hslot : s.slots.lookup id = some (.open state))
    (hslot' : s.slots.lookup other = some (.open state')) (hother : other ≠ id) :
    state.live ≠ state'.live := by
  intro hlive
  have hid := h.same_id id state.live ⟨state, hslot, rfl⟩
  have hid' := h.same_id other state'.live ⟨state', hslot', rfl⟩
  rw [← hlive, hid] at hid'
  exact hother hid'.symm

theorem Counted.attach (h : s.Counted) (halive : s.Alive) (hattach : s.attach id = .ok s') :
    s'.Counted := by
  unfold System.attach at hattach
  split at hattach
  · next state hslot =>
    cases hattach
    have hopen : s.OpenAs id state.live := ⟨state, hslot, rfl⟩
    have hid := halive.same_id id state.live hopen
    refine ⟨?_, ?_, ?_⟩
    · intro attachment hmem
      rcases List.mem_append.mp hmem with hmem | hmem
      · exact h.same_id attachment hmem
      · rw [List.mem_singleton.mp hmem]
        exact hid
    · intro attachment hmem
      rcases List.mem_append.mp hmem with hmem | hmem
      · exact h.numbers attachment hmem
      · rw [List.mem_singleton.mp hmem]
        exact halive.numbers _ ((halive.running _).mpr (hid.symm ▸ hopen))
    · intro other found hfound
      change (s.setSlot id _).slots.lookup other = _ at hfound
      rw [List.countP_append]
      by_cases hother : other = id
      · subst hother
        rw [lookup_setSlot_self] at hfound
        cases hfound
        simp [h.count other state hslot]
      · rw [lookup_setSlot_of_ne hother] at hfound
        simp [h.count other found hfound, halive.live_ne hslot hfound hother]
  · cases hattach

theorem Counted.detach (h : s.Counted) (halive : s.Alive) {attachment : Attachment}
    (hmem : attachment ∈ s.attachments) : (s.detach attachment).Counted := by
  have hsame : ∀ other ∈ s.attachments.erase attachment, other.live.id = other.id := fun other hother =>
    h.same_id other (List.mem_of_mem_erase hother)
  have hnumbers : ∀ other ∈ s.attachments.erase attachment, other.live.number < s.started :=
    fun other hother => h.numbers other (List.mem_of_mem_erase hother)
  -- A session of another live object counts as before.
  have hcount : ∀ id state, s.slots.lookup id = some (.open state) → attachment.live ≠ state.live →
      state.attachments = (s.attachments.erase attachment).countP fun other =>
        other.live = state.live := by
    intro id state hslot hne
    rw [List.countP_erase, if_neg (by simp [hne]), Nat.sub_zero]
    exact h.count id state hslot
  have hfar : ∀ id state, s.slots.lookup id = some (.open state) → id ≠ attachment.id →
      attachment.live ≠ state.live := by
    intro id state hslot hne hlive
    have hid := halive.same_id id state.live ⟨state, hslot, rfl⟩
    rw [← hlive, h.same_id attachment hmem] at hid
    exact hne hid.symm
  unfold System.detach
  dsimp only
  split
  · next state hslot =>
    split
    · next hlive =>
      refine ⟨hsame, hnumbers, fun id found hfound => ?_⟩
      change found.attachments = (s.attachments.erase attachment).countP _
      by_cases hid : id = attachment.id
      · subst hid
        rw [lookup_setSlot_self] at hfound
        cases hfound
        dsimp only
        rw [List.countP_erase, if_pos ⟨hmem, by simpa using hlive⟩, ← h.count _ state hslot]
      · rw [lookup_setSlot_of_ne hid] at hfound
        exact hcount id found hfound (hfar id found hfound hid)
    · next hlive =>
      refine ⟨hsame, hnumbers, fun id found hfound => ?_⟩
      have hfound' : s.slots.lookup id = some (.open found) := hfound
      by_cases hid : id = attachment.id
      · subst hid
        rw [hslot] at hfound'
        cases hfound'
        exact hcount _ state hslot hlive
      · exact hcount id found hfound' (hfar id found hfound' hid)
  · next hnone =>
    refine ⟨hsame, hnumbers, fun id found hfound => ?_⟩
    have hfound' : s.slots.lookup id = some (.open found) := hfound
    refine hcount id found hfound' (hfar id found hfound' ?_)
    rintro rfl
    exact hnone found hfound'

end Counted

/-! ## Steps that open and close -/

section Moves

variable {s s' : System} {id : SessionId} {call : Nat}

theorem Inv.kept (h : s.Inv) (hkept : Kept s s') (hcounted : s'.Counted) : s'.Inv :=
  ⟨h.owned.kept hkept, h.alive.kept hkept, hcounted⟩

theorem Inv.setCall (h : s.Inv) {state : Option Call}
    (hstate : state.bind Call.transition? = (s.calls call).bind Call.transition?) :
    (s.setCall call state).Inv :=
  h.kept (kept_setCall hstate) ⟨h.counted.same_id, h.counted.numbers, h.counted.count⟩

theorem not_changing_of_open {live : LiveSession} (h : s.OpenAs id live) : ¬ s.Changing id := by
  obtain ⟨state, hslot, _⟩ := h
  rintro (hopening | hclosing)
  · rw [hslot] at hopening
    cases hopening
  · rw [hslot] at hclosing
    cases hclosing

theorem admits_ok (h : admits s.phase = .ok ()) : s.phase = .ready := by
  cases hphase : s.phase with
  | ready => rfl
  | reloading | stopped =>
    rw [hphase] at h
    cases h

theorem reserve_ok (h : s.reserve id = .ok s') :
    s.phase = .ready ∧ s.slots.lookup id = none ∧ s' = s.setSlot id .opening := by
  unfold reserve at h
  split at h
  · cases h
  · next hadmits =>
    split at h
    · cases h
    · cases h
    · cases h
    · next hslot =>
      cases h
      exact ⟨admits_ok hadmits, hslot, rfl⟩

theorem openAs_setSlot_of_not_open {slot : Slot} (hslot : ∀ state, slot ≠ .open state)
    {other : SessionId} {live : LiveSession} :
    (s.setSlot id slot).OpenAs other live ↔ other ≠ id ∧ s.OpenAs other live := by
  by_cases hother : other = id
  · subst hother
    simp [OpenAs, hslot]
  · simp [OpenAs, lookup_setSlot_of_ne hother, hother]

theorem changing_setSlot_of_ne {slot : Slot} {other : SessionId} (h : other ≠ id) :
    (s.setSlot id slot).Changing other ↔ s.Changing other := by
  simp only [Changing, lookup_setSlot_of_ne h]

theorem Inv.reserve (h : s.Inv) (hreserve : s.reserve id = .ok s')
    (hfree : (s.calls call).bind Call.transition? = none) {state : Call}
    (hstate : state.transition? = some id) : (s'.setCall call (some state)).Inv := by
  obtain ⟨hphase, hslot, rfl⟩ := reserve_ok hreserve
  have hnot : ¬ s.Changing id := by
    rintro (hopening | hclosing)
    · rw [hslot] at hopening
      cases hopening
    · rw [hslot] at hclosing
      cases hclosing
  have hnone : ∀ call', ¬ s.Holds call' id := fun call' hholds =>
    hnot (h.owned.held call' id hholds (by simp [hphase]))
  have hself : ∀ other, ((s.setSlot id .opening).setCall call (some state)).Holds call other ↔
      other = id := by
    intro other
    rw [holds_setCall_self, Option.bind_some, hstate, Option.some_inj]
    exact eq_comm
  have hother : ∀ call' other, call' ≠ call →
      (((s.setSlot id .opening).setCall call (some state)).Holds call' other ↔
        s.Holds call' other) := fun call' other hne => holds_setCall_of_ne hne
  refine ⟨⟨?_, ?_, ?_, ?_, ?_, ?_⟩, ⟨?_, ?_, h.alive.nodup, h.alive.numbers⟩, ?_⟩
  · intro call' other hholds _
    by_cases hid : other = id
    · subst hid
      exact .inl lookup_setSlot_self
    · refine (changing_setSlot_of_ne hid).mpr ?_
      by_cases hcall : call' = call
      · subst hcall
        exact absurd ((hself other).mp hholds) hid
      · exact h.owned.held call' other ((hother call' other hcall).mp hholds) (by simp [hphase])
  · intro first second other hfirst hsecond
    by_cases hid : other = id
    · subst hid
      have hmine : ∀ call', ((s.setSlot other .opening).setCall call (some state)).Holds call' other →
          call' = call := by
        intro call' hholds
        by_contra hne
        exact hnone call' ((hother call' other hne).mp hholds)
      rw [hmine first hfirst, hmine second hsecond]
    · have hne : ∀ call', ((s.setSlot id .opening).setCall call (some state)).Holds call' other →
          call' ≠ call := by
        rintro call' hholds rfl
        exact hid ((hself other).mp hholds)
      exact h.owned.unique first second other ((hother first other (hne first hfirst)).mp hfirst)
        ((hother second other (hne second hsecond)).mp hsecond)
  · intro other hchanging
    by_cases hid : other = id
    · subst hid
      exact ⟨call, (hself other).mpr rfl⟩
    · obtain ⟨call', hholds⟩ := h.owned.owned other ((changing_setSlot_of_ne hid).mp hchanging)
      refine ⟨call', (hother call' other ?_).mpr hholds⟩
      rintro rfl
      rw [Holds, hfree] at hholds
      cases hholds
  · intro hstopped
    exact absurd (hphase.symm.trans hstopped) (by simp)
  · exact h.owned.guarded
  · intro hreloading
    exact absurd (hphase.symm.trans hreloading) (by simp)
  · intro other live hopen
    exact h.alive.same_id other live ((openAs_setSlot_of_not_open (by simp)).mp hopen).2
  · intro live
    refine (h.alive.running live).trans ⟨fun hopen => ?_, fun hopen => ?_⟩
    · refine (openAs_setSlot_of_not_open (by simp)).mpr ⟨?_, hopen⟩
      rintro rfl
      obtain ⟨state', hslot', _⟩ := hopen
      rw [hslot] at hslot'
      cases hslot'
    · exact ((openAs_setSlot_of_not_open (by simp)).mp hopen).2
  · refine h.counted.same rfl le_rfl fun other found hfound => ?_
    have hfound' : (s.setSlot id .opening).slots.lookup other = some (.open found) := hfound
    by_cases hid : other = id
    · subst hid
      rw [lookup_setSlot_self] at hfound'
      cases hfound'
    · rw [lookup_setSlot_of_ne hid] at hfound'
      exact ⟨found, hfound', rfl, rfl⟩

theorem changing_dropTransition {other : SessionId} :
    (s.dropTransition id).Changing other ↔ other ≠ id ∧ s.Changing other := by
  by_cases hid : other = id
  · subst hid
    simp [not_changing_dropTransition]
  · simp only [Changing, lookup_dropTransition_of_ne hid, ne_eq, hid, not_false_eq_true, true_and]

theorem lookup_dropTransition_open {other : SessionId} {state : Open} :
    (s.dropTransition id).slots.lookup other = some (.open state) ↔
      s.slots.lookup other = some (.open state) := by
  by_cases hid : other = id
  · subst hid
    by_cases hchanging : s.Changing other
    · rw [lookup_dropTransition_of_changing hchanging]
      rcases hchanging with hslot | hslot <;> simp [hslot]
    · rw [dropTransition_of_not_changing hchanging]
  · rw [lookup_dropTransition_of_ne hid]

theorem holds_setCall_of_none {state : Option Call} (hstate : state.bind Call.transition? = none)
    {call' : Nat} : (s.setCall call state).Holds call' id ↔ call' ≠ call ∧ s.Holds call' id := by
  by_cases hcall : call' = call
  · subst hcall
    simp [holds_setCall_self, hstate]
  · simp [holds_setCall_of_ne hcall, hcall]

theorem Inv.release (h : s.Inv) (hholds : s.Holds call id) {state : Option Call}
    (hstate : state.bind Call.transition? = none) :
    ((s.dropTransition id).setCall call state).Inv := by
  have hframe : s.dropTransition id = { s with slots := (s.dropTransition id).slots } :=
    dropTransition_frame
  have hphase : (s.dropTransition id).phase = s.phase := by rw [hframe]
  have hreload : (s.dropTransition id).reload = s.reload := by rw [hframe]
  have hrunning : (s.dropTransition id).running = s.running := by rw [hframe]
  have hstarted : (s.dropTransition id).started = s.started := by rw [hframe]
  have hattachments : (s.dropTransition id).attachments = s.attachments := by rw [hframe]
  have hsame : ∀ call' other, (s.dropTransition id).Holds call' other ↔ s.Holds call' other := by
    intro call' other
    rw [hframe]
    exact .rfl
  have hopen : ∀ other live, (s.dropTransition id).OpenAs other live ↔ s.OpenAs other live :=
    fun other live => exists_congr fun _ => and_congr_left' lookup_dropTransition_open
  refine ⟨⟨?_, ?_, ?_, ?_, ?_, ?_⟩, ⟨?_, ?_, ?_, ?_⟩, ?_⟩
  · intro call' other hmine hne
    obtain ⟨hcall, hbefore⟩ := (holds_setCall_of_none hstate).mp hmine
    rw [hsame] at hbefore
    refine changing_dropTransition.mpr ⟨?_, h.owned.held call' other hbefore (hphase ▸ hne)⟩
    rintro rfl
    exact hcall (h.owned.unique call' call other hbefore hholds)
  · intro first second other hfirst hsecond
    have hfirst' := ((holds_setCall_of_none hstate).mp hfirst).2
    have hsecond' := ((holds_setCall_of_none hstate).mp hsecond).2
    rw [hsame] at hfirst' hsecond'
    exact h.owned.unique first second other hfirst' hsecond'
  · intro other hchanging
    obtain ⟨hid, hchanging⟩ := changing_dropTransition.mp hchanging
    obtain ⟨call', hholds'⟩ := h.owned.owned other hchanging
    refine ⟨call', (holds_setCall_of_none hstate).mpr ⟨?_, (hsame call' other).mpr hholds'⟩⟩
    rintro rfl
    rw [Holds, hholds] at hholds'
    exact hid (Option.some.inj hholds').symm
  · intro hstopped
    have hempty := h.owned.stopped (hphase ▸ hstopped)
    have hnot : ¬ s.Changing id := by simp [Changing, hempty]
    change (s.dropTransition id).slots = ∅
    rw [dropTransition_of_not_changing hnot]
    exact hempty
  · change (s.dropTransition id).reload.isSome ↔ (s.dropTransition id).phase = .reloading
    rw [hreload, hphase]
    exact h.owned.guarded
  · intro hreloading other hchanging
    exact h.owned.quiet (hphase ▸ hreloading) other (changing_dropTransition.mp hchanging).2
  · exact fun other live hopened => h.alive.same_id other live ((hopen other live).mp hopened)
  · intro live
    change live ∈ (s.dropTransition id).running ↔ (s.dropTransition id).OpenAs live.id live
    rw [hrunning, hopen]
    exact h.alive.running live
  · change (s.dropTransition id).running.Nodup
    rw [hrunning]
    exact h.alive.nodup
  · change ∀ live ∈ (s.dropTransition id).running, live.number < (s.dropTransition id).started
    rw [hrunning, hstarted]
    exact h.alive.numbers
  · refine h.counted.same hattachments hstarted.ge fun other found hfound => ?_
    exact ⟨found, lookup_dropTransition_open.mp hfound, rfl, rfl⟩

theorem Inv.startClose (h : s.Inv) {state : Open} (hslot : s.slots.lookup id = some (.open state))
    (hphase : s.phase = .ready) (hfree : (s.calls call).bind Call.transition? = none) :
    (s.startClose id state.live call).Inv := by
  have hopen : s.OpenAs id state.live := ⟨state, hslot, rfl⟩
  have hid := h.alive.same_id id _ hopen
  have hnone : ∀ call', ¬ s.Holds call' id := fun call' hholds =>
    not_changing_of_open hopen (h.owned.held call' id hholds (by simp [hphase]))
  have hself : ∀ other, (s.startClose id state.live call).Holds call other ↔ other = id := by
    intro other
    unfold System.startClose
    rw [holds_setCall_self, Option.bind_some, Call.transition?, Option.some_inj]
    exact eq_comm
  have hother : ∀ call' other, call' ≠ call →
      ((s.startClose id state.live call).Holds call' other ↔ s.Holds call' other) :=
    fun call' other hne => holds_setCall_of_ne hne
  have hchanging : ∀ other, other ≠ id →
      ((s.startClose id state.live call).Changing other ↔ s.Changing other) :=
    fun other hne => changing_setSlot_of_ne hne
  have hopens : ∀ other live, (s.startClose id state.live call).OpenAs other live ↔
      other ≠ id ∧ s.OpenAs other live :=
    fun other live => openAs_setSlot_of_not_open (by simp)
  refine ⟨⟨?_, ?_, ?_, ?_, h.owned.guarded, ?_⟩, ⟨?_, ?_, ?_, ?_⟩, ?_⟩
  · intro call' other hholds _
    by_cases hne : other = id
    · subst hne
      exact .inr lookup_setSlot_self
    · refine (hchanging other hne).mpr ?_
      by_cases hcall : call' = call
      · subst hcall
        exact absurd ((hself other).mp hholds) hne
      · exact h.owned.held call' other ((hother call' other hcall).mp hholds) (by simp [hphase])
  · intro first second other hfirst hsecond
    by_cases hne : other = id
    · subst hne
      have hmine : ∀ call', (s.startClose other state.live call).Holds call' other →
          call' = call := by
        intro call' hholds
        by_contra hcall
        exact hnone call' ((hother call' other hcall).mp hholds)
      rw [hmine first hfirst, hmine second hsecond]
    · have hcall : ∀ call', (s.startClose id state.live call).Holds call' other → call' ≠ call := by
        rintro call' hholds rfl
        exact hne ((hself other).mp hholds)
      exact h.owned.unique first second other ((hother first other (hcall first hfirst)).mp hfirst)
        ((hother second other (hcall second hsecond)).mp hsecond)
  · intro other hchanges
    by_cases hne : other = id
    · subst hne
      exact ⟨call, (hself other).mpr rfl⟩
    · obtain ⟨call', hholds⟩ := h.owned.owned other ((hchanging other hne).mp hchanges)
      refine ⟨call', (hother call' other ?_).mpr hholds⟩
      rintro rfl
      rw [Holds, hfree] at hholds
      cases hholds
  · intro hstopped
    exact absurd (hphase.symm.trans hstopped) (by simp)
  · intro hreloading
    exact absurd (hphase.symm.trans hreloading) (by simp)
  · exact fun other live hopened => h.alive.same_id other live ((hopens other live).mp hopened).2
  · intro live
    rw [hopens]
    change live ∈ s.running.filter (· ≠ state.live) ↔ _
    rw [List.mem_filter, h.alive.running live]
    constructor
    · rintro ⟨hopened, hne⟩
      refine ⟨?_, hopened⟩
      rintro rfl
      obtain ⟨found, hfound, hlive⟩ := hopened
      rw [hslot] at hfound
      cases hfound
      simp [hlive] at hne
    · rintro ⟨hne, hopened⟩
      refine ⟨hopened, ?_⟩
      simp only [ne_eq, decide_not, Bool.not_eq_true', decide_eq_false_iff_not]
      rintro rfl
      exact hne hid
  · exact h.alive.nodup.filter _
  · exact fun live hlive => h.alive.numbers live (List.mem_of_mem_filter hlive)
  · refine h.counted.same rfl le_rfl fun other found hfound => ?_
    have hfound' : (s.setSlot id .closing).slots.lookup other = some (.open found) := hfound
    by_cases hne : other = id
    · subst hne
      rw [lookup_setSlot_self] at hfound'
      cases hfound'
    · rw [lookup_setSlot_of_ne hne] at hfound'
      exact ⟨found, hfound', rfl, rfl⟩

theorem mem_opened {live : LiveSession} : live ∈ s.opened ↔ ∃ id, s.OpenAs id live := by
  unfold opened
  rw [List.mem_filterMap]
  constructor
  · rintro ⟨⟨id, slot⟩, hmem, hslot⟩
    cases slot with
    | «open» state =>
      exact ⟨id, state, AList.mem_lookup_iff.mpr hmem, Option.some.inj hslot⟩
    | opening | closing => cases hslot
  · rintro ⟨id, state, hslot, hlive⟩
    exact ⟨⟨id, .open state⟩, AList.mem_lookup_iff.mp hslot, congrArg some hlive⟩

theorem Inv.closeAll (h : s.Inv) (hreload : s.reload = none)
    (hfree : (s.calls call).bind Call.transition? = none) : (s.closeAll call).Inv := by
  have hholds : ∀ call' other, (s.closeAll call).Holds call' other ↔ s.Holds call' other := by
    intro call' other
    by_cases hcall : call' = call
    · subst hcall
      unfold System.closeAll
      rw [holds_setCall_self, Holds, hfree]
      exact .rfl
    · exact holds_setCall_of_ne hcall
  have hslot : ∀ other, (s.closeAll call).slots.lookup other = none := fun _ => rfl
  have hnot : ∀ other, ¬ (s.closeAll call).Changing other := by
    rintro other (hopening | hclosing)
    · rw [hslot] at hopening
      cases hopening
    · rw [hslot] at hclosing
      cases hclosing
  have hnotOpen : ∀ other live, ¬ (s.closeAll call).OpenAs other live := by
    rintro other live ⟨state, hopen, _⟩
    rw [hslot] at hopen
    cases hopen
  refine ⟨⟨?_, ?_, ?_, ?_, ?_, ?_⟩, ⟨?_, ?_, ?_, ?_⟩, ?_⟩
  · exact fun _ _ _ hne => absurd rfl hne
  · intro first second other hfirst hsecond
    exact h.owned.unique first second other ((hholds first other).mp hfirst)
      ((hholds second other).mp hsecond)
  · exact fun other hchanging => absurd hchanging (hnot other)
  · exact fun _ => rfl
  · change s.reload.isSome ↔ Phase.stopped = .reloading
    simp [hreload]
  · exact fun hphase => by cases hphase
  · exact fun other live hopen => absurd hopen (hnotOpen other live)
  · intro live
    refine ⟨fun hlive => ?_, fun hopen => absurd hopen (hnotOpen _ _)⟩
    obtain ⟨hrunning, hleft⟩ := List.mem_filter.mp hlive
    exact absurd (mem_opened.mpr ⟨_, (h.alive.running live).mp hrunning⟩) (of_decide_eq_true hleft)
  · exact h.alive.nodup.filter _
  · exact fun live hlive => h.alive.numbers live (List.mem_of_mem_filter hlive)
  · refine h.counted.same rfl le_rfl fun other found hfound => ?_
    rw [hslot] at hfound
    cases hfound

theorem startReload_ok (h : s.startReload = .ok s') :
    s.phase = .ready ∧ (∀ id, ¬ s.Changing id) ∧
      s' = { s with phase := .reloading, reload := some s.opened } := by
  unfold startReload at h
  split at h
  · cases h
  · next hadmits =>
    split at h
    · cases h
    · next hfind =>
      cases h
      refine ⟨admits_ok hadmits, fun id hchanging => ?_, rfl⟩
      rw [List.find?_eq_none] at hfind
      rcases hchanging with hslot | hslot
      · exact hfind _ (AList.mem_lookup_iff.mp hslot) rfl
      · exact hfind _ (AList.mem_lookup_iff.mp hslot) rfl

theorem Inv.startReload (h : s.Inv) (hreload : s.startReload = .ok s') : s'.Inv := by
  obtain ⟨hphase, hquiet, rfl⟩ := startReload_ok hreload
  refine ⟨⟨?_, h.owned.unique, h.owned.owned, ?_, ?_, ?_⟩,
    ⟨h.alive.same_id, h.alive.running, h.alive.nodup, h.alive.numbers⟩,
    ⟨h.counted.same_id, h.counted.numbers, h.counted.count⟩⟩
  · exact fun call id hholds _ => h.owned.held call id hholds (by simp [hphase])
  · exact fun hstopped => by cases hstopped
  · exact ⟨fun _ => rfl, fun _ => rfl⟩
  · exact fun _ id => hquiet id

theorem Inv.endReload (h : s.Inv) : s.endReload.Inv := by
  have hphase : s.endReload.phase ≠ .reloading := by
    change (if s.phase = .reloading then Phase.ready else s.phase) ≠ .reloading
    split
    · simp
    · assumption
  have hstopped : s.endReload.phase = .stopped → s.phase = .stopped := by
    change (if s.phase = .reloading then Phase.ready else s.phase) = .stopped → _
    split
    · exact fun hready => by cases hready
    · exact id
  have hrunning : s.phase = .stopped → s.endReload.phase = .stopped := by
    intro hphase
    change (if s.phase = .reloading then Phase.ready else s.phase) = .stopped
    simp [hphase]
  refine ⟨⟨?_, h.owned.unique, h.owned.owned, ?_, ?_, ?_⟩,
    ⟨h.alive.same_id, h.alive.running, h.alive.nodup, h.alive.numbers⟩,
    ⟨h.counted.same_id, h.counted.numbers, h.counted.count⟩⟩
  · exact fun call id hholds hne => h.owned.held call id hholds fun hphase => hne (hrunning hphase)
  · exact fun hphase => h.owned.stopped (hstopped hphase)
  · exact ⟨fun hsome => (by cases hsome), fun hreloading => absurd hreloading hphase⟩
  · exact fun hreloading => absurd hreloading hphase

theorem Inv.counted_on (h : s.Inv) {started : Nat} (hstarted : s.started ≤ started) :
    { s with started := started }.Inv where
  owned := ⟨h.owned.held, h.owned.unique, h.owned.owned, h.owned.stopped, h.owned.guarded,
    h.owned.quiet⟩
  alive := ⟨h.alive.same_id, h.alive.running, h.alive.nodup, fun live hlive =>
    (h.alive.numbers live hlive).trans_le hstarted⟩
  counted := ⟨h.counted.same_id, fun attachment hmem =>
    (h.counted.numbers attachment hmem).trans_le hstarted, h.counted.count⟩

def born (s : System) (id : SessionId) : System :=
  { s with started := s.started + 1, running := s.running ++ [⟨id, s.started⟩] }

theorem dropTransition_born : (s.born id).dropTransition id = (s.dropTransition id).born id := by
  unfold dropTransition born
  dsimp only
  split <;> rfl

theorem stop_born (h : s.Inv) :
    ((s.born id).stop ⟨id, s.started⟩) = { s with started := s.started + 1 } := by
  have hfilter : s.running.filter (· ≠ ⟨id, s.started⟩) = s.running := by
    refine List.filter_eq_self.mpr fun live hlive => ?_
    have hlt := h.alive.numbers live hlive
    simp only [ne_eq, decide_not, Bool.not_eq_true', decide_eq_false_iff_not]
    rintro rfl
    exact hlt.ne rfl
  unfold System.stop born
  dsimp only
  rw [List.filter_append, hfilter]
  simp

theorem Inv.discard (h : s.Inv) (hholds : s.Holds call id) (fresh : Bool) :
    ((((s.born id).dropTransition id).stop ⟨id, s.started⟩).setCall call
      (some (.discarding ⟨id, s.started⟩ fresh))).Inv := by
  have hdropped : (s.dropTransition id).started = s.started := by rw [dropTransition_frame]
  have hreleased : ((s.dropTransition id).setCall call
      (some (.discarding ⟨id, s.started⟩ fresh))).Inv := h.release hholds rfl
  have hfilter : List.filter (· ≠ (⟨id, s.started⟩ : LiveSession))
      ((s.dropTransition id).running ++ [⟨id, s.started⟩]) = (s.dropTransition id).running := by
    have hrunning : (s.dropTransition id).running = s.running := by rw [dropTransition_frame]
    have hstop := congrArg System.running (@stop_born s id h)
    rw [hrunning]
    exact hstop
  have heq : (((s.born id).dropTransition id).stop ⟨id, s.started⟩).setCall call
      (some (.discarding ⟨id, s.started⟩ fresh)) =
        { (s.dropTransition id).setCall call (some (.discarding ⟨id, s.started⟩ fresh)) with
          started := s.started + 1 } := by
    rw [dropTransition_born]
    unfold System.stop born System.setCall
    dsimp only
    rw [hdropped, hfilter]
  rw [heq]
  exact hreleased.counted_on (hdropped.le.trans (Nat.le_succ _))

theorem Inv.opened (h : s.Inv) (hholds : s.Holds call id) (hphase : s.phase ≠ .stopped) :
    (((s.born id).setSlot id (.open ⟨⟨id, s.started⟩, 0, none⟩)).setCall call none).Inv := by
  have hchanging := h.owned.held call id hholds hphase
  have hslot : ∀ state, s.slots.lookup id ≠ some (.open state) := by
    intro state hopen
    exact not_changing_of_open ⟨state, hopen, rfl⟩ hchanging
  have hready : s.phase = .ready := by
    cases hcurrent : s.phase with
    | ready => rfl
    | reloading => exact absurd hchanging (h.owned.quiet hcurrent id)
    | stopped => exact absurd hcurrent hphase
  have hcalls : ∀ call' other,
      (((s.born id).setSlot id (.open ⟨⟨id, s.started⟩, 0, none⟩)).setCall call none).Holds call'
        other ↔ call' ≠ call ∧ s.Holds call' other :=
    fun call' other => holds_setCall_of_none rfl
  have hself : ((s.born id).setSlot id (.open ⟨⟨id, s.started⟩, 0, none⟩)).slots.lookup id =
      some (.open ⟨⟨id, s.started⟩, 0, none⟩) := lookup_setSlot_self
  have hother : ∀ other, other ≠ id →
      ((s.born id).setSlot id (.open ⟨⟨id, s.started⟩, 0, none⟩)).slots.lookup other =
        s.slots.lookup other := fun other hne => lookup_setSlot_of_ne hne
  have hchanges : ∀ other,
      (((s.born id).setSlot id (.open ⟨⟨id, s.started⟩, 0, none⟩)).setCall call none).Changing
        other ↔ other ≠ id ∧ s.Changing other := by
    intro other
    by_cases hne : other = id
    · subst hne
      simp only [ne_eq, not_true_eq_false, false_and, iff_false]
      exact not_changing_of_open ⟨_, hself, rfl⟩
    · have hsame := hother other hne
      simp only [Changing, ne_eq, hne, not_false_eq_true, true_and]
      change _ = _ ∨ _ = _ ↔ _
      exact iff_of_eq (congrArg₂ Or (congrArg (· = _) hsame) (congrArg (· = _) hsame))
  have hopens : ∀ other live,
      (((s.born id).setSlot id (.open ⟨⟨id, s.started⟩, 0, none⟩)).setCall call none).OpenAs
        other live ↔ (other = id ∧ live = ⟨id, s.started⟩) ∨ (other ≠ id ∧ s.OpenAs other live) := by
    intro other live
    by_cases hne : other = id
    · subst hne
      constructor
      · rintro ⟨state, hstate, rfl⟩
        have hstate' := hself.symm.trans hstate
        cases hstate'
        exact .inl ⟨rfl, rfl⟩
      · rintro (⟨_, rfl⟩ | ⟨hfalse, _⟩)
        · exact ⟨_, hself, rfl⟩
        · exact absurd rfl hfalse
    · have hsame := hother other hne
      constructor
      · rintro ⟨state, hstate, hlive⟩
        exact .inr ⟨hne, state, hsame.symm.trans hstate, hlive⟩
      · rintro (⟨hfalse, _⟩ | ⟨_, state, hstate, hlive⟩)
        · exact absurd hfalse hne
        · exact ⟨state, hsame.trans hstate, hlive⟩
  refine ⟨⟨?_, ?_, ?_, ?_, h.owned.guarded, ?_⟩, ⟨?_, ?_, ?_, ?_⟩, ?_⟩
  · intro call' other hmine _
    obtain ⟨hcall, hbefore⟩ := (hcalls call' other).mp hmine
    refine (hchanges other).mpr ⟨?_, h.owned.held call' other hbefore hphase⟩
    rintro rfl
    exact hcall (h.owned.unique call' call other hbefore hholds)
  · intro first second other hfirst hsecond
    exact h.owned.unique first second other ((hcalls first other).mp hfirst).2
      ((hcalls second other).mp hsecond).2
  · intro other hmoves
    obtain ⟨hne, hmoves⟩ := (hchanges other).mp hmoves
    obtain ⟨call', hbefore⟩ := h.owned.owned other hmoves
    refine ⟨call', (hcalls call' other).mpr ⟨?_, hbefore⟩⟩
    rintro rfl
    rw [Holds, hholds] at hbefore
    exact hne (Option.some.inj hbefore).symm
  · exact fun hstopped => absurd hstopped hphase
  · exact fun hreloading => absurd (hready.symm.trans hreloading) (by simp)
  · intro other live hopen
    rcases (hopens other live).mp hopen with ⟨rfl, rfl⟩ | ⟨_, hopen⟩
    · rfl
    · exact h.alive.same_id other live hopen
  · intro live
    rw [hopens]
    change live ∈ s.running ++ [⟨id, s.started⟩] ↔ _
    rw [List.mem_append, List.mem_singleton, h.alive.running live]
    constructor
    · rintro (hopen | rfl)
      · refine .inr ⟨?_, hopen⟩
        rintro hid
        obtain ⟨state, hstate, _⟩ := hopen
        rw [hid] at hstate
        exact hslot state hstate
      · exact .inl ⟨rfl, rfl⟩
    · rintro (⟨_, hlive⟩ | ⟨_, hopen⟩)
      · exact .inr hlive
      · exact .inl hopen
  · refine List.nodup_append.mpr ⟨h.alive.nodup, List.nodup_singleton _, ?_⟩
    rintro live hlive other hnew rfl
    rw [List.mem_singleton.mp hnew] at hlive
    exact (h.alive.numbers _ hlive).ne rfl
  · intro live hlive
    rcases List.mem_append.mp hlive with hlive | hlive
    · exact (h.alive.numbers live hlive).trans (Nat.lt_succ_self _)
    · rw [List.mem_singleton.mp hlive]
      exact Nat.lt_succ_self _
  · refine ⟨h.counted.same_id, fun attachment hmem =>
      (h.counted.numbers attachment hmem).trans (Nat.lt_succ_self _), fun other state hstate => ?_⟩
    have hstate' : ((s.born id).setSlot id (.open ⟨⟨id, s.started⟩, 0, none⟩)).slots.lookup other =
        some (.open state) := hstate
    by_cases hne : other = id
    · subst hne
      rw [hself] at hstate'
      cases hstate'
      refine (List.countP_eq_zero.mpr fun attachment hmem hlive => ?_).symm
      have hlt := h.counted.numbers attachment hmem
      rw [of_decide_eq_true hlive] at hlt
      exact hlt.ne rfl
    · rw [hother other hne] at hstate'
      exact h.counted.count other state hstate'

theorem Inv.startSession (h : s.Inv) (hholds : s.Holds call id) (fresh : Bool)
    (jobs : Option Nat) : (s.startSession id fresh jobs call).Inv := by
  by_cases hphase : s.phase = .stopped
  · have hstart : s.startSession id fresh jobs call =
        ((((s.born id).dropTransition id).stop ⟨id, s.started⟩).setCall call
          (some (.discarding ⟨id, s.started⟩ fresh))) := by
      unfold System.startSession openTransition
      dsimp only
      rw [if_pos hphase]
      rfl
    rw [hstart]
    exact h.discard hholds fresh
  · have hopened := h.opened hholds hphase
    have hstart : s.startSession id fresh jobs call =
        (((s.born id).setSlot id (.open ⟨⟨id, s.started⟩, 0, none⟩)).setCall call none).reportIdle
          id jobs := by
      have hopen : ((s.born id).setSlot id (.open ⟨⟨id, s.started⟩, 0, none⟩)).OpenAs id
          ⟨id, s.started⟩ := ⟨_, lookup_setSlot_self, rfl⟩
      have hsame := dropTransition_of_not_changing (not_changing_of_open hopen)
      unfold System.startSession openTransition
      dsimp only
      rw [if_neg hphase]
      change ((((s.born id).setSlot id _).dropTransition id).setCall call none).reportIdle id jobs = _
      rw [hsame]
    rw [hstart]
    exact hopened.kept (kept_reportIdle jobs) (hopened.counted.reportIdle jobs)

end Moves

end System

end Yuke.App
