import Yuke.Mcp.Servers

/-!
# The invariant of the MCP servers

Each server fits the state of its task, and each task that runs is in the hands of the servers or of
the first close.
-/

set_option autoImplicit false

namespace Yuke.Mcp

variable {Peer Tool : Type}

namespace Slot

def Active (slot : Slot Peer Tool) : Prop :=
  slot.task = .spawned ∨ slot.task = .connecting ∨ slot.task = .connected ∨ slot.task = .ending

def Shape (slot : Slot Peer Tool) : Prop :=
  match slot.task with
  | .absent => slot.peer = none ∧ ∀ tools, slot.state ≠ .connected tools
  | .gated => slot.peer = none ∧ slot.state = .untrusted
  | .spawned | .connecting | .aborted true => slot.peer = none ∧ slot.state = .connecting
  | .connected | .ending | .aborted false =>
    slot.peer.isSome ∧ ∃ tools, slot.state = .connected tools
  | .over => slot.peer = none ∧ ∃ error, slot.state = .failed error

theorem Shape.peer {slot : Slot Peer Tool} (h : slot.Shape) :
    slot.peer.isSome ↔ ∃ tools, slot.state = .connected tools := by
  unfold Shape at h
  split at h
  · rw [h.1]
    simp [h.2]
  · rw [h.1, h.2]
    simp
  · rw [h.1, h.2]
    simp
  · rw [h.1, h.2]
    simp
  · rw [h.1, h.2]
    simp
  · exact iff_of_true h.1 h.2
  · exact iff_of_true h.1 h.2
  · exact iff_of_true h.1 h.2
  · obtain ⟨hpeer, error, hstate⟩ := h
    rw [hpeer, hstate]
    simp

end Slot

/-- What the servers share: the mark of a close, the trust, the tasks in hand, and the servers that
the trust task goes through now. -/
structure Context where
  closed : Bool
  trust : TrustTask
  answer : Option Bool
  holding : List (Option Nat)
  left : List Nat

structure Fits (c : Context) (i : Nat) (slot : Slot Peer Tool) : Prop where
  shape : slot.Shape
  stop : c.closed = false → (slot.stop = true ↔ slot.task = .connected ∨ slot.task = .ending)
  trusted : slot.source = .project → slot.task ≠ .absent → slot.task ≠ .gated →
    c.answer = some true
  gated : slot.task = .gated → c.trust = .waiting ∨ (c.closed = true ∧ c.trust = .aborted) ∨
    i ∈ c.left
  aborted : slot.task = .aborted true → c.closed = true
  kept : slot.task ≠ .aborted false
  held : slot.Active → some i ∈ c.holding

namespace Servers

def holding (s : Servers Peer Tool) : List (Option Nat) :=
  match s.closes with
  | [] => s.tasks
  | first :: _ => first.tasks

def context (s : Servers Peer Tool) (left : List Nat) : Context :=
  ⟨s.closed, s.trust, s.answer, s.holding, left⟩

structure Inv (s : Servers Peer Tool) (left : List Nat) : Prop where
  fits : ∀ i slot, s.slots[i]? = some slot → Fits (s.context left) i slot
  count : s.starting = (s.slots.countP Slot.starts : Nat)
  trust : s.trust = .waiting → none ∈ s.holding ∧ s.answer = none
  opened : s.closed = false → s.closes = []
  closed : s.closed = true →
    s.tasks = [] ∧ ∃ first rest, s.closes = first :: rest ∧ ∀ c ∈ rest, c.tasks = []

variable {s s' : Servers Peer Tool} {left : List Nat} {i : Nat} {slot next : Slot Peer Tool}

theorem countP_set {slots : List (Slot Peer Tool)} (h : slots[i]? = some slot)
    (next : Slot Peer Tool) :
    (((slots.set i next).countP Slot.starts : Nat) : Int) + (if slot.starts then 1 else 0) =
      (slots.countP Slot.starts : Nat) + (if next.starts then 1 else 0) := by
  obtain ⟨hi, rfl⟩ := List.getElem?_eq_some_iff.mp h
  have hset := List.countP_set (p := Slot.starts) (a := next) hi
  have hpos : slots[i].starts = true → 1 ≤ slots.countP Slot.starts := fun hstarts =>
    List.countP_pos_iff.mpr ⟨slots[i], List.getElem_mem hi, hstarts⟩
  rw [hset]
  by_cases hold : slots[i].starts = true
  · have := hpos hold
    rw [if_pos hold, if_pos hold]
    split
    · omega
    · omega
  · rw [if_neg hold, if_neg hold]
    split
    · omega
    · omega

theorem Inv.set (h : s.Inv left) (hslot : s.slots[i]? = some slot)
    (hslots : s'.slots = s.slots.set i next) (hcontext : s'.context left = s.context left)
    (hcloses : s'.closes = s.closes) (htasks : s'.tasks = s.tasks)
    (hfits : Fits (s.context left) i next)
    (hcount : s'.starting + (if slot.starts then 1 else 0) =
      s.starting + if next.starts then 1 else 0) : s'.Inv left := by
  have hclosed : s'.closed = s.closed := congrArg Context.closed hcontext
  have htrust : s'.trust = s.trust := congrArg Context.trust hcontext
  have hanswer : s'.answer = s.answer := congrArg Context.answer hcontext
  have hholding : s'.holding = s.holding := congrArg Context.holding hcontext
  refine ⟨fun j other hother => ?_, ?_, ?_, ?_, ?_⟩
  · rw [hcontext]
    rw [hslots, List.getElem?_set] at hother
    split at hother
    · next heq =>
      subst heq
      split at hother
      · cases hother
        exact hfits
      · cases hother
    · exact h.fits j other hother
  · have hset : (((s.slots.set i next).countP Slot.starts : Nat) : Int) +
        (if slot.starts then 1 else 0) = (s.slots.countP Slot.starts : Nat) +
        (if next.starts then 1 else 0) := countP_set hslot next
    rw [hslots]
    have := h.count
    omega
  · rw [htrust, hholding, hanswer]
    exact h.trust
  · rw [hclosed, hcloses]
    exact h.opened
  · rw [hclosed, hcloses, htasks]
    exact h.closed

theorem at_iff {phase : Phase} : s.At i phase ↔ ∃ slot, s.slots[i]? = some slot ∧ slot.task = phase := by
  unfold At
  rw [Option.map_eq_some_iff]

theorem update_eq {change : Slot Peer Tool → Slot Peer Tool} (hslot : s.slots[i]? = some slot) :
    s.update i change = { s with
      slots := s.slots.set i (change slot)
      reports := if s.closed then s.reports else s.reports ++ [(change slot).server] } := by
  unfold update
  rw [hslot]

theorem setTask_eq {phase : Phase} (hslot : s.slots[i]? = some slot) :
    s.setTask i phase = { s with slots := s.slots.set i { slot with task := phase } } := by
  unfold setTask
  rw [hslot]

theorem inv_launch (h : s.Inv left) (hslot : s.slots[i]? = some slot)
    (htask : slot.task = .spawned) : (s.setTask i .connecting).Inv left := by
  have hfits := h.fits i slot hslot
  rw [setTask_eq hslot]
  refine h.set hslot rfl rfl rfl rfl ?_ (by simp [Slot.starts, htask])
  constructor
  · have := hfits.shape
    simpa [Slot.Shape, htask] using this
  · intro hclosed
    have := hfits.stop hclosed
    simpa [htask] using this
  · intro hsource _ _
    exact hfits.trusted hsource (by simp [htask]) (by simp [htask])
  · intro heq
    cases heq
  · intro heq
    cases heq
  · simp
  · intro _
    exact hfits.held (.inl htask)

theorem inv_connected (h : s.Inv left) (hslot : s.slots[i]? = some slot)
    (htask : slot.task = .connecting) (result : Except String (Peer × List Tool)) :
    (s.connected i result).Inv left := by
  have hfits := h.fits i slot hslot
  have htrusted : slot.source = .project → s.answer = some true := fun hsource =>
    hfits.trusted hsource (by simp [htask]) (by simp [htask])
  cases result with
  | ok found =>
    obtain ⟨peer, tools⟩ := found
    simp only [connected, update_eq hslot]
    refine h.set hslot rfl rfl rfl rfl ?_ (by simp [Slot.starts, htask, countDown])
    exact ⟨⟨rfl, tools.length, rfl⟩, fun _ => by simp, fun hsource _ _ => htrusted hsource,
      fun heq => (nomatch heq), fun heq => (nomatch heq), by simp,
      fun _ => hfits.held (.inr (.inl htask))⟩
  | error error =>
    simp only [connected, update_eq hslot]
    refine h.set hslot rfl rfl rfl rfl ?_ (by simp [Slot.starts, htask, countDown])
    have hshape := hfits.shape
    simp only [Slot.Shape, htask] at hshape
    constructor
    · exact ⟨hshape.1, error, rfl⟩
    · intro hclosed
      have := hfits.stop hclosed
      simpa [htask] using this
    · intro hsource _ _
      exact htrusted hsource
    · intro heq
      cases heq
    · intro heq
      cases heq
    · simp
    · intro hactive
      simp [Slot.Active] at hactive

theorem inv_stopped (h : s.Inv left) (hslot : s.slots[i]? = some slot)
    (htask : slot.task = .connected) : (s.setTask i .ending).Inv left := by
  have hfits := h.fits i slot hslot
  rw [setTask_eq hslot]
  refine h.set hslot rfl rfl rfl rfl ?_ (by simp [Slot.starts, htask])
  constructor
  · have := hfits.shape
    simpa [Slot.Shape, htask] using this
  · intro hclosed
    have := hfits.stop hclosed
    simpa [htask] using this
  · intro hsource _ _
    exact hfits.trusted hsource (by simp [htask]) (by simp [htask])
  · intro heq
    cases heq
  · intro heq
    cases heq
  · simp
  · intro _
    exact hfits.held (.inr (.inr (.inl htask)))

theorem inv_ended (h : s.Inv left) (hslot : s.slots[i]? = some slot) (htask : slot.task = .ending)
    (log : String) : (s.ended i log).Inv left := by
  have hfits := h.fits i slot hslot
  unfold ended
  rw [update_eq hslot]
  refine h.set hslot rfl rfl rfl rfl ?_ (by simp [Slot.starts, htask])
  exact ⟨⟨rfl, _, rfl⟩, fun _ => by simp, fun hsource _ _ =>
    hfits.trusted hsource (by simp [htask]) (by simp [htask]),
    fun heq => (nomatch heq), fun heq => (nomatch heq), by simp,
    fun hactive => by simp [Slot.Active] at hactive⟩

theorem inv_abort (h : s.Inv left) (hclosed : s.closed = true)
    (hearly : ¬ s.At i .connected ∧ ¬ s.At i .ending) : (s.abort i).Inv left := by
  unfold abort
  cases hslot : s.slots[i]? with
  | none => exact h
  | some slot =>
    have hfits := h.fits i slot hslot
    have hset : ∀ task, slot.task = task → task = .spawned ∨ task = .connecting →
        (s.setTask i (.aborted true)).Inv left := by
      intro task htask hstart
      rw [setTask_eq hslot]
      have hshape := hfits.shape
      refine h.set hslot rfl rfl rfl rfl ?_ ?_
      · constructor
        · rcases hstart with rfl | rfl
          · simpa [Slot.Shape, htask] using hshape
          · simpa [Slot.Shape, htask] using hshape
        · intro hopen
          rw [show (s.context left).closed = s.closed from rfl, hclosed] at hopen
          cases hopen
        · intro hsource _ _
          rcases hstart with rfl | rfl
          · exact hfits.trusted hsource (by simp [htask]) (by simp [htask])
          · exact hfits.trusted hsource (by simp [htask]) (by simp [htask])
        · intro heq
          cases heq
        · intro _
          exact hclosed
        · simp
        · intro hactive
          simp [Slot.Active] at hactive
      · rcases hstart with rfl | rfl
        · simp [Slot.starts, htask]
        · simp [Slot.starts, htask]
    simp only [Option.map_some]
    split
    · next heq => exact hset _ (Option.some.inj heq) (.inl rfl)
    · next heq => exact hset _ (Option.some.inj heq) (.inr rfl)
    · next heq => exact absurd (at_iff.mpr ⟨slot, hslot, Option.some.inj heq⟩) hearly.1
    · next heq => exact absurd (at_iff.mpr ⟨slot, hslot, Option.some.inj heq⟩) hearly.2
    · exact h

end Servers

end Yuke.Mcp
