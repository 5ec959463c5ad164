import Yuke.Agent.Memory

/-!
# The account of the inputs

Each accepted input of a session is pending, or one saved commit consumed it, or a client or a hook
removed it.
-/

set_option autoImplicit false

namespace Yuke.Agent

open Yuke.Engine (Commit)
open Yuke.Protocol

def consumedOf : SessionEvent → List InputId
  | .commit _ consumed => consumed.map ConsumedInput.id
  | .settings _ => []

def Saved.consumed (saved : Saved) : List InputId := saved.content.flatMap consumedOf

def Saved.pendingIds (saved : Saved) : List InputId := saved.pending.map PendingInput.id

theorem notPending_spec {pending : List PendingInput} {consumed : List ConsumedInput}
    {earlier : List InputId} (h : MemoryStore.notPending pending consumed earlier = none) :
    (consumed.map ConsumedInput.id).Nodup ∧
      ∀ input ∈ consumed, input.id ∉ earlier ∧ ∃ other ∈ pending, other.id = input.id := by
  induction consumed generalizing earlier with
  | nil => simp
  | cons input consumed ih =>
    rw [MemoryStore.notPending] at h
    split at h
    · cases h
    · next hinput =>
      push Not at hinput
      obtain ⟨hnodup, hrest⟩ := ih h
      constructor
      · rw [List.map_cons, List.nodup_cons]
        refine ⟨fun hmem => ?_, hnodup⟩
        obtain ⟨other, hother, hid⟩ := List.mem_map.mp hmem
        exact (hrest other hother).1 (by simp [hid])
      · intro other hother
        rcases List.mem_cons.mp hother with rfl | hother
        · exact ⟨hinput.1, by simpa using hinput.2⟩
        · exact ⟨fun hmem => (hrest other hother).1 (List.mem_append_left _ hmem),
            (hrest other hother).2⟩

theorem notPending_eq_none {pending : List PendingInput} {consumed : List ConsumedInput}
    (h : MemoryStore.notPending pending consumed [] = none) :
    (consumed.map ConsumedInput.id).Nodup ∧
      ∀ input ∈ consumed, ∃ other ∈ pending, other.id = input.id :=
  ⟨(notPending_spec h).1, fun input hinput => ((notPending_spec h).2 input hinput).2⟩

/-- The accepted inputs of a session with the ids up to `newest`, each in one place. -/
structure Balanced (saved : Saved) (accepted : List PendingInput) (removed : List InputId)
    (newest : Nat) : Prop where
  nodup : (accepted.map PendingInput.id).Nodup
  bound : ∀ input ∈ accepted, input.id.number ≤ newest
  pending : ∀ input ∈ saved.pending, input ∈ accepted
  balance : (accepted.map PendingInput.id).Perm (saved.pendingIds ++ saved.consumed ++ removed)

namespace Balanced

variable {saved : Saved} {accepted : List PendingInput} {removed : List InputId} {newest : Nat}

theorem pendingIds_nodup (h : Balanced saved accepted removed newest) :
    saved.pendingIds.Nodup := by
  have hall := h.balance.nodup_iff.mp h.nodup
  exact hall.of_append_left.of_append_left

theorem accept (h : Balanced saved accepted removed newest) {saved' : Saved} {input : Input}
    (hpending : saved'.pending = saved.pending ++ [⟨⟨newest + 1⟩, input⟩])
    (hevents : saved'.events = saved.events) :
    Balanced saved' (accepted ++ [⟨⟨newest + 1⟩, input⟩]) removed (newest + 1) where
  nodup := by
    rw [List.map_append, List.nodup_append]
    refine ⟨h.nodup, by simp, ?_⟩
    intro a ha b hb heq
    obtain ⟨old, hold, rfl⟩ := List.mem_map.mp ha
    have hb' : b = ⟨newest + 1⟩ := by simpa using hb
    have hle := h.bound old hold
    rw [heq, hb'] at hle
    simp at hle
  bound := by
    intro other hother
    rcases List.mem_append.mp hother with hold | hnew
    · exact (h.bound other hold).trans (Nat.le_succ _)
    · rw [List.mem_singleton.mp hnew]
  pending := by
    intro other hother
    rw [hpending] at hother
    rcases List.mem_append.mp hother with hold | hnew
    · exact List.mem_append_left _ (h.pending other hold)
    · exact List.mem_append_right _ hnew
  balance := by
    have hconsumed : saved'.consumed = saved.consumed := by
      rw [Saved.consumed, Saved.content, hevents]
      rfl
    have hids : saved'.pendingIds = saved.pendingIds ++ [⟨newest + 1⟩] := by
      rw [Saved.pendingIds, hpending, List.map_append]
      rfl
    rw [List.map_append, hconsumed, hids]
    refine (h.balance.append_right _).trans ?_
    simp only [List.append_assoc, List.map_cons, List.map_nil]
    refine List.Perm.append_left _ ?_
    rw [← List.append_assoc, ← List.append_assoc]
    exact List.perm_append_comm.trans (by simp)

theorem remove (h : Balanced saved accepted removed newest) {saved' : Saved} {position : Nat}
    (hposition : position < saved.pending.length)
    (hpending : saved'.pending = saved.pending.eraseIdx position)
    (hevents : saved'.events = saved.events) :
    Balanced saved' accepted (removed ++ [saved.pending[position].id]) newest where
  nodup := h.nodup
  bound := h.bound
  pending := by
    intro other hother
    rw [hpending] at hother
    exact h.pending other (List.mem_of_mem_eraseIdx hother)
  balance := by
    have hconsumed : saved'.consumed = saved.consumed := by
      rw [Saved.consumed, Saved.content, hevents]
      rfl
    have hids : saved.pendingIds.Perm (saved.pending[position].id :: saved'.pendingIds) := by
      rw [Saved.pendingIds, Saved.pendingIds, hpending, ← List.map_cons]
      exact ((List.getElem_cons_eraseIdx_perm hposition).map _).symm
    refine h.balance.trans ?_
    rw [hconsumed]
    refine ((hids.append_right _).append_right _).trans ?_
    simp only [List.cons_append, ← List.append_assoc]
    exact (List.perm_append_singleton _ _).symm

theorem commit (h : Balanced saved accepted removed newest) {saved' : Saved} {commit : Commit}
    {consumed : List ConsumedInput}
    (hnone : MemoryStore.notPending saved.pending consumed [] = none)
    (hpending : saved'.pending =
      saved.pending.filter fun pending => !consumed.any (·.id = pending.id))
    (hcontent : saved'.content = saved.content ++ [.commit commit consumed]) :
    Balanced saved' accepted removed newest where
  nodup := h.nodup
  bound := h.bound
  pending := by
    intro other hother
    rw [hpending] at hother
    exact h.pending other (List.mem_of_mem_filter hother)
  balance := by
    obtain ⟨hnodup, hknown⟩ := notPending_eq_none hnone
    have hconsumed : saved'.consumed = saved.consumed ++ consumed.map ConsumedInput.id := by
      rw [Saved.consumed, hcontent, List.flatMap_append, Saved.consumed]
      simp [consumedOf]
    have hids : saved'.pendingIds =
        saved.pendingIds.filter (· ∉ consumed.map ConsumedInput.id) := by
      rw [Saved.pendingIds, hpending, Saved.pendingIds, List.filter_map]
      congr 2
      funext pending
      rw [Bool.eq_iff_iff]
      simp
    have hsplit : saved.pendingIds.Perm (saved'.pendingIds ++ consumed.map ConsumedInput.id) := by
      have hdisjoint : (saved'.pendingIds ++ consumed.map ConsumedInput.id).Nodup := by
        rw [hids, List.nodup_append]
        refine ⟨h.pendingIds_nodup.filter _, hnodup, ?_⟩
        intro a ha b hb heq
        subst heq
        have hnot := (List.mem_filter.mp ha).2
        exact absurd hb (by simpa using hnot)
      refine (List.perm_ext_iff_of_nodup h.pendingIds_nodup hdisjoint).mpr fun id => ?_
      rw [List.mem_append, hids, List.mem_filter]
      constructor
      · intro hid
        by_cases hc : id ∈ consumed.map ConsumedInput.id
        · exact Or.inr hc
        · exact Or.inl ⟨hid, by simpa using hc⟩
      · intro hid
        rcases hid with hid | hid
        · exact hid.1
        · obtain ⟨input, hinput, rfl⟩ := List.mem_map.mp hid
          obtain ⟨pending, hmem, heq⟩ := hknown input hinput
          exact List.mem_map.mpr ⟨pending, hmem, heq⟩
    refine h.balance.trans ?_
    rw [hconsumed]
    refine ((hsplit.append_right _).append_right _).trans ?_
    simp only [List.append_assoc]
    refine List.Perm.append_left _ ?_
    rw [← List.append_assoc, ← List.append_assoc]
    exact List.perm_append_comm.append_right _

end Balanced

end Yuke.Agent
