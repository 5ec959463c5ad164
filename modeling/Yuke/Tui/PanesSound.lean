import Yuke.Tui.PanesTrees

/-!
# The identities of the leaves

Each step keeps the active leaf in the tree, and it keeps apart the leaves of the tree, the leaves
that a restore made so far, and the mounts of the factories that run.
-/

set_option autoImplicit false

namespace Yuke.Tui

/-! ## The identities -/

def Restore.leaves (r : Restore) : List PaneLeaf := r.order.reduceOption

def Restore.ids (r : Restore) : List ℕ := r.leaves.map PaneLeaf.id

def Restore.panes (r : Restore) : List ℕ := r.leaves.filterMap PaneLeaf.pane

def PaneUse.ids : PaneUse → List ℕ
  | .restore r _ | .root r => r.ids
  | _ => []

def PaneUse.panes : PaneUse → List ℕ
  | .restore r _ | .root r => r.panes
  | _ => []

def PaneUse.going : PaneUse → List ℕ
  | .remove leaf => leaf.pane.toList
  | _ => []

def PaneFrame.ids (frame : PaneFrame) : List ℕ := frame.mount :: frame.use.ids

/-- A restore with `missing` leaves to make: the leaves before are older than the ones made so far. -/
structure Restore.Ready (r : Restore) (made missing : ℕ) : Prop where
  length : r.order.length + missing = r.saved.leaves.length
  old : ∀ leaf ∈ r.before, leaf.id < made
  apart : ∀ leaf ∈ r.before, leaf.id ∉ r.ids

/-- What an operation that waits for the leaf of `mount` knows. -/
def PaneUse.Ready (made mount : ℕ) : PaneUse → Prop
  | .start empty => empty.pane = none
  | .restore r todo => r.Ready made (todo.length + 1) ∧ ∀ leaf ∈ r.before, leaf.id ≠ mount
  | .root r => r.Ready made 0 ∧ (r.saved.build r.order).1 = none ∧ ∀ leaf ∈ r.before, leaf.id ≠ mount
  | _ => True

theorem Restore.Ready.mono {r : Restore} {made more missing : ℕ} (h : r.Ready made missing)
    (hle : made ≤ more) : r.Ready more missing :=
  ⟨h.length, fun leaf hleaf => (h.old leaf hleaf).trans_le hle, h.apart⟩

theorem PaneUse.Ready.mono {use : PaneUse} {made more mount : ℕ} (h : use.Ready made mount)
    (hle : made ≤ more) : use.Ready more mount := by
  cases use with
  | start | split | splitDefault | remove => exact h
  | restore r todo => exact ⟨h.1.mono hle, h.2⟩
  | root r => exact ⟨h.1.mono hle, h.2⟩

theorem mem_pane {leaf : PaneLeaf} {pane : ℕ} (h : leaf.pane = some pane) : leaf.id = pane := by
  obtain ⟨_, _, heq⟩ := Option.map_eq_some_iff.mp h
  exact heq

theorem PaneNode.mem_panes {node : PaneNode} {pane : ℕ} :
    pane ∈ node.panes ↔ ∃ leaf ∈ node.leaves, leaf.pane = some pane := List.mem_filterMap

theorem filterMap_pane_sublist (leaves : List PaneLeaf) :
    (leaves.filterMap PaneLeaf.pane).Sublist (leaves.map PaneLeaf.id) := by
  induction leaves with
  | nil => exact .slnil
  | cons leaf leaves ih =>
    rw [List.filterMap_cons, List.map_cons]
    rcases hpane : leaf.pane with _ | pane
    · exact ih.cons _
    · rw [mem_pane hpane]
      exact ih.cons_cons _

namespace PaneTree

variable {s t : PaneTree} {held : List ℕ}

def ids (s : PaneTree) : List ℕ := s.root.ids ++ s.stack.flatMap PaneFrame.ids

/-- The active leaf is in the tree, and the leaves and the mounts, with the ones that `held` counts
too, have identities of their own. -/
structure Sound (s : PaneTree) (held : List ℕ) : Prop where
  active : s.active ∈ s.root.leaves
  nodup : (held ++ s.ids).Nodup
  fresh : ∀ id ∈ held ++ s.ids, id < s.made
  ready : ∀ frame ∈ s.stack, frame.use.Ready s.made frame.mount

theorem Sound.nodup_ids (h : s.Sound held) : s.ids.Nodup := (List.nodup_append'.mp h.nodup).2.1

theorem Sound.nodup_leaves (h : s.Sound held) : s.root.leaves.Nodup :=
  (List.nodup_append'.mp h.nodup_ids).1.of_map

theorem Sound.eq_of_id (h : s.Sound held) {leaf other : PaneLeaf} (hleaf : leaf ∈ s.root.leaves)
    (hother : other ∈ s.root.leaves) (hid : leaf.id = other.id) : leaf = other :=
  List.inj_on_of_nodup_map (List.nodup_append'.mp h.nodup_ids).1 hleaf hother hid

theorem sound_new : new.Sound [] := by
  constructor
  · exact List.mem_cons_self
  · exact List.nodup_singleton 0
  · intro id hid
    rw [show ([] : List ℕ) ++ new.ids = [0] from rfl, List.mem_singleton] at hid
    rw [hid]
    exact Nat.one_pos
  · intro frame hframe
    cases hframe

theorem Sound.place (h : s.Sound held) (hroot : t.root.ids.Subperm (held ++ s.root.ids))
    (hstack : t.stack = s.stack) (hmade : t.made = s.made) (hactive : t.active ∈ t.root.leaves) :
    t.Sound [] := by
  have hids : t.ids.Subperm (held ++ s.ids) := by
    rw [ids, ids, hstack, ← List.append_assoc]
    exact (List.subperm_append_right _).mpr hroot
  constructor
  · exact hactive
  · obtain ⟨list, hperm, hsub⟩ := hids
    exact hperm.nodup_iff.mp (h.nodup.sublist hsub)
  · intro id hid
    rw [hmade]
    exact h.fresh id (hids.subset hid)
  · rw [hstack, hmade]
    exact h.ready

theorem Sound.emptyLeaf (h : s.Sound held) : s.emptyLeaf.2.Sound (s.emptyLeaf.1.id :: held) := by
  constructor
  · exact h.active
  · rw [List.cons_append, List.nodup_cons]
    refine ⟨fun hmem => ?_, h.nodup⟩
    exact absurd (h.fresh _ hmem) (lt_irrefl _)
  · intro id hid
    rcases List.mem_cons.mp hid with rfl | hrest
    · exact Nat.lt_succ_self _
    · exact (h.fresh id hrest).trans (Nat.lt_succ_self _)
  · intro frame hframe
    exact (h.ready frame hframe).mono (Nat.le_succ _)

theorem Sound.begin {use : PaneUse} (h : s.Sound use.ids) (hready : use.Ready s.made s.made) :
    (s.begin use).Sound [] := by
  have hperm : (s.begin use).ids.Perm (s.made :: (use.ids ++ s.ids)) := by
    change (s.root.ids ++ (s.made :: use.ids ++ s.stack.flatMap PaneFrame.ids)).Perm _
    rw [List.cons_append]
    refine List.perm_middle.trans ?_
    refine List.Perm.cons _ ?_
    rw [ids, ← List.append_assoc, ← List.append_assoc]
    exact List.perm_append_comm.append_right _
  constructor
  · exact h.active
  · rw [List.nil_append, hperm.nodup_iff, List.nodup_cons]
    refine ⟨fun hmem => ?_, h.nodup⟩
    exact absurd (h.fresh _ hmem) (lt_irrefl _)
  · intro id hid
    rcases List.mem_cons.mp (hperm.mem_iff.mp hid) with rfl | hrest
    · exact Nat.lt_succ_self _
    · exact (h.fresh id hrest).trans (Nat.lt_succ_self _)
  · intro frame hframe
    rcases List.mem_cons.mp hframe with rfl | hold
    · exact hready.mono (Nat.le_succ _)
    · exact (h.ready frame hold).mono (Nat.le_succ _)

theorem Sound.pop {frame : PaneFrame} {stack : List PaneFrame} (h : s.Sound [])
    (hstack : s.stack = frame :: stack) :
    { s with stack := stack }.Sound frame.ids ∧ frame.use.Ready s.made frame.mount := by
  have hperm : (frame.ids ++ PaneTree.ids { s with stack := stack }).Perm s.ids := by
    rw [ids, ids, hstack, List.flatMap_cons, ← List.append_assoc, ← List.append_assoc]
    exact List.perm_append_comm.append_right _
  constructor
  · constructor
    · exact h.active
    · exact hperm.nodup_iff.mpr h.nodup
    · intro id hid
      exact h.fresh id (hperm.mem_iff.mp hid)
    · intro other hother
      apply h.ready other
      rw [hstack]
      exact List.mem_cons_of_mem _ hother
  · apply h.ready frame
    rw [hstack]
    exact List.mem_cons_self

/-! ## The operations keep the identities -/

theorem Sound.perm {more : List ℕ} (h : s.Sound held) (hperm : held.Perm more) : s.Sound more := by
  have hall : (held ++ s.ids).Perm (more ++ s.ids) := hperm.append_right _
  constructor
  · exact h.active
  · exact hall.nodup_iff.mp h.nodup
  · intro id hid
    exact h.fresh id (hall.mem_iff.mpr hid)
  · exact h.ready

theorem insert_perm (h : s.Sound held) (leaf : PaneLeaf) (direction : SplitDirection) :
    (s.insert leaf direction).root.leaves.Perm (leaf :: s.root.leaves) := by
  refine (PaneNode.leaves_replace_perm h.nodup_leaves h.active _).trans ?_
  refine (List.Perm.swap leaf s.active _).trans ?_
  exact (List.perm_cons_erase h.active).symm.cons _

theorem Sound.insert {leaf : PaneLeaf} (h : s.Sound [leaf.id]) (direction : SplitDirection) :
    (s.insert leaf direction).Sound [] := by
  have hperm := insert_perm h leaf direction
  apply h.place
  · exact (hperm.map PaneLeaf.id).subperm
  · rfl
  · rfl
  · exact hperm.mem_iff.mpr List.mem_cons_self

theorem refocus_eq {next : PaneLeaf} (leaf : PaneLeaf) (h : next ∈ t.root.leaves) :
    ∃ active ∈ t.root.leaves, t.refocus leaf next = t.activate active := by
  unfold refocus
  split
  · exact ⟨next, h, rfl⟩
  · next hstay =>
    rw [not_or, not_not] at hstay
    exact ⟨t.active, hstay.2, rfl⟩

theorem fill_eq (h : s.Sound held) (empty leaf : PaneLeaf) :
    ∃ active, s.fill empty leaf =
        { s with root := s.root.replace empty (.leaf leaf) }.activate active ∧
      active ∈ (s.root.replace empty (.leaf leaf)).leaves := by
  unfold fill
  dsimp only
  split
  · next heq =>
    refine ⟨leaf, rfl, ?_⟩
    have hmem : empty ∈ s.root.leaves := heq ▸ h.active
    exact (PaneNode.leaves_replace_perm h.nodup_leaves hmem _).mem_iff.mpr List.mem_cons_self
  · next hne =>
    refine ⟨s.active, rfl, ?_⟩
    rw [PaneNode.leaves_replace, List.mem_flatMap]
    exact ⟨s.active, h.active, by rw [if_neg hne]; exact List.mem_cons_self⟩

theorem Sound.fill {leaf : PaneLeaf} (h : s.Sound [leaf.id]) (empty : PaneLeaf) :
    (s.fill empty leaf).Sound [] := by
  obtain ⟨active, heq, hactive⟩ := fill_eq h empty leaf
  rw [heq]
  refine h.place ?_ rfl rfl hactive
  change ((s.root.replace empty (.leaf leaf)).leaves.map PaneLeaf.id).Subperm _
  by_cases hmem : empty ∈ s.root.leaves
  · have hperm := PaneNode.leaves_replace_perm h.nodup_leaves hmem (.leaf leaf)
    refine (hperm.map PaneLeaf.id).subperm.trans ?_
    exact ((List.erase_sublist.map _).cons_cons _).subperm
  · rw [PaneNode.replace_of_not_mem hmem]
    exact (List.sublist_append_right _ _).subperm

theorem Sound.replaceRoot {leaf : PaneLeaf} (h : s.Sound [leaf.id]) (old : PaneLeaf) :
    ({ s with root := .leaf leaf }.refocus old leaf).Sound [] := by
  have hmem : leaf ∈ ({ s with root := .leaf leaf } : PaneTree).root.leaves := List.mem_cons_self
  obtain ⟨active, hactive, heq⟩ := refocus_eq old hmem
  rw [heq]
  refine h.place ?_ rfl rfl hactive
  exact (List.sublist_append_left [leaf.id] _).subperm

theorem Sound.swap {r : Restore} {tree : PaneNode} (h : s.Sound tree.ids)
    (hleaves : ∀ leaf ∈ r.leaves, leaf ∈ tree.leaves) : (s.swap r tree).Sound [] := by
  refine h.place (List.sublist_append_left _ _).subperm rfl rfl ?_
  change (r.order[r.focus]?).join.getD tree.firstLeaf ∈ tree.leaves
  rcases hfocus : (r.order[r.focus]?).join with _ | leaf
  · exact tree.firstLeaf_mem
  · apply hleaves
    rw [Option.join_eq_some_iff] at hfocus
    exact List.reduceOption_mem_iff.mpr (List.mem_of_getElem? hfocus)

end PaneTree

namespace Restore

variable {r : Restore} {made missing : ℕ} {leaf : PaneLeaf}

theorem leaves_add_some (r : Restore) (leaf : PaneLeaf) :
    (r.add (some leaf)).leaves = r.leaves ++ [leaf] := by
  unfold leaves add
  rw [List.reduceOption_append]
  rfl

theorem leaves_add_none (r : Restore) : (r.add none).leaves = r.leaves := by
  unfold leaves add
  rw [List.reduceOption_append]
  exact List.append_nil _

theorem Ready.add_some (h : r.Ready made (missing + 1))
    (hid : ∀ other ∈ r.before, other.id ≠ leaf.id) :
    (r.add (some leaf)).Ready made missing := by
  constructor
  · have hlength := h.length
    change (r.order ++ [some leaf]).length + missing = _
    rw [List.length_append, List.length_singleton]
    change _ = r.saved.leaves.length
    omega
  · exact h.old
  · intro other hother hmem
    rw [ids, leaves_add_some, List.map_append, List.mem_append] at hmem
    rcases hmem with hmem | hmem
    · exact h.apart other hother hmem
    · exact hid other hother (List.mem_singleton.mp hmem)

theorem Ready.add_none (h : r.Ready made (missing + 1)) : (r.add none).Ready made missing := by
  constructor
  · have hlength := h.length
    change (r.order ++ [none]).length + missing = _
    rw [List.length_append, List.length_singleton]
    change _ = r.saved.leaves.length
    omega
  · exact h.old
  · rw [ids, leaves_add_none]
    exact h.apart

theorem Ready.treeLeaves (h : r.Ready made 0) :
    treeLeaves (r.saved.build r.order).1 = r.leaves := by
  rw [(r.saved.build_spec r.order).1, ← h.length, Nat.add_zero, List.take_length]
  rfl

theorem Ready.leaves_eq_nil (h : r.Ready made 0) (hnone : (r.saved.build r.order).1 = none) :
    r.leaves = [] := by
  rw [← h.treeLeaves, hnone]
  rfl

theorem Ready.leaves_eq {tree : PaneNode} (h : r.Ready made 0)
    (htree : (r.saved.build r.order).1 = some tree) : tree.leaves = r.leaves := by
  rw [← h.treeLeaves, htree]
  rfl

theorem Ready.ne_made (h : r.Ready made missing) : ∀ leaf ∈ r.before, leaf.id ≠ made := by
  intro leaf hleaf heq
  have hold := h.old leaf hleaf
  omega

end Restore

namespace PaneTree

variable {s t : PaneTree} {held : List ℕ}

theorem Sound.emptyLeaf_add {r : Restore} (h : s.Sound r.ids) :
    s.emptyLeaf.2.Sound (r.add (some s.emptyLeaf.1)).ids := by
  apply h.emptyLeaf.perm
  rw [Restore.ids, Restore.ids, Restore.leaves_add_some, List.map_append]
  exact (List.perm_append_singleton _ _).symm

theorem Sound.build {r : Restore} {todo : List (Option String)} (h : s.Sound r.ids)
    (hready : r.Ready s.made todo.length) : (s.build r todo).Sound [] := by
  induction todo generalizing s r with
  | nil =>
    unfold PaneTree.build
    split
    · next tree htree =>
      have hleaves := hready.leaves_eq htree
      apply Sound.swap
      · rw [PaneNode.ids, hleaves]
        exact h
      · intro leaf hleaf
        rw [hleaves]
        exact hleaf
    · next hnone =>
      have hnil := hready.leaves_eq_nil hnone
      split
      · exact h.begin ⟨hready, hnone, hready.ne_made⟩
      · apply Sound.swap
        · have hempty := h.emptyLeaf
          rw [Restore.ids, hnil] at hempty
          exact hempty
        · rw [hnil]
          intro leaf hleaf
          cases hleaf
  | cons next todo ih =>
    rw [List.length_cons] at hready
    cases next with
    | none =>
      unfold PaneTree.build
      split
      · exact h.begin ⟨hready, hready.ne_made⟩
      · refine ih h.emptyLeaf_add ?_
        exact (hready.mono (Nat.le_succ _)).add_some hready.ne_made
    | some type =>
      unfold PaneTree.build
      split
      · exact h.begin ⟨hready, hready.ne_made⟩
      · refine ih ?_ hready.add_none
        rw [Restore.ids, Restore.leaves_add_none]
        exact h

theorem Sound.finish {leaf : PaneLeaf} {use : PaneUse} (h : s.Sound (leaf.id :: use.ids))
    (hready : use.Ready s.made leaf.id) : (s.finish leaf use).Sound [] := by
  cases use with
  | split direction | splitDefault direction => exact h.insert direction
  | start empty => exact h.fill empty
  | remove old => exact h.replaceRoot old
  | restore r todo =>
    refine Sound.build ?_ (hready.1.add_some hready.2)
    apply h.perm
    change (leaf.id :: r.ids).Perm _
    rw [Restore.ids, Restore.ids, Restore.leaves_add_some, List.map_append]
    exact (List.perm_append_singleton _ _).symm
  | root r =>
    have hnil := hready.1.leaves_eq_nil hready.2.1
    have hids : (PaneUse.root r).ids = [] := by
      change r.leaves.map _ = []
      rw [hnil]
      rfl
    rw [hids] at h
    apply Sound.swap h
    rw [hnil]
    intro other hother
    cases hother

theorem Sound.withoutView {use : PaneUse} (h : s.Sound use.ids) (hready : use.Ready s.made s.made) :
    (s.withoutView use).Sound [] := by
  have hempty : (s.emptyLeaf.2.finish s.emptyLeaf.1 use).Sound [] :=
    h.emptyLeaf.finish (hready.mono (Nat.le_succ _))
  cases use with
  | split direction => exact h
  | splitDefault | start | remove | restore | root => exact hempty

theorem Sound.defaultLeaf {use : PaneUse} (h : s.Sound use.ids) (hready : use.Ready s.made s.made) :
    (s.defaultLeaf use).Sound [] := by
  unfold PaneTree.defaultLeaf
  split
  · exact h.begin hready
  · exact h.emptyLeaf.finish (hready.mono (Nat.le_succ _))

theorem Sound.remove (h : s.Sound []) (leaf : PaneLeaf) : (s.remove leaf).Sound [] := by
  unfold PaneTree.remove
  split
  · next hmem =>
    split
    · exact h.defaultLeaf trivial
    · next hne =>
      obtain ⟨sibling, hsibling, hfirst, hleaves⟩ :=
        PaneNode.drop_spec h.nodup_leaves hmem hne
      rw [hsibling]
      dsimp only
      have hfirst' : sibling.firstLeaf ∈
          ({ s with root := s.root.drop leaf } : PaneTree).root.leaves := hfirst
      obtain ⟨active, hactive, heq⟩ := refocus_eq leaf hfirst'
      rw [heq]
      refine h.place ?_ rfl rfl hactive
      change ((s.root.drop leaf).leaves.map PaneLeaf.id).Subperm _
      rw [hleaves]
      exact (List.filter_sublist.map _).subperm
  · exact h

theorem Sound.same (h : s.Sound held) (hroot : t.root = s.root) (hstack : t.stack = s.stack)
    (hmade : t.made = s.made) (hactive : t.active ∈ s.root.leaves) : t.Sound held := by
  constructor
  · rw [hroot]
    exact hactive
  · rw [ids, hroot, hstack]
    exact h.nodup
  · rw [ids, hroot, hstack, hmade]
    exact h.fresh
  · rw [hstack, hmade]
    exact h.ready

theorem Sound.close (h : s.Sound []) (pane : ℕ) : (s.close pane).Sound [] := by
  unfold PaneTree.close
  split
  · exact h
  · have hclosed : ({ s with closed := pane :: s.closed } : PaneTree).Sound [] :=
      h.same rfl rfl rfl h.active
    dsimp only
    split
    · exact hclosed.remove _
    · exact hclosed

theorem Sound.closeActive (h : s.Sound []) : s.closeActive.Sound [] := by
  unfold PaneTree.closeActive
  split
  · exact h.close _
  · exact h.remove _

theorem Sound.start (h : s.Sound []) : s.start.Sound [] := by
  unfold PaneTree.start
  split
  · split
    · next empty hfind =>
      have hpane := List.find?_some hfind
      have hempty : empty.pane = none := of_decide_eq_true hpane
      have hheld : s.Sound (PaneUse.start empty).ids := h
      exact hheld.begin hempty
    · exact h
  · exact h

theorem restore_ready (h : s.Sound []) (saved : SavedPane) (focus : ℕ) :
    (⟨saved, focus, s.root.leaves, []⟩ : Restore).Ready s.made saved.leaves.length := by
  constructor
  · exact Nat.zero_add _
  · intro leaf hleaf
    have hid : leaf.id ∈ s.root.ids := List.mem_map_of_mem hleaf
    exact h.fresh _ (List.mem_append_right _ (List.mem_append_left _ hid))
  · intro leaf _ hmem
    cases hmem

theorem Sound.restore (h : s.Sound []) (saved : SavedPane) (focus : ℕ) :
    (s.restore saved focus).Sound [] := by
  apply Sound.build
  · exact h
  · exact restore_ready h saved focus

theorem Sound.activate (h : s.Sound []) {leaf : PaneLeaf} (hmem : leaf ∈ s.root.leaves) :
    (s.activate leaf).Sound [] := h.same rfl rfl rfl hmem

theorem nearer_cases (direction : FocusDirection) (own : Rect) (best : Option (PaneLeaf × ℚ))
    (leaf : PaneLeaf) :
    s.nearer direction own best leaf = best ∨
      ∃ score, s.nearer direction own best leaf = some (leaf, score) := by
  unfold nearer
  split
  · exact .inl rfl
  · split
    · exact .inl rfl
    · exact .inr ⟨_, rfl⟩
    · split
      · exact .inr ⟨_, rfl⟩
      · exact .inl rfl

theorem foldl_nearer_mem {direction : FocusDirection} {own : Rect} {leaves : List PaneLeaf}
    {best : Option (PaneLeaf × ℚ)} {leaf : PaneLeaf} {score : ℚ}
    (h : leaves.foldl (s.nearer direction own) best = some (leaf, score)) :
    leaf ∈ leaves ∨ best = some (leaf, score) := by
  induction leaves generalizing best with
  | nil => exact .inr h
  | cons next leaves ih =>
    rcases ih h with hrest | hnext
    · exact .inl (List.mem_cons_of_mem _ hrest)
    · rcases nearer_cases (s := s) direction own best next with hsame | ⟨other, hnew⟩
      · rw [hsame] at hnext
        exact .inr hnext
      · rw [hnew] at hnext
        cases hnext
        exact .inl List.mem_cons_self

theorem nearest_mem {direction : FocusDirection} {leaf : PaneLeaf}
    (h : s.nearest direction = some leaf) : leaf ∈ s.root.leaves := by
  unfold nearest at h
  split at h
  · cases h
  · obtain ⟨⟨other, score⟩, hfold, rfl⟩ := Option.map_eq_some_iff.mp h
    rcases foldl_nearer_mem hfold with hmem | hnone
    · exact hmem
    · cases hnone

theorem Sound.focus (h : s.Sound []) (direction : FocusDirection) :
    (s.focus direction).Sound [] := by
  unfold PaneTree.focus
  split
  · next leaf hnearest => exact h.activate (nearest_mem hnearest)
  · exact h

theorem Sound.focusNext (h : s.Sound []) : s.focusNext.Sound [] := by
  unfold PaneTree.focusNext
  split
  · next next hnext =>
    split
    · exact h
    · exact h.activate (List.mem_of_getElem? hnext)
  · exact h

theorem Sound.focusPane (h : s.Sound []) (pane : ℕ) : (s.focusPane pane).Sound [] := by
  unfold PaneTree.focusPane
  split
  · next leaf hfind => exact h.activate (List.mem_of_find?_eq_some hfind)
  · exact h

theorem Sound.noteFocus (h : s.Sound []) (rootPath : List PaneView) :
    (s.noteFocus rootPath).Sound [] := by
  unfold PaneTree.noteFocus
  split
  · next leaf hfind => exact h.same rfl rfl rfl (List.mem_of_find?_eq_some hfind)
  · exact h

theorem Sound.drop_head {id : ℕ} (h : s.Sound (id :: held)) : s.Sound held := by
  constructor
  · exact h.active
  · exact (List.nodup_cons.mp h.nodup).2
  · intro other hother
    exact h.fresh other (List.mem_cons_of_mem _ hother)
  · exact h.ready

theorem ready_made {use : PaneUse} {made mount : ℕ} (h : use.Ready made mount) :
    use.Ready made made := by
  cases use with
  | split | splitDefault | remove => exact trivial
  | start empty => exact h
  | restore r todo => exact ⟨h.1, h.1.ne_made⟩
  | root r => exact ⟨h.1, h.2.1, h.1.ne_made⟩

theorem Sound.returned {frame : PaneFrame} (h : s.Sound frame.ids)
    (hready : frame.use.Ready s.made frame.mount) (result : FactoryEnd) :
    (s.returned frame result).Sound [] := by
  cases result with
  | view view =>
    unfold PaneTree.returned
    dsimp only
    split
    · exact h.drop_head.withoutView (ready_made hready)
    · have hstarted : ({ s with started := frame.mount :: s.started } : PaneTree).Sound
          ((⟨frame.mount, some view⟩ : PaneLeaf).id :: frame.use.ids) := h.same rfl rfl rfl h.active
      exact hstarted.finish hready
  | fails =>
    have hclosed : ({ s with closed := frame.mount :: s.closed } : PaneTree).Sound frame.use.ids :=
      h.drop_head.same rfl rfl rfl h.active
    exact hclosed.withoutView (ready_made hready)

theorem sound_step (h : s.Sound []) {act : PaneAct} (hstep : s.step act = some t) :
    t.Sound [] := by
  cases act with
  | returns result =>
    unfold step at hstep
    dsimp only at hstep
    split at hstep
    · cases hstep
    · next frame stack hstack =>
      cases hstep
      obtain ⟨hpop, hready⟩ := h.pop hstack
      exact hpop.returned hready result
  | close pane =>
    unfold step at hstep
    dsimp only at hstep
    split at hstep
    · cases hstep
      exact h.close pane
    · cases hstep
  | split direction =>
    cases hstep
    have hheld : s.Sound (PaneUse.split direction).ids := h
    exact hheld.begin trivial
  | splitDefault direction =>
    cases hstep
    have hheld : s.Sound (PaneUse.splitDefault direction).ids := h
    exact hheld.defaultLeaf trivial
  | start =>
    cases hstep
    exact h.start
  | restore saved focus =>
    cases hstep
    exact h.restore saved focus
  | closeActive =>
    cases hstep
    exact h.closeActive
  | focus direction =>
    cases hstep
    exact h.focus direction
  | focusNext =>
    cases hstep
    exact h.focusNext
  | focusPane pane =>
    cases hstep
    exact h.focusPane pane
  | noteFocus rootPath =>
    cases hstep
    exact h.noteFocus rootPath
  | layout | setDefault | register =>
    cases hstep
    exact h.same rfl rfl rfl h.active

end PaneTree

end Yuke.Tui
