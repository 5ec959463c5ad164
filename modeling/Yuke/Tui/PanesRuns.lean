import Yuke.Shared.Steps
import Yuke.Tui.PanesSound

/-!
# The panes of a run

A started pane gets lost where the rest of an operation lands in a tree that its factory changed. In
a run without such a landing each started pane is in one leaf until its close.
-/

set_option autoImplicit false

namespace Yuke.Tui

open Yuke.Shared

namespace PaneTree

variable {s t : PaneTree} {held going : List ℕ}

def waiting (s : PaneTree) : List ℕ := s.stack.flatMap fun frame => frame.use.panes

def leaving (s : PaneTree) : List ℕ := s.stack.flatMap fun frame => frame.use.going

/-- An open pane is in the tree, held, or waits for its place. A closed one in the tree goes out. -/
structure Kept (s : PaneTree) (held going : List ℕ) : Prop where
  shown : ∀ pane ∈ s.started, pane ∉ s.closed →
    pane ∈ s.root.panes ∨ pane ∈ held ∨ pane ∈ s.waiting
  gone : ∀ pane ∈ s.root.panes, pane ∈ s.closed → pane ∈ going ∨ pane ∈ s.leaving

def asks (s : PaneTree) (todo : List (Option String)) : Bool :=
  todo.any fun
    | none => s.hasDefault
    | some type => type ∈ s.types

structure RestoreLands (s : PaneTree) (r : Restore) : Prop where
  old : ∀ pane ∈ s.root.panes, pane ∈ s.closed ∨ pane ∈ r.before.filterMap PaneLeaf.pane
  made : ∀ pane ∈ r.panes, pane ∉ s.closed

/-- The place of the new leaf is still there. `given` says that the factory gave a pane. -/
def Lands (s : PaneTree) (given : Bool) : PaneUse → Prop
  | .split _ | .splitDefault _ => True
  | .start empty => given = true → empty ∈ s.root.leaves
  | .remove _ => ∀ pane ∈ s.root.panes, pane ∈ s.closed
  | .restore r todo => s.asks todo = true ∨ s.RestoreLands r
  | .root r => s.RestoreLands r

def gives (s : PaneTree) (frame : PaneFrame) : FactoryEnd → Bool
  | .view _ => frame.mount ∉ s.closed
  | .fails => false

def Allowed (s : PaneTree) : PaneAct → Prop
  | .returns result =>
    ∀ frame stack, s.stack = frame :: stack → s.Lands (s.gives frame result) frame.use
  | _ => True

theorem kept_new : new.Kept [] [] := by
  constructor
  · intro pane hstarted
    cases hstarted
  · intro pane _ hclosed
    cases hclosed

theorem Kept.begin {use : PaneUse} (h : s.Kept use.panes use.going) : (s.begin use).Kept [] [] := by
  constructor
  · intro pane hstarted hopen
    rcases h.shown pane hstarted hopen with hroot | hheld | hwaiting
    · exact .inl hroot
    · exact .inr (.inr (List.mem_append_left _ hheld))
    · exact .inr (.inr (List.mem_append_right _ hwaiting))
  · intro pane hroot hclosed
    right
    rcases h.gone pane hroot hclosed with hgoing | hleaving
    · exact List.mem_append_left _ hgoing
    · exact List.mem_append_right _ hleaving

theorem Kept.pop {frame : PaneFrame} {stack : List PaneFrame} (h : s.Kept [] [])
    (hstack : s.stack = frame :: stack) :
    { s with stack := stack }.Kept frame.use.panes frame.use.going := by
  constructor
  · intro pane hstarted hopen
    rcases h.shown pane hstarted hopen with hroot | hheld | hwaiting
    · exact .inl hroot
    · cases hheld
    · right
      rw [waiting, hstack] at hwaiting
      exact List.mem_append.mp hwaiting
  · intro pane hroot hclosed
    rcases h.gone pane hroot hclosed with hgoing | hleaving
    · cases hgoing
    · rw [leaving, hstack] at hleaving
      exact List.mem_append.mp hleaving

theorem Kept.place (h : s.Kept held going) (hstack : t.stack = s.stack)
    (hstarted : t.started = s.started) (hclosed : ∀ pane ∈ s.closed, pane ∈ t.closed)
    (hshown : ∀ pane, pane ∉ t.closed → pane ∈ s.root.panes ∨ pane ∈ held → pane ∈ t.root.panes)
    (hgone : ∀ pane ∈ t.root.panes, pane ∈ t.closed → pane ∈ s.leaving) : t.Kept [] [] := by
  constructor
  · intro pane hin hopen
    rw [hstarted] at hin
    rcases h.shown pane hin fun hold => hopen (hclosed pane hold) with hroot | hheld | hwaiting
    · exact .inl (hshown pane hopen (.inl hroot))
    · exact .inl (hshown pane hopen (.inr hheld))
    · right
      right
      rw [waiting, hstack]
      exact hwaiting
  · intro pane hroot hin
    right
    rw [leaving, hstack]
    exact hgone pane hroot hin

def OpenLeaf (s : PaneTree) (leaf : PaneLeaf) : Prop := ∀ pane, leaf.pane = some pane → pane ∉ s.closed

theorem mem_panes_of_perm {node : PaneNode} {leaf : PaneLeaf} {others : List PaneLeaf}
    (h : node.leaves.Perm (leaf :: others)) (pane : ℕ) :
    pane ∈ node.panes ↔ leaf.pane = some pane ∨ ∃ other ∈ others, other.pane = some pane := by
  rw [PaneNode.mem_panes]
  constructor
  · rintro ⟨other, hother, hpane⟩
    rcases List.mem_cons.mp (h.mem_iff.mp hother) with rfl | hrest
    · exact .inl hpane
    · exact .inr ⟨other, hrest, hpane⟩
  · rintro (hpane | ⟨other, hother, hpane⟩)
    · exact ⟨leaf, h.mem_iff.mpr List.mem_cons_self, hpane⟩
    · exact ⟨other, h.mem_iff.mpr (List.mem_cons_of_mem _ hother), hpane⟩

theorem Kept.insert {leaf : PaneLeaf} (h : s.Kept leaf.pane.toList []) (hsound : s.Sound held)
    (hopen : s.OpenLeaf leaf) (direction : SplitDirection) :
    (s.insert leaf direction).Kept [] [] := by
  have hpanes := mem_panes_of_perm (insert_perm hsound leaf direction)
  apply h.place
  · rfl
  · rfl
  · intro pane hclosed
    exact hclosed
  · intro pane _ hin
    apply (hpanes pane).mpr
    rcases hin with hroot | hheld
    · exact .inr (PaneNode.mem_panes.mp hroot)
    · exact .inl (Option.mem_toList.mp hheld)
  · intro pane hroot hclosed
    rcases (hpanes pane).mp hroot with hpane | hold
    · exact absurd hclosed (hopen pane hpane)
    · rcases h.gone pane (PaneNode.mem_panes.mpr hold) hclosed with hgoing | hleaving
      · cases hgoing
      · exact hleaving

theorem Kept.fill {empty leaf : PaneLeaf} (h : s.Kept leaf.pane.toList []) (hsound : s.Sound held)
    (hopen : s.OpenLeaf leaf) (hempty : empty.pane = none)
    (hlands : leaf.pane.isSome = true → empty ∈ s.root.leaves) : (s.fill empty leaf).Kept [] [] := by
  obtain ⟨active, heq, _⟩ := fill_eq hsound empty leaf
  rw [heq]
  by_cases hmem : empty ∈ s.root.leaves
  · have hperm : (s.root.replace empty (.leaf leaf)).leaves.Perm
        (leaf :: s.root.leaves.erase empty) :=
      PaneNode.leaves_replace_perm hsound.nodup_leaves hmem (.leaf leaf)
    have hpanes := mem_panes_of_perm hperm
    apply h.place
    · rfl
    · rfl
    · intro pane hclosed
      exact hclosed
    · intro pane _ hin
      apply (hpanes pane).mpr
      rcases hin with hroot | hheld
      · obtain ⟨other, hother, hpane⟩ := PaneNode.mem_panes.mp hroot
        right
        refine ⟨other, ?_, hpane⟩
        rw [List.mem_erase_of_ne]
        · exact hother
        · intro heq
          rw [heq, hempty] at hpane
          cases hpane
      · exact .inl (Option.mem_toList.mp hheld)
    · intro pane hroot hclosed
      rcases (hpanes pane).mp hroot with hpane | ⟨other, hother, hpane⟩
      · exact absurd hclosed (hopen pane hpane)
      · have hold := PaneNode.mem_panes.mpr ⟨other, List.mem_of_mem_erase hother, hpane⟩
        rcases h.gone pane hold hclosed with hgoing | hleaving
        · cases hgoing
        · exact hleaving
  · have hnone : leaf.pane = none := by
      rw [← Option.not_isSome_iff_eq_none]
      exact fun hsome => hmem (hlands hsome)
    rw [PaneNode.replace_of_not_mem hmem]
    rw [hnone] at h
    exact ⟨h.shown, h.gone⟩

theorem refocus_same (s : PaneTree) (leaf next : PaneLeaf) :
    ∃ active, s.refocus leaf next = s.activate active := by
  unfold refocus
  split
  · exact ⟨next, rfl⟩
  · exact ⟨s.active, rfl⟩

theorem Kept.replaceRoot {leaf : PaneLeaf} (h : s.Kept leaf.pane.toList going)
    (hopen : s.OpenLeaf leaf) (hlands : ∀ pane ∈ s.root.panes, pane ∈ s.closed) (old : PaneLeaf) :
    ({ s with root := .leaf leaf }.refocus old leaf).Kept [] [] := by
  obtain ⟨active, heq⟩ := refocus_same { s with root := .leaf leaf } old leaf
  have hpanes := mem_panes_of_perm (List.Perm.refl (PaneNode.leaf leaf).leaves)
  rw [heq]
  apply h.place
  · rfl
  · rfl
  · intro pane hclosed
    exact hclosed
  · intro pane hnot hin
    rcases hin with hroot | hheld
    · exact absurd (hlands pane hroot) hnot
    · exact (hpanes pane).mpr (.inl (Option.mem_toList.mp hheld))
  · intro pane hroot hclosed
    rcases (hpanes pane).mp hroot with hpane | ⟨other, hother, _⟩
    · exact absurd hclosed (hopen pane hpane)
    · cases hother

theorem Kept.swap {r : Restore} {tree : PaneNode} (h : s.Kept tree.panes [])
    (hold : ∀ pane ∈ s.root.panes, pane ∈ s.closed ∨ pane ∈ r.before.filterMap PaneLeaf.pane)
    (hnew : ∀ pane ∈ tree.panes, pane ∉ s.closed)
    (hapart : ∀ leaf ∈ r.before, leaf.id ∉ tree.ids) : (s.swap r tree).Kept [] [] := by
  apply h.place
  · rfl
  · rfl
  · intro pane hclosed
    exact List.mem_append_right _ hclosed
  · intro pane hnot hin
    rcases hin with hroot | hheld
    · rcases hold pane hroot with hclosed | hbefore
      · exact absurd (List.mem_append_right _ hclosed) hnot
      · exact absurd (List.mem_append_left _ hbefore) hnot
    · exact hheld
  · intro pane hroot hclosed
    rcases List.mem_append.mp hclosed with hbefore | hclosed
    · obtain ⟨leaf, hleaf, hpane⟩ := List.mem_filterMap.mp hbefore
      have hid : pane ∈ tree.ids := (filterMap_pane_sublist tree.leaves).subset hroot
      rw [← mem_pane hpane] at hid
      exact absurd hid (hapart leaf hleaf)
    · exact absurd hclosed (hnew pane hroot)

theorem panes_add_some (r : Restore) (leaf : PaneLeaf) :
    (r.add (some leaf)).panes = r.panes ++ leaf.pane.toList := by
  have hsingle : [leaf].filterMap PaneLeaf.pane = leaf.pane.toList := by
    rw [List.filterMap_cons]
    cases leaf.pane <;> rfl
  rw [Restore.panes, Restore.leaves_add_some, List.filterMap_append, hsingle, Restore.panes]

theorem panes_add_none (r : Restore) : (r.add none).panes = r.panes := by
  rw [Restore.panes, Restore.leaves_add_none, Restore.panes]

theorem panes_add_empty (r : Restore) (s : PaneTree) :
    (r.add (some s.emptyLeaf.1)).panes = r.panes := by
  rw [panes_add_some]
  exact List.append_nil _

theorem Kept.build {r : Restore} {todo : List (Option String)} (h : s.Kept r.panes [])
    (hready : r.Ready s.made todo.length) (hlands : s.asks todo = true ∨ s.RestoreLands r) :
    (s.build r todo).Kept [] [] := by
  induction todo generalizing s r with
  | nil =>
    have hends : s.RestoreLands r := hlands.resolve_left Bool.false_ne_true
    unfold PaneTree.build
    split
    · next tree htree =>
      have hleaves := hready.leaves_eq htree
      have hpanes : tree.panes = r.panes := by rw [PaneNode.panes, hleaves, Restore.panes]
      have hids : tree.ids = r.ids := by rw [PaneNode.ids, hleaves, Restore.ids]
      apply Kept.swap
      · rw [hpanes]
        exact h
      · exact hends.old
      · rw [hpanes]
        exact hends.made
      · rw [hids]
        exact hready.apart
    · next hnone =>
      split
      · exact h.begin
      · have hnil : r.panes = [] := by
          rw [Restore.panes, hready.leaves_eq_nil hnone]
          rfl
        rw [hnil] at h
        apply Kept.swap
        · exact ⟨h.shown, h.gone⟩
        · exact hends.old
        · intro pane hpane
          cases hpane
        · intro leaf hleaf hid
          exact hready.ne_made leaf hleaf (List.mem_singleton.mp hid)
  | cons next todo ih =>
    rw [List.length_cons] at hready
    rw [asks, List.any_cons, Bool.or_eq_true] at hlands
    cases next with
    | none =>
      unfold PaneTree.build
      split
      · exact h.begin
      · next hdefault =>
        have hpanes := panes_add_empty r s
        apply ih
        · rw [hpanes]
          exact ⟨h.shown, h.gone⟩
        · exact (hready.mono (Nat.le_succ _)).add_some hready.ne_made
        · rcases hlands with (hasks | hasks) | hends
          · exact absurd hasks hdefault
          · exact .inl hasks
          · right
            constructor
            · exact hends.old
            · rw [hpanes]
              exact hends.made
    | some type =>
      unfold PaneTree.build
      split
      · exact h.begin
      · next htype =>
        have hpanes := panes_add_none r
        apply ih
        · rw [hpanes]
          exact h
        · exact hready.add_none
        · rcases hlands with (hasks | hasks) | hends
          · exact absurd (of_decide_eq_true hasks) htype
          · exact .inl hasks
          · right
            constructor
            · exact hends.old
            · rw [hpanes]
              exact hends.made

theorem Kept.single {leaf : PaneLeaf} (h : s.Kept (leaf.pane.toList ++ []) going) :
    s.Kept leaf.pane.toList going := by
  rw [List.append_nil] at h
  exact h

theorem Kept.mono {more : List ℕ} (h : s.Kept held going) (hsub : ∀ pane ∈ held, pane ∈ more) :
    s.Kept more going := by
  constructor
  · intro pane hstarted hopen
    exact (h.shown pane hstarted hopen).imp_right (Or.imp_left (hsub pane))
  · exact h.gone

theorem Kept.finish {leaf : PaneLeaf} {use : PaneUse}
    (h : s.Kept (leaf.pane.toList ++ use.panes) use.going) (hsound : s.Sound held)
    (hready : use.Ready s.made leaf.id) (hopen : s.OpenLeaf leaf)
    (hlands : s.Lands leaf.pane.isSome use) : (s.finish leaf use).Kept [] [] := by
  cases use with
  | split direction | splitDefault direction => exact h.single.insert hsound hopen direction
  | start empty => exact h.single.fill hsound hopen hready hlands
  | remove old => exact h.single.replaceRoot hopen hlands old
  | restore r todo =>
    apply Kept.build
    · apply h.mono
      intro pane hin
      rw [panes_add_some, List.mem_append]
      exact (List.mem_append.mp hin).symm
    · exact hready.1.add_some hready.2
    · rcases hlands with hasks | hends
      · exact .inl hasks
      · right
        constructor
        · exact hends.old
        · intro pane hin
          rw [panes_add_some, List.mem_append] at hin
          rcases hin with hmade | hnew
          · exact hends.made pane hmade
          · exact hopen pane (Option.mem_toList.mp hnew)
  | root r =>
    have hnil : r.panes = [] := by
      rw [Restore.panes, hready.1.leaves_eq_nil hready.2.1]
      rfl
    have hpanes : (PaneNode.leaf leaf).panes = leaf.pane.toList := by
      rw [PaneNode.panes, PaneNode.leaves, List.filterMap_cons]
      cases leaf.pane <;> rfl
    apply Kept.swap
    · apply h.mono
      intro pane hin
      change pane ∈ leaf.pane.toList ++ r.panes at hin
      rw [hnil, List.append_nil] at hin
      rw [hpanes]
      exact hin
    · exact hlands.old
    · intro pane hin
      rw [hpanes] at hin
      exact hopen pane (Option.mem_toList.mp hin)
    · intro other hother hid
      exact hready.2.2 other hother (List.mem_singleton.mp hid)

theorem openLeaf_empty (s : PaneTree) : s.emptyLeaf.2.OpenLeaf s.emptyLeaf.1 := by
  intro pane hpane
  cases hpane

theorem Lands.same {use : PaneUse} {given : Bool} (h : s.Lands given use) (hroot : t.root = s.root)
    (hclosed : t.closed = s.closed) (hdefault : t.hasDefault = s.hasDefault)
    (htypes : t.types = s.types) : t.Lands given use := by
  have hends : ∀ r, s.RestoreLands r → t.RestoreLands r := by
    intro r hr
    constructor
    · rw [hroot, hclosed]
      exact hr.old
    · rw [hclosed]
      exact hr.made
  cases use with
  | split | splitDefault => exact trivial
  | start empty =>
    unfold Lands
    rw [hroot]
    exact h
  | remove old =>
    unfold Lands
    rw [hroot, hclosed]
    exact h
  | restore r todo =>
    unfold Lands asks
    rw [hdefault, htypes]
    exact h.imp_right (hends r)
  | root r => exact hends r h

theorem Kept.finishEmpty {use : PaneUse} (h : s.Kept use.panes use.going) (hsound : s.Sound use.ids)
    (hready : use.Ready s.made s.made) (hlands : s.Lands false use) :
    (s.emptyLeaf.2.finish s.emptyLeaf.1 use).Kept [] [] := by
  have hempty : s.emptyLeaf.2.Kept (s.emptyLeaf.1.pane.toList ++ use.panes) use.going :=
    ⟨h.shown, h.gone⟩
  apply hempty.finish
  · exact hsound.emptyLeaf
  · exact hready.mono (Nat.le_succ _)
  · exact openLeaf_empty s
  · exact hlands.same rfl rfl rfl rfl

theorem Kept.withoutView {use : PaneUse} (h : s.Kept use.panes use.going)
    (hsound : s.Sound use.ids) (hready : use.Ready s.made s.made) (hlands : s.Lands false use) :
    (s.withoutView use).Kept [] [] := by
  cases use with
  | split direction => exact h
  | splitDefault | start | remove | restore | root => exact h.finishEmpty hsound hready hlands

theorem Kept.defaultLeaf {use : PaneUse} (h : s.Kept use.panes use.going)
    (hsound : s.Sound use.ids) (hready : use.Ready s.made s.made) (hlands : s.Lands false use) :
    (s.defaultLeaf use).Kept [] [] := by
  unfold PaneTree.defaultLeaf
  split
  · exact h.begin
  · exact h.finishEmpty hsound hready hlands

theorem Kept.remove {leaf : PaneLeaf} (h : s.Kept [] leaf.pane.toList) (hsound : s.Sound [])
    (hmem : leaf ∈ s.root.leaves) (hclosed : ∀ pane, leaf.pane = some pane → pane ∈ s.closed) :
    (s.remove leaf).Kept [] [] := by
  unfold PaneTree.remove
  rw [if_pos hmem]
  split
  · next hroot =>
    have hgoing : s.Kept (PaneUse.remove leaf).panes (PaneUse.remove leaf).going := h
    apply hgoing.defaultLeaf hsound trivial
    intro pane hin
    rw [hroot] at hin
    obtain ⟨other, hother, hpane⟩ := PaneNode.mem_panes.mp hin
    obtain rfl := List.mem_singleton.mp hother
    exact hclosed pane hpane
  · next hne =>
    obtain ⟨sibling, hsibling, _, hleaves⟩ := PaneNode.drop_spec hsound.nodup_leaves hmem hne
    rw [hsibling]
    dsimp only
    obtain ⟨active, heq⟩ := refocus_same { s with root := s.root.drop leaf } leaf sibling.firstLeaf
    rw [heq]
    have hpanes : ∀ pane, pane ∈ (s.root.drop leaf).panes ↔
        ∃ other ∈ s.root.leaves, other ≠ leaf ∧ other.pane = some pane := by
      intro pane
      rw [PaneNode.mem_panes, hleaves]
      constructor
      · rintro ⟨other, hother, hpane⟩
        rw [List.mem_filter, decide_eq_true_eq] at hother
        exact ⟨other, hother.1, hother.2, hpane⟩
      · rintro ⟨other, hother, hdiffers, hpane⟩
        exact ⟨other, List.mem_filter.mpr ⟨hother, decide_eq_true hdiffers⟩, hpane⟩
    apply h.place
    · rfl
    · rfl
    · intro pane hin
      exact hin
    · intro pane hopen hin
      rcases hin with hroot | hheld
      · obtain ⟨other, hother, hpane⟩ := PaneNode.mem_panes.mp hroot
        apply (hpanes pane).mpr
        refine ⟨other, hother, ?_, hpane⟩
        rintro rfl
        exact hopen (hclosed pane hpane)
      · cases hheld
    · intro pane hin hpaneClosed
      obtain ⟨other, hother, hdiffers, hpane⟩ := (hpanes pane).mp hin
      rcases h.gone pane (PaneNode.mem_panes.mpr ⟨other, hother, hpane⟩) hpaneClosed with
        hgoing | hleaving
      · have hid : other.id = leaf.id := by
          rw [mem_pane hpane, mem_pane (Option.mem_toList.mp hgoing)]
        exact absurd (hsound.eq_of_id hother hmem hid) hdiffers
      · exact hleaving

theorem leafOfPane_some {pane : ℕ} {leaf : PaneLeaf} (h : s.leafOfPane pane = some leaf) :
    leaf ∈ s.root.leaves ∧ leaf.pane = some pane := by
  constructor
  · exact List.mem_of_find?_eq_some h
  · unfold leafOfPane at h
    have hfound := List.find?_some h
    exact of_decide_eq_true hfound

theorem leafOfPane_none {pane : ℕ} (h : s.leafOfPane pane = none) : pane ∉ s.root.panes := by
  intro hin
  obtain ⟨leaf, hleaf, hpane⟩ := PaneNode.mem_panes.mp hin
  exact List.find?_eq_none.mp h leaf hleaf (decide_eq_true hpane)

theorem Kept.close (h : s.Kept [] []) (hsound : s.Sound []) (pane : ℕ) :
    (s.close pane).Kept [] [] := by
  unfold PaneTree.close
  split
  · exact h
  · have hsound' : ({ s with closed := pane :: s.closed } : PaneTree).Sound [] :=
      hsound.same rfl rfl rfl hsound.active
    have hclosed : ({ s with closed := pane :: s.closed } : PaneTree).Kept [] [pane] := by
      constructor
      · intro other hstarted hopen
        exact h.shown other hstarted fun hold => hopen (List.mem_cons_of_mem _ hold)
      · intro other hroot hin
        rcases List.mem_cons.mp hin with rfl | hold
        · exact .inl List.mem_cons_self
        · exact .inr ((h.gone other hroot hold).resolve_left List.not_mem_nil)
    dsimp only
    split
    · next leaf hfind =>
      obtain ⟨hmem, hpane⟩ := leafOfPane_some hfind
      apply Kept.remove
      · rw [hpane]
        exact hclosed
      · exact hsound'
      · exact hmem
      · intro other hother
        rw [hpane, Option.some.injEq] at hother
        rw [← hother]
        exact List.mem_cons_self
    · next hfind =>
      constructor
      · exact hclosed.shown
      · intro other hroot hin
        rcases hclosed.gone other hroot hin with hgoing | hleaving
        · rw [List.mem_singleton.mp hgoing] at hroot
          exact absurd hroot (leafOfPane_none hfind)
        · exact .inr hleaving

theorem Kept.closeActive (h : s.Kept [] []) (hsound : s.Sound []) : s.closeActive.Kept [] [] := by
  unfold PaneTree.closeActive
  split
  · exact h.close hsound _
  · next hnone =>
    apply Kept.remove
    · rw [hnone]
      exact h
    · exact hsound
    · exact hsound.active
    · intro pane hpane
      rw [hnone] at hpane
      cases hpane

theorem Kept.start (h : s.Kept [] []) : s.start.Kept [] [] := by
  unfold PaneTree.start
  split
  · split
    · next empty _ =>
      have hheld : s.Kept (PaneUse.start empty).panes (PaneUse.start empty).going := h
      exact hheld.begin
    · exact h
  · exact h

theorem Kept.restore (h : s.Kept [] []) (hsound : s.Sound []) (saved : SavedPane) (focus : ℕ) :
    (s.restore saved focus).Kept [] [] := by
  apply Kept.build
  · exact h
  · exact restore_ready hsound saved focus
  · right
    constructor
    · intro pane hin
      exact .inr hin
    · intro pane hin
      cases hin

theorem Lands.close {frame : PaneFrame} (h : s.Lands false frame.use)
    (hsound : s.Sound frame.ids) :
    ({ s with closed := frame.mount :: s.closed } : PaneTree).Lands false frame.use := by
  have hgrow : ∀ pane ∈ s.closed, pane ∈ frame.mount :: s.closed := fun pane hin =>
    List.mem_cons_of_mem _ hin
  have hmount : frame.mount ∉ frame.use.ids ++ s.ids := (List.nodup_cons.mp hsound.nodup).1
  have hends : ∀ r : Restore, frame.use.ids = r.ids → s.RestoreLands r →
      ({ s with closed := frame.mount :: s.closed } : PaneTree).RestoreLands r := by
    intro r hids hr
    constructor
    · intro pane hin
      exact (hr.old pane hin).imp_left (hgrow pane)
    · intro pane hin hclosed
      rcases List.mem_cons.mp hclosed with rfl | hold
      · apply hmount
        apply List.mem_append_left
        rw [hids]
        exact (filterMap_pane_sublist r.leaves).subset hin
      · exact hr.made pane hin hold
  unfold Lands at h ⊢
  split
  · exact trivial
  · exact trivial
  · next huse =>
    rw [huse] at h
    exact h
  · next huse =>
    rw [huse] at h
    exact fun pane hin => hgrow pane (h pane hin)
  · next r todo huse =>
    rw [huse] at h hends
    exact h.imp_right (hends r rfl)
  · next r huse =>
    rw [huse] at h hends
    exact hends r rfl h

theorem Kept.returned {frame : PaneFrame} (h : s.Kept frame.use.panes frame.use.going)
    (hsound : s.Sound frame.ids) (hready : frame.use.Ready s.made frame.mount)
    (result : FactoryEnd) (hlands : s.Lands (s.gives frame result) frame.use) :
    (s.returned frame result).Kept [] [] := by
  cases result with
  | view view =>
    unfold PaneTree.returned
    dsimp only
    unfold gives at hlands
    split
    · next hclosed =>
      dsimp only at hlands
      rw [decide_eq_false (not_not.mpr hclosed)] at hlands
      exact h.withoutView hsound.drop_head (ready_made hready) hlands
    · next hopen =>
      dsimp only at hlands
      rw [decide_eq_true hopen] at hlands
      have hstarted : ({ s with started := frame.mount :: s.started } : PaneTree).Kept
          ((⟨frame.mount, some view⟩ : PaneLeaf).pane.toList ++ frame.use.panes)
          frame.use.going := by
        constructor
        · intro pane hin hnot
          rcases List.mem_cons.mp hin with rfl | hold
          · exact .inr (.inl (List.mem_append_left _ List.mem_cons_self))
          · exact (h.shown pane hold hnot).imp_right (Or.imp_left (List.mem_append_right _))
        · exact h.gone
      have hsound' : ({ s with started := frame.mount :: s.started } : PaneTree).Sound frame.ids :=
        hsound.same rfl rfl rfl hsound.active
      apply hstarted.finish
      · exact hsound'
      · exact hready
      · intro pane hpane
        cases hpane
        exact hopen
      · exact hlands.same rfl rfl rfl rfl
  | fails =>
    have hclosed : ({ s with closed := frame.mount :: s.closed } : PaneTree).Kept
        frame.use.panes frame.use.going := by
      constructor
      · intro pane hin hnot
        exact h.shown pane hin fun hold => hnot (List.mem_cons_of_mem _ hold)
      · intro pane hroot hin
        rcases List.mem_cons.mp hin with rfl | hold
        · have hmount := (List.nodup_cons.mp hsound.nodup).1
          refine absurd ?_ hmount
          apply List.mem_append_right
          apply List.mem_append_left
          exact (filterMap_pane_sublist s.root.leaves).subset hroot
        · exact h.gone pane hroot hold
    have hsound' : ({ s with closed := frame.mount :: s.closed } : PaneTree).Sound frame.use.ids :=
      hsound.drop_head.same rfl rfl rfl hsound.active
    exact hclosed.withoutView hsound' (ready_made hready) (Lands.close hlands hsound)

theorem kept_step (h : s.Kept [] []) (hsound : s.Sound []) {act : PaneAct}
    (hallowed : s.Allowed act) (hstep : s.step act = some t) : t.Kept [] [] := by
  cases act with
  | returns result =>
    unfold step at hstep
    dsimp only at hstep
    split at hstep
    · cases hstep
    · next frame stack hstack =>
      cases hstep
      obtain ⟨hpop, hready⟩ := hsound.pop hstack
      apply (h.pop hstack).returned hpop hready
      exact (hallowed frame stack hstack).same rfl rfl rfl rfl
  | close pane =>
    unfold step at hstep
    dsimp only at hstep
    split at hstep
    · cases hstep
      exact h.close hsound pane
    · cases hstep
  | split direction =>
    cases hstep
    have hheld : s.Kept (PaneUse.split direction).panes (PaneUse.split direction).going := h
    exact hheld.begin
  | splitDefault direction =>
    cases hstep
    have hheld : s.Kept (PaneUse.splitDefault direction).panes
        (PaneUse.splitDefault direction).going := h
    have hsound' : s.Sound (PaneUse.splitDefault direction).ids := hsound
    exact hheld.defaultLeaf hsound' trivial trivial
  | start =>
    cases hstep
    exact h.start
  | restore saved focus =>
    cases hstep
    exact h.restore hsound saved focus
  | closeActive =>
    cases hstep
    exact h.closeActive hsound
  | focus direction =>
    cases hstep
    unfold focus
    split <;> exact ⟨h.shown, h.gone⟩
  | focusNext =>
    cases hstep
    unfold focusNext
    split
    · split <;> exact ⟨h.shown, h.gone⟩
    · exact h
  | focusPane pane =>
    cases hstep
    unfold focusPane
    split <;> exact ⟨h.shown, h.gone⟩
  | noteFocus rootPath =>
    cases hstep
    unfold noteFocus
    split <;> exact ⟨h.shown, h.gone⟩
  | layout | setDefault | register =>
    cases hstep
    exact ⟨h.shown, h.gone⟩

theorem sound_run {acts : List PaneAct} (h : Steps (outcome step) new acts s) : s.Sound [] :=
  h.keeps sound_new fun _ _ _ hsound hstep => sound_step hsound hstep

theorem kept_run {acts : List PaneAct} (h : Steps (when Allowed (outcome step)) new acts s) :
    s.Kept [] [] := by
  have hboth := h.keeps (P := fun s => s.Sound [] ∧ s.Kept [] []) ⟨sound_new, kept_new⟩ (by
    intro s act t hs hnext
    exact ⟨sound_step hs.1 hnext.2, kept_step hs.2 hs.1 hnext.1 hnext.2⟩)
  exact hboth.2

/-- Each started and open pane is in one leaf of the tree, or a restore holds it once. A closed pane
has no leaf but one that a default pane comes for. -/
structure Placed (s : PaneTree) : Prop where
  shown : ∀ pane ∈ s.started, pane ∉ s.closed → (s.root.panes ++ s.waiting).count pane = 1
  gone : ∀ pane ∈ s.root.panes, pane ∈ s.closed → pane ∈ s.leaving

structure AllShown (s : PaneTree) : Prop where
  shown : ∀ pane ∈ s.started, pane ∉ s.closed → s.root.panes.count pane = 1
  gone : ∀ pane ∈ s.root.panes, pane ∉ s.closed

theorem panes_sublist (use : PaneUse) : use.panes.Sublist use.ids := by
  cases use with
  | split | splitDefault | start | remove => exact List.Sublist.refl _
  | restore r _ | root r => exact filterMap_pane_sublist r.leaves

theorem waiting_sublist (s : PaneTree) : (s.root.panes ++ s.waiting).Sublist s.ids := by
  apply (filterMap_pane_sublist s.root.leaves).append
  unfold waiting
  induction s.stack with
  | nil => exact List.Sublist.refl _
  | cons frame stack ih =>
    rw [List.flatMap_cons, List.flatMap_cons]
    exact ((panes_sublist frame.use).cons frame.mount).append ih

theorem Kept.placed (h : s.Kept [] []) (hsound : s.Sound []) : s.Placed := by
  have hnodup : (s.root.panes ++ s.waiting).Nodup := hsound.nodup_ids.sublist s.waiting_sublist
  constructor
  · intro pane hstarted hopen
    apply List.count_eq_one_of_mem hnodup
    rcases h.shown pane hstarted hopen with hroot | hheld | hwaiting
    · exact List.mem_append_left _ hroot
    · cases hheld
    · exact List.mem_append_right _ hwaiting
  · intro pane hroot hclosed
    exact (h.gone pane hroot hclosed).resolve_left List.not_mem_nil

theorem Placed.allShown (h : s.Placed) (hidle : s.stack = []) : s.AllShown := by
  have hwaiting : s.waiting = [] := by
    rw [waiting, hidle]
    rfl
  constructor
  · intro pane hstarted hopen
    have hcount := h.shown pane hstarted hopen
    rw [hwaiting, List.append_nil] at hcount
    exact hcount
  · intro pane hroot hclosed
    have hleaving := h.gone pane hroot hclosed
    rw [leaving, hidle] at hleaving
    cases hleaving

def rects (s : PaneTree) : List Rect := s.leafRects.map Prod.snd ++ s.dividers.map Prod.snd

/-- In each run the active leaf is in the tree, and a layout with room for each split has its rects
inside the size and apart. In each run whose factories return to a tree where their leaf has a
place, each started and open pane has one, and once no factory runs it is one leaf. -/
theorem panes_kept {acts : List PaneAct} (h : Steps (outcome step) new acts s) :
    s.active ∈ s.root.leaves ∧
      (∀ size : Size, s.root.HasRoom ⟨0, 0, size.width, size.height⟩ →
        (∀ rect ∈ (s.layout size).rects, rect.Within ⟨0, 0, size.width, size.height⟩) ∧
          (s.layout size).rects.Pairwise Rect.Apart) ∧
      (Steps (when Allowed (outcome step)) new acts s →
        s.Placed ∧ (s.stack = [] → s.AllShown)) := by
  refine ⟨?_, ?_, ?_⟩
  · exact (sound_run h).active
  · intro size hroom
    exact s.root.rects_spec hroom
  · intro hallowed
    have hplaced := (kept_run hallowed).placed (sound_run h)
    exact ⟨hplaced, hplaced.allShown⟩

def splitOnce : PaneTree :=
  { new with
    root := .split .row (.leaf ⟨0, none⟩) (.leaf ⟨1, some 7⟩)
    active := ⟨1, some 7⟩
    made := 2
    started := [1] }

theorem panes_kept_split :
    splitOnce.active ∈ splitOnce.root.leaves ∧ splitOnce.Placed ∧ splitOnce.AllShown := by
  have hrun : Steps (outcome step) new [.split .row, .returns (.view 7)] splitOnce :=
    .of_foldlM rfl
  have hfirst : Steps (when Allowed (outcome step)) new [.split .row] (new.begin (.split .row)) :=
    .step .start ⟨trivial, rfl⟩
  have hallowed : Steps (when Allowed (outcome step)) new [.split .row, .returns (.view 7)]
      splitOnce := by
    refine hfirst.step ⟨?_, rfl⟩
    intro frame stack hstack
    cases hstack
    exact trivial
  obtain ⟨hactive, _, hkept⟩ := panes_kept hrun
  obtain ⟨hplaced, hshown⟩ := hkept hallowed
  exact ⟨hactive, hplaced, hshown rfl⟩

def splitInClose : List PaneAct :=
  [.setDefault true, .start, .returns (.view 1), .closeActive, .split .row, .returns (.view 2),
    .returns (.view 3)]

def closeInStart : List PaneAct :=
  [.setDefault true, .start, .closeActive, .returns (.view 1), .returns (.view 2)]

def splitInRestore : List PaneAct :=
  [.register ["a"], .restore (.view "a") 0, .split .row, .returns (.view 1), .returns (.view 2)]

def closeInRestore : List PaneAct :=
  [.register ["a"], .restore (.split .row (.view "a") (.view "a")) 0, .returns (.view 1), .close 1,
    .returns (.view 2)]

/-- The run `acts` ends with no factory, and with a pane that has no leaf or a closed one in a
leaf. -/
def Misplaces (acts : List PaneAct) : Prop :=
  ∃ s, Steps (outcome step) new acts s ∧ s.stack = [] ∧ ¬ s.AllShown

theorem panes_misplaced :
    Misplaces splitInClose ∧ Misplaces closeInStart ∧ Misplaces splitInRestore ∧
      Misplaces closeInRestore := by
  refine ⟨⟨_, .of_foldlM rfl, rfl, ?_⟩, ⟨_, .of_foldlM rfl, rfl, ?_⟩, ⟨_, .of_foldlM rfl, rfl, ?_⟩,
    ⟨_, .of_foldlM rfl, rfl, ?_⟩⟩
  · intro h
    exact absurd (h.shown 3 (by decide) (by decide)) (by decide)
  · intro h
    exact absurd (h.shown 1 (by decide) (by decide)) (by decide)
  · intro h
    exact absurd (h.shown 2 (by decide) (by decide)) (by decide)
  · intro h
    exact absurd (by decide) (h.gone 1 (by decide))

end PaneTree

end Yuke.Tui
