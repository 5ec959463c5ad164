import Yuke.Tui.PanesLayout

/-!
# The leaves of a changed tree

What each change of the tree does to its leaves. A leaf is in the tree once.
-/

set_option autoImplicit false

namespace Yuke.Tui

namespace PaneNode

theorem firstLeaf_mem (node : PaneNode) : node.firstLeaf ∈ node.leaves := by
  induction node with
  | leaf here => exact List.mem_cons_self
  | split direction first second ihFirst _ => exact List.mem_append_left _ ihFirst

theorem leaves_replace (node : PaneNode) (old : PaneLeaf) (replacement : PaneNode) :
    (node.replace old replacement).leaves =
      node.leaves.flatMap fun leaf => if leaf = old then replacement.leaves else [leaf] := by
  induction node with
  | leaf here =>
    unfold replace
    split
    · next h => simp [leaves, h]
    · next h => simp [leaves, h]
  | split direction first second ihFirst ihSecond =>
    rw [replace, leaves, leaves, ihFirst, ihSecond, List.flatMap_append]

theorem replace_of_not_mem {node : PaneNode} {old : PaneLeaf} (h : old ∉ node.leaves)
    (replacement : PaneNode) : node.replace old replacement = node := by
  induction node with
  | leaf here =>
    rw [leaves, List.mem_singleton] at h
    exact if_neg fun heq => h heq.symm
  | split direction first second ihFirst ihSecond =>
    rw [leaves, List.mem_append, not_or] at h
    rw [replace, ihFirst h.1, ihSecond h.2]

theorem leaves_replace_perm {node : PaneNode} {old : PaneLeaf} (hnodup : node.leaves.Nodup)
    (hmem : old ∈ node.leaves) (replacement : PaneNode) :
    (node.replace old replacement).leaves.Perm (replacement.leaves ++ node.leaves.erase old) := by
  rw [leaves_replace]
  obtain ⟨before, after, hsplit⟩ := List.append_of_mem hmem
  rw [hsplit] at hnodup ⊢
  rw [List.nodup_middle, List.nodup_cons, List.mem_append, not_or] at hnodup
  obtain ⟨⟨hbefore, hafter⟩, _⟩ := hnodup
  have hkeep : ∀ list : List PaneLeaf, old ∉ list →
      (list.flatMap fun leaf => if leaf = old then replacement.leaves else [leaf]) = list := by
    intro list hnot
    rw [List.flatMap_congr (g := fun leaf => [leaf])]
    · exact List.flatMap_singleton' list
    · intro leaf hleaf
      exact if_neg fun heq : leaf = old => hnot (heq ▸ hleaf)
  rw [List.flatMap_append, List.flatMap_cons, if_pos rfl, hkeep before hbefore, hkeep after hafter,
    List.erase_append_right _ hbefore, List.erase_cons_head, ← List.append_assoc,
    ← List.append_assoc]
  exact List.perm_append_comm.append_right _

theorem drop_of_not_mem {node : PaneNode} {leaf : PaneLeaf} (h : leaf ∉ node.leaves) :
    node.drop leaf = node ∧ node.sibling leaf = none := by
  induction node with
  | leaf here => exact ⟨rfl, rfl⟩
  | split direction first second ihFirst ihSecond =>
    rw [leaves, List.mem_append, not_or] at h
    obtain ⟨hdropFirst, hsiblingFirst⟩ := ihFirst h.1
    obtain ⟨hdropSecond, hsiblingSecond⟩ := ihSecond h.2
    have hfirst : first ≠ .leaf leaf := by
      rintro rfl
      exact h.1 List.mem_cons_self
    have hsecond : second ≠ .leaf leaf := by
      rintro rfl
      exact h.2 List.mem_cons_self
    constructor
    · rw [drop, if_neg hfirst, if_neg hsecond, hdropFirst, hdropSecond]
    · rw [sibling, if_neg hfirst, if_neg hsecond, hsiblingFirst, hsiblingSecond]
      rfl

theorem filter_ne_of_not_mem {list : List PaneLeaf} {leaf : PaneLeaf} (h : leaf ∉ list) :
    list.filter (· ≠ leaf) = list := by
  rw [List.filter_eq_self]
  intro other hother
  exact decide_eq_true fun heq => h (heq ▸ hother)

theorem drop_spec {node : PaneNode} {leaf : PaneLeaf} (hnodup : node.leaves.Nodup)
    (hmem : leaf ∈ node.leaves) (hne : node ≠ .leaf leaf) :
    ∃ sibling, node.sibling leaf = some sibling ∧ sibling.firstLeaf ∈ (node.drop leaf).leaves ∧
      (node.drop leaf).leaves = node.leaves.filter (· ≠ leaf) := by
  induction node with
  | leaf here =>
    rw [leaves, List.mem_singleton] at hmem
    exact absurd (by rw [hmem]) hne
  | split direction first second ihFirst ihSecond =>
    rw [leaves, List.nodup_append'] at hnodup
    obtain ⟨hnodupFirst, hnodupSecond, hdisjoint⟩ := hnodup
    rw [leaves, List.filter_append]
    by_cases hfirst : first = .leaf leaf
    · subst hfirst
      have hother : leaf ∉ second.leaves := fun h => hdisjoint List.mem_cons_self h
      refine ⟨second, ?_, ?_, ?_⟩
      · rw [sibling, if_pos rfl]
      · rw [drop, if_pos rfl]
        exact second.firstLeaf_mem
      · rw [drop, if_pos rfl, filter_ne_of_not_mem hother]
        simp [leaves]
    · by_cases hsecond : second = .leaf leaf
      · subst hsecond
        have hother : leaf ∉ first.leaves := fun h => hdisjoint h List.mem_cons_self
        refine ⟨first, ?_, ?_, ?_⟩
        · rw [sibling, if_neg hfirst, if_pos rfl]
        · rw [drop, if_neg hfirst, if_pos rfl]
          exact first.firstLeaf_mem
        · rw [drop, if_neg hfirst, if_pos rfl, filter_ne_of_not_mem hother]
          simp [leaves]
      · rw [sibling, if_neg hfirst, if_neg hsecond, drop, if_neg hfirst, if_neg hsecond, leaves]
        rcases List.mem_append.mp hmem with hin | hin
        · have hother : leaf ∉ second.leaves := fun h => hdisjoint hin h
          obtain ⟨part, hpart, hfirstLeaf, hleaves⟩ := ihFirst hnodupFirst hin hfirst
          refine ⟨part, ?_, List.mem_append_left _ hfirstLeaf, ?_⟩
          · rw [hpart]
            rfl
          · rw [hleaves, (drop_of_not_mem hother).1, filter_ne_of_not_mem hother]
        · have hother : leaf ∉ first.leaves := fun h => hdisjoint h hin
          obtain ⟨part, hpart, hfirstLeaf, hleaves⟩ := ihSecond hnodupSecond hin hsecond
          refine ⟨part, ?_, List.mem_append_right _ hfirstLeaf, ?_⟩
          · rw [hpart, (drop_of_not_mem hother).2]
            rfl
          · rw [hleaves, (drop_of_not_mem hother).1, filter_ne_of_not_mem hother]

end PaneNode

def treeLeaves (tree : Option PaneNode) : List PaneLeaf := (tree.map PaneNode.leaves).getD []

theorem treeLeaves_joinParts (direction : SplitDirection) (first second : Option PaneNode) :
    treeLeaves (joinParts direction first second) = treeLeaves first ++ treeLeaves second := by
  cases first with
  | none => rfl
  | some first =>
    cases second with
    | none => exact (List.append_nil _).symm
    | some second => rfl

theorem SavedPane.build_spec (saved : SavedPane) (order : List (Option PaneLeaf)) :
    treeLeaves (saved.build order).1 = (order.take saved.leaves.length).reduceOption ∧
      (saved.build order).2 = order.drop saved.leaves.length := by
  induction saved generalizing order with
  | null | view type =>
    cases order with
    | nil => exact ⟨rfl, rfl⟩
    | cons leaf order =>
      refine ⟨?_, rfl⟩
      cases leaf <;> rfl
  | split direction first second ihFirst ihSecond =>
    obtain ⟨hfirst, hrest⟩ := ihFirst order
    obtain ⟨hsecond, hrest'⟩ := ihSecond (first.build order).2
    rw [hrest] at hsecond hrest'
    constructor
    · change treeLeaves (joinParts _ _ _) = _
      rw [treeLeaves_joinParts, hfirst, hrest, hsecond, leaves, List.length_append, List.take_add,
        List.reduceOption_append]
    · change (second.build (first.build order).2).2 = _
      rw [hrest, hrest', leaves, List.length_append, List.drop_drop]

end Yuke.Tui
