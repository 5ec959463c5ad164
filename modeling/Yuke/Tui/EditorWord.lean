import Yuke.Tui.EditorSound

/-!
# The word moves end

Each turn of the loop goes from one place outside the spans to another one further on.
-/

set_option autoImplicit false

namespace Yuke.Tui

open Yuke.Shared

/-- `target` is `offset` or lies beyond it in the direction of the move. -/
def Direction.Reaches (direction : Direction) (offset target : Nat) : Prop :=
  match direction with
  | .back => target ≤ offset
  | .forward => offset ≤ target

def Direction.left (direction : Direction) (count index : Nat) : Nat :=
  match direction with
  | .back => index
  | .forward => count - index

theorem Direction.Reaches.trans {direction : Direction} {a b c : Nat}
    (hab : direction.Reaches a b) (hbc : direction.Reaches b c) : direction.Reaches a c := by
  cases direction
  · exact Nat.le_trans hbc hab
  · exact Nat.le_trans hab hbc

theorem indexOf_mem {items : List Nat} {value : Nat} (h : value ∈ items) :
    ∃ index : Nat, indexOf items value = index ∧ items[index]? = some value := by
  refine ⟨items.idxOf value, if_pos h, ?_⟩
  rw [List.getElem?_eq_getElem (List.idxOf_lt_length_of_mem h), List.getElem_idxOf]

@[simp] theorem item?_ofNat (items : List Nat) (index : Nat) : item? items index = items[index]? := by
  simp [item?]

variable {g : Graphemes} {state : EditorState} {direction : Direction} {index : Nat}
variable {spans : List EditorSpan} {text : Text}

theorem boundaries_index_lt {i j a b : Nat} (hi : (boundaries g text)[i]? = some a)
    (hj : (boundaries g text)[j]? = some b) : a < b ↔ i < j := by
  obtain ⟨hilt, rfl⟩ := List.getElem?_eq_some_iff.mp hi
  obtain ⟨hjlt, rfl⟩ := List.getElem?_eq_some_iff.mp hj
  exact getElem_lt_iff boundaries_increasing hilt hjlt

theorem stands_succ (h : SpansSound g text spans) {here after : Nat}
    (hhere : (boundaries g text)[index]? = some here)
    (hafter : (boundaries g text)[index + 1]? = some after)
    (hstands : Stands g text spans here) (hnone : ∀ span ∈ spans, span.start ≠ here) :
    Stands g text spans after := by
  refine ⟨List.mem_of_getElem? hafter, fun span hspan => ?_⟩
  rw [not_holds_iff]
  have hsound := h.span span hspan
  have hout := not_holds_iff.mp (hstands.2 span hspan)
  have hne := hnone span hspan
  obtain ⟨hilt, rfl⟩ := List.getElem?_eq_some_iff.mp hhere
  obtain ⟨hjlt, rfl⟩ := List.getElem?_eq_some_iff.mp hafter
  rcases hout with hout | hout
  · exact .inl (no_edge_between boundaries_increasing hjlt hsound.start_mem (by omega))
  · have hlt := (getElem_lt_iff (boundaries_increasing (g := g)) hilt hjlt).mpr
      (Nat.lt_succ_self index)
    omega

theorem stands_pred (h : SpansSound g text spans) {here before : Nat}
    (hbefore : (boundaries g text)[index]? = some before)
    (hhere : (boundaries g text)[index + 1]? = some here)
    (hstands : Stands g text spans here) (hnone : ∀ span ∈ spans, span.stop ≠ here) :
    Stands g text spans before := by
  refine ⟨List.mem_of_getElem? hbefore, fun span hspan => ?_⟩
  rw [not_holds_iff]
  have hsound := h.span span hspan
  have hout := not_holds_iff.mp (hstands.2 span hspan)
  have hne := hnone span hspan
  obtain ⟨hilt, rfl⟩ := List.getElem?_eq_some_iff.mp hbefore
  obtain ⟨hjlt, rfl⟩ := List.getElem?_eq_some_iff.mp hhere
  have hlt := (getElem_lt_iff (boundaries_increasing (g := g)) hilt hjlt).mpr
    (Nat.lt_succ_self index)
  rcases hout with hout | hout
  · omega
  · by_contra hinside
    have := no_edge_between boundaries_increasing hjlt hsound.stop_mem (by omega)
    omega

theorem far_stands (h : SpansSound g text spans) {span : EditorSpan} (hspan : span ∈ spans) :
    Stands g text spans (span.far direction) := by
  have hsound := h.span span hspan
  have hlt := hsound.lt
  cases direction
  · refine ⟨hsound.start_mem, fun other hother => not_holds_iff.mpr ?_⟩
    simp only [EditorSpan.far]
    rcases h.apart hother hspan with rfl | hapart | hapart <;> omega
  · refine ⟨hsound.stop_mem, fun other hother => not_holds_iff.mpr ?_⟩
    simp only [EditorSpan.far]
    rcases h.apart hother hspan with rfl | hapart | hapart <;> omega

theorem wordNext_further (h : SpansSound g state.text state.spans) {here : Nat}
    (hhere : (boundaries g state.text)[index]? = some here)
    (hstands : Stands g state.text state.spans here)
    (hlow : 0 ≤ (index : Int) + direction.sign)
    (hhigh : (index : Int) + direction.sign < (boundaries g state.text).length) :
    ∃ (next there : Nat), state.wordNext (boundaries g state.text) direction index = next ∧
      (boundaries g state.text)[next]? = some there ∧ Stands g state.text state.spans there ∧
      direction.Reaches here there ∧
      direction.left (boundaries g state.text).length next <
        direction.left (boundaries g state.text).length index := by
  obtain ⟨hlt, _⟩ := List.getElem?_eq_some_iff.mp hhere
  unfold EditorState.wordNext
  simp only [item?_ofNat, hhere, Option.some.injEq]
  cases hfind : state.spans.find? (fun span => decide (span.near direction = here)) with
  | some span =>
    have hspan := List.mem_of_find?_eq_some hfind
    have hnear : span.near direction = here := by simpa using List.find?_some hfind
    have hfar : Stands g state.text state.spans (span.far direction) := far_stands h hspan
    obtain ⟨next, hnext, hthere⟩ := indexOf_mem hfar.1
    have hpos := (h.span span hspan).lt
    refine ⟨next, span.far direction, hnext, hthere, hfar, ?_⟩
    obtain ⟨hnextlt, _⟩ := List.getElem?_eq_some_iff.mp hthere
    cases direction with
    | back =>
      have hback : span.start < here := hnear ▸ hpos
      exact ⟨Nat.le_of_lt hback, (boundaries_index_lt hthere hhere).mp hback⟩
    | forward =>
      have hforward : here < span.stop := hnear ▸ hpos
      have hindex := (boundaries_index_lt hhere hthere).mp hforward
      simp only [Direction.left]
      exact ⟨Nat.le_of_lt hforward, by omega⟩
  | none =>
    have hnone : ∀ span ∈ state.spans, span.near direction ≠ here := fun span hspan => by
      simpa using List.find?_eq_none.mp hfind span hspan
    cases direction with
    | back =>
      simp only [Direction.sign] at hlow hhigh
      obtain ⟨next, rfl⟩ : ∃ next, index = next + 1 := ⟨index - 1, by omega⟩
      have hthere := List.getElem?_eq_getElem (l := boundaries g state.text) (i := next) (by omega)
      refine ⟨next, _, ?_, hthere, stands_pred h hthere hhere hstands hnone, ?_, ?_⟩
      · simp only [Direction.sign]
        omega
      · exact Nat.le_of_lt ((boundaries_index_lt hthere hhere).mpr (Nat.lt_succ_self next))
      · exact Nat.lt_succ_self next
    | forward =>
      simp only [Direction.sign] at hlow hhigh
      have hthere := List.getElem?_eq_getElem (l := boundaries g state.text) (i := index + 1)
        (by omega)
      refine ⟨index + 1, _, ?_, hthere, stands_succ h hhere hthere hstands hnone, ?_, ?_⟩
      · simp only [Direction.sign]
        omega
      · exact Nat.le_of_lt ((boundaries_index_lt hhere hthere).mpr (Nat.lt_succ_self index))
      · simp only [Direction.left]
        omega

theorem wordLoop_ends (h : SpansSound g state.text state.spans) (fuel : Nat) {here : Nat}
    (inWord : Bool) (hhere : (boundaries g state.text)[index]? = some here)
    (hstands : Stands g state.text state.spans here)
    (hfuel : direction.left (boundaries g state.text).length index < fuel) :
    ∃ target, state.wordLoop (boundaries g state.text) direction fuel index inWord =
        some (some target) ∧
      Stands g state.text state.spans target ∧ direction.Reaches here target := by
  have hstay : direction.Reaches here here := by cases direction <;> exact Nat.le_refl here
  induction fuel generalizing index here inWord with
  | zero => omega
  | succ fuel ih =>
    unfold EditorState.wordLoop
    simp only [item?_ofNat, hhere]
    split
    · rename_i hin
      obtain ⟨next, there, hnext, hthere, hplace, hreach, hleft⟩ :=
        wordNext_further h hhere hstands hin.1 hin.2
      split
      · exact ⟨here, rfl, hstands, hstay⟩
      · rw [hnext]
        have hback : direction.Reaches there there := by cases direction <;> exact Nat.le_refl there
        obtain ⟨target, hloop, htarget, hbeyond⟩ := ih (inWord || !isBlank (state.wordPiece
          (boundaries g state.text) direction index next)) hthere hplace (by omega) hback
        exact ⟨target, hloop, htarget, hreach.trans hbeyond⟩
    · exact ⟨here, rfl, hstands, hstay⟩

theorem word_ends (h : SpansSound g state.text state.spans) {offset : Nat}
    (hoffset : Stands g state.text state.spans offset) (direction : Direction) :
    ∃ fuel target, state.word g fuel offset direction = some (some target) ∧
      Stands g state.text state.spans target ∧ direction.Reaches offset target := by
  obtain ⟨index, hindex, hhere⟩ := indexOf_mem hoffset.1
  refine ⟨direction.left (boundaries g state.text).length index + 1, ?_⟩
  simp only [EditorState.word, hindex]
  exact wordLoop_ends h _ false hhere hoffset (Nat.lt_succ_self _)

end Yuke.Tui
