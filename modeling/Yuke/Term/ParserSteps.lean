import Yuke.Term.Parser

/-!
# The steps of the terminal parser

A step takes at least one byte and no more than there are, and a step that the bytes decide does not
change when more bytes come.
-/

set_option autoImplicit false

namespace Yuke.Term

open Yuke.Shared (find isSecond isTrailing)

def Step.taken : Step → Option Nat
  | .incomplete => none
  | .skip n | .event _ n | .answer _ n | .pasteStart n => some n

@[simp] theorem taken_eq_none {step : Step} : step.taken = none ↔ step = .incomplete := by
  cases step <;> simp [Step.taken]

@[simp] theorem taken_skip {n : Nat} : (Step.skip n).taken = some n := rfl
@[simp] theorem taken_event {event : Event} {n : Nat} : (Step.event event n).taken = some n := rfl
@[simp] theorem taken_answer {answer : Answer} {n : Nat} :
    (Step.answer answer n).taken = some n := rfl
@[simp] theorem taken_pasteStart {n : Nat} : (Step.pasteStart n).taken = some n := rfl

variable {input more params body : List UInt8} {n at_ last : Nat}

@[simp] theorem taken_finishKey {key : Key} {fields : List (List UInt8)} :
    (finishKey key fields n).taken = some n := by
  unfold finishKey
  split
  · rfl
  · split <;> rfl

@[simp] theorem taken_legacyKey {code : Code} : (legacyKey code params n).taken = some n :=
  taken_finishKey

@[simp] theorem taken_modifyOtherKeys {fields : List (List UInt8)} :
    (modifyOtherKeys fields n).taken = some n := by
  unfold modifyOtherKeys
  split <;> rfl

@[simp] theorem taken_tildeKey : (tildeKey params n).taken = some n := by
  unfold tildeKey
  dsimp only
  split
  · rfl
  · repeat' split
    all_goals simp

@[simp] theorem taken_kittyKey : (kittyKey params n).taken = some n := by
  unfold kittyKey
  dsimp only
  split
  · rfl
  · next code _ =>
    split
    · next step key n' hstep =>
      have htaken := congrArg Step.taken hstep
      rw [taken_finishKey] at htaken
      exact htaken.symm
    · exact taken_finishKey

@[simp] theorem taken_sgrMouse {release : Bool} : (sgrMouse body release n).taken = some n := by
  unfold sgrMouse
  dsimp only
  split
  · split <;> rfl
  · rfl

theorem utf8Start_append (h : utf8Start input ≠ .cut) :
    utf8Start (input ++ more) = utf8Start input := by
  rcases input with _ | ⟨a, _ | ⟨b, _ | ⟨c, _ | ⟨d, rest⟩⟩⟩⟩
  · exact absurd rfl h
  · simp only [utf8Start] at h
    simp only [List.cons_append, List.nil_append, utf8Start]
    split
    · rfl
    · next hascii =>
      rw [if_neg hascii] at h
      split
      · rfl
      · next hfirst =>
        rw [if_neg hfirst] at h
        exact absurd rfl h
  · simp only [utf8Start] at h
    simp only [List.cons_append, List.nil_append, utf8Start]
    repeat' split
    all_goals simp_all
  · simp only [utf8Start] at h
    simp only [List.cons_append, List.nil_append, utf8Start]
    repeat' split
    all_goals simp_all
  · rfl

theorem utf8Start_length {character : Char} (h : utf8Start input = .char character n ∨
    utf8Start input = .invalid n) : 1 ≤ n ∧ n ≤ input.length := by
  rcases input with _ | ⟨a, _ | ⟨b, _ | ⟨c, _ | ⟨d, rest⟩⟩⟩⟩ <;>
  · simp only [utf8Start] at h
    repeat' split at h
    all_goals
      first
      | simp at h
        done
      | simp only [Utf8Start.char.injEq, Utf8Start.invalid.injEq, reduceCtorEq, or_false,
          false_or] at h
        simp only [List.length_cons]
        omega

theorem parseText_append (h : parseText input ≠ .incomplete) :
    parseText (input ++ more) = parseText input := by
  have hstart : utf8Start (input.take 4) ≠ .cut := by
    intro hcut
    simp [parseText, hcut] at h
  unfold parseText
  rw [List.take_append, utf8Start_append hstart]

theorem parseText_taken (h : (parseText input).taken = some n) : 1 ≤ n ∧ n ≤ input.length := by
  have hle : (input.take 4).length ≤ input.length := by simp
  unfold parseText at h
  split at h
  · next character length hstart =>
    cases h
    have := utf8Start_length (.inl hstart)
    omega
  · next length hstart =>
    cases h
    have := @utf8Start_length _ _ 'a' (.inr hstart)
    omega
  · cases h

theorem parseGround_append (h : parseGround input ≠ .incomplete) :
    parseGround (input ++ more) = parseGround input := by
  cases input with
  | nil => exact absurd rfl h
  | cons byte rest =>
    unfold parseGround at h ⊢
    simp only [List.cons_append] at h ⊢
    repeat' split
    all_goals first | rfl | skip
    rw [← List.cons_append]
    refine parseText_append ?_
    simp_all

theorem parseGround_taken (h : (parseGround input).taken = some n) :
    1 ≤ n ∧ n ≤ input.length := by
  cases input with
  | nil => cases h
  | cons byte rest =>
    have hlength : 1 ≤ (byte :: rest).length := by simp
    unfold parseGround at h
    simp only at h
    repeat' split at h
    all_goals
      first
      | cases h
        omega
      | exact parseText_taken h

theorem parseSs3_append (h : parseSs3 input ≠ .incomplete) :
    parseSs3 (input ++ more) = parseSs3 input := by
  cases hbyte : input[2]? with
  | none => simp [parseSs3, hbyte] at h
  | some byte =>
    have hlt : 2 < input.length := (List.getElem?_eq_some_iff.mp hbyte).1
    unfold parseSs3
    rw [List.getElem?_append_left hlt]

theorem parseSs3_taken (h : (parseSs3 input).taken = some n) : 1 ≤ n ∧ n ≤ input.length := by
  cases hbyte : input[2]? with
  | none => simp [parseSs3, hbyte, Step.taken] at h
  | some byte =>
    have hlt : 2 < input.length := (List.getElem?_eq_some_iff.mp hbyte).1
    simp only [parseSs3, hbyte] at h
    repeat' split at h
    all_goals
      cases h
      omega

theorem parseX10Mouse_append (h : parseX10Mouse input ≠ .incomplete) :
    parseX10Mouse (input ++ more) = parseX10Mouse input := by
  unfold parseX10Mouse at h ⊢
  split at h
  · simp
  · exact absurd rfl h

theorem parseX10Mouse_taken (h : (parseX10Mouse input).taken = some n) :
    1 ≤ n ∧ n ≤ input.length := by
  unfold parseX10Mouse at h
  split at h
  · dsimp only at h
    split at h <;>
    · cases h
      simp
  · cases h

/-! ## Control and string sequences -/

theorem csiEnd_append {out : Except Nat Nat} (h : csiEnd input at_ = some out) :
    csiEnd (input ++ more) at_ = some out := by
  induction input generalizing at_ with
  | nil => cases h
  | cons byte rest ih =>
    simp only [List.cons_append, csiEnd] at h ⊢
    split
    · next hlast =>
      rw [if_pos hlast] at h
      exact h
    · next hlast =>
      rw [if_neg hlast] at h
      split
      · next hparam =>
        rw [if_pos hparam] at h
        exact ih h
      · next hparam =>
        rw [if_neg hparam] at h
        exact h

theorem csiEnd_bounds (h : csiEnd input at_ = some (.ok n) ∨ csiEnd input at_ = some (.error n)) :
    at_ ≤ n ∧ n < at_ + input.length := by
  induction input generalizing at_ with
  | nil => simp [csiEnd] at h
  | cons byte rest ih =>
    simp only [csiEnd] at h
    simp only [List.length_cons]
    repeat' split at h
    · simp at h
      omega
    · have := ih h
      omega
    · simp at h
      omega

theorem csiStep_append {step : UInt8} (h : csiStep input params step n ≠ .incomplete) :
    csiStep (input ++ more) params step n = csiStep input params step n := by
  unfold csiStep at h ⊢
  cases hcode : letterCode step with
  | some code => rfl
  | none =>
    simp only [hcode] at h ⊢
    split
    · next hlast =>
      simp only [hlast] at h
      split
      · next hempty =>
        rw [if_pos hempty] at h
        exact parseX10Mouse_append h
      · rfl
    all_goals rfl

theorem csiStep_taken {step : UInt8} {m : Nat} (h : (csiStep input params step n).taken = some m) :
    m = n ∨ (1 ≤ m ∧ m ≤ input.length) := by
  unfold csiStep at h
  cases hcode : letterCode step with
  | some code =>
    simp only [hcode, taken_legacyKey, Option.some.injEq] at h
    exact .inl h.symm
  | none =>
    simp only [hcode] at h
    split at h
    · split at h
      · exact .inr (parseX10Mouse_taken h)
      · left
        repeat' split at h
        all_goals simpa [eq_comm] using h
    all_goals
      left
      repeat' split at h
      all_goals simpa [eq_comm] using h

theorem parseCsi_append (h : parseCsi input ≠ .incomplete) :
    parseCsi (input ++ more) = parseCsi input := by
  unfold parseCsi at h ⊢
  cases hend : csiEnd (input.drop 2) 2 with
  | none => simp [hend] at h
  | some out =>
    have hbounds : 2 ≤ input.length := by
      by_contra hshort
      rw [List.drop_eq_nil_of_le (by omega)] at hend
      cases hend
    have hdrop : (input ++ more).drop 2 = input.drop 2 ++ more := List.drop_append_of_le_length hbounds
    rw [hdrop, csiEnd_append hend]
    cases out with
    | error at_ => rfl
    | ok last =>
      have hlast := csiEnd_bounds (.inl hend)
      rw [List.length_drop] at hlast
      have hlt : last < input.length := by omega
      simp only [hend] at h
      dsimp only
      rw [List.take_append_of_le_length (by omega), List.getElem?_append_left hlt,
        csiStep_append h]

theorem parseCsi_taken (h : (parseCsi input).taken = some n) : 1 ≤ n ∧ n ≤ input.length := by
  unfold parseCsi at h
  split at h
  · cases h
  · next at_ hend =>
    cases h
    have := csiEnd_bounds (.inr hend)
    rw [List.length_drop] at this
    omega
  · next last hend =>
    have hlast := csiEnd_bounds (.inl hend)
    rw [List.length_drop] at hlast
    rcases csiStep_taken h with rfl | hbounds
    · omega
    · exact hbounds

theorem stringEnd_append {osc : Bool} {out : Except Nat (Nat × Nat)}
    (h : stringEnd osc input at_ = some out) : stringEnd osc (input ++ more) at_ = some out := by
  induction input generalizing at_ with
  | nil => cases h
  | cons byte rest ih =>
    simp only [List.cons_append, stringEnd] at h ⊢
    split
    · next hbel =>
      rw [if_pos hbel] at h
      exact h
    · next hbel =>
      rw [if_neg hbel] at h
      split
      · next hesc =>
        rw [if_pos hesc] at h
        cases rest with
        | nil => cases h
        | cons next rest => exact h
      · next hesc =>
        rw [if_neg hesc] at h
        exact ih h

theorem stringEnd_bounds {osc : Bool} {payloadEnd : Nat}
    (h : stringEnd osc input at_ = some (.ok (payloadEnd, n)) ∨
      stringEnd osc input at_ = some (.error n)) :
    at_ ≤ n ∧ n ≤ at_ + input.length ∧
      (stringEnd osc input at_ = some (.ok (payloadEnd, n)) → payloadEnd < n) := by
  induction input generalizing at_ with
  | nil => simp [stringEnd] at h
  | cons byte rest ih =>
    simp only [stringEnd] at h ⊢
    simp only [List.length_cons]
    split at h
    · next hbel =>
      rw [if_pos hbel]
      simp at h ⊢
      omega
    · next hbel =>
      rw [if_neg hbel]
      split at h
      · next hesc =>
        rw [if_pos hesc]
        cases rest with
        | nil => simp at h
        | cons next rest =>
          simp only at h ⊢
          simp only [List.length_cons]
          split at h
          · next hst =>
            rw [if_pos hst]
            simp at h ⊢
            omega
          · next hst =>
            rw [if_neg hst]
            simp at h ⊢
            omega
      · next hesc =>
        rw [if_neg hesc]
        obtain ⟨hlow, hhigh, hpayload⟩ := ih h
        exact ⟨by omega, by omega, hpayload⟩

theorem parseString_append (h : parseString input ≠ .incomplete) :
    parseString (input ++ more) = parseString input := by
  unfold parseString at h ⊢
  dsimp only at h ⊢
  have hlength : 2 ≤ input.length := by
    by_contra hshort
    rw [List.drop_eq_nil_of_le (by omega)] at h
    exact h rfl
  have hosc : (input ++ more)[1]? = input[1]? := List.getElem?_append_left (by omega)
  have hdrop : (input ++ more).drop 2 = input.drop 2 ++ more :=
    List.drop_append_of_le_length hlength
  rw [hosc, hdrop]
  cases hend : stringEnd (decide ((input[1]?).map charFrom = some ']')) (input.drop 2) 2 with
  | none =>
    rw [hend] at h
    exact absurd rfl h
  | some out =>
    rw [stringEnd_append hend]
    cases out with
    | error at_ => rfl
    | ok ends =>
      obtain ⟨payloadEnd, last⟩ := ends
      obtain ⟨-, hlast, hpayload⟩ := stringEnd_bounds (.inl hend)
      rw [List.length_drop] at hlast
      have hlt := hpayload hend
      dsimp only
      rw [List.take_append_of_le_length (by omega)]

theorem parseString_taken (h : (parseString input).taken = some n) :
    1 ≤ n ∧ n ≤ input.length := by
  unfold parseString at h
  dsimp only at h
  have hlength : 2 ≤ input.length := by
    by_contra hshort
    rw [List.drop_eq_nil_of_le (by omega)] at h
    cases h
  split at h
  · cases h
  · next at_ hend =>
    cases h
    obtain ⟨hlow, hhigh, -⟩ := @stringEnd_bounds _ _ _ _ 0 (.inr hend)
    rw [List.length_drop] at hhigh
    omega
  · next payloadEnd last hend =>
    obtain ⟨hlow, hhigh, -⟩ := stringEnd_bounds (.inl hend)
    rw [List.length_drop] at hhigh
    have hn : n = last := by
      repeat' split at h
      all_goals simpa [eq_comm] using h
    omega

theorem parse_append (h : parse input ≠ .incomplete) : parse (input ++ more) = parse input := by
  rcases input with _ | ⟨first, _ | ⟨next, rest⟩⟩
  · exact absurd rfl h
  · by_cases hesc : first = ESC
    · simp [parse, hesc] at h
    · have hground : ∀ tail, parse (first :: tail) = parseGround (first :: tail) := by
        intro tail
        simp [parse, hesc]
      rw [hground] at h
      rw [List.cons_append, hground, hground, ← List.cons_append, parseGround_append h]
  · unfold parse at h ⊢
    simp only [List.cons_append] at h ⊢
    split
    · next hesc =>
      rw [if_pos hesc] at h
      rw [← List.cons_append, ← List.cons_append]
      exact parseGround_append h
    · next hesc =>
      rw [if_neg hesc] at h
      rw [← List.cons_append, ← List.cons_append]
      split
      · next hss3 =>
        rw [if_pos hss3] at h
        exact parseSs3_append h
      · next hss3 =>
        rw [if_neg hss3] at h
        split
        · next hcsi =>
          rw [if_pos hcsi] at h
          exact parseCsi_append h
        · next hcsi =>
          rw [if_neg hcsi] at h
          split
          · next hstring =>
            rw [if_pos hstring] at h
            exact parseString_append h
          · next hstring =>
            rw [if_neg hstring] at h
            split
            · rfl
            · next hnext =>
              rw [if_neg hnext] at h
              have hground : parseGround (next :: rest) ≠ .incomplete := by
                intro hcut
                rw [hcut] at h
                exact h rfl
              rw [parseGround_append hground]

theorem parse_taken (h : (parse input).taken = some n) : 1 ≤ n ∧ n ≤ input.length := by
  unfold parse at h
  split at h
  · cases h
  · next first rest =>
    split at h
    · exact parseGround_taken h
    · split at h
      · cases h
      · next next rest =>
        split at h
        · exact parseSs3_taken h
        · split at h
          · exact parseCsi_taken h
          · split at h
            · exact parseString_taken h
            · split at h
              · cases h
                simp
              · split at h
                · next key m hstep =>
                  cases h
                  have hbounds := parseGround_taken (congrArg Step.taken hstep)
                  simp only [List.length_cons] at hbounds ⊢
                  omega
                · cases h
                · cases h
                  simp

theorem cut_taken (h : input ≠ []) : ∃ n, (cut input).taken = some n ∧ 1 ≤ n ∧ n ≤ input.length := by
  cases input with
  | nil => exact absurd rfl h
  | cons first rest =>
    unfold cut
    dsimp only
    repeat' split
    · exact ⟨1, rfl, by simp⟩
    · exact ⟨2, rfl, by simp⟩
    · exact ⟨1, rfl, by simp⟩
    · exact ⟨1, rfl, by simp⟩

end Yuke.Term
