import Yuke.Shared.Json

/-!
# The texts of JSON values

A text with commas between its parts reads as the list of what its parts read as. The space around
a value does not count.
-/

set_option autoImplicit false

namespace Yuke.Shared

namespace Json

/-! ## Texts of values -/

def Spaces (text : List Char) : Prop := ∀ c ∈ text, isSpace c = true

def Reads (text : List Char) (json : Json) : Prop :=
  ∃ fuel rest, Spaces rest ∧ value fuel text = some (json, rest)

theorem reads_iff_parse {text : List Char} {json : Json} :
    Reads text json ↔ parse text = some json := by
  unfold parse
  constructor
  · rintro ⟨fuel, rest, hspaces, hread⟩
    rw [((reads_fuel fuel).1 _ _ _ hread).2 text.length (by omega)]
    exact if_pos (List.all_eq_true.mpr hspaces)
  · intro h
    split at h
    · next json rest hread =>
      split_ifs at h with hspaces
      cases h
      exact ⟨_, rest, List.all_eq_true.mp hspaces, hread⟩
    · cases h

theorem follows_append {rest : List Char} (c : Char) (hc : continues c = false)
    (tail : List Char) : Follows rest (rest ++ c :: tail) := by
  cases rest with
  | nil =>
    refine .inr fun d hd => ?_
    cases hd
    exact hc
  | cons d rest => exact .inl rfl

theorem skipSpace_append {spaces : List Char} (h : Spaces spaces) (tail : List Char) :
    skipSpace (spaces ++ tail) = skipSpace tail :=
  List.dropWhile_append_of_pos h

theorem skipSpace_spaces {spaces : List Char} (h : Spaces spaces) : skipSpace spaces = [] := by
  have hnil := skipSpace_append h []
  rwa [List.append_nil] at hnil

theorem spaces_of_skipSpace {text tail : List Char} {c : Char} (h : skipSpace text = c :: tail) :
    ∃ spaces, Spaces spaces ∧ text = spaces ++ c :: tail := by
  refine ⟨text.takeWhile isSpace, fun d => List.mem_takeWhile_imp, ?_⟩
  rw [← h]
  exact List.takeWhile_append_dropWhile.symm

theorem Reads.before {text : List Char} {json : Json} (h : Reads text json) :
    ∃ rest, Spaces rest ∧ ∀ fuel, text.length ≤ fuel → ∀ c tail, continues c = false →
      value fuel (text ++ c :: tail) = some (json, rest ++ c :: tail) := by
  obtain ⟨fuel, rest, hspaces, hread⟩ := h
  obtain ⟨taken, rfl, -, hagain⟩ := (reads_exact fuel).1 _ _ _ hread
  refine ⟨rest, hspaces, fun fuel' hfuel c tail hc => ?_⟩
  have hlong := hagain (rest ++ c :: tail) (follows_append c hc tail)
  rw [List.append_assoc]
  refine ((reads_fuel fuel).1 _ _ _ hlong).2 fuel' ?_
  simp only [List.length_append, List.length_cons] at hfuel ⊢
  omega

inductive Elements : List Char → List Json → Prop where
  | one {text : List Char} {json : Json} (h : Reads text json) : Elements text [json]
  | cons {text texts : List Char} {json : Json} {items : List Json} (h : Reads text json)
    (hmore : Elements texts items) : Elements (text ++ ',' :: texts) (json :: items)

def Quotes (quoted : List Char) (codes : List Nat) : Prop :=
  ∀ rest, stringTail (quoted ++ '"' :: rest) = some (codes, rest)

inductive Members : List Char → List (List Nat × Json) → Prop where
  | one {quoted text : List Char} {name : List Nat} {json : Json} (hname : Quotes quoted name)
    (h : Reads text json) : Members ('"' :: (quoted ++ '"' :: ':' :: text)) [(name, json)]
  | cons {quoted text texts : List Char} {name : List Nat} {json : Json}
    {items : List (List Nat × Json)} (hname : Quotes quoted name) (h : Reads text json)
    (hmore : Members texts items) :
    Members ('"' :: (quoted ++ '"' :: ':' :: (text ++ ',' :: texts))) ((name, json) :: items)

theorem Elements.ne_nil {text : List Char} {items : List Json} (h : Elements text items) :
    items ≠ [] := by
  cases h with
  | one => exact List.cons_ne_nil _ _
  | cons => exact List.cons_ne_nil _ _

theorem Elements.append {text text' : List Char} {items items' : List Json}
    (h : Elements text items) (h' : Elements text' items') :
    Elements (text ++ ',' :: text') (items ++ items') := by
  induction h with
  | one h => exact .cons h h'
  | cons h _ ih =>
    rw [List.append_assoc, List.cons_append]
    exact .cons h ih

theorem Members.append {text text' : List Char} {items items' : List (List Nat × Json)}
    (h : Members text items) (h' : Members text' items') :
    Members (text ++ ',' :: text') (items ++ items') := by
  induction h with
  | one hname h =>
    have hcons := Members.cons hname h h'
    simpa using hcons
  | cons hname h _ ih =>
    have hcons := Members.cons hname h ih
    simpa using hcons

theorem Elements.read {text : List Char} {items : List Json} (h : Elements text items) :
    ∀ fuel, text.length < fuel → ∀ rest, elements fuel (text ++ ']' :: rest) = some (items, rest) := by
  induction h with
  | one h =>
    intro fuel hfuel rest
    obtain ⟨fuel, rfl⟩ : ∃ k, fuel = k + 1 := ⟨fuel - 1, by omega⟩
    obtain ⟨spaces, hspaces, hread⟩ := h.before
    rw [elements, hread fuel (by omega) ']' rest rfl]
    simp only [Option.bind_some, skipSpace_append hspaces]
    rfl
  | @cons text texts json items h _ ih =>
    intro fuel hfuel rest
    simp only [List.length_append, List.length_cons] at hfuel
    obtain ⟨fuel, rfl⟩ : ∃ k, fuel = k + 1 := ⟨fuel - 1, by omega⟩
    obtain ⟨spaces, hspaces, hread⟩ := h.before
    rw [List.append_assoc, List.cons_append, elements, hread fuel (by omega) ',' _ rfl]
    simp only [Option.bind_some, skipSpace_append hspaces]
    change (elements fuel (texts ++ ']' :: rest)).map _ = _
    rw [ih fuel (by omega) rest]
    rfl

theorem Members.read {text : List Char} {items : List (List Nat × Json)} (h : Members text items) :
    ∀ fuel, text.length < fuel → ∀ rest, members fuel (text ++ '}' :: rest) = some (items, rest) := by
  induction h with
  | @one quoted text name json hname h =>
    intro fuel hfuel rest
    simp only [List.length_append, List.length_cons] at hfuel
    obtain ⟨fuel, rfl⟩ : ∃ k, fuel = k + 1 := ⟨fuel - 1, by omega⟩
    obtain ⟨spaces, hspaces, hread⟩ := h.before
    rw [members]
    change (stringTail ((quoted ++ '"' :: ':' :: text) ++ '}' :: rest)).bind _ = _
    rw [List.append_assoc, List.cons_append, hname, Option.bind_some]
    change (value fuel (text ++ '}' :: rest)).bind _ = _
    rw [hread fuel (by omega) '}' rest rfl]
    simp only [Option.bind_some, skipSpace_append hspaces]
    rfl
  | @cons quoted text texts name json items hname h _ ih =>
    intro fuel hfuel rest
    simp only [List.length_append, List.length_cons] at hfuel
    obtain ⟨fuel, rfl⟩ : ∃ k, fuel = k + 1 := ⟨fuel - 1, by omega⟩
    obtain ⟨spaces, hspaces, hread⟩ := h.before
    rw [members]
    change (stringTail ((quoted ++ '"' :: ':' :: (text ++ ',' :: texts)) ++ '}' :: rest)).bind _ = _
    rw [List.append_assoc, List.cons_append, hname, Option.bind_some]
    change (value fuel ((text ++ ',' :: texts) ++ '}' :: rest)).bind _ = _
    rw [List.append_assoc, List.cons_append, hread fuel (by omega) ',' _ rfl]
    simp only [Option.bind_some, skipSpace_append hspaces]
    change (members fuel (texts ++ '}' :: rest)).map _ = _
    rw [ih fuel (by omega) rest]
    rfl

theorem Reads.of_step {text : List Char} {json : Json} (fuel : Nat)
    (h : ValueStep fuel text json []) : Reads text json :=
  ⟨fuel + 1, [], fun _ h => absurd h List.not_mem_nil, value_of_valueStep h⟩

theorem Reads.string {quoted : List Char} {codes : List Nat} (h : Quotes quoted codes) :
    Reads ('"' :: (quoted ++ ['"'])) (.string codes) :=
  .of_step 0 (.string rfl (h []))

theorem Reads.array_nil : Reads ['[', ']'] (.array []) :=
  .of_step 0 (.arrayNil rfl rfl)

theorem Reads.array {text : List Char} {items : List Json} (h : Elements text items) :
    Reads ('[' :: (text ++ [']'])) (.array items) :=
  .of_step _ (.array rfl (h.read _ (Nat.lt_succ_self _) []))

theorem Reads.object_nil : Reads ['{', '}'] (.object []) :=
  .of_step 0 (.objectNil rfl rfl)

theorem Reads.object {text : List Char} {items : List (List Nat × Json)} (h : Members text items) :
    Reads ('{' :: (text ++ ['}'])) (.object items) :=
  .of_step _ (.object rfl (h.read _ (Nat.lt_succ_self _) []))

theorem Reads.null : Reads ['n', 'u', 'l', 'l'] .null := .of_step 0 (.null rfl)

theorem Reads.bool (flag : Bool) :
    Reads (if flag then ['t', 'r', 'u', 'e'] else ['f', 'a', 'l', 's', 'e']) (.bool flag) := by
  cases flag with
  | true => exact .of_step 0 (.true rfl)
  | false => exact .of_step 0 (.false rfl)

theorem Reads.number {text : List Char} (h : numberText text = some (text, [])) :
    Reads text (.number text) := by
  cases text with
  | nil => cases h
  | cons c text =>
    refine .of_step 0 (.number ?_)
    have hskip : skipSpace (c :: text) = c :: text :=
      List.dropWhile_cons_of_neg (by simp [isSpace_of_continues (continues_of_numberText h)])
    rw [hskip]
    exact h

/-! ## The items of an array text -/

theorem elements_of_read {fuel : Nat} {text rest : List Char} {items : List Json}
    (h : elements fuel text = some (items, rest)) :
    ∃ inner, text = inner ++ ']' :: rest ∧ Elements inner items := by
  induction fuel generalizing text items with
  | zero => cases h
  | succ fuel ih =>
    rw [elements] at h
    obtain ⟨⟨first, rest₁⟩, hfirst, hnext⟩ := Option.bind_eq_some_iff.mp h
    obtain ⟨taken, rfl, -, hread⟩ := (reads_exact fuel).1 _ _ _ hfirst
    -- The space up to the next mark belongs to the first element.
    have hspaced : ∀ {spaces : List Char} {c : Char} {tail : List Char}, Spaces spaces →
        rest₁ = spaces ++ c :: tail → Reads (taken ++ spaces) first := by
      intro spaces c tail hspaces hrest
      refine ⟨fuel, spaces, hspaces, hread spaces ?_⟩
      rw [hrest]
      cases spaces with
      | nil => exact .nil _
      | cons d spaces => exact .inl rfl
    dsimp only at hnext
    split at hnext
    · next tail hcomma =>
      obtain ⟨⟨more, rest₂⟩, hmore, hitems⟩ := Option.map_eq_some_iff.mp hnext
      cases hitems
      obtain ⟨spaces, hspaces, hrest⟩ := spaces_of_skipSpace hcomma
      obtain ⟨inner, rfl, hinner⟩ := ih hmore
      refine ⟨taken ++ spaces ++ ',' :: inner, ?_, .cons (hspaced hspaces hrest) hinner⟩
      rw [hrest]
      simp
    · next tail hclose =>
      cases hnext
      obtain ⟨spaces, hspaces, hrest⟩ := spaces_of_skipSpace hclose
      refine ⟨taken ++ spaces, ?_, .one (hspaced hspaces hrest)⟩
      rw [hrest]
      simp
    · cases hnext

theorem Reads.array_inv {text : List Char} {items : List Json} (h : Reads text (.array items)) :
    ∃ before inner after, text = before ++ '[' :: (inner ++ ']' :: after) ∧ Spaces before ∧
      Spaces after ∧ (items = [] ∧ Spaces inner ∨ Elements inner items) := by
  obtain ⟨fuel, after, hafter, hread⟩ := h
  cases fuel with
  | zero => cases hread
  | succ fuel =>
    cases valueStep_of_value hread with
    | arrayNil hstart hend =>
      obtain ⟨before, hbefore, rfl⟩ := spaces_of_skipSpace hstart
      obtain ⟨inner, hinner, rfl⟩ := spaces_of_skipSpace hend
      exact ⟨before, inner, after, rfl, hbefore, hafter, .inl ⟨rfl, hinner⟩⟩
    | array hstart hitems =>
      obtain ⟨before, hbefore, rfl⟩ := spaces_of_skipSpace hstart
      obtain ⟨inner, rfl, hinner⟩ := elements_of_read hitems
      exact ⟨before, inner, after, rfl, hbefore, hafter, .inr hinner⟩

theorem Reads.dropWhile {text : List Char} {json : Json} (h : Reads text json) :
    Reads (text.dropWhile isSpace) json := by
  obtain ⟨fuel, rest, hrest, hread⟩ := h
  refine ⟨fuel, rest, hrest, ?_⟩
  rw [← hread]
  exact value_skipSpace (List.dropWhile_idempotent (p := isSpace) text) fuel

theorem Reads.rdropWhile {text : List Char} {json : Json} (h : Reads text json) :
    Reads (text.rdropWhile isSpace) json := by
  obtain ⟨fuel, rest, hrest, hread⟩ := h
  obtain ⟨taken, rfl, hlast, hagain⟩ := (reads_exact fuel).1 _ _ _ hread
  have hend : taken.rdropWhile isSpace = taken := by
    refine List.rdropWhile_eq_self_iff.mpr fun hne => ?_
    simp [hlast _ (List.getLast?_eq_some_getLast hne)]
  have htaken : (taken ++ rest).rdropWhile isSpace = taken := by
    rw [List.rdropWhile, List.reverse_append, List.dropWhile_append_of_pos]
    · exact hend
    · exact fun c hc => hrest c (List.mem_reverse.mp hc)
  rw [htaken]
  refine ⟨fuel, [], fun _ h => absurd h List.not_mem_nil, ?_⟩
  have hself := hagain [] (.nil _)
  rwa [List.append_nil] at hself

theorem Reads.skipSpace_ne_nil {text : List Char} {json : Json} (h : Reads text json) :
    skipSpace text ≠ [] := by
  obtain ⟨fuel, rest, -, hread⟩ := h
  intro hnil
  cases fuel with
  | zero => cases hread
  | succ fuel =>
    rw [value, hnil] at hread
    cases hread

theorem Reads.start {text : List Char} {json : Json} (h : Reads text json) :
    ∃ spaces c tail, Spaces spaces ∧ text = spaces ++ c :: tail ∧
      (c ∈ ['"', '[', '{', 'n', 't', 'f'] ∨ continues c = true) ∧
      (c = '{' ↔ ∃ members, json = .object members) := by
  obtain ⟨fuel, rest, -, hread⟩ := h
  cases fuel with
  | zero => cases hread
  | succ fuel =>
    have starts : ∀ {c : Char} {tail : List Char}, skipSpace text = c :: tail →
        (c ∈ ['"', '[', '{', 'n', 't', 'f'] ∨ continues c = true) →
        (c = '{' ↔ ∃ members, json = .object members) →
        ∃ spaces c tail, Spaces spaces ∧ text = spaces ++ c :: tail ∧
          (c ∈ ['"', '[', '{', 'n', 't', 'f'] ∨ continues c = true) ∧
          (c = '{' ↔ ∃ members, json = .object members) := by
      intro c tail hstart hc hobject
      obtain ⟨spaces, hspaces, rfl⟩ := spaces_of_skipSpace hstart
      exact ⟨spaces, c, tail, hspaces, rfl, hc, hobject⟩
    cases valueStep_of_value hread with
    | string hstart => exact starts hstart (.inl (by decide)) (by simp)
    | arrayNil hstart => exact starts hstart (.inl (by decide)) (by simp)
    | array hstart => exact starts hstart (.inl (by decide)) (by simp)
    | objectNil hstart => exact starts hstart (.inl (by decide)) (by simp)
    | object hstart => exact starts hstart (.inl (by decide)) (by simp)
    | null hstart => exact starts hstart (.inl (by decide)) (by simp)
    | true hstart => exact starts hstart (.inl (by decide)) (by simp)
    | false hstart => exact starts hstart (.inl (by decide)) (by simp)
    | number hnumber =>
      cases hstart : skipSpace text with
      | nil =>
        rw [hstart] at hnumber
        cases hnumber
      | cons c tail =>
        rw [hstart] at hnumber
        have hc := continues_of_numberText hnumber
        refine starts hstart (.inr hc) ⟨fun hbrace => ?_, fun hobject => ?_⟩
        · rw [hbrace] at hc
          cases hc
        · obtain ⟨members, hmembers⟩ := hobject
          cases hmembers

theorem Reads.ne_nil {text : List Char} {json : Json} (h : Reads text json) : text ≠ [] := by
  rintro rfl
  exact h.skipSpace_ne_nil rfl

theorem Elements.text_ne_nil {text : List Char} {items : List Json} (h : Elements text items) :
    text ≠ [] := by
  cases h with
  | one h => exact h.ne_nil
  | cons h _ => simp

theorem Elements.dropWhile {text : List Char} {items : List Json} (h : Elements text items) :
    Elements (text.dropWhile isSpace) items := by
  cases h with
  | one h => exact .one h.dropWhile
  | cons h hmore =>
    have hne : (List.dropWhile isSpace _).isEmpty ≠ true := fun hnil =>
      h.skipSpace_ne_nil (List.isEmpty_iff.mp hnil)
    rw [List.dropWhile_append, if_neg hne]
    exact .cons h.dropWhile hmore

theorem Elements.rdropWhile {text : List Char} {items : List Json} (h : Elements text items) :
    Elements (text.rdropWhile isSpace) items := by
  induction h with
  | one h => exact .one h.rdropWhile
  | @cons text texts json items h _ ih =>
    have hdrop : (text ++ ',' :: texts).rdropWhile isSpace =
        text ++ ',' :: texts.rdropWhile isSpace := by
      have hcomma : (',' :: text.reverse).dropWhile isSpace = ',' :: text.reverse := rfl
      have hreverse : (text ++ ',' :: texts).reverse = texts.reverse ++ ',' :: text.reverse := by simp
      rw [List.rdropWhile, hreverse, List.dropWhile_append]
      split
      · next hempty => simp [List.rdropWhile, List.isEmpty_iff.mp hempty, hcomma]
      · simp [List.rdropWhile]
    rw [hdrop]
    exact .cons h ih

end Json

end Yuke.Shared
