import Yuke.Ai.Wire.Json
import Yuke.Shared.JsonTexts

/-!
# What a write says

A write of values or of members puts a text with commas between its parts, and a comma before it
when a value came before. The text reads as what the write says.
-/

set_option autoImplicit false

namespace Yuke.Ai

open Yuke.Shared
open Yuke.Ai.Write

abbrev JsonMembers : Type := List (List Nat × Json)

def codes (text : List Char) : List Nat := text.map Char.toNat

def strings (parts : List String) : Json := .string (codes (parts.flatMap String.toList))

def str (text : String) : Json := .string (codes text.toList)

def field (name : String) (value : Json) : List Nat × Json := (codes name.toList, value)

def both {α : Type} : Except EncodeError (List α) → Except EncodeError (List α) →
    Except EncodeError (List α)
  | .error error, _ => .error error
  | .ok _, .error error => .error error
  | .ok values, .ok more => .ok (values ++ more)

def gather {α β : Type} (xs : List α) (f : α → Except EncodeError (List β)) :
    Except EncodeError (List β) :=
  match xs with
  | [] => .ok []
  | x :: xs => both (f x) (gather xs f)

section Says

variable {α : Type} (reads : List Char → List α → Prop)

/-- After `comma`, the write put a text of `result`, or it failed with its error. -/
def Fits (comma : Bool) (written : Written Unit) : Except EncodeError (List α) → Prop
  | .error error => written.result = .error error
  | .ok values => written.result = .ok () ∧
    (values = [] ∧ written.text = [] ∧ written.comma = comma ∨
      ∃ text, reads text values ∧ written.text = valueStart comma ++ text ∧ written.comma = true)

def Says (write : Write Unit) (result : Except EncodeError (List α)) : Prop :=
  ∀ comma, Fits reads comma (write comma) result

def Joins : Prop := ∀ {text text' : List Char} {values values' : List α}, reads text values →
  reads text' values' → reads (text ++ ',' :: text') (values ++ values')

variable {reads} {write write' : Write Unit} {result result' : Except EncodeError (List α)}

theorem says_pure : Says reads (pure ()) (.ok []) := fun _ => ⟨rfl, .inl ⟨rfl, rfl, rfl⟩⟩

theorem says_fail (error : EncodeError) : Says reads (fail error) (.error error) := fun _ => rfl

theorem bind_ok {β γ : Type} {w : Write β} {next : β → Write γ} {comma : Bool} {b : β}
    (h : (w comma).result = .ok b) : (w >>= next) comma =
      ⟨(next b (w comma).comma).result, (w comma).text ++ (next b (w comma).comma).text,
        (next b (w comma).comma).comma⟩ := by
  dsimp only [bind, instMonadWrite]
  rw [h]

theorem bind_error {β γ : Type} {w : Write β} {next : β → Write γ} {comma : Bool}
    {error : EncodeError} (h : (w comma).result = .error error) :
    ((w >>= next) comma).result = .error error := by
  dsimp only [bind, instMonadWrite]
  rw [h]

theorem says_when (test : Bool) (h : Says reads write result) :
    Says reads (onlyIf test write) (if test then result else .ok []) := by
  unfold onlyIf
  split_ifs
  · exact h
  · exact says_pure

variable {values : List α}

theorem says_onlyIf (test : Bool) (h : Says reads write (.ok values)) :
    Says reads (onlyIf test write) (.ok (if test then values else [])) := by
  unfold onlyIf
  split_ifs
  · exact h
  · exact says_pure

theorem says_ifSome {β : Type} (value : Option β) {writes : β → Write Unit} {results : β → List α}
    (h : ∀ b ∈ value, Says reads (writes b) (.ok (results b))) :
    Says reads (ifSome value writes) (.ok (value.elim [] results)) := by
  cases value with
  | none => exact says_pure
  | some b => exact h b rfl

theorem Says.then (hjoins : Joins reads) (h : Says reads write result)
    (h' : Says reads write' result') :
    Says reads (write >>= fun _ => write') (both result result') := by
  intro comma
  cases result with
  | error error => exact bind_error (h comma)
  | ok values =>
    obtain ⟨hok, hfirst⟩ := h comma
    have hnext := h' (write comma).comma
    rw [bind_ok hok]
    cases result' with
    | error error => exact hnext
    | ok more =>
      obtain ⟨hok', hsecond⟩ := hnext
      refine ⟨hok', ?_⟩
      rcases hfirst with ⟨rfl, htext, hcomma⟩ | ⟨text, hreads, htext, hcomma⟩
      · rw [htext, List.nil_append]
        rw [hcomma] at hsecond ⊢
        exact hsecond
      · rcases hsecond with ⟨rfl, htext', hcomma'⟩ | ⟨text', hreads', htext', hcomma'⟩
        · refine .inr ⟨text, ?_, ?_, ?_⟩
          · rwa [List.append_nil]
          · rw [htext, htext', List.append_nil]
          · exact hcomma'.trans hcomma
        · refine .inr ⟨text ++ ',' :: text', hjoins hreads hreads', ?_, hcomma'⟩
          rw [htext, htext', hcomma]
          simp [valueStart]

theorem says_lift {β : Type} (value : Except EncodeError β) {next : β → Write Unit}
    {results : β → Except EncodeError (List α)} (h : ∀ b, Says reads (next b) (results b)) :
    Says reads (lift value >>= next) (value.bind results) := by
  intro comma
  cases value with
  | error error => exact bind_error rfl
  | ok b =>
    rw [bind_ok rfl]
    exact h b comma

theorem says_forM {β : Type} (hjoins : Joins reads) {xs : List β} {writes : β → Write Unit}
    {results : β → Except EncodeError (List α)}
    (h : ∀ x ∈ xs, Says reads (writes x) (results x)) :
    Says reads (xs.forM writes) (gather xs results) := by
  induction xs with
  | nil => exact says_pure
  | cons x xs ih =>
    have hfirst := h x List.mem_cons_self
    have hrest := ih fun x hx => h x (List.mem_cons_of_mem _ hx)
    exact hfirst.then hjoins hrest

theorem says_flat {β : Type} (hjoins : Joins reads) {xs : List β} {writes : β → Write Unit}
    {results : β → List α} (h : ∀ x ∈ xs, Says reads (writes x) (.ok (results x))) :
    Says reads (xs.forM writes) (.ok (xs.flatMap results)) := by
  have hgather : gather xs (fun x => .ok (results x)) = .ok (xs.flatMap results) := by
    clear h
    induction xs with
    | nil => rfl
    | cons x xs ih =>
      unfold gather
      rw [ih]
      rfl
  rw [← hgather]
  exact says_forM hjoins h

end Says

abbrev SaysValues : Write Unit → Except EncodeError (List Json) → Prop := Says Json.Elements

abbrev SaysMembers : Write Unit → Except EncodeError JsonMembers → Prop := Says Json.Members

def SaysValue (write : Write Unit) (result : Except EncodeError Json) : Prop :=
  SaysValues write (result.map fun value => [value])

theorem joins_elements : Joins Json.Elements := Json.Elements.append

theorem joins_members : Joins Json.Members := Json.Members.append

theorem says_liftValue {β : Type} (value : Except EncodeError β) {next : β → Write Unit}
    {results : β → Except EncodeError Json} (h : ∀ b, SaysValue (next b) (results b)) :
    SaysValue (lift value >>= next) (value.bind results) := by
  have hlift : SaysValues (lift value >>= next)
      (value.bind fun b => (results b).map fun value => [value]) := says_lift value h
  cases value with
  | error error => exact hlift
  | ok b => exact hlift

theorem says_traverse {β : Type} {xs : List β} {writes : β → Write Unit}
    {value : β → Except EncodeError Json} (h : ∀ x ∈ xs, SaysValue (writes x) (value x)) :
    SaysValues (xs.forM writes) (xs.mapM value) := by
  have hgather : gather xs (fun x => (value x).map fun value => [value]) = xs.mapM value := by
    clear h
    induction xs with
    | nil => rfl
    | cons x xs ih =>
      unfold gather
      rw [ih, List.mapM_cons]
      cases value x with
      | error error => rfl
      | ok first =>
        cases xs.mapM value with
        | error error => rfl
        | ok more => rfl
  rw [← hgather]
  exact says_forM joins_elements h

theorem says_each {β : Type} {xs : List β} {writes : β → Write Unit} {value : β → Json}
    (h : ∀ x ∈ xs, SaysValue (writes x) (.ok (value x))) :
    SaysValues (xs.forM writes) (.ok (xs.map value)) := by
  have hmap : xs.mapM (fun x => (pure (value x) : Except EncodeError Json)) = .ok (xs.map value) :=
    List.mapM_pure
  rw [← hmap]
  exact says_traverse h

def SaysGroup (write : Write Nat) (result : Except EncodeError (List Json)) (stop : Nat) : Prop :=
  ∃ body, write = (body >>= fun _ => pure stop) ∧ SaysValues body result

theorem says_token {text : List Char} {value : Json} (h : Json.Reads text value) :
    SaysValue (token text) (.ok value) :=
  fun _ => ⟨rfl, .inr ⟨text, .one h, rfl, rfl⟩⟩

def enclosed (start stop : Char) (body : Write Unit) : Write Unit := do
  opening start
  body
  closing stop

theorem enclosed_ok {start stop : Char} {body : Write Unit} (h : (body false).result = .ok ())
    (comma : Bool) : enclosed start stop body comma =
      ⟨.ok (), valueStart comma ++ start :: ((body false).text ++ [stop]), true⟩ := by
  have hopen : opening start comma = ⟨.ok (), valueStart comma ++ [start], false⟩ := rfl
  have hrest : (body >>= fun _ => closing stop) false =
      ⟨.ok (), (body false).text ++ [stop], true⟩ := bind_ok h
  unfold enclosed
  rw [bind_ok (congrArg Written.result hopen), hopen]
  dsimp only
  rw [hrest]
  simp

theorem enclosed_error {start stop : Char} {body : Write Unit} {error : EncodeError}
    (h : (body false).result = .error error) (comma : Bool) :
    (enclosed start stop body comma).result = .error error := by
  have hopen : opening start comma = ⟨.ok (), valueStart comma ++ [start], false⟩ := rfl
  have hrest : ((body >>= fun _ => closing stop) false).result = .error error := bind_error h
  unfold enclosed
  rw [bind_ok (congrArg Written.result hopen), hopen]
  exact hrest

theorem says_enclosed {α : Type} {reads : List Char → List α → Prop} {start stop : Char}
    {body : Write Unit} {result : Except EncodeError (List α)} {value : List α → Json}
    (hnil : Json.Reads [start, stop] (value []))
    (hreads : ∀ text values, reads text values →
      Json.Reads (start :: (text ++ [stop])) (value values))
    (h : Says reads body result) : SaysValue (enclosed start stop body) (result.map value) := by
  intro comma
  have hbody := h false
  cases result with
  | error error => exact enclosed_error hbody comma
  | ok values =>
    obtain ⟨hok, hwritten⟩ := hbody
    rw [enclosed_ok hok]
    refine ⟨rfl, .inr ⟨_, .one ?_, rfl, rfl⟩⟩
    rcases hwritten with ⟨rfl, htext, -⟩ | ⟨text, htexts, htext, -⟩
    · rw [htext]
      exact hnil
    · rw [htext]
      exact hreads text values htexts

theorem says_object {body : Write Unit} {result : Except EncodeError JsonMembers}
    (h : SaysMembers body result) : SaysValue (object body) (result.map Json.object) :=
  says_enclosed .object_nil (fun _ _ => .object) h

theorem says_array {body : Write Unit} {result : Except EncodeError (List Json)}
    (h : SaysValues body result) : SaysValue (array body) (result.map Json.array) :=
  says_enclosed .array_nil (fun _ _ => .array) h

end Yuke.Ai
