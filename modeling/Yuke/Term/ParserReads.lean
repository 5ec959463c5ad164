import Yuke.Term.ParserSteps

/-!
# Reads of the terminal bytes

The events of a byte string do not depend on where its reads cut it, and neither does what the
parser keeps. A paste gives one event, whatever its bytes are.
-/

set_option autoImplicit false

namespace Yuke.Term

open Yuke.Shared (find find_eq_some find_append find_resume)

/-- The step at `rest` outside a paste. A flush cuts a sequence that is not whole. -/
def readStep (flush : Bool) (rest : List UInt8) : Step :=
  match parse rest with
  | .incomplete => if flush then cut rest else .incomplete
  | step => step

theorem readStep_taken {flush : Bool} {rest : List UInt8} {n : Nat}
    (h : (readStep flush rest).taken = some n) (hrest : rest ≠ []) : 1 ≤ n ∧ n ≤ rest.length := by
  unfold readStep at h
  split at h
  · split at h
    · obtain ⟨m, hm, hbounds⟩ := cut_taken hrest
      rw [hm] at h
      cases h
      exact hbounds
    · cases h
  · exact parse_taken h

theorem readStep_drop_lt {flush : Bool} {rest : List UInt8} {step : Step} {n : Nat}
    (h : readStep flush rest = step) (htaken : step.taken = some n) (hrest : rest ≠ []) :
    (rest.drop n).length < rest.length := by
  have hbounds := readStep_taken ((congrArg Step.taken h).trans htaken) hrest
  rw [List.length_drop]
  omega

/-- Read the events and answers in `rest`, with the bytes of the open paste. -/
def readFrom (flush : Bool) : Option (List UInt8) → List UInt8 → List Parsed × Parser
  | paste, [] => ([], ⟨[], paste⟩)
  | some paste, first :: rest =>
    -- Only the end marker ends a paste, so the pasted bytes never read as keys.
    match find PASTE_END (first :: rest) with
    | some «end» =>
      let read := readFrom flush none ((first :: rest).drop («end» + PASTE_END.length))
      (.event (.paste (cleanPaste (paste ++ (first :: rest).take «end»))) :: read.1, read.2)
    | none =>
      -- The last bytes can be the start of the end marker.
      let take := (first :: rest).length - min (first :: rest).length (PASTE_END.length - 1)
      ([], ⟨(first :: rest).drop take, some (paste ++ (first :: rest).take take)⟩)
  | none, first :: rest =>
    match _hstep : readStep flush (first :: rest) with
    | .incomplete => ([], ⟨first :: rest, none⟩)
    | .skip n => readFrom flush none ((first :: rest).drop n)
    | .event event n =>
      let read := readFrom flush none ((first :: rest).drop n)
      (.event event :: read.1, read.2)
    | .answer answer n =>
      let read := readFrom flush none ((first :: rest).drop n)
      (.answer answer :: read.1, read.2)
    | .pasteStart n => readFrom flush (some []) ((first :: rest).drop n)
termination_by _ rest => rest.length
decreasing_by
  · have hlength : PASTE_END.length = 6 := rfl
    simp only [List.length_drop, List.length_cons]
    omega
  all_goals exact readStep_drop_lt _hstep rfl (by simp)

namespace Parser

def new : Parser := {}

/-- Read the events and answers in the kept bytes and `bytes`. -/
def feed (parser : Parser) (bytes : List UInt8) : List Parsed × Parser :=
  readFrom false parser.paste (parser.pending ++ bytes)

def waits (parser : Parser) : Bool :=
  parser.paste.isNone && !parser.pending.isEmpty && !BACKGROUND_ANSWER.isPrefixOf parser.pending

def flush (parser : Parser) : List Parsed × Parser :=
  if parser.waits then readFrom true parser.paste parser.pending else ([], parser)

def feedAll (parser : Parser) : List (List UInt8) → List Parsed × Parser
  | [] => ([], parser)
  | part :: parts =>
    let first := parser.feed part
    let rest := first.2.feedAll parts
    (first.1 ++ rest.1, rest.2)

end Parser

def Step.parsed : Step → List Parsed
  | .event read _ => [.event read]
  | .answer read _ => [.answer read]
  | .incomplete | .skip _ | .pasteStart _ => []

def Step.paste : Step → Option (List UInt8)
  | .pasteStart _ => some []
  | .incomplete | .skip _ | .event _ _ | .answer _ _ => none

variable {flush : Bool} {paste : Option (List UInt8)} {buffer rest more : List UInt8} {n : Nat}

@[simp] theorem readFrom_nil : readFrom flush paste [] = ([], ⟨[], paste⟩) := by
  cases paste <;> simp [readFrom]

theorem readFrom_paste_end (h : find PASTE_END rest = some n) :
    readFrom flush (some buffer) rest =
      (.event (.paste (cleanPaste (buffer ++ rest.take n))) ::
        (readFrom flush none (rest.drop (n + PASTE_END.length))).1,
        (readFrom flush none (rest.drop (n + PASTE_END.length))).2) := by
  cases rest with
  | nil => cases h
  | cons first rest =>
    rw [readFrom]
    simp only [h]

theorem readFrom_paste_open (h : find PASTE_END rest = none) :
    readFrom flush (some buffer) rest =
      ([], ⟨rest.drop (rest.length - min rest.length (PASTE_END.length - 1)),
        some (buffer ++ rest.take (rest.length - min rest.length (PASTE_END.length - 1)))⟩) := by
  cases rest with
  | nil => simp
  | cons first rest =>
    rw [readFrom]
    simp only [h]

theorem readFrom_incomplete (h : readStep flush rest = .incomplete) :
    readFrom flush none rest = ([], ⟨rest, none⟩) := by
  cases rest with
  | nil => simp
  | cons first rest =>
    rw [readFrom]
    split <;> simp_all

theorem readFrom_step (h : (readStep flush rest).taken = some n) (hrest : rest ≠ []) :
    readFrom flush none rest =
      ((readStep flush rest).parsed ++
        (readFrom flush (readStep flush rest).paste (rest.drop n)).1,
        (readFrom flush (readStep flush rest).paste (rest.drop n)).2) := by
  cases rest with
  | nil => exact absurd rfl hrest
  | cons first rest =>
    rw [readFrom]
    split
    · next hstep =>
      rw [hstep] at h
      cases h
    all_goals
      next hstep =>
      rw [hstep] at h ⊢
      cases h
      rfl

/-! ## Reads that cut the bytes -/

theorem readStep_append (h : readStep false rest ≠ .incomplete) :
    readStep false (rest ++ more) = readStep false rest := by
  have hparse : ∀ rest, readStep false rest = parse rest := by
    intro rest
    unfold readStep
    split
    · next hcut => exact hcut.symm
    · rfl
  rw [hparse] at h
  rw [hparse, hparse, parse_append h]

/-- The loop goes on from what each step leaves: the rest after a paste, or after a sequence. -/
theorem readFrom_induction (flush : Bool) {motive : Option (List UInt8) → List UInt8 → Prop}
    (stop : ∀ paste, motive paste [])
    (pasteEnd : ∀ buffer rest n, find PASTE_END rest = some n →
      n + PASTE_END.length ≤ rest.length → motive none (rest.drop (n + PASTE_END.length)) →
      motive (some buffer) rest)
    (pasteOpen : ∀ buffer rest, find PASTE_END rest = none → motive (some buffer) rest)
    (incomplete : ∀ rest, rest ≠ [] → readStep flush rest = .incomplete → motive none rest)
    (step : ∀ rest n, rest ≠ [] → (readStep flush rest).taken = some n → n ≤ rest.length →
      motive (readStep flush rest).paste (rest.drop n) → motive none rest)
    (paste : Option (List UInt8)) (rest : List UInt8) : motive paste rest := by
  induction hlength : rest.length using Nat.strong_induction_on generalizing paste rest with
  | _ length ih =>
    subst hlength
    by_cases hrest : rest = []
    · subst hrest
      exact stop paste
    cases paste with
    | some buffer =>
      cases hfind : find PASTE_END rest with
      | some n =>
        obtain ⟨-, hle⟩ := find_eq_some hfind
        have hpos : 0 < PASTE_END.length := by decide
        refine pasteEnd buffer rest n hfind hle (ih _ ?_ none _ rfl)
        rw [List.length_drop]
        omega
      | none => exact pasteOpen buffer rest hfind
    | none =>
      cases hstep : (readStep flush rest).taken with
      | none => exact incomplete rest hrest (taken_eq_none.mp hstep)
      | some n =>
        have hbounds := readStep_taken hstep hrest
        refine step rest n hrest hstep hbounds.2 (ih _ ?_ _ _ rfl)
        rw [List.length_drop]
        omega

theorem readFrom_append (paste : Option (List UInt8)) (rest more : List UInt8) :
    readFrom false paste (rest ++ more) =
      let first := readFrom false paste rest
      let last := readFrom false first.2.paste (first.2.pending ++ more)
      (first.1 ++ last.1, last.2) := by
  dsimp only
  induction paste, rest using readFrom_induction false with
  | stop paste => simp
  | pasteEnd buffer rest n hfind hle ih =>
    rw [readFrom_paste_end (find_append hfind more), readFrom_paste_end hfind,
      List.drop_append_of_le_length hle, List.take_append_of_le_length (by omega), ih]
    rfl
  | pasteOpen buffer rest hfind =>
    rw [readFrom_paste_open hfind]
    dsimp only
    generalize hcut : rest.length - min rest.length (PASTE_END.length - 1) = cut
    have hle : cut ≤ rest.length := by omega
    have hresume : find PASTE_END (rest ++ more) =
        (find PASTE_END (rest.drop cut ++ more)).map (· + cut) := by
      rw [find_resume hfind, hcut]
    have hsplit : ∀ k, (rest ++ more).drop (k + cut) = (rest.drop cut ++ more).drop k := by
      intro k
      rw [Nat.add_comm, ← List.drop_drop, List.drop_append_of_le_length hle]
    have htake : ∀ k, (rest ++ more).take (k + cut) =
        rest.take cut ++ (rest.drop cut ++ more).take k := by
      intro k
      rw [Nat.add_comm, List.take_add, List.take_append_of_le_length hle,
        List.drop_append_of_le_length hle]
    cases hkept : find PASTE_END (rest.drop cut ++ more) with
    | some n =>
      rw [hkept, Option.map_some] at hresume
      have hend : n + cut + PASTE_END.length = n + PASTE_END.length + cut := by omega
      rw [readFrom_paste_end hresume, readFrom_paste_end hkept, htake, hend, hsplit,
        List.append_assoc]
      rfl
    | none =>
      rw [hkept, Option.map_none] at hresume
      have hshift : (rest ++ more).length - min (rest ++ more).length (PASTE_END.length - 1) =
          (rest.drop cut ++ more).length -
            min (rest.drop cut ++ more).length (PASTE_END.length - 1) + cut := by
        simp only [List.length_append, List.length_drop]
        omega
      rw [readFrom_paste_open hresume, readFrom_paste_open hkept, hshift, hsplit, htake,
        List.append_assoc]
      rfl
  | incomplete rest _ hcut =>
    rw [readFrom_incomplete hcut]
    simp
  | step rest n hrest hstep hle ih =>
    have hdecided : readStep false rest ≠ .incomplete := by
      intro hcut
      rw [hcut] at hstep
      cases hstep
    have hsame := @readStep_append rest more hdecided
    have hstep' : (readStep false (rest ++ more)).taken = some n := by rw [hsame, hstep]
    rw [readFrom_step hstep' (by simp [hrest]), readFrom_step hstep hrest, hsame,
      List.drop_append_of_le_length hle, ih]
    simp

theorem readFrom_settled (flush : Bool) (paste : Option (List UInt8)) (rest : List UInt8) :
    readFrom false (readFrom flush paste rest).2.paste (readFrom flush paste rest).2.pending =
      ([], (readFrom flush paste rest).2) := by
  induction paste, rest using readFrom_induction flush with
  | stop paste => simp
  | pasteEnd buffer rest n hfind _ ih =>
    rw [readFrom_paste_end hfind]
    exact ih
  | pasteOpen buffer rest hfind =>
    rw [readFrom_paste_open hfind]
    dsimp only
    generalize hcut : rest.length - min rest.length (PASTE_END.length - 1) = cut
    have hnone : find PASTE_END (rest.drop cut) = none := by
      have hresume := find_resume hfind []
      rw [List.append_nil, List.append_nil, hcut, hfind] at hresume
      exact Option.map_eq_none_iff.mp hresume.symm
    have hzero : (rest.drop cut).length -
        min (rest.drop cut).length (PASTE_END.length - 1) = 0 := by
      rw [List.length_drop]
      omega
    rw [readFrom_paste_open hnone, hzero]
    simp
  | incomplete rest _ hflush =>
    have hcut : readStep false rest = .incomplete := by
      unfold readStep at hflush ⊢
      split
      · rfl
      · split at hflush
        · contradiction
        · exact hflush
    rw [readFrom_incomplete hflush]
    exact readFrom_incomplete hcut
  | step rest n hrest hstep _ ih =>
    rw [readFrom_step hstep hrest]
    exact ih

theorem readFrom_flush (paste : Option (List UInt8)) (rest : List UInt8) :
    (readFrom true paste rest).2.pending = [] ∨ (readFrom true paste rest).2.paste.isSome := by
  induction paste, rest using readFrom_induction true with
  | stop paste => simp
  | pasteEnd buffer rest n hfind _ ih =>
    rw [readFrom_paste_end hfind]
    exact ih
  | pasteOpen buffer rest hfind =>
    rw [readFrom_paste_open hfind]
    exact .inr rfl
  | incomplete rest hrest hcut =>
    unfold readStep at hcut
    split at hcut
    · obtain ⟨n, htaken, -⟩ := cut_taken hrest
      rw [if_pos rfl] at hcut
      rw [hcut] at htaken
      cases htaken
    · contradiction
  | step rest n hrest hstep _ ih =>
    rw [readFrom_step hstep hrest]
    exact ih

namespace Parser

inductive Reached : Parser → Prop where
  | new : Reached .new
  | feed {parser : Parser} (bytes : List UInt8) : Reached parser → Reached (parser.feed bytes).2
  | flush {parser : Parser} : Reached parser → Reached parser.flush.2

theorem Reached.feed_nil {parser : Parser} (h : Reached parser) : parser.feed [] = ([], parser) := by
  induction h with
  | new => exact readFrom_nil
  | feed bytes h =>
    unfold Parser.feed
    rw [List.append_nil]
    exact readFrom_settled _ _ _
  | flush h ih =>
    unfold Parser.flush
    split
    · unfold Parser.feed
      rw [List.append_nil]
      exact readFrom_settled _ _ _
    · exact ih

theorem feed_append (parser : Parser) (bytes more : List UInt8) :
    parser.feed (bytes ++ more) =
      ((parser.feed bytes).1 ++ ((parser.feed bytes).2.feed more).1,
        ((parser.feed bytes).2.feed more).2) := by
  unfold Parser.feed
  rw [← List.append_assoc]
  exact readFrom_append _ _ _

theorem feedAll_eq {parser : Parser} (h : Reached parser) (parts : List (List UInt8)) :
    parser.feedAll parts = parser.feed parts.flatten := by
  induction parts generalizing parser with
  | nil => exact h.feed_nil.symm
  | cons part parts ih =>
    rw [feedAll, List.flatten_cons, feed_append, ih (h.feed part)]

theorem waits_flush (parser : Parser) : parser.flush.2.waits = false := by
  unfold Parser.flush
  split
  · rcases readFrom_flush parser.paste parser.pending with hpending | hpaste
    · simp [waits, hpending]
    · simp [waits, Option.isNone_eq_false_iff.mpr hpaste]
  · next hwaits => simpa using hwaits

theorem feed_open {parser : Parser} (hparser : parser = ⟨[], some []⟩) {body : List UInt8}
    (hbody : find PASTE_END body = none) :
    (parser.feed body).1 = [] ∧ (parser.feed body).2.flush = ([], (parser.feed body).2) := by
  subst hparser
  have hfeed : Parser.feed ⟨[], some []⟩ body = readFrom false (some []) body := rfl
  rw [hfeed, readFrom_paste_open hbody]
  exact ⟨rfl, rfl⟩

theorem feed_paste {parser : Parser} (hparser : parser = ⟨[], some []⟩) {body rest : List UInt8}
    (hend : find PASTE_END (body ++ PASTE_END ++ rest) = some body.length) :
    parser.feed (body ++ PASTE_END ++ rest) =
      (.event (.paste (cleanPaste body)) :: (new.feed rest).1, (new.feed rest).2) := by
  subst hparser
  have hfeed : Parser.feed ⟨[], some []⟩ (body ++ PASTE_END ++ rest) =
      readFrom false (some []) (body ++ PASTE_END ++ rest) := rfl
  have hdrop : (body ++ PASTE_END ++ rest).drop (body.length + PASTE_END.length) = rest := by
    rw [← List.length_append, List.drop_left]
  have htake : (body ++ PASTE_END ++ rest).take body.length = body := by
    rw [List.append_assoc, List.take_left]
  rw [hfeed, readFrom_paste_end hend, hdrop, htake]
  rfl

def PASTE_START : List UInt8 := ESC :: ascii ['[', '2', '0', '0', '~']

theorem feed_pasteStart : new.feed PASTE_START = ([], ⟨[], some []⟩) := by
  have hstep : readStep false PASTE_START = .pasteStart 6 := by decide
  have htaken : (readStep false PASTE_START).taken = some 6 := by rw [hstep, taken_pasteStart]
  have hread := readFrom_step htaken (by decide)
  rw [hstep] at hread
  exact hread.trans (by simp [Step.parsed, Step.paste, PASTE_START, ascii])

theorem paste_once {parser : Parser} {before : List UInt8}
    (hbefore : (parser.feed before).2 = ⟨[], some []⟩) (body : List UInt8) :
    (find PASTE_END body = none → (parser.feed (before ++ body)).1 = (parser.feed before).1 ∧
      (parser.feed (before ++ body)).2.flush = ([], (parser.feed (before ++ body)).2)) ∧
    ∀ rest, find PASTE_END (body ++ PASTE_END ++ rest) = some body.length →
      parser.feed (before ++ (body ++ PASTE_END ++ rest)) =
        ((parser.feed before).1 ++ .event (.paste (cleanPaste body)) :: (new.feed rest).1,
          (new.feed rest).2) := by
  constructor
  · intro hbody
    obtain ⟨hnothing, hflush⟩ := feed_open hbefore hbody
    rw [feed_append]
    exact ⟨by rw [hnothing, List.append_nil], hflush⟩
  · intro rest hend
    rw [feed_append, feed_paste hbefore hend]

/-- Reads of the terminal do not depend on where they cut its bytes. -/
theorem read_boundaries :
    (∀ parser, Reached parser → ∀ parts, parser.feedAll parts = parser.feed parts.flatten) ∧
    (∀ flush rest n, rest ≠ [] → (readStep flush rest).taken = some n →
      1 ≤ n ∧ n ≤ rest.length) ∧
    (∀ parser : Parser, parser.flush.2.waits = false) ∧
    new.feed PASTE_START = ([], ⟨[], some []⟩) ∧
    ∀ (parser : Parser) before, (parser.feed before).2 = ⟨[], some []⟩ → ∀ body,
      (find PASTE_END body = none → (parser.feed (before ++ body)).1 = (parser.feed before).1 ∧
        (parser.feed (before ++ body)).2.flush = ([], (parser.feed (before ++ body)).2)) ∧
      ∀ rest, find PASTE_END (body ++ PASTE_END ++ rest) = some body.length →
        parser.feed (before ++ (body ++ PASTE_END ++ rest)) =
          ((parser.feed before).1 ++ .event (.paste (cleanPaste body)) :: (new.feed rest).1,
            (new.feed rest).2) := by
  refine ⟨?_, ?_, waits_flush, feed_pasteStart, ?_⟩
  · intro parser h parts
    exact feedAll_eq h parts
  · intro flush rest n hrest htaken
    exact readStep_taken htaken hrest
  · intro parser before hbefore body
    exact paste_once hbefore body

end Parser

end Yuke.Term
