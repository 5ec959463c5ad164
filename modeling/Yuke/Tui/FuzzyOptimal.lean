import Yuke.Tui.FuzzyAlign

/-!
# The alignment is optimal

Each cell holds the best score of the alignments that end there, and the walk back finds one of
them. So the score of the alignment is the greatest of all, and its points reach it.
-/

set_option autoImplicit false

namespace Yuke.Tui

open Yuke.Shared (Best)

variable {κ : Type} [DecidableEq κ] {bonusAt : ℕ → ℚ}

/-- The row of `key` after the row `previous`. -/
structure RowOk (bonusAt : ℕ → ℚ) (text : List κ) (previous : Option (List Cell)) (gap : ℚ)
    (key : κ) (row : List Cell) : Prop where
  ending : ∀ i, endingAt row i = if text[i]? = some key then matchScore bonusAt previous i else ⊥
  first : 0 < text.length → bestAt row 0 = endingAt row 0
  next : ∀ i, i + 1 < text.length →
    bestAt row (i + 1) = max (endingAt row (i + 1)) (bestAt row i + gap)

theorem fillRow_cell (bonusAt : ℕ → ℚ) (previous : Option (List Cell)) (gap : ℚ) (key : κ) (text : List κ)
    (start : ℕ) (running : Score) (i : ℕ) :
    endingAt (fillRow bonusAt previous gap key text start running) i =
        (if text[i]? = some key then matchScore bonusAt previous (start + i) else ⊥) ∧
      (i < text.length →
        bestAt (fillRow bonusAt previous gap key text start running) i =
          max (endingAt (fillRow bonusAt previous gap key text start running) i)
            ((if i = 0 then running
              else bestAt (fillRow bonusAt previous gap key text start running) (i - 1)) + gap)) := by
  induction text generalizing start running i with
  | nil => simp [fillRow, endingAt]
  | cons textKey text ih =>
    cases i with
    | zero =>
      by_cases hkey : textKey = key
      · simp [fillRow, endingAt, bestAt, hkey]
      · simp [fillRow, endingAt, bestAt, hkey]
    | succ i =>
      have hrest := ih (start + 1)
        (if textKey = key then max (if textKey = key then matchScore bonusAt previous start else ⊥)
          (running + gap) else running + gap) i
      obtain ⟨hending, hbest⟩ := hrest
      have hstart : start + 1 + i = start + (i + 1) := by omega
      rw [hstart] at hending
      refine ⟨?_, ?_⟩
      · simpa [fillRow, endingAt] using hending
      · intro hi
        have hi' : i < text.length := by simpa using hi
        have hbest' := hbest hi'
        cases i with
        | zero => simpa [fillRow, endingAt, bestAt] using hbest'
        | succ i => simpa [fillRow, endingAt, bestAt] using hbest'

theorem fillRow_ok (bonusAt : ℕ → ℚ) (text : List κ) (previous : Option (List Cell)) (gap : ℚ) (key : κ) :
    RowOk bonusAt text previous gap key (fillRow bonusAt previous gap key text 0 ⊥) where
  ending := by
    intro i
    have hcell := (fillRow_cell bonusAt previous gap key text 0 ⊥ i).1
    rwa [Nat.zero_add] at hcell
  first := by
    intro hpos
    have hcell := (fillRow_cell bonusAt previous gap key text 0 ⊥ 0).2 hpos
    rwa [if_pos rfl, WithBot.bot_add, max_bot_right] at hcell
  next := by
    intro i hi
    have hcell := (fillRow_cell bonusAt previous gap key text 0 ⊥ (i + 1)).2 hi
    rwa [if_neg (Nat.succ_ne_zero i), Nat.add_sub_cancel] at hcell

/-- The rows of a start of the query, both last first. `gap` is the gap of the last row. -/
inductive FilledRows (bonusAt : ℕ → ℚ) (text : List κ) : ℚ → List κ → List (List Cell) → Prop where
  | first {gap : ℚ} {key : κ} {row : List Cell} (hrow : RowOk bonusAt text none gap key row) :
      FilledRows bonusAt text gap [key] [row]
  | next {gap : ℚ} {key before : κ} {query : List κ} {row previous : List Cell}
      {rows : List (List Cell)} (hrows : FilledRows bonusAt text gapInner (before :: query) (previous :: rows))
      (hrow : RowOk bonusAt text (some previous) gap key row) :
      FilledRows bonusAt text gap (key :: before :: query) (row :: previous :: rows)

theorem fillRows_some {text : List κ} {query : List κ} {before : κ} {seen : List κ}
    {previous : List Cell} {rows : List (List Cell)}
    (hrows : FilledRows bonusAt text gapInner (before :: seen) (previous :: rows)) (hquery : query ≠ []) :
    FilledRows bonusAt text gapTrailing (query.reverse ++ before :: seen)
      ((fillRows bonusAt text (some previous) query).reverse ++ previous :: rows) := by
  induction query generalizing before seen previous rows with
  | nil => exact absurd rfl hquery
  | cons key query ih =>
    have hrow := fillRow_ok bonusAt text (some previous)
      (if query = [] then gapTrailing else gapInner) key
    rw [fillRows, List.reverse_cons, List.reverse_cons, List.append_assoc, List.append_assoc]
    rcases eq_or_ne query [] with rfl | hne
    · exact .next hrows hrow
    · rw [if_neg hne] at hrow
      simp only [if_neg hne]
      exact ih (.next hrows hrow) hne

theorem fillRows_ok (bonusAt : ℕ → ℚ) (text : List κ) {query : List κ} (hquery : query ≠ []) :
    FilledRows bonusAt text gapTrailing query.reverse (fillRows bonusAt text none query).reverse := by
  cases query with
  | nil => exact absurd rfl hquery
  | cons key query =>
    have hrow := fillRow_ok bonusAt text none
      (if query = [] then gapTrailing else gapInner) key
    rw [fillRows, List.reverse_cons, List.reverse_cons]
    rcases eq_or_ne query [] with rfl | hne
    · exact .first hrow
    · rw [if_neg hne] at hrow
      simp only [if_neg hne]
      exact fillRows_some (.first hrow) hne

/-! ## The cells are best scores -/

/-- The alignments of the letters `keys`, last letter first, whose last point is `ok`. An alignment
is its points before the last one, and the last one. -/
def Candidates (text keys : List κ) (ok : ℕ → Prop) : Set (List ℕ × ℕ) :=
  {c | Aligned text keys.reverse (c.1 ++ [c.2]) ∧ ok c.2}

def endScore (bonusAt : ℕ → ℚ) (c : List ℕ × ℕ) : ℚ := lettersScore bonusAt (c.1 ++ [c.2])

/-- The score with a gap for each point after the last one, up to point `i`. -/
def upToScore (bonusAt : ℕ → ℚ) (gap : ℚ) (i : ℕ) (c : List ℕ × ℕ) : ℚ :=
  endScore bonusAt c + ((i - c.2 : ℕ) : ℚ) * gap

structure RowBest (bonusAt : ℕ → ℚ) (text : List κ) (gap : ℚ) (keys : List κ) (row : List Cell) :
    Prop where
  ending : ∀ i, Best (Candidates text keys (· = i)) (endScore bonusAt) (endingAt row i)
  best : ∀ i, i < text.length →
    Best (Candidates text keys (· ≤ i)) (upToScore bonusAt gap i) (bestAt row i)

omit [DecidableEq κ] in
theorem upToScore_self (gap : ℚ) {i : ℕ} {c : List ℕ × ℕ} (h : c.2 = i) :
    upToScore bonusAt gap i c = endScore bonusAt c := by
  simp [upToScore, h]

omit [DecidableEq κ] in
theorem upToScore_succ (gap : ℚ) {i : ℕ} {c : List ℕ × ℕ} (h : c.2 ≤ i) :
    upToScore bonusAt gap (i + 1) c = upToScore bonusAt gap i c + gap := by
  have hsub : i + 1 - c.2 = (i - c.2) + 1 := by omega
  rw [upToScore, upToScore, hsub]
  push_cast
  ring

theorem RowOk.best_of_ending {text keys : List κ} {previous : Option (List Cell)} {gap : ℚ}
    {key : κ} {row : List Cell} (hrow : RowOk bonusAt text previous gap key row)
    (hending : ∀ i, Best (Candidates text keys (· = i)) (endScore bonusAt) (endingAt row i)) :
    RowBest bonusAt text gap keys row where
  ending := hending
  best := by
    intro i
    induction i with
    | zero =>
      intro hpos
      have hzero := hending 0
      rw [hrow.first hpos]
      constructor
      · rintro c ⟨halign, hle⟩
        have hc : c.2 = 0 := Nat.le_zero.mp hle
        rw [upToScore_self gap hc]
        exact hzero.le c ⟨halign, hc⟩
      · rcases hzero.reached with hbot | ⟨c, ⟨halign, hc⟩, heq⟩
        · exact .inl hbot
        · refine .inr ⟨c, ⟨halign, le_of_eq hc⟩, ?_⟩
          rw [upToScore_self gap hc, heq]
    | succ i ih =>
      intro hi
      rw [hrow.next i hi]
      refine Best.max (hending (i + 1)) ((ih (by omega)).add gap) ?_ ?_ ?_
      · rintro c ⟨halign, hc⟩
        exact ⟨c, ⟨halign, le_of_eq hc⟩, le_of_eq (upToScore_self gap hc).symm⟩
      · rintro c ⟨halign, hle⟩
        exact ⟨c, ⟨halign, Nat.le_succ_of_le hle⟩, le_of_eq (upToScore_succ gap hle).symm⟩
      · rintro c ⟨halign, hle⟩
        rcases Nat.lt_or_ge i c.2 with hlt | hge
        · have hc : c.2 = i + 1 := by omega
          exact .inl ⟨c, ⟨halign, hc⟩, le_of_eq (upToScore_self gap hc)⟩
        · exact .inr ⟨c, ⟨halign, hge⟩, le_of_eq (upToScore_succ gap hge)⟩

theorem RowOk.best_first {text : List κ} {gap : ℚ} {key : κ} {row : List Cell}
    (hrow : RowOk bonusAt text none gap key row) : RowBest bonusAt text gap [key] row := by
  refine hrow.best_of_ending ?_
  intro i
  rw [hrow.ending i]
  have halign : ∀ c : List ℕ × ℕ, Aligned text [key] (c.1 ++ [c.2]) ↔
      c.1 = [] ∧ text[c.2]? = some key := by
    intro c
    have hsplit : Aligned text ([] ++ [key]) (c.1 ++ [c.2]) ↔ _ := aligned_concat
    rw [List.nil_append] at hsplit
    rw [hsplit]
    constructor
    · rintro ⟨⟨_, hnil⟩, _, hkey⟩
      cases hnil' : c.1 with
      | nil => exact ⟨rfl, hkey⟩
      | cons q qs =>
        rw [hnil'] at hnil
        cases hnil
    · rintro ⟨hnil, hkey⟩
      rw [hnil]
      exact ⟨⟨.nil, .nil⟩, nofun, hkey⟩
  split
  · next hkey =>
    have hscore : endScore bonusAt ([], i) = i * gapLeading + bonusAt i := lettersScore_single i
    rw [matchScore, ← hscore]
    refine Best.single ([], i) ?_
    intro c
    constructor
    · rintro ⟨hc, hi⟩
      exact Prod.ext ((halign c).mp hc).1 hi
    · rintro rfl
      exact ⟨(halign ([], i)).mpr ⟨rfl, hkey⟩, rfl⟩
  · next hkey =>
    refine Best.empty ?_
    rintro c ⟨hc, hi⟩
    have hi' : c.2 = i := hi
    exact hkey (hi' ▸ ((halign c).mp hc).2)

omit [DecidableEq κ] in
theorem stepScore_of_gap (previous position : ℕ) :
    ((position - 1 - previous : ℕ) : ℚ) * gapInner + bonusAt position ≤
      stepScore bonusAt previous position := by
  unfold stepScore
  split
  · next heq =>
    have hzero : position - 1 - previous = 0 := by omega
    rw [hzero, Nat.cast_zero, zero_mul, zero_add]
    exact le_max_left _ _
  · exact le_rfl

omit [DecidableEq κ] in
theorem aligned_after {text seen : List κ} {before key : κ} {ps : List ℕ} {p position : ℕ}
    (h : Aligned text (before :: seen).reverse (ps ++ [p])) (hlt : p < position)
    (hkey : text[position]? = some key) :
    Aligned text (key :: before :: seen).reverse (ps ++ [p] ++ [position]) := by
  rw [List.reverse_cons, aligned_concat]
  refine ⟨h, ?_, hkey⟩
  intro q hq
  rcases List.mem_append.mp hq with hq | hq
  · have hqp := (List.pairwise_append.mp h.increasing).2.2 q hq p (List.mem_singleton_self p)
    omega
  · rw [List.mem_singleton.mp hq]
    exact hlt

theorem RowOk.best_next {text seen : List κ} {before key : κ} {gap : ℚ} {previous row : List Cell}
    (hprevious : RowBest bonusAt text gapInner (before :: seen) previous)
    (hrow : RowOk bonusAt text (some previous) gap key row) :
    RowBest bonusAt text gap (key :: before :: seen) row := by
  refine hrow.best_of_ending ?_
  intro i
  rw [hrow.ending i]
  have halign : ∀ (positions : List ℕ) (position : ℕ),
      Aligned text (key :: before :: seen).reverse (positions ++ [position]) ↔
        ∃ ps p, positions = ps ++ [p] ∧ Aligned text (before :: seen).reverse (ps ++ [p]) ∧
          p < position ∧ text[position]? = some key := by
    intro positions position
    constructor
    · intro h
      rw [List.reverse_cons, aligned_concat] at h
      obtain ⟨hbefore, hlt, hkey⟩ := h
      rcases List.eq_nil_or_concat positions with rfl | ⟨ps, p, rfl⟩
      · have := hbefore.matching.length_eq
        simp at this
      · rw [List.concat_eq_append] at hbefore hlt ⊢
        exact ⟨ps, p, rfl, hbefore, hlt p (by simp), hkey⟩
    · rintro ⟨ps, p, rfl, hbefore, hlt, hkey⟩
      exact aligned_after hbefore hlt hkey
  have hscore : ∀ (c : List ℕ × ℕ) (position : ℕ), endScore bonusAt (c.1 ++ [c.2], position) =
      endScore bonusAt c + stepScore bonusAt c.2 position := fun c position =>
    lettersScore_concat c.1 c.2 position
  split
  · next hkey =>
    unfold matchScore
    dsimp only
    cases i with
    | zero =>
      refine Best.empty ?_
      rintro ⟨positions, position⟩ ⟨hc, hi⟩
      obtain ⟨ps, p, _, _, hlt, _⟩ := (halign positions position).mp hc
      have hposition : position = 0 := hi
      omega
    | succ i =>
      have hi : i < text.length := by
        have := (List.getElem?_eq_some_iff.mp hkey).1
        omega
      rw [if_pos (Nat.succ_pos i), Nat.add_sub_cancel]
      refine Best.max ((hprevious.best i hi).add _) ((hprevious.ending i).add _) ?_ ?_ ?_
      · rintro c ⟨hc, hle⟩
        have hlt : c.2 < i + 1 := Nat.lt_succ_of_le hle
        refine ⟨(c.1 ++ [c.2], i + 1), ⟨(halign _ _).mpr ⟨c.1, c.2, rfl, hc, hlt, hkey⟩, rfl⟩, ?_⟩
        have hstep : ((i - c.2 : ℕ) : ℚ) * gapInner + bonusAt (i + 1) ≤
            stepScore bonusAt c.2 (i + 1) := stepScore_of_gap c.2 (i + 1)
        rw [hscore, upToScore, add_assoc]
        exact add_le_add_right hstep _
      · rintro c ⟨hc, heq⟩
        have hci : c.2 = i := heq
        refine ⟨(c.1 ++ [c.2], i + 1),
          ⟨(halign _ _).mpr ⟨c.1, c.2, rfl, hc, by omega, hkey⟩, rfl⟩, ?_⟩
        rw [hscore, stepScore, if_pos (by omega)]
        exact add_le_add_right (le_max_right _ _) _
      · rintro ⟨positions, position⟩ ⟨hc, heq⟩
        have hposition : position = i + 1 := heq
        subst hposition
        obtain ⟨ps, p, rfl, hbefore, hlt, _⟩ := (halign positions (i + 1)).mp hc
        have hc' := hscore (ps, p) (i + 1)
        dsimp only at hc'
        rw [hc']
        rcases eq_or_ne p i with rfl | hne
        · rcases max_choice (bonusAt (p + 1)) matchConsecutive with hmax | hmax
          · refine .inl ⟨(ps, p), ⟨hbefore, le_rfl⟩, ?_⟩
            rw [stepScore, if_pos rfl, hmax, upToScore_self (c := (ps, p)) gapInner rfl]
          · refine .inr ⟨(ps, p), ⟨hbefore, rfl⟩, ?_⟩
            rw [stepScore, if_pos rfl, hmax]
        · refine .inl ⟨(ps, p), ⟨hbefore, by omega⟩, ?_⟩
          rw [stepScore, if_neg (by omega), upToScore, Nat.add_sub_cancel, add_assoc]
  · next hkey =>
    refine Best.empty ?_
    rintro ⟨positions, position⟩ ⟨hc, hi⟩
    obtain ⟨_, _, _, _, _, hmatch⟩ := (halign positions position).mp hc
    have hposition : position = i := hi
    exact hkey (hposition ▸ hmatch)

theorem FilledRows.best {text keys : List κ} {gap : ℚ} {row : List Cell} {rows : List (List Cell)}
    (h : FilledRows bonusAt text gap keys rows) (hrow : rows.head? = some row) :
    RowBest bonusAt text gap keys row := by
  induction h generalizing row with
  | first hok =>
    cases hrow
    exact hok.best_first
  | next _ hok ih =>
    cases hrow
    exact hok.best_next (ih rfl)

/-! ## The walk back -/

theorem findEnd_best {text : List κ} {previous : Option (List Cell)} {gap : ℚ} {key : κ}
    {row : List Cell} (hrow : RowOk bonusAt text previous gap key row) {i : ℕ}
    (hi : i < text.length) (hbest : bestAt row i ≠ ⊥) :
    ∃ p ≤ i, findEnd row false (i + 1) = some p ∧ endingAt row p ≠ ⊥ ∧
      bestAt row i = endingAt row p + (((i - p : ℕ) : ℚ) * gap : ℚ) := by
  induction i with
  | zero =>
    rw [hrow.first hi] at hbest ⊢
    refine ⟨0, le_rfl, ?_, hbest, by simp⟩
    rw [findEnd, if_pos ⟨hbest, .inr (hrow.first hi).symm⟩]
  | succ i ih =>
    by_cases hend : endingAt row (i + 1) ≠ ⊥ ∧ endingAt row (i + 1) = bestAt row (i + 1)
    · refine ⟨i + 1, le_rfl, ?_, hend.1, by simp [hend.2]⟩
      rw [findEnd, if_pos ⟨hend.1, .inr hend.2⟩]
    · have hnext := hrow.next i hi
      -- The best score is not from a match here, so it comes from the point before.
      have hrunning : bestAt row (i + 1) = bestAt row i + gap := by
        rcases max_choice (endingAt row (i + 1)) (bestAt row i + gap) with hmax | hmax
        · rw [hmax] at hnext
          exact absurd ⟨fun hbot => hbest (hnext.trans hbot), hnext.symm⟩ hend
        · rw [hnext, hmax]
      have hbefore : bestAt row i ≠ ⊥ := by
        intro hbot
        rw [hrunning, hbot, WithBot.bot_add] at hbest
        exact hbest rfl
      obtain ⟨p, hp, hfind, hne, heq⟩ := ih (by omega) hbefore
      refine ⟨p, Nat.le_succ_of_le hp, ?_, hne, ?_⟩
      · rw [findEnd, if_neg (by simpa using hend)]
        exact hfind
      · have hsub : i + 1 - p = (i - p) + 1 := by omega
        rw [hrunning, heq, hsub, add_assoc, ← WithBot.coe_add]
        congr 2
        push_cast
        ring

theorem findEnd_consecutive {row : List Cell} {i : ℕ} (h : endingAt row i ≠ ⊥) :
    findEnd row true (i + 1) = some i := by
  rw [findEnd, if_pos ⟨h, .inl rfl⟩]

theorem FilledRows.ne_nil {text keys : List κ} {gap : ℚ} {rows : List (List Cell)}
    (h : FilledRows bonusAt text gap keys rows) : rows ≠ [] := by
  cases h with
  | first _ => exact List.cons_ne_nil _ _
  | next _ _ => exact List.cons_ne_nil _ _

theorem FilledRows.ok {text keys : List κ} {gap : ℚ} {row : List Cell} {rows : List (List Cell)}
    (h : FilledRows bonusAt text gap keys (row :: rows)) :
    ∃ previous key, RowOk bonusAt text previous gap key row := by
  cases h with
  | first hrow => exact ⟨_, _, hrow⟩
  | next _ hrow => exact ⟨_, _, hrow⟩

theorem RowOk.ending_le {text : List κ} {previous : Option (List Cell)} {gap : ℚ} {key : κ}
    {row : List Cell} (h : RowOk bonusAt text previous gap key row) {i : ℕ}
    (hi : i < text.length) : endingAt row i ≤ bestAt row i := by
  cases i with
  | zero => exact le_of_eq (h.first hi).symm
  | succ i =>
    rw [h.next i hi]
    exact le_max_left _ _

omit [DecidableEq κ] in
theorem stepScore_continues {ending best : Score} {i : ℕ} (hle : ending ≤ best) (hne : ending ≠ ⊥)
    (h : max (best + (bonusAt (i + 1) : ℚ)) (ending + (matchConsecutive : ℚ)) =
      ending + (matchConsecutive : ℚ)) : stepScore bonusAt i (i + 1) = matchConsecutive := by
  have hbonus : ending + (bonusAt (i + 1) : ℚ) ≤ ending + (matchConsecutive : ℚ) :=
    le_trans (add_le_add_left hle _) (max_eq_right_iff.mp h)
  obtain ⟨score, rfl⟩ := WithBot.ne_bot_iff_exists.mp hne
  rw [← WithBot.coe_add, ← WithBot.coe_add, WithBot.coe_le_coe] at hbonus
  rw [stepScore, if_pos rfl]
  exact max_eq_right (by linarith)

omit [DecidableEq κ] in
theorem stepScore_after (bonusAt : ℕ → ℚ) {ending best : Score} {p i : ℕ} (hp : p ≤ i)
    (hend : p = i → ending ≠ ⊥ ∧ best = ending)
    (h : max (best + (bonusAt (i + 1) : ℚ)) (ending + (matchConsecutive : ℚ)) ≠
      ending + (matchConsecutive : ℚ)) :
    stepScore bonusAt p (i + 1) = ((i - p : ℕ) : ℚ) * gapInner + bonusAt (i + 1) := by
  rcases eq_or_lt_of_le hp with rfl | hlt
  · have hlt := lt_of_not_ge fun hge => h (max_eq_right hge)
    obtain ⟨hne, heq⟩ := hend rfl
    rw [heq] at hlt
    obtain ⟨score, rfl⟩ := WithBot.ne_bot_iff_exists.mp hne
    rw [← WithBot.coe_add, ← WithBot.coe_add, WithBot.coe_lt_coe] at hlt
    rw [stepScore, if_pos rfl, Nat.sub_self, Nat.cast_zero, zero_mul, zero_add]
    exact max_eq_left (by linarith)
  · rw [stepScore, if_neg (by omega), Nat.add_sub_cancel]

theorem walkBack_match {text keys : List κ} {gap : ℚ} {row : List Cell} {rows : List (List Cell)}
    (h : FilledRows bonusAt text gap keys (row :: rows)) {i : ℕ} (hend : endingAt row i ≠ ⊥)
    (positions : List (Option ℕ)) :
    ∃ before, walkBack rows i (continues row rows i) positions = before.map some ++ positions ∧
      Aligned text keys.reverse (before ++ [i]) ∧
      (endScore bonusAt (before, i) : Score) = endingAt row i := by
  generalize hall : row :: rows = all at h
  induction h generalizing row rows i positions with
  | @first gap key row' hrow =>
    cases hall
    have hkey : text[i]? = some key := by
      by_contra hno
      exact hend (by rw [hrow.ending i, if_neg hno])
    refine ⟨[], rfl, aligned_single.mpr hkey, ?_⟩
    rw [hrow.ending i, if_pos hkey]
    exact congrArg _ (lettersScore_single i)
  | @next gap key before seen row' previous rows' hrows hrow ih =>
    cases hall
    have hkey : text[i]? = some key := by
      by_contra hno
      exact hend (by rw [hrow.ending i, if_neg hno])
    have hmatch := hrow.ending i
    rw [if_pos hkey] at hmatch
    cases i with
    | zero => exact absurd hmatch hend
    | succ i =>
      have hi : i < text.length := by
        have := (List.getElem?_eq_some_iff.mp hkey).1
        omega
      obtain ⟨_, _, hprevious⟩ := hrows.ok
      rw [matchScore, if_pos (Nat.succ_pos i), Nat.add_sub_cancel] at hmatch
      by_cases hcontinues : endingAt row' (i + 1) = endingAt previous i + (matchConsecutive : ℚ)
      · have hne : endingAt previous i ≠ ⊥ := by
          intro hbot
          rw [hcontinues, hbot, WithBot.bot_add] at hend
          exact hend rfl
        obtain ⟨ps, hwalk, haligned, hscore⟩ := ih hne (some i :: positions) rfl
        refine ⟨ps ++ [i], ?_, aligned_after haligned (Nat.lt_succ_self i) hkey, ?_⟩
        · have htrue : continues row' (previous :: rows') (i + 1) = true := by
            simp [continues, hcontinues]
          rw [htrue, walkBack, findEnd_consecutive hne]
          simpa using hwalk
        · have hstep := stepScore_continues (hprevious.ending_le hi) hne (hmatch ▸ hcontinues)
          rw [endScore, lettersScore_concat, hstep, WithBot.coe_add, hcontinues, ← hscore]
          rfl
      · have hbest : bestAt previous i ≠ ⊥ := by
          intro hbot
          have hle := hprevious.ending_le hi
          rw [hbot, le_bot_iff] at hle
          rw [hmatch, hbot, hle] at hend
          exact hend rfl
        obtain ⟨p, hp, hfind, hne, heq⟩ := findEnd_best hprevious hi hbest
        obtain ⟨ps, hwalk, haligned, hscore⟩ := ih hne (some p :: positions) rfl
        refine ⟨ps ++ [p], ?_, aligned_after haligned (Nat.lt_succ_of_le hp) hkey, ?_⟩
        · have hfalse : continues row' (previous :: rows') (i + 1) = false := by
            simp [continues, hcontinues]
          rw [hfalse, walkBack, hfind]
          simpa using hwalk
        · have hsame : p = i → endingAt previous i ≠ ⊥ ∧ bestAt previous i = endingAt previous i := by
            rintro rfl
            exact ⟨hne, by simpa using heq⟩
          have hstep := stepScore_after bonusAt hp hsame (hmatch ▸ hcontinues)
          have hbonus : endingAt row' (i + 1) = bestAt previous i + (bonusAt (i + 1) : ℚ) := by
            rcases max_choice (bestAt previous i + (bonusAt (i + 1) : ℚ))
              (endingAt previous i + (matchConsecutive : ℚ)) with hmax | hmax
            · exact hmatch.trans hmax
            · exact absurd (hmatch.trans hmax) hcontinues
          rw [endScore, lettersScore_concat, hstep, WithBot.coe_add, WithBot.coe_add, hbonus, heq,
            ← hscore, add_assoc]
          rfl

omit [DecidableEq κ] in
theorem exists_aligned {text query : List κ} (h : query.Sublist text) :
    ∃ positions, Aligned text query positions := by
  obtain ⟨points, heq, hincreasing⟩ := List.sublist_eq_map_getElem h
  refine ⟨points.map Fin.val, List.pairwise_map.mpr hincreasing, ?_⟩
  rw [heq, List.forall₂_map_left_iff, List.forall₂_map_right_iff, List.forall₂_same]
  intro point _
  exact List.getElem?_eq_getElem point.isLt

omit [DecidableEq κ] in
theorem alignmentScore_concat {n : ℕ} (positions : List ℕ) (position : ℕ) :
    alignmentScore bonusAt n (positions ++ [position]) =
      upToScore bonusAt gapTrailing (n - 1) (positions, position) := by
  rw [alignmentScore, List.getLastD_concat]
  rfl

/-- The alignment has the greatest score, and its points reach it. -/
theorem align_optimal (bonusAt : ℕ → ℚ) {text query : List κ} (hquery : query ≠ [])
    (hsub : query.Sublist text) :
    ∃ (score : ℚ) (positions : List ℕ),
      align bonusAt text query = (↑score, positions.map some) ∧
      Aligned text query positions ∧
      alignmentScore bonusAt text.length positions = score ∧
      ∀ other, Aligned text query other →
        alignmentScore bonusAt text.length other ≤ score := by
  have htext : 0 < text.length :=
    lt_of_lt_of_le (List.length_pos_iff.mpr hquery) hsub.length_le
  have hlast : text.length - 1 < text.length := by omega
  have hrows := fillRows_ok bonusAt text hquery
  unfold align
  dsimp only
  generalize (fillRows bonusAt text none query).reverse = all at hrows
  cases all with
  | nil => exact absurd rfl hrows.ne_nil
  | cons row rows =>
    have hbest := (hrows.best rfl).best (text.length - 1) hlast
    rw [List.headD_cons]
    have hcandidate : ∀ other, Aligned text query other → ∃ c ∈ Candidates text query.reverse
        (· ≤ text.length - 1), upToScore bonusAt gapTrailing (text.length - 1) c =
          alignmentScore bonusAt text.length other := by
      intro other hother
      rcases List.eq_nil_or_concat other with rfl | ⟨ps, p, rfl⟩
      · exact absurd (List.length_eq_zero_iff.mp hother.matching.length_eq.symm) hquery
      · rw [List.concat_eq_append] at hother ⊢
        refine ⟨(ps, p), ⟨by rwa [List.reverse_reverse], ?_⟩, (alignmentScore_concat ps p).symm⟩
        have hp : text[p]? ≠ none := by
          obtain ⟨key, hkey⟩ : ∃ key, text[p]? = some key := by
            have hall := hother.matching
            rcases List.eq_nil_or_concat query with rfl | ⟨qs, q, rfl⟩
            · exact absurd rfl hquery
            · rw [List.concat_eq_append] at hother
              exact ⟨q, (aligned_concat.mp hother).2.2⟩
          simp [hkey]
        have hlt : p < text.length := by simpa using hp
        change p ≤ text.length - 1
        omega
    obtain ⟨first, hfirst⟩ := exists_aligned hsub
    obtain ⟨c, hc, _⟩ := hcandidate first hfirst
    have hne : bestAt row (text.length - 1) ≠ ⊥ := by
      intro hbot
      have hle := hbest.le c hc
      rw [hbot] at hle
      simp at hle
    obtain ⟨_, _, hok⟩ := hrows.ok
    obtain ⟨p, hp, hfind, hend, heq⟩ := findEnd_best hok hlast hne
    obtain ⟨before, hwalk, haligned, hscore⟩ := walkBack_match hrows hend [some p]
    have htotal : (alignmentScore bonusAt text.length (before ++ [p]) : Score) =
        bestAt row (text.length - 1) := by
      rw [alignmentScore_concat, upToScore, WithBot.coe_add, hscore, heq]
    refine ⟨_, before ++ [p], ?_, by rwa [List.reverse_reverse] at haligned, rfl, ?_⟩
    · rw [htotal]
      have hlen : text.length = text.length - 1 + 1 := by omega
      have hback : walkBack (row :: rows) text.length false [] = (before ++ [p]).map some := by
        rw [walkBack, hlen, hfind]
        simpa using hwalk
      rw [hback]
    · intro other hother
      obtain ⟨c, hc, hceq⟩ := hcandidate other hother
      have hle := hbest.le c hc
      rwa [hceq, ← htotal, WithBot.coe_le_coe] at hle

/-- The letters `b` and `c` match as one run, although an earlier `b` matches too. -/
theorem align_optimal_run :
    ∃ (score : ℚ) (positions : List ℕ),
      align (fun _ => 0) ['b', 'a', 'b', 'c'] ['b', 'c'] = (↑score, positions.map some) ∧
      Aligned ['b', 'a', 'b', 'c'] ['b', 'c'] positions ∧
      alignmentScore (fun _ => 0) 4 positions = score ∧
      ∀ other, Aligned ['b', 'a', 'b', 'c'] ['b', 'c'] other →
        alignmentScore (fun _ => 0) 4 other ≤ score :=
  align_optimal (fun _ => 0) (by decide) (by decide)

end Yuke.Tui
