import Yuke.Tui.FuzzyFinds

/-!
# When a fuzzy match misses

A match over units lowers a capital sigma at the end of a word to a final sigma, and each other
sigma to a small one. Then a small sigma of the query has no partner in the text.
-/

set_option autoImplicit false

namespace Yuke.Tui

open Yuke.Shared

section Misses

variable {tables : LetterTables} {g : Graphemes} {query text : Text}

theorem count_lowerFrom {before codes : List ℕ}
    (h : (tables.lowerFrom before codes).length = codes.length) :
    (tables.lowerFrom before codes).count smallSigma ≤
        (codes.map tables.lower).count [smallSigma] ∧
      (¬ tables.NoFinalFrom before codes → (tables.lowerFrom before codes).count smallSigma <
        (codes.map tables.lower).count [smallSigma]) := by
  induction codes generalizing before with
  | nil => exact ⟨le_rfl, fun hnot => absurd trivial hnot⟩
  | cons code after ih =>
    have hafter := tables.length_le_lowerFrom (code :: before) after
    rw [CaseTables.lowerFrom] at h ⊢
    rw [List.length_append, List.length_cons] at h
    rw [List.map_cons, List.count_cons, List.count_append]
    split at h
    · next hfinal =>
      rw [List.length_singleton] at h
      have hrest : (tables.lowerFrom (code :: before) after).length = after.length := by omega
      obtain ⟨hle, _⟩ := ih hrest
      obtain ⟨rfl, _⟩ := id hfinal
      rw [if_pos hfinal, tables.lower_sigma, if_pos (beq_self_eq_true _), List.count_singleton,
        if_neg (by decide)]
      omega
    · next hfinal =>
      have hpos := List.length_pos_iff.mpr (tables.lower_ne_nil code)
      obtain ⟨u, hu⟩ := List.length_eq_one_iff.mp
        (show (tables.lower code).length = 1 by omega)
      rw [hu, List.length_singleton] at h
      have hrest : (tables.lowerFrom (code :: before) after).length = after.length := by omega
      obtain ⟨hle, hlt⟩ := ih hrest
      have hsame : List.count smallSigma [u] = if ([u] == [smallSigma]) = true then 1 else 0 := by
        rw [List.count_singleton]
        apply if_congr _ rfl rfl
        simp
      rw [if_neg hfinal, hu, hsame]
      constructor
      · omega
      · intro hnot
        have hnoRest : ¬ tables.NoFinalFrom (code :: before) after := by
          intro hno
          apply hnot
          refine ⟨?_, hno⟩
          intro hsigma
          rw [← Bool.not_eq_true]
          exact fun hend => hfinal ⟨hsigma, hend⟩
        have := hlt hnoRest
        omega

theorem count_toLowerCase_lt (hplain : ∀ u ∈ text, isSurrogate u = false)
    (hlength : (tables.toLowerCase text).length = text.length) (hfinal : ¬ tables.NoFinalSigma text) :
    (tables.toLowerCase text).count smallSigma < (tables.folded text).count [smallSigma] := by
  refine (count_lowerFrom ?_).2 hfinal
  rw [← CaseTables.toLowerCase, hlength, codePoints_of_plain hplain, List.length_map]

theorem noFinalFrom_of_noSigma {before codes : List ℕ} (h : sigma ∉ codes) :
    tables.NoFinalFrom before codes := by
  induction codes generalizing before with
  | nil => trivial
  | cons code after ih =>
    rw [List.mem_cons, not_or] at h
    exact ⟨fun hsigma => absurd hsigma.symm h.1, ih h.2⟩

def sigmas (k : ℕ) : Text := List.replicate k smallSigma

theorem sigmas_plain (k : ℕ) : ∀ u ∈ sigmas k, isSurrogate u = false := by
  intro u hu
  rw [List.eq_of_mem_replicate hu]
  decide

theorem codePoints_sigmas (k : ℕ) : codePoints (sigmas k) = List.replicate k smallSigma.toNat := by
  rw [codePoints_of_plain (sigmas_plain k), sigmas, List.map_replicate]

theorem folded_sigmas (k : ℕ) : tables.folded (sigmas k) = List.replicate k [smallSigma] := by
  rw [CaseTables.folded, codePoints_sigmas, List.map_replicate, tables.lower_smallSigma]

theorem noFinalSigma_sigmas (k : ℕ) : tables.NoFinalSigma (sigmas k) := by
  apply noFinalFrom_of_noSigma
  rw [codePoints_sigmas]
  intro hmem
  exact absurd (List.eq_of_mem_replicate hmem) (by decide)

theorem toLowerCase_sigmas (k : ℕ) : tables.toLowerCase (sigmas k) = sigmas k := by
  rw [tables.toLowerCase_of_noFinal (noFinalSigma_sigmas k), folded_sigmas, sigmas]
  induction k with
  | zero => rfl
  | succ k ih =>
    rw [List.replicate_succ, List.flatten_cons, ih]
    rfl

theorem byUnits_of_plain (hplainQuery : ∀ u ∈ query, isSurrogate u = false)
    (hplainText : ∀ u ∈ text, isSurrogate u = false)
    (hlengthQuery : (tables.toLowerCase query).length = query.length)
    (hlengthText : (tables.toLowerCase text).length = text.length) :
    byUnits tables query text = true := by
  simp only [byUnits, Bool.and_eq_true, Bool.not_eq_true', List.any_eq_false, Bool.not_eq_true,
    beq_iff_eq]
  exact ⟨⟨⟨hplainQuery, hplainText⟩, hlengthQuery⟩, hlengthText⟩

theorem fuzzyMatch_none (hquery : query ≠ []) (hunits : byUnits tables query text = true)
    (h : ¬ (tables.toLowerCase query).Sublist (tables.toLowerCase text)) :
    fuzzyMatch tables g query text = none := by
  rw [fuzzyMatch, if_neg hquery, if_pos hunits, matchUnits, greedyUnits_zero, if_neg h]
  rfl

theorem not_finds_of_none (hnone : fuzzyMatch tables g query text = none)
    (hsub : (tables.folded query).Sublist (tables.folded text)) :
    ¬ Finds tables g query text (fuzzyMatch tables g query text) := by
  intro hfinds
  have hfound := hfinds.found.mpr hsub
  rw [hnone] at hfound
  cases hfound

theorem text_misses (hplain : ∀ u ∈ text, isSurrogate u = false)
    (hlength : (tables.toLowerCase text).length = text.length) (hfinal : ¬ tables.NoFinalSigma text) :
    ∃ query, byUnits tables query text = true ∧ tables.NoFinalSigma query ∧
      ¬ Finds tables g query text (fuzzyMatch tables g query text) := by
  have hcount := count_toLowerCase_lt hplain hlength hfinal
  generalize hk : (tables.folded text).count [smallSigma] = k at hcount
  have hunits : byUnits tables (sigmas k) text = true :=
    byUnits_of_plain (sigmas_plain k) hplain (by rw [toLowerCase_sigmas]) hlength
  have hne : sigmas k ≠ [] := by
    intro hnil
    have := congrArg List.length hnil
    rw [sigmas, List.length_replicate, List.length_nil] at this
    omega
  refine ⟨sigmas k, hunits, noFinalSigma_sigmas k, ?_⟩
  apply not_finds_of_none
  · apply fuzzyMatch_none hne hunits
    intro hsub
    rw [toLowerCase_sigmas] at hsub
    have hle := hsub.count_le smallSigma
    rw [sigmas, List.count_replicate_self] at hle
    omega
  · rw [folded_sigmas]
    exact List.replicate_sublist_iff.mpr hk.ge

def smallSigmas (text : Text) : Text :=
  text.map fun u => if u.toNat = sigma then smallSigma else u

theorem smallSigmas_plain (hplain : ∀ u ∈ query, isSurrogate u = false) :
    ∀ u ∈ smallSigmas query, isSurrogate u = false := by
  intro u hu
  obtain ⟨old, hold, rfl⟩ := List.mem_map.mp hu
  split
  · decide
  · exact hplain old hold

theorem folded_smallSigmas (hplain : ∀ u ∈ query, isSurrogate u = false) :
    tables.folded (smallSigmas query) = tables.folded query := by
  rw [CaseTables.folded, CaseTables.folded, codePoints_of_plain (smallSigmas_plain hplain),
    codePoints_of_plain hplain, smallSigmas, List.map_map, List.map_map, List.map_map]
  apply List.map_congr_left
  intro u _
  dsimp only [Function.comp_def]
  split
  · next hsigma => rw [tables.lower_smallSigma, hsigma, tables.lower_sigma]
  · rfl

theorem noFinalSigma_smallSigmas (hplain : ∀ u ∈ query, isSurrogate u = false) :
    tables.NoFinalSigma (smallSigmas query) := by
  apply noFinalFrom_of_noSigma
  rw [codePoints_of_plain (smallSigmas_plain hplain)]
  intro hmem
  obtain ⟨u, hu, hsigma⟩ := List.mem_map.mp hmem
  obtain ⟨old, _, rfl⟩ := List.mem_map.mp hu
  split at hsigma
  · exact absurd hsigma (by decide)
  · next hne => exact hne hsigma

theorem length_flatten_folded (hplain : ∀ u ∈ query, isSurrogate u = false)
    (hlength : (tables.toLowerCase query).length = query.length) :
    ∀ lower ∈ tables.folded query, lower.length = 1 := by
  have hcodes : (tables.lowerFrom [] (codePoints query)).length = (codePoints query).length := by
    rw [← CaseTables.toLowerCase, hlength, codePoints_of_plain hplain, List.length_map]
  intro lower hlower
  obtain ⟨code, hcode, rfl⟩ := List.mem_map.mp hlower
  obtain ⟨u, _, hu⟩ := exists_left (tables.lowerFrom_units hcodes) code hcode
  rcases hu with hown | ⟨rfl, _⟩
  · rw [← hown]
    rfl
  · rw [tables.lower_sigma]
    rfl

theorem query_misses (hplain : ∀ u ∈ query, isSurrogate u = false)
    (hlength : (tables.toLowerCase query).length = query.length)
    (hfinal : ¬ tables.NoFinalSigma query) :
    ∃ text, byUnits tables query text = true ∧ tables.NoFinalSigma text ∧
      ¬ Finds tables g query text (fuzzyMatch tables g query text) := by
  have hplainText := smallSigmas_plain hplain
  have hnoFinal : tables.NoFinalSigma (smallSigmas query) := noFinalSigma_smallSigmas hplain
  have hfolded : tables.folded (smallSigmas query) = tables.folded query := folded_smallSigmas hplain
  have hlengthText : (tables.toLowerCase (smallSigmas query)).length = (smallSigmas query).length := by
    rw [tables.toLowerCase_of_noFinal hnoFinal, hfolded, List.length_flatten,
      List.map_congr_left (length_flatten_folded hplain hlength), List.map_const', List.sum_replicate,
      smul_eq_mul, Nat.mul_one, CaseTables.folded, List.length_map, codePoints_of_plain hplain,
      List.length_map, smallSigmas, List.length_map]
  have hunits : byUnits tables query (smallSigmas query) = true :=
    byUnits_of_plain hplain hplainText hlength hlengthText
  have hquery : query ≠ [] := by
    rintro rfl
    exact hfinal trivial
  refine ⟨smallSigmas query, hunits, hnoFinal, ?_⟩
  apply not_finds_of_none
  · apply fuzzyMatch_none hquery hunits
    intro hsub
    -- The lower cases have one length, so they would be the same text.
    have heq := hsub.eq_of_length (by
      rw [hlength, hlengthText, smallSigmas, List.length_map])
    have hcount := count_toLowerCase_lt hplain hlength hfinal
    have hsmall := lowered_units hplainText hlengthText hnoFinal
    rw [← hfolded, ← hsmall, heq,
      List.count_map_of_injective _ _ List.singleton_injective] at hcount
    omega
  · rw [hfolded]

theorem finds_nil : Finds tables g [] text (fuzzyMatch tables g [] text) where
  found := by
    constructor
    · exact fun _ => List.nil_sublist _
    · exact fun _ => rfl
  literal := fun _ => rfl
  ranges := by
    intro found heq
    cases heq
    refine ⟨[], ⟨.nil, .nil⟩, .nil, nofun, ?_⟩
    intro k
    constructor
    · rintro ⟨range, hrange, _⟩
      cases hrange
    · rintro ⟨position, hposition, _⟩
      cases hposition

theorem finds_of_noFinal (hg : g.Printable) (h : byUnits tables query text = true →
    tables.NoFinalSigma query ∧ tables.NoFinalSigma text) :
    Finds tables g query text (fuzzyMatch tables g query text) := by
  by_cases hquery : query = []
  · rw [hquery]
    exact finds_nil
  · rw [fuzzyMatch, if_neg hquery]
    split
    · next hunits => exact finds_matchUnits hg hquery hunits (h hunits).1 (h hunits).2
    · exact finds_matchPoints hg hquery

/-- A fuzzy match finds each query that is in the text when it goes by code points, or when neither
has a final sigma. For a text or a query that can go by units, a final sigma breaks some match. -/
theorem fuzzyMatch_finds (hg : g.Printable) :
    (∀ query text, (byUnits tables query text = true →
      tables.NoFinalSigma query ∧ tables.NoFinalSigma text) →
        Finds tables g query text (fuzzyMatch tables g query text)) ∧
    (∀ text, byUnits tables [] text = true →
      ((∀ query, tables.NoFinalSigma query →
        Finds tables g query text (fuzzyMatch tables g query text)) ↔ tables.NoFinalSigma text)) ∧
    ∀ query, byUnits tables query [] = true →
      ((∀ text, tables.NoFinalSigma text →
        Finds tables g query text (fuzzyMatch tables g query text)) ↔
          tables.NoFinalSigma query) := by
  refine ⟨fun query text => finds_of_noFinal hg, ?_, ?_⟩
  · intro text hunits
    obtain ⟨_, hplain, _, hlength⟩ := plain_of_byUnits hunits
    constructor
    · intro hall
      by_contra hfinal
      obtain ⟨query, _, hquery, hnot⟩ := text_misses (g := g) hplain hlength hfinal
      exact hnot (hall query hquery)
    · intro htext query hquery
      exact finds_of_noFinal hg fun _ => ⟨hquery, htext⟩
  · intro query hunits
    obtain ⟨hplain, _, hlength, _⟩ := plain_of_byUnits hunits
    constructor
    · intro hall
      by_contra hfinal
      obtain ⟨text, _, htext, hnot⟩ := query_misses (g := g) hplain hlength hfinal
      exact hnot (hall text htext)
    · intro hquery text htext
      exact finds_of_noFinal hg fun _ => ⟨hquery, htext⟩

end Misses

def capitalGreek (code : ℕ) : Bool := 0x391 ≤ code && code ≤ 0x3a9
def smallGreek (code : ℕ) : Bool := 0x3b1 ≤ code && code ≤ 0x3c9

def greek : LetterTables where
  lower code := if capitalGreek code then [.ofNat (code + 0x20)] else fromCodePoint code
  upper code := if smallGreek code && code ≠ 0x3c2 then [.ofNat (code - 0x20)]
    else fromCodePoint code
  cased code := capitalGreek code || smallGreek code
  ignorable _ := false
  word code := capitalGreek code || smallGreek code
  lower_ne_nil code := by
    unfold fromCodePoint
    split
    · exact List.cons_ne_nil _ _
    · split <;> exact List.cons_ne_nil _ _
  lower_sigma := by decide
  lower_smallSigma := by decide

def eachUnit : Graphemes where
  cut text := text.map fun _ => ⟨1, 1⟩
  nonempty := by
    intro text grapheme hgrapheme
    obtain ⟨u, _, rfl⟩ := List.mem_map.mp hgrapheme
    exact Nat.one_pos
  whole text := by
    rw [List.map_map, Function.comp_def, List.map_const', List.sum_replicate, smul_eq_mul,
      Nat.mul_one]

theorem eachUnit_printable : eachUnit.Printable := by
  intro text _ length hlength
  obtain ⟨grapheme, hgrapheme, rfl⟩ := List.mem_map.mp hlength
  obtain ⟨u, _, rfl⟩ := List.mem_map.mp hgrapheme
  rfl

theorem fuzzyMatch_finds_greek :
    Finds greek eachUnit [0x3b4, 0x3bf] [0x39f, 0x394, 0x39f]
      (fuzzyMatch greek eachUnit [0x3b4, 0x3bf] [0x39f, 0x394, 0x39f]) :=
  (fuzzyMatch_finds eachUnit_printable).1 _ _ fun _ =>
    ⟨noFinalFrom_of_noSigma (by decide), noFinalFrom_of_noSigma (by decide)⟩

/-- A capital sigma is not found in a word with a capital sigma at its end. -/
theorem fuzzyMatch_misses_sigma :
    fuzzyMatch greek eachUnit [0x3a3] [0x39f, 0x394, 0x39f, 0x3a3] = none ∧
      (codePoints [0x3a3]).Sublist (codePoints [0x39f, 0x394, 0x39f, 0x3a3]) ∧
      (greek.folded [0x3a3]).Sublist (greek.folded [0x39f, 0x394, 0x39f, 0x3a3]) := by
  refine ⟨rfl, ?_, ?_⟩
  · decide
  · decide

end Yuke.Tui
