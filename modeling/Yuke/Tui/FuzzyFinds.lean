import Yuke.Tui.Fuzzy
import Yuke.Tui.FuzzyOptimal

/-!
# What a fuzzy match finds

A match over code points finds each query that is a subsequence of the text, with each code point
lowered on its own. A match over units lowers the whole texts, so it needs texts without a capital
sigma at the end of a word.
-/

set_option autoImplicit false

namespace Yuke.Tui

open Yuke.Shared

/-! ## The first points that fit -/

section Keys

variable {κ : Type} [DecidableEq κ]

theorem greedyPoints_spec (start : ℕ) (text query : List κ) :
    (query.Sublist text ↔ (greedyPoints start text query).length = query.length) ∧
      (greedyPoints start text query).length ≤ query.length ∧
      (greedyPoints start text query).Pairwise (· < ·) ∧
      ∀ found ∈ greedyPoints start text query, start ≤ found := by
  induction text generalizing start query with
  | nil =>
    rw [greedyPoints, List.sublist_nil]
    refine ⟨?_, Nat.zero_le _, .nil, nofun⟩
    constructor
    · rintro rfl
      rfl
    · exact fun h => List.length_eq_zero_iff.mp h.symm
  | cons key text ih =>
    cases query with
    | nil => exact ⟨by simp [greedyPoints], Nat.zero_le _, .nil, nofun⟩
    | cons wanted query =>
      rw [greedyPoints]
      split
      · next heq =>
        obtain ⟨hsub, hle, hincreasing, hstart⟩ := ih (start + 1) query
        refine ⟨?_, ?_, ?_, ?_⟩
        · rw [heq, List.cons_sublist_cons, hsub, List.length_cons, List.length_cons]
          omega
        · rw [List.length_cons, List.length_cons]
          omega
        · refine .cons ?_ hincreasing
          intro found hfound
          have := hstart found hfound
          omega
        · intro found hfound
          rcases List.mem_cons.mp hfound with rfl | hrest
          · exact le_rfl
          · have := hstart found hrest
            omega
      · next hne =>
        obtain ⟨hsub, hle, hincreasing, hstart⟩ := ih (start + 1) (wanted :: query)
        refine ⟨?_, hle, hincreasing, ?_⟩
        · rw [← hsub]
          constructor
          · intro h
            cases h with
            | cons _ h => exact h
            | cons_cons _ h => exact absurd rfl hne
          · exact fun h => .cons key h
        · intro found hfound
          have := hstart found hfound
          omega

theorem greedyPoints_matching {start : ℕ} {text query : List κ}
    (h : (greedyPoints start text query).length = query.length) :
    List.Forall₂ (fun found key => text[found - start]? = some key)
      (greedyPoints start text query) query := by
  induction text generalizing start query with
  | nil =>
    rw [greedyPoints] at h ⊢
    rw [List.length_eq_zero_iff.mp h.symm]
    exact .nil
  | cons key text ih =>
    cases query with
    | nil =>
      rw [greedyPoints]
      · exact .nil
      · nofun
    | cons wanted query =>
      have hshift : ∀ {query : List κ},
          List.Forall₂ (fun found key => text[found - (start + 1)]? = some key)
            (greedyPoints (start + 1) text query) query →
          List.Forall₂ (fun found wanted => (key :: text)[found - start]? = some wanted)
            (greedyPoints (start + 1) text query) query := by
        intro query hrest
        refine List.forall₂_iff_get.mpr ⟨hrest.length_eq, ?_⟩
        intro i hi hi'
        have hmatch := (List.forall₂_iff_get.mp hrest).2 i hi hi'
        have hstart := (greedyPoints_spec (start + 1) text query).2.2.2 _ (List.get_mem _ ⟨i, hi⟩)
        rw [show (greedyPoints (start + 1) text query).get ⟨i, hi⟩ - start =
          ((greedyPoints (start + 1) text query).get ⟨i, hi⟩ - (start + 1)) + 1 by omega]
        exact hmatch
      rw [greedyPoints] at h ⊢
      split at h
      · next heq =>
        rw [if_pos heq]
        rw [List.length_cons, List.length_cons, Nat.add_right_cancel_iff] at h
        refine .cons ?_ (hshift (ih h))
        rw [Nat.sub_self, List.getElem?_cons_zero, heq]
      · next hne =>
        rw [if_neg hne]
        exact hshift (ih h)

theorem greedyPoints_aligned {text query : List κ}
    (h : (greedyPoints 0 text query).length = query.length) :
    Aligned text query (greedyPoints 0 text query) :=
  ⟨(greedyPoints_spec 0 text query).2.2.1, greedyPoints_matching h⟩

theorem greedyPoints_skip {start : ℕ} {before text query : List κ} {wanted : κ}
    (h : wanted ∉ before) : greedyPoints start (before ++ text) (wanted :: query) =
      greedyPoints (start + before.length) text (wanted :: query) := by
  induction before generalizing start with
  | nil => rfl
  | cons key before ih =>
    rw [List.mem_cons, not_or] at h
    rw [List.cons_append, greedyPoints, if_neg (Ne.symm h.1), ih h.2, List.length_cons]
    congr 1
    omega

theorem greedyUnits_eq (text query : List κ) (start : ℕ) :
    greedyUnits text start query =
      if (greedyPoints start (text.drop start) query).length = query.length then
        some (greedyPoints start (text.drop start) query) else none := by
  induction query generalizing start with
  | nil =>
    rw [greedyUnits]
    cases text.drop start with
    | nil => rfl
    | cons => rfl
  | cons wanted query ih =>
    rw [greedyUnits, indexFrom]
    cases hfound : (text.drop start).findIdx? (· = wanted) with
    | none =>
      have hnone : wanted ∉ text.drop start := by
        intro hmem
        have hne := List.findIdx?_eq_none_iff.mp hfound wanted hmem
        simp at hne
      have hskip : greedyPoints start (text.drop start ++ []) (wanted :: query) = _ :=
        greedyPoints_skip hnone
      rw [List.append_nil] at hskip
      rw [hskip, greedyPoints, if_neg (by simp)]
      rfl
    | some index =>
      obtain ⟨hindex, hkey, hbefore⟩ := List.findIdx?_eq_some_iff_getElem.mp hfound
      have hsplit : text.drop start = (text.drop start).take index ++
          wanted :: text.drop (start + index + 1) := by
        conv_lhs => rw [← List.take_append_drop index (text.drop start)]
        rw [List.drop_eq_getElem_cons hindex, List.drop_drop]
        simp only [decide_eq_true_eq] at hkey
        rw [hkey, Nat.add_assoc]
      have hlen : ((text.drop start).take index).length = index := by
        rw [List.length_take]
        omega
      have hnone : wanted ∉ (text.drop start).take index := by
        intro hmem
        obtain ⟨j, hj, heq⟩ := List.mem_iff_getElem.mp hmem
        rw [hlen] at hj
        have hne := hbefore j hj
        rw [List.getElem_take] at heq
        simp [heq] at hne
      have hpoints : greedyPoints start (text.drop start) (wanted :: query) =
          (start + index) :: greedyPoints (start + index + 1)
            (text.drop (start + index + 1)) query := by
        conv_lhs => rw [hsplit]
        rw [greedyPoints_skip hnone, hlen, greedyPoints, if_pos rfl]
      rw [hpoints, Option.map_some]
      dsimp only
      rw [ih (start + index + 1), List.length_cons, List.length_cons]
      split
      · next heq => rw [if_pos (by omega), Option.map_some]
      · next hne => rw [if_neg (by omega), Option.map_none]

theorem greedyUnits_zero (text query : List κ) :
    greedyUnits text 0 query =
      if query.Sublist text then some (greedyPoints 0 text query) else none := by
  rw [greedyUnits_eq, List.drop_zero]
  exact if_congr (greedyPoints_spec 0 text query).1.symm rfl rfl

end Keys

/-! ## The ranges -/

def Graphemes.Printable (g : Graphemes) : Prop :=
  ∀ text, isPrintable text = true → ∀ length ∈ g.lengths text, length = 1

theorem exists_covers (offset : ℕ) (lengths : List ℕ) {k : ℕ} (hge : offset ≤ k)
    (hlt : k < offset + lengths.sum) : ∃ range ∈ rangesFrom offset lengths, range.Covers k := by
  induction lengths generalizing offset with
  | nil =>
    rw [List.sum_nil] at hlt
    omega
  | cons length lengths ih =>
    rw [List.sum_cons] at hlt
    rcases Nat.lt_or_ge k (offset + length) with hin | hout
    · exact ⟨_, List.mem_cons_self, hge, hin⟩
    · obtain ⟨range, hrange, hk⟩ := ih (offset + length) hout (by omega)
      exact ⟨range, List.mem_cons_of_mem _ hrange, hk⟩

theorem advance_spec {offset start : ℕ} {lengths : List ℕ} (hge : offset ≤ start)
    (hlt : start < offset + lengths.sum) :
    ∃ offset' length lengths',
      advance start (rangesFrom offset lengths) = rangesFrom offset' (length :: lengths') ∧
      offset ≤ offset' ∧ offset' ≤ start ∧ start < offset' + length ∧
      offset' + (length :: lengths').sum = offset + lengths.sum ∧
      (length :: lengths') <:+ lengths ∧
      ∀ range ∈ rangesFrom offset' (length :: lengths'), range ∈ rangesFrom offset lengths := by
  induction lengths generalizing offset with
  | nil =>
    rw [List.sum_nil] at hlt
    omega
  | cons length lengths ih =>
    cases lengths with
    | nil =>
      rw [List.sum_cons, List.sum_nil] at hlt
      exact ⟨offset, length, [], rfl, le_rfl, hge, by omega, rfl, List.suffix_rfl, fun _ h => h⟩
    | cons second lengths =>
      rw [rangesFrom, rangesFrom, advance]
      split
      · next hnext =>
        have hnext' : offset + length ≤ start := hnext
        have hlt' : start < offset + length + (second :: lengths).sum := by
          rw [List.sum_cons] at hlt
          omega
        obtain ⟨offset', length', lengths', heq, hoffset, hstart, hstop, hsum, hsuffix, hmem⟩ :=
          ih hnext' hlt'
        refine ⟨offset', length', lengths', heq, by omega, hstart, hstop, ?_, ?_, ?_⟩
        · rw [hsum, List.sum_cons (a := length)]
          omega
        · exact hsuffix.trans (List.suffix_cons _ _)
        · intro range hrange
          exact List.mem_cons_of_mem _ (hmem range hrange)
      · next hnext =>
        exact ⟨offset, length, second :: lengths, rfl, le_rfl, hge, by
          dsimp only at hnext
          omega, rfl, List.suffix_rfl, fun _ h => h⟩

theorem piecesOf_spec {offset : ℕ} {lengths : List ℕ} {spans : List Span}
    (hspans : spans.Pairwise (·.start < ·.start))
    (hrange : ∀ span ∈ spans, offset ≤ span.start ∧ span.start < offset + lengths.sum) :
    List.Forall₂ (fun span piece => piece ∈ rangesFrom offset lengths ∧ piece.Covers span.start)
        spans (piecesOf (rangesFrom offset lengths) spans) ∧
      (piecesOf (rangesFrom offset lengths) spans).Pairwise (·.start ≤ ·.start) ∧
      ∀ piece ∈ piecesOf (rangesFrom offset lengths) spans, offset ≤ piece.start := by
  induction spans generalizing offset lengths with
  | nil => exact ⟨.nil, .nil, nofun⟩
  | cons span spans ih =>
    obtain ⟨hlater, hspans⟩ := List.pairwise_cons.mp hspans
    obtain ⟨hge, hlt⟩ := hrange span List.mem_cons_self
    obtain ⟨offset', length, lengths', heq, hoffset, hstart, hstop, hsum, _, hmem⟩ :=
      advance_spec hge hlt
    have hrest : ∀ other ∈ spans, offset' ≤ other.start ∧
        other.start < offset' + (length :: lengths').sum := by
      intro other hother
      have := hlater other hother
      have := (hrange other (List.mem_cons_of_mem _ hother)).2
      omega
    obtain ⟨hpieces, hordered, hbound⟩ := ih hspans hrest
    rw [piecesOf, heq]
    rw [rangesFrom, List.headD_cons, ← rangesFrom]
    refine ⟨.cons ⟨hmem _ List.mem_cons_self, hstart, hstop⟩ ?_, .cons ?_ hordered, ?_⟩
    · exact hpieces.imp fun _ _ h => ⟨hmem _ h.1, h.2⟩
    · exact hbound
    · intro piece hpiece
      rcases List.mem_cons.mp hpiece with rfl | hpiece
      · exact hoffset
      · exact hoffset.trans (hbound piece hpiece)

theorem unit_of_mem_rangesFrom {offset : ℕ} {lengths : List ℕ} (h : ∀ length ∈ lengths, length = 1)
    {range : OffsetRange} (hrange : range ∈ rangesFrom offset lengths) :
    range.stop = range.start + 1 := by
  induction lengths generalizing offset with
  | nil => cases hrange
  | cons length lengths ih =>
    rcases List.mem_cons.mp hrange with rfl | hrest
    · rw [h length List.mem_cons_self]
    · exact ih (fun other hother => h other (List.mem_cons_of_mem _ hother)) hrest

theorem exists_left {α β : Type} {r : α → β → Prop} {left : List α} {right : List β}
    (h : List.Forall₂ r left right) : ∀ b ∈ right, ∃ a ∈ left, r a b := by
  induction h with
  | nil => nofun
  | @cons a b _ _ hab _ ih =>
    intro other hother
    rcases List.mem_cons.mp hother with rfl | hrest
    · exact ⟨a, List.mem_cons_self, hab⟩
    · obtain ⟨found, hfound, hr⟩ := ih other hrest
      exact ⟨found, List.mem_cons_of_mem _ hfound, hr⟩

theorem piece_of_printable {g : Graphemes} (hg : g.Printable) {text : Text}
    (hprintable : isPrintable text = true) {span : Span} (hlt : span.start < text.length)
    (hlength : span.length = 1) :
    OffsetRange.mk span.start (span.start + span.length) ∈ graphemeRanges g text := by
  have hwhole : (g.lengths text).sum = text.length := g.whole text
  obtain ⟨grapheme, hgrapheme, hge, hstop⟩ :=
    exists_covers 0 (g.lengths text) (Nat.zero_le span.start) (by omega)
  have hunit := unit_of_mem_rangesFrom (hg text hprintable) hgrapheme
  have heq : grapheme = ⟨span.start, span.start + span.length⟩ := by
    cases grapheme
    simp only [OffsetRange.mk.injEq] at hunit hge hstop ⊢
    omega
  rw [← heq]
  exact hgrapheme

theorem rangesOf_spec {g : Graphemes} (hg : g.Printable) (text : Text) {spans : List Span}
    (hspans : spans.Pairwise (·.start < ·.start)) (hlt : ∀ span ∈ spans, span.start < text.length)
    (hlength : isPrintable text = true → ∀ span ∈ spans, span.length = 1) :
    (rangesOf g text spans).Pairwise (·.stop < ·.start) ∧
      (∀ range ∈ rangesOf g text spans, range.start < range.stop) ∧
      ∀ k, Covered (rangesOf g text spans) k ↔ ∃ span ∈ spans,
        ∃ grapheme ∈ graphemeRanges g text, grapheme.Covers span.start ∧ grapheme.Covers k := by
  have hwhole : (g.lengths text).sum = text.length := g.whole text
  unfold rangesOf
  generalize hpieces : (if isPrintable text then spans.map fun span =>
    (⟨span.start, span.start + span.length⟩ : OffsetRange)
    else piecesOf (graphemeRanges g text) spans) = pieces
  have hspec : List.Forall₂ (fun span piece => piece ∈ graphemeRanges g text ∧
      piece.Covers span.start) spans pieces ∧ pieces.Pairwise (·.start ≤ ·.start) := by
    rw [← hpieces]
    split
    · next hprintable =>
      refine ⟨?_, List.pairwise_map.mpr (hspans.imp fun h => h.le)⟩
      rw [List.forall₂_map_right_iff, List.forall₂_same]
      intro span hspan
      have hone := hlength hprintable span hspan
      refine ⟨piece_of_printable hg hprintable (hlt span hspan) hone, le_rfl, ?_⟩
      dsimp only
      omega
    · have hrange : ∀ span ∈ spans, 0 ≤ span.start ∧ span.start < 0 + (g.lengths text).sum := by
        intro span hspan
        have := hlt span hspan
        omega
      obtain ⟨hpieces, hordered, _⟩ := piecesOf_spec hspans hrange
      exact ⟨hpieces, hordered⟩
  obtain ⟨hspec, hordered⟩ := hspec
  have hproper : ∀ piece ∈ pieces, piece.start < piece.stop := by
    intro piece hpiece
    obtain ⟨span, _, _, hstart, hstop⟩ := exists_left hspec piece hpiece
    exact hstart.trans_lt hstop
  have hjoined := joined_joinRanges hproper hordered
  refine ⟨hjoined.apart, hjoined.proper, ?_⟩
  intro k
  rw [hjoined.covered k]
  constructor
  · rintro ⟨piece, hpiece, hk⟩
    obtain ⟨span, hspan, hgrapheme, hcovers⟩ := exists_left hspec piece hpiece
    exact ⟨span, hspan, piece, hgrapheme, hcovers, hk⟩
  · rintro ⟨span, hspan, grapheme, hgrapheme, hcovers, hk⟩
    obtain ⟨piece, hpiece, hmem, hcovers'⟩ := exists_left hspec.flip span hspan
    rw [eq_of_covers hgrapheme hmem hcovers hcovers'] at hk
    exact ⟨piece, hpiece, hk⟩

/-- The UTF-16 offset of the code point `position`. -/
def pointStart (text : Text) (position : ℕ) : ℕ :=
  (((codePoints text).take position).map unitsOf).sum

theorem unitsOf_pos (code : ℕ) : 0 < unitsOf code := by
  unfold unitsOf
  split <;> omega

theorem sum_unitsOf (text : Text) : ((codePoints text).map unitsOf).sum = text.length := by
  induction text using codePoints.induct with
  | case1 => rfl
  | case2 u =>
    have hu := u.toNat_lt
    rw [codePoints, List.map_singleton, List.sum_singleton, unitsOf, if_neg (by omega)]
    rfl
  | case3 u v rest hpair ih =>
    rw [codePoints, if_pos hpair, List.map_cons, List.sum_cons, ih, unitsOf, if_pos, List.length_cons,
      List.length_cons]
    · omega
    · unfold pairCode
      omega
  | case4 u v rest hpair ih =>
    have hu := u.toNat_lt
    rw [codePoints, if_neg hpair, List.map_cons, List.sum_cons, ih, unitsOf, if_neg (by omega),
      List.length_cons (a := u)]
    omega

theorem pointStart_lt {text : Text} {i j : ℕ} (hij : i < j) (hj : j ≤ (codePoints text).length) :
    pointStart text i < pointStart text j := by
  unfold pointStart
  have hi : i < (codePoints text).length := by omega
  obtain ⟨more, rfl⟩ : ∃ more, j = i + (more + 1) := ⟨j - i - 1, by omega⟩
  rw [List.take_add, List.drop_eq_getElem_cons hi, List.take_succ_cons, List.map_append, List.map_cons, List.sum_append, List.sum_cons]
  have := unitsOf_pos (codePoints text)[i]
  omega

theorem pointStart_lt_length {text : Text} {i : ℕ} (hi : i < (codePoints text).length) :
    pointStart text i < text.length := by
  have hlt := pointStart_lt hi le_rfl
  unfold pointStart at hlt
  rwa [List.take_length, sum_unitsOf] at hlt

theorem getElem?_pointsFrom (tables : LetterTables) (codes : List ℕ) (start i : ℕ) :
    (pointsFrom tables start codes)[i]? = codes[i]?.map fun code =>
      ⟨start + ((codes.take i).map unitsOf).sum, unitsOf code, code, tables.lower code⟩ := by
  induction codes generalizing start i with
  | nil => rfl
  | cons code rest ih =>
    cases i with
    | zero => rfl
    | succ i =>
      rw [pointsFrom, List.getElem?_cons_succ, ih, List.getElem?_cons_succ, List.take_succ_cons,
        List.map_cons, List.sum_cons, Nat.add_assoc]

/-- The ranges are in order and apart, and cover the graphemes of an alignment of the code points,
each lowered on its own. -/
def FitsRanges (tables : LetterTables) (g : Graphemes) (query text : Text)
    (ranges : List OffsetRange) : Prop :=
  ∃ positions, Aligned (tables.folded text) (tables.folded query) positions ∧
    ranges.Pairwise (·.stop < ·.start) ∧ (∀ range ∈ ranges, range.start < range.stop) ∧
    ∀ k, Covered ranges k ↔ ∃ position ∈ positions, ∃ grapheme ∈ graphemeRanges g text,
      grapheme.Covers (pointStart text position) ∧ grapheme.Covers k

structure Finds (tables : LetterTables) (g : Graphemes) (query text : Text)
    (result : Option FuzzyMatch) : Prop where
  found : result.isSome = true ↔ (tables.folded query).Sublist (tables.folded text)
  literal : (codePoints query).Sublist (codePoints text) → result.isSome = true
  ranges : ∀ found, result = some found → FitsRanges tables g query text found.ranges

theorem Aligned.lt_length {κ : Type} {text query : List κ} {positions : List ℕ}
    (h : Aligned text query positions) : ∀ position ∈ positions, position < text.length := by
  intro position hposition
  obtain ⟨key, _, hkey⟩ := exists_left h.matching.flip position hposition
  exact (List.getElem?_eq_some_iff.mp hkey).1

theorem Aligned.map {κ ι : Type} {text query : List κ} {positions : List ℕ}
    (h : Aligned text query positions) (f : κ → ι) :
    Aligned (text.map f) (query.map f) positions := by
  refine ⟨h.increasing, ?_⟩
  rw [List.forall₂_map_right_iff]
  exact h.matching.imp fun position key hkey => by rw [List.getElem?_map, hkey, Option.map_some]

section Keys

variable {tables : LetterTables} {g : Graphemes} {query text : Text} {spanOf : ℕ → Option Span}
  (lengthOf : ℕ → ℕ)

theorem fitsRanges_of_aligned (hg : g.Printable) {positions : List ℕ}
    (haligned : Aligned (tables.folded text) (tables.folded query) positions)
    (hspan : ∀ position < (codePoints text).length,
      spanOf position = some ⟨pointStart text position, lengthOf position⟩)
    (hprintable : isPrintable text = true → ∀ position < (codePoints text).length,
      lengthOf position = 1) :
    FitsRanges tables g query text (rangesOf g text (positions.filterMap spanOf)) := by
  have hlt : ∀ position ∈ positions, position < (codePoints text).length := by
    intro position hposition
    have hlt := haligned.lt_length position hposition
    rwa [CaseTables.folded, List.length_map] at hlt
  have hspans : positions.filterMap spanOf =
      positions.map fun position => ⟨pointStart text position, lengthOf position⟩ := by
    rw [← List.filterMap_eq_map]
    refine List.filterMap_congr ?_
    intro position hposition
    exact hspan position (hlt position hposition)
  rw [hspans]
  obtain ⟨hapart, hproper, hcovered⟩ := rangesOf_spec hg text
    (List.pairwise_map.mpr (haligned.increasing.imp_of_mem fun {i j} _ hj hij =>
      show (Span.mk (pointStart text i) (lengthOf i)).start <
        (Span.mk (pointStart text j) (lengthOf j)).start from pointStart_lt hij (hlt j hj).le))
    (by
      intro span hmem
      obtain ⟨position, hposition, rfl⟩ := List.mem_map.mp hmem
      exact pointStart_lt_length (hlt position hposition))
    (by
      intro hprint span hmem
      obtain ⟨position, hposition, rfl⟩ := List.mem_map.mp hmem
      exact hprintable hprint position (hlt position hposition))
  refine ⟨positions, haligned, hapart, hproper, ?_⟩
  intro k
  rw [hcovered k]
  constructor
  · rintro ⟨span, hmem, hk⟩
    obtain ⟨position, hposition, rfl⟩ := List.mem_map.mp hmem
    exact ⟨position, hposition, hk⟩
  · rintro ⟨position, hposition, hk⟩
    exact ⟨_, List.mem_map_of_mem hposition, hk⟩

theorem fitsRanges_matchKeys {κ : Type} [DecidableEq κ] (hg : g.Printable) {bonus : ℕ → ℚ}
    {textKeys queryKeys : List κ} (hquery : queryKeys ≠ []) (hsub : queryKeys.Sublist textKeys)
    (hbridge : ∀ positions, Aligned textKeys queryKeys positions →
      Aligned (tables.folded text) (tables.folded query) positions)
    (hspan : ∀ position < (codePoints text).length,
      spanOf position = some ⟨pointStart text position, lengthOf position⟩)
    (hprintable : isPrintable text = true → ∀ position < (codePoints text).length,
      lengthOf position = 1) :
    FitsRanges tables g query text
      (matchKeys g text spanOf bonus textKeys queryKeys (greedyPoints 0 textKeys queryKeys)).ranges := by
  have hgreedy := hbridge _ (greedyPoints_aligned ((greedyPoints_spec 0 textKeys queryKeys).1.mp hsub))
  unfold matchKeys
  split
  · exact fitsRanges_of_aligned lengthOf hg hgreedy hspan hprintable
  · split
    · exact fitsRanges_of_aligned lengthOf hg hgreedy hspan hprintable
    · obtain ⟨score, positions, halign, haligned, _⟩ := align_optimal bonus hquery hsub
      rw [halign]
      dsimp only
      rw [List.reduceOption, List.filterMap_map, Function.comp_def]
      simp only [id_eq, List.filterMap_some]
      exact fitsRanges_of_aligned lengthOf hg (hbridge _ haligned) hspan hprintable

end Keys

section Finds

variable {tables : LetterTables} {g : Graphemes} {query text : Text}

theorem codePoints_ne_nil (h : text ≠ []) : codePoints text ≠ [] := by
  intro hnil
  have hsum := sum_unitsOf text
  rw [hnil] at hsum
  exact h (List.length_eq_zero_iff.mp hsum.symm)

theorem unitsOf_of_printable (h : isPrintable text = true) {position : ℕ}
    (hposition : position < (codePoints text).length) :
    unitsOf ((codePoints text).getD position 0) = 1 := by
  have hall : ∀ u ∈ text, u.toNat ≤ 0x7e := by
    intro u hu
    have hu := List.all_eq_true.mp h u hu
    simp only [Bool.and_eq_true, decide_eq_true_eq, UInt16.le_iff_toNat_le,
      UInt16.reduceToNat] at hu
    exact hu.2
  have hplain : ∀ u ∈ text, isSurrogate u = false := by
    intro u hu
    have := hall u hu
    simp only [isSurrogate, Bool.and_eq_false_iff, decide_eq_false_iff_not, UInt16.not_le,
      UInt16.lt_iff_toNat_lt, UInt16.reduceToNat]
    omega
  rw [codePoints_of_plain hplain] at hposition ⊢
  rw [List.length_map] at hposition
  rw [List.getD_eq_getElem _ _ (by rwa [List.length_map]), List.getElem_map, unitsOf, if_neg]
  have := hall _ (List.getElem_mem hposition)
  omega

theorem folded_pointsFrom (codes : List ℕ) (start : ℕ) :
    (pointsFrom tables start codes).map FuzzyPoint.folded = codes.map tables.lower := by
  induction codes generalizing start with
  | nil => rfl
  | cons code rest ih => rw [pointsFrom, List.map_cons, List.map_cons, ih]

theorem Finds.of_found {result : Option FuzzyMatch}
    (hfound : result.isSome = true ↔ (tables.folded query).Sublist (tables.folded text))
    (hranges : ∀ found, result = some found → FitsRanges tables g query text found.ranges) :
    Finds tables g query text result where
  found := hfound
  literal := fun h => hfound.mpr (h.map tables.lower)
  ranges := hranges

theorem finds_matchPoints (hg : g.Printable) (hquery : query ≠ []) :
    Finds tables g query text (matchPoints tables g query text) := by
  have hkeys : (pointsFrom tables 0 (codePoints text)).map FuzzyPoint.folded = tables.folded text :=
    folded_pointsFrom _ 0
  obtain ⟨hsub, hle, _⟩ := greedyPoints_spec 0 (tables.folded text) (tables.folded query)
  unfold matchPoints
  dsimp only
  rw [hkeys, ← CaseTables.folded]
  split
  · next hless =>
    refine .of_found ?_ (by intros; contradiction)
    rw [hsub]
    constructor
    · intro hsome
      cases hsome
    · intro heq
      omega
  · next hall =>
    have hfull : (tables.folded query).Sublist (tables.folded text) := hsub.mpr (by omega)
    refine .of_found ⟨fun _ => hfull, fun _ => rfl⟩ ?_
    intro found heq
    cases heq
    have hfoldedQuery : tables.folded query ≠ [] := by
      intro hnil
      exact codePoints_ne_nil hquery (List.map_eq_nil_iff.mp hnil)
    refine fitsRanges_matchKeys (fun position => unitsOf ((codePoints text).getD position 0)) hg
      hfoldedQuery hfull (fun _ h => h) ?_ ?_
    · intro position hposition
      rw [getElem?_pointsFrom, List.getElem?_eq_getElem hposition, List.getD_eq_getElem _ _ hposition]
      simp only [Option.map_some, Nat.zero_add]
      rfl
    · intro hprintable position hposition
      exact unitsOf_of_printable hprintable hposition

theorem plain_of_byUnits (h : byUnits tables query text = true) :
    (∀ u ∈ query, isSurrogate u = false) ∧ (∀ u ∈ text, isSurrogate u = false) ∧
      (tables.toLowerCase query).length = query.length ∧
      (tables.toLowerCase text).length = text.length := by
  simpa [byUnits, and_assoc] using h

theorem flatten_units {lists : List Text} (hne : ∀ list ∈ lists, list ≠ [])
    (h : lists.flatten.length = lists.length) : lists.flatten.map (fun u => [u]) = lists := by
  induction lists with
  | nil => rfl
  | cons list rest ih =>
    have hrestNe : ∀ other ∈ rest, other ≠ [] := fun other hother =>
      hne other (List.mem_cons_of_mem _ hother)
    have hle : rest.length ≤ rest.flatten.length := by
      clear ih h
      induction rest with
      | nil => exact le_rfl
      | cons other rest ih =>
        have hpos := List.length_pos_iff.mpr (hrestNe other List.mem_cons_self)
        have hmore := ih (fun x hx => by
          rcases List.mem_cons.mp hx with rfl | hx
          · exact hne x List.mem_cons_self
          · exact hrestNe x (List.mem_cons_of_mem _ hx)) fun x hx =>
            hrestNe x (List.mem_cons_of_mem _ hx)
        rw [List.flatten_cons, List.length_append, List.length_cons]
        omega
    have hpos := List.length_pos_iff.mpr (hne list List.mem_cons_self)
    rw [List.flatten_cons, List.length_append, List.length_cons] at h
    obtain ⟨u, rfl⟩ := List.length_eq_one_iff.mp (show list.length = 1 by omega)
    rw [List.flatten_cons, List.map_append, ih hrestNe (by omega)]
    rfl

theorem lowered_units (hplain : ∀ u ∈ text, isSurrogate u = false)
    (hlength : (tables.toLowerCase text).length = text.length) (hfinal : tables.NoFinalSigma text) :
    (tables.toLowerCase text).map (fun u => [u]) = tables.folded text := by
  rw [tables.toLowerCase_of_noFinal hfinal] at hlength ⊢
  refine flatten_units ?_ ?_
  · intro list hlist
    obtain ⟨code, _, rfl⟩ := List.mem_map.mp hlist
    exact tables.lower_ne_nil code
  · rw [hlength, CaseTables.folded, List.length_map, codePoints_of_plain hplain, List.length_map]

theorem pointStart_of_plain (hplain : ∀ u ∈ text, isSurrogate u = false) {position : ℕ}
    (hposition : position < (codePoints text).length) : pointStart text position = position := by
  unfold pointStart
  have hones : ∀ n ∈ ((codePoints text).take position).map unitsOf, n = 1 := by
    intro n hn
    obtain ⟨code, hcode, rfl⟩ := List.mem_map.mp hn
    have hmem := List.mem_of_mem_take hcode
    rw [codePoints_of_plain hplain] at hmem
    obtain ⟨u, _, rfl⟩ := List.mem_map.mp hmem
    have := u.toNat_lt
    exact if_neg (by omega)
  rw [List.eq_replicate_of_mem hones, List.sum_replicate, List.length_map, List.length_take,
    smul_eq_mul, Nat.mul_one]
  omega

theorem sublist_of_map {α β : Type} {f : α → β} (hf : Function.Injective f) {l l' : List α}
    (h : (l.map f).Sublist (l'.map f)) : l.Sublist l' := by
  obtain ⟨found, hfound, heq⟩ := List.sublist_map_iff.mp h
  rwa [List.map_injective_iff.mpr hf heq]

theorem finds_matchUnits (hg : g.Printable) (hquery : query ≠ [])
    (hunits : byUnits tables query text = true) (hfinalQuery : tables.NoFinalSigma query)
    (hfinalText : tables.NoFinalSigma text) :
    Finds tables g query text
      (matchUnits tables g (tables.toLowerCase query) text (tables.toLowerCase text)) := by
  obtain ⟨hplainQuery, hplainText, hlengthQuery, hlengthText⟩ := plain_of_byUnits hunits
  have hfoldedQuery := lowered_units hplainQuery hlengthQuery hfinalQuery
  have hfoldedText := lowered_units hplainText hlengthText hfinalText
  have hsub : (tables.toLowerCase query).Sublist (tables.toLowerCase text) ↔
      (tables.folded query).Sublist (tables.folded text) := by
    rw [← hfoldedQuery, ← hfoldedText]
    constructor
    · exact fun h => h.map _
    · exact sublist_of_map List.singleton_injective
  unfold matchUnits
  rw [greedyUnits_zero]
  split
  · next hfull =>
    refine .of_found ⟨fun _ => hsub.mp hfull, fun _ => rfl⟩ ?_
    intro found heq
    cases heq
    have hlower : tables.toLowerCase query ≠ [] := by
      intro hnil
      rw [hnil] at hlengthQuery
      exact hquery (List.length_eq_zero_iff.mp hlengthQuery.symm)
    refine fitsRanges_matchKeys (fun _ => 1) hg hlower hfull ?_ ?_ (fun _ _ _ => rfl)
    · intro positions haligned
      have haligned := haligned.map fun u => [u]
      rwa [hfoldedQuery, hfoldedText] at haligned
    · intro position hposition
      rw [pointStart_of_plain hplainText hposition]
  · next hnone =>
    refine .of_found ?_ nofun
    rw [← hsub]
    constructor
    · intro hsome
      cases hsome
    · exact fun h => absurd h hnone

end Finds

end Yuke.Tui
