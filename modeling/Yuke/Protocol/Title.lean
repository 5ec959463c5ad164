import Mathlib

/-!
# Session titles

A title is a text with normalized white space, so a title that is read back from its text is the
same title.
-/

set_option autoImplicit false

namespace Yuke.Protocol

def isWhitespace (c : Char) : Bool :=
  let n := c.toNat
  (0x09 ≤ n && n ≤ 0x0d) || n = 0x20 || n = 0x85 || n = 0xa0 || n = 0x1680 ||
    (0x2000 ≤ n && n ≤ 0x200a) || n = 0x2028 || n = 0x2029 || n = 0x202f || n = 0x205f || n = 0x3000

def splitWhitespace (text : List Char) : List (List Char) :=
  (text.splitOnP isWhitespace).filter fun word => !word.isEmpty

def normalize (text : List Char) : List Char := [' '].intercalate (splitWhitespace text)

def normalizeTitle (text : String) : String := String.ofList (normalize text.toList)

def trimEnd (text : List Char) : List Char := text.rdropWhile isWhitespace

/-! ## Normal texts -/

def Words (words : List (List Char)) : Prop :=
  ∀ word ∈ words, word ≠ [] ∧ ∀ c ∈ word, isWhitespace c = false

theorem splitOnP_no_match {α : Type} {p : α → Bool} (xs : List α) :
    ∀ part ∈ xs.splitOnP p, ∀ x ∈ part, p x = false := by
  induction xs with
  | nil => simp
  | cons x xs ih =>
    rw [List.splitOnP_cons_eq_if_modifyHead]
    split
    · simpa using ih
    · next hx =>
      cases hparts : xs.splitOnP p with
      | nil => simp
      | cons part parts =>
        rw [hparts] at ih
        simp only [List.modifyHead_cons, List.mem_cons, forall_eq_or_imp] at ih ⊢
        exact ⟨⟨by simpa using hx, ih.1⟩, ih.2⟩

theorem words_splitWhitespace (text : List Char) : Words (splitWhitespace text) := by
  intro word hword
  obtain ⟨hpart, hne⟩ := List.mem_filter.mp hword
  exact ⟨by simpa using hne, splitOnP_no_match text word hpart⟩

theorem splitWhitespace_intercalate {words : List (List Char)} (h : Words words) :
    splitWhitespace ([' '].intercalate words) = words := by
  induction words with
  | nil => simp [splitWhitespace]
  | cons word words ih =>
    obtain ⟨hne, hword⟩ := h word List.mem_cons_self
    have hrest : Words words := fun w hw => h w (List.mem_cons_of_mem _ hw)
    have hspace : isWhitespace ' ' = true := by decide
    rcases List.eq_nil_or_concat words with hnil | ⟨_, _, hconcat⟩
    · subst hnil
      simp [splitWhitespace, List.splitOnP_eq_singleton hword, hne]
    · have hwords : words ≠ [] := by simp [hconcat]
      rw [List.intercalate_cons_of_ne_nil hwords, List.append_assoc, List.singleton_append,
        splitWhitespace, List.splitOnP_append_cons_of_forall_mem hword _ hspace]
      rw [splitWhitespace] at ih
      simp [ih hrest, hne]

theorem normalize_intercalate {words : List (List Char)} (h : Words words) :
    normalize ([' '].intercalate words) = [' '].intercalate words := by
  rw [normalize, splitWhitespace_intercalate h]

theorem trimEnd_word {word : List Char} (h : ∀ c ∈ word, isWhitespace c = false) :
    trimEnd word = word := by
  refine List.rdropWhile_eq_self_iff.mpr fun hne => ?_
  simp [h _ (List.getLast_mem hne)]

theorem trimEnd_append_space (word rest : List Char) :
    trimEnd (word ++ ' ' :: rest) =
      if trimEnd rest = [] then trimEnd word else word ++ ' ' :: trimEnd rest := by
  induction rest using List.reverseRecOn with
  | nil =>
    have hspace : isWhitespace ' ' = true := by decide
    simp [trimEnd, List.rdropWhile_concat_pos _ _ _ hspace]
  | append_singleton rest c ih =>
    have hassoc : word ++ ' ' :: (rest ++ [c]) = (word ++ ' ' :: rest) ++ [c] := by simp
    rw [hassoc]
    unfold trimEnd at ih ⊢
    by_cases hc : isWhitespace c
    · rw [List.rdropWhile_concat_pos _ _ _ hc, List.rdropWhile_concat_pos _ _ _ hc, ih]
    · rw [List.rdropWhile_concat_neg _ _ _ hc, List.rdropWhile_concat_neg _ _ _ hc]
      simp

theorem exists_words_trimEnd_take {words : List (List Char)} (h : Words words) (n : Nat) :
    ∃ fewer, Words fewer ∧ trimEnd (([' '].intercalate words).take n) = [' '].intercalate fewer := by
  induction words generalizing n with
  | nil => exact ⟨[], by simp [Words], by simp [trimEnd]⟩
  | cons word words ih =>
    obtain ⟨hne, hword⟩ := h word List.mem_cons_self
    have hrest : Words words := fun w hw => h w (List.mem_cons_of_mem _ hw)
    have hcut : ∀ m, ∃ fewer, Words fewer ∧ trimEnd (word.take m) = [' '].intercalate fewer := by
      intro m
      rw [trimEnd_word fun c hc => hword c (List.mem_of_mem_take hc)]
      by_cases hm : word.take m = []
      · exact ⟨[], by simp [Words], by simp [hm]⟩
      · refine ⟨[word.take m], ?_, by simp⟩
        simpa [Words, hm] using fun c hc => hword c (List.mem_of_mem_take hc)
    by_cases hwords : words = []
    · subst hwords
      simpa using hcut n
    rw [List.intercalate_cons_of_ne_nil hwords, List.append_assoc, List.singleton_append]
    rcases Nat.lt_or_ge word.length n with hn | hn
    · obtain ⟨k, rfl⟩ : ∃ k, n = word.length + (k + 1) := ⟨n - word.length - 1, by omega⟩
      obtain ⟨fewer, hfewer, heq⟩ := ih hrest k
      rw [List.take_append, List.take_of_length_le (by omega), Nat.add_sub_cancel_left,
        List.take_succ_cons, trimEnd_append_space, heq]
      split
      · rw [trimEnd_word hword]
        exact ⟨[word], by simpa [Words, hne] using hword, by simp⟩
      · next hfewer' =>
        have hfewer_ne : fewer ≠ [] := by rintro rfl; simp at hfewer'
        refine ⟨word :: fewer, ?_, ?_⟩
        · intro w hw
          rcases List.mem_cons.mp hw with rfl | hw
          · exact ⟨hne, hword⟩
          · exact hfewer w hw
        · rw [List.intercalate_cons_of_ne_nil hfewer_ne]
          simp
    · rw [List.take_append, Nat.sub_eq_zero_of_le hn]
      simpa using hcut n

theorem normalize_normalize (text : List Char) : normalize (normalize text) = normalize text :=
  normalize_intercalate (words_splitWhitespace text)

theorem normalize_trimEnd_take (text : List Char) (n : Nat) :
    normalize (trimEnd ((normalize text).take n)) = trimEnd ((normalize text).take n) := by
  obtain ⟨fewer, hfewer, heq⟩ := exists_words_trimEnd_take (words_splitWhitespace text) n
  change trimEnd ((normalize text).take n) = _ at heq
  rw [heq, normalize_intercalate hfewer]

def maxCharacters : Nat := 200

structure SessionTitle where
  text : String
  normal : normalizeTitle text = text
  nonempty : text ≠ ""
  short : text.toList.length ≤ maxCharacters
  deriving DecidableEq

theorem SessionTitle.ext {a b : SessionTitle} (h : a.text = b.text) : a = b := by
  cases a
  cases b
  cases h
  rfl

def SessionTitle.new (text : String) : Option SessionTitle :=
  if h : normalizeTitle text ≠ "" ∧ (normalizeTitle text).toList.length ≤ maxCharacters then some {
    text := normalizeTitle text
    normal := by simp [normalizeTitle, normalize_normalize]
    nonempty := h.1
    short := h.2 }
  else none

def SessionTitle.fromText (text : String) : Option SessionTitle :=
  let cut := trimEnd ((normalize text.toList).take maxCharacters)
  if h : String.ofList cut ≠ "" then some {
    text := String.ofList cut
    normal := by simp [normalizeTitle, cut, normalize_trimEnd_take]
    nonempty := h
    short := by
      have htrim := (List.rdropWhile_prefix isWhitespace (l := (normalize text.toList).take
        maxCharacters)).length_le
      rw [List.length_take] at htrim
      rw [String.toList_ofList]
      exact htrim.trans (Nat.min_le_left _ _) }
  else none

@[simp] theorem SessionTitle.new_text (title : SessionTitle) :
    SessionTitle.new title.text = some title := by
  have hvalid : normalizeTitle title.text ≠ "" ∧
      (normalizeTitle title.text).toList.length ≤ maxCharacters := by
    rw [title.normal]
    exact ⟨title.nonempty, title.short⟩
  rw [SessionTitle.new, dif_pos hvalid]
  exact congrArg some (SessionTitle.ext title.normal)

end Yuke.Protocol
