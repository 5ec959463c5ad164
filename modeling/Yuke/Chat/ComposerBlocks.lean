import Yuke.Chat.Composer

/-!
# Drafts and their blocks

The blocks of a draft give a draft with the same blocks, and a draft above another one keeps the text
and the images of both.
-/

set_option autoImplicit false

namespace Yuke.Chat

open Yuke.Tui

theorem trimStart_trimStart (text : Text) : trimStart (trimStart text) = trimStart text :=
  List.dropWhile_idempotent isSpace text

theorem trimEnd_trimEnd (text : Text) : trimEnd (trimEnd text) = trimEnd text :=
  List.rdropWhile_idempotent isSpace text

theorem trimStart_trim (text : Text) : trimStart (trim text) = trim text := by
  unfold trim
  rcases hend : trimEnd (trimStart text) with _ | ⟨unit, rest⟩
  · rfl
  · obtain ⟨dropped, hsplit⟩ := List.rdropWhile_prefix isSpace (l := trimStart text)
    have hstart : trimStart text = unit :: (rest ++ dropped) := by
      rw [← hsplit]
      exact congrArg (· ++ dropped) hend
    have hunit : isSpace unit = false := by
      have hhead := List.head_dropWhile_not isSpace (l := text) (by
        change trimStart text ≠ []
        rw [hstart]
        exact List.cons_ne_nil _ _)
      simpa [show text.dropWhile isSpace = _ from hstart] using hhead
    exact List.dropWhile_cons_of_neg (by rw [hunit]; exact Bool.false_ne_true)

inductive Alternating : List InputBlock → Prop where
  | nil : Alternating []
  | text (text : Text) : Alternating [.userText text]
  | media (media : Media) {rest : List InputBlock} (h : Alternating rest) :
      Alternating (.media media :: rest)
  | textMedia (text : Text) (media : Media) {rest : List InputBlock} (h : Alternating rest) :
      Alternating (.userText text :: .media media :: rest)

theorem alternating_splitBlocks (text : Text) (start : ℕ) (spans : List EditorSpan) :
    Alternating (splitBlocks text start spans) := by
  induction spans generalizing start with
  | nil =>
    unfold splitBlocks textBlock
    split
    · exact .text _
    · exact .nil
  | cons span spans ih =>
    unfold splitBlocks
    split
    · exact ih start
    · next media _ =>
      unfold textBlock
      split
      · exact .textMedia _ media (ih span.stop)
      · exact .media media (ih span.stop)

abbrev trimHead (blocks : List InputBlock) : List InputBlock :=
  blocks.modifyHead (.mapText trimStart)

abbrev trimLast (blocks : List InputBlock) : List InputBlock := mapLast (.mapText trimEnd) blocks

abbrev noBlanks (blocks : List InputBlock) : List InputBlock :=
  blocks.filter fun block => !block.isBlank

theorem alternating_trimHead {blocks : List InputBlock} (h : Alternating blocks) :
    Alternating (trimHead blocks) := by
  cases h with
  | nil => exact .nil
  | text text => exact .text _
  | media media hrest => exact .media media hrest
  | textMedia text media hrest => exact .textMedia _ media hrest

theorem trimLast_media (media : Media) (blocks : List InputBlock) :
    trimLast (.media media :: blocks) = .media media :: trimLast blocks := by
  cases blocks <;> rfl

theorem trimLast_textMedia (text : Text) (media : Media) (blocks : List InputBlock) :
    trimLast (.userText text :: .media media :: blocks) =
      .userText text :: .media media :: trimLast blocks := by
  rw [← trimLast_media]
  rfl

theorem noBlanks_media (media : Media) (blocks : List InputBlock) :
    noBlanks (.media media :: blocks) = .media media :: noBlanks blocks := rfl

theorem noBlanks_text (text : Text) (blocks : List InputBlock) :
    noBlanks (.userText text :: blocks) =
      if trim text = [] then noBlanks blocks else .userText text :: noBlanks blocks := by
  unfold noBlanks
  rw [List.filter_cons]
  simp only [InputBlock.isBlank]
  split_ifs <;> simp_all

theorem alternating_trimLast {blocks : List InputBlock} (h : Alternating blocks) :
    Alternating (trimLast blocks) := by
  induction h with
  | nil => exact .nil
  | text text => exact .text _
  | media media _ ih =>
    rw [trimLast_media]
    exact .media media ih
  | textMedia text media _ ih =>
    rw [trimLast_textMedia]
    exact .textMedia text media ih

theorem alternating_noBlanks {blocks : List InputBlock} (h : Alternating blocks) :
    Alternating (noBlanks blocks) := by
  induction h with
  | nil => exact .nil
  | text text =>
    rw [noBlanks_text]
    split
    · exact .nil
    · exact .text text
  | media media _ ih => exact .media media ih
  | textMedia text media _ ih =>
    rw [noBlanks_text, noBlanks_media]
    split
    · exact .media media ih
    · exact .textMedia text media ih

theorem trimLast_noBlanks {blocks : List InputBlock} (h : Alternating blocks) :
    trimLast (noBlanks (trimLast blocks)) = noBlanks (trimLast blocks) := by
  induction h with
  | nil => rfl
  | text text =>
    change trimLast (noBlanks [.userText (trimEnd text)]) = noBlanks [.userText (trimEnd text)]
    rw [noBlanks_text]
    split
    · rfl
    · change [InputBlock.userText (trimEnd (trimEnd text))] = [InputBlock.userText (trimEnd text)]
      rw [trimEnd_trimEnd]
  | media media _ ih => rw [trimLast_media, noBlanks_media, trimLast_media, ih]
  | textMedia text media _ ih =>
    rw [trimLast_textMedia, noBlanks_text, noBlanks_media]
    split
    · rw [trimLast_media, ih]
    · rw [trimLast_textMedia, ih]

theorem trimHead_noBlanks {blocks : List InputBlock} (h : Alternating blocks) :
    trimHead (noBlanks (trimLast (trimHead blocks))) = noBlanks (trimLast (trimHead blocks)) := by
  cases h with
  | nil => rfl
  | text text =>
    change trimHead (noBlanks [.userText (trim text)]) = noBlanks [.userText (trim text)]
    rw [noBlanks_text]
    split
    · rfl
    · change [InputBlock.userText (trimStart (trim text))] = [InputBlock.userText (trim text)]
      rw [trimStart_trim]
  | media media hrest =>
    change trimHead (noBlanks (trimLast (.media media :: _))) = noBlanks (trimLast (.media media :: _))
    rw [trimLast_media]
    rfl
  | textMedia text media hrest =>
    change trimHead (noBlanks (trimLast (.userText (trimStart text) :: .media media :: _))) =
      noBlanks (trimLast (.userText (trimStart text) :: .media media :: _))
    rw [trimLast_textMedia, noBlanks_text, noBlanks_media]
    split
    · rfl
    · change InputBlock.userText (trimStart (trimStart text)) :: _ = _
      rw [trimStart_trimStart]

/-! ## The draft of blocks -/

def blocksText : List InputBlock → Text
  | [] => []
  | .userText text :: blocks => text ++ blocksText blocks
  | .media _ :: blocks => imageText ++ blocksText blocks
  | .other :: blocks => blocksText blocks

def blocksMedia (blocks : List InputBlock) : List Media :=
  blocks.filterMap fun
    | .media media => some media
    | _ => none

/-- The spans of the blocks at `start`, with `count` images before them. -/
def blocksSpans : ℕ → ℕ → List InputBlock → List EditorSpan
  | _, _, [] => []
  | start, count, .userText text :: blocks => blocksSpans (start + text.length) count blocks
  | start, count, .media media :: blocks =>
    { start := start, stop := start + 1, kind := .image media, label := imageLabel count } ::
      blocksSpans (start + 1) (count + 1) blocks
  | start, count, .other :: blocks => blocksSpans start count blocks

theorem foldl_addBlock (blocks : List InputBlock) (text : Text) (spans : List EditorSpan) :
    blocks.foldl addBlock (text, spans) =
      (text ++ blocksText blocks, spans ++ blocksSpans text.length spans.length blocks) := by
  induction blocks generalizing text spans with
  | nil => rw [List.foldl_nil, blocksText, blocksSpans, List.append_nil, List.append_nil]
  | cons block blocks ih =>
    cases block with
    | userText more =>
      rw [List.foldl_cons, addBlock, ih, blocksText, blocksSpans, List.append_assoc,
        List.length_append]
    | media media =>
      rw [List.foldl_cons, addBlock, ih, blocksText, blocksSpans, List.append_assoc,
        List.length_append, List.length_append, List.append_assoc]
      rfl
    | other => rw [List.foldl_cons, addBlock, ih, blocksText, blocksSpans]

theorem draftOf_eq (content : List InputBlock) :
    (draftOf content).text = blocksText content ∧
      (draftOf content).spans = blocksSpans 0 0 content := by
  unfold draftOf
  rw [foldl_addBlock]
  exact ⟨List.nil_append _, List.nil_append _⟩

theorem textBlock_mid {text : Text} (before after : Text) (h : text ≠ []) :
    textBlock (before ++ (text ++ after)) before.length (before.length + text.length) =
      [.userText text] := by
  have hpos := List.length_pos_of_ne_nil h
  unfold textBlock slice
  rw [if_pos (by omega), List.take_length_add_append, List.drop_left, List.take_left]

theorem textBlock_self (text : Text) (start : ℕ) : textBlock text start start = [] :=
  if_neg (lt_irrefl start)

theorem splitBlocks_media (media : Media) (blocks : List InputBlock) (before : Text) (count : ℕ)
    (h : splitBlocks ((before ++ imageText) ++ blocksText blocks) (before ++ imageText).length
      (blocksSpans (before ++ imageText).length (count + 1) blocks) = blocks) (start : ℕ) :
    splitBlocks (before ++ blocksText (.media media :: blocks)) start
        (blocksSpans before.length count (.media media :: blocks)) =
      textBlock (before ++ blocksText (.media media :: blocks)) start before.length ++
        .media media :: blocks := by
  rw [blocksSpans, splitBlocks]
  have hlength : (before ++ imageText).length = before.length + 1 := List.length_append
  rw [hlength, List.append_assoc] at h
  exact congrArg (fun rest => _ ++ .media media :: rest) h

def spanMedia (spans : List EditorSpan) : List Media :=
  spans.filterMap fun span =>
    match span.kind with
    | .image media => some media
    | .paste => none

theorem spanMedia_blocksSpans (start count : ℕ) (blocks : List InputBlock) :
    spanMedia (blocksSpans start count blocks) = blocksMedia blocks := by
  induction blocks generalizing start count with
  | nil => rfl
  | cons block blocks ih =>
    cases block with
    | userText text => exact ih (start + text.length) count
    | media media => exact congrArg (media :: ·) (ih (start + 1) (count + 1))
    | other => exact ih start count

theorem spanMedia_draftOf (content : List InputBlock) :
    spanMedia (draftOf content).spans = blocksMedia content := by
  rw [(draftOf_eq content).2]
  exact spanMedia_blocksSpans 0 0 content

theorem splitBlocks_blocks {blocks : List InputBlock} (h : Alternating blocks)
    (hfull : ∀ text, .userText text ∈ blocks → text ≠ []) (before : Text) (count : ℕ) :
    splitBlocks (before ++ blocksText blocks) before.length
      (blocksSpans before.length count blocks) = blocks := by
  induction h generalizing before count with
  | nil =>
    rw [blocksText, blocksSpans, splitBlocks, List.append_nil]
    exact textBlock_self _ _
  | text text =>
    rw [blocksText, blocksText, blocksSpans, blocksSpans, splitBlocks, List.length_append,
      List.append_nil]
    have := textBlock_mid before [] (hfull text (by simp))
    rwa [List.append_nil] at this
  | media media _ ih =>
    rw [splitBlocks_media media _ before count
      (ih (fun text hmem => hfull text (by simp [hmem])) _ _), textBlock_self]
    rfl
  | @textMedia text media rest _ ih =>
    have hrest := ih (fun text hmem => hfull text (by simp [hmem])) (before ++ text ++ imageText)
      (count + 1)
    have hmedia := splitBlocks_media media _ (before ++ text) count hrest before.length
    have hmid := textBlock_mid before (blocksText (.media media :: rest)) (hfull text (by simp))
    rw [List.length_append, List.append_assoc] at hmedia
    rw [blocksSpans, blocksText, hmedia, hmid]
    rfl

theorem noBlanks_noBlanks (blocks : List InputBlock) :
    noBlanks (noBlanks blocks) = noBlanks blocks := by
  unfold noBlanks
  rw [List.filter_filter]
  simp only [Bool.and_self]

theorem trim_nil : trim [] = [] := rfl

theorem noBlanks_full {blocks : List InputBlock} {text : Text}
    (h : .userText text ∈ noBlanks blocks) : text ≠ [] := by
  intro hnil
  have hblank := (List.mem_filter.mp h).2
  rw [hnil] at hblank
  exact absurd hblank (by simp [InputBlock.isBlank, trim_nil])

theorem blocksOf_eq (draft : EditorState) :
    blocksOf draft = noBlanks (trimLast (trimHead (splitBlocks draft.text 0 draft.spans))) := rfl

theorem blocksOf_draftOf (draft : EditorState) :
    blocksOf (draftOf (blocksOf draft)) = blocksOf draft := by
  have hsplit := alternating_splitBlocks draft.text 0 draft.spans
  have hhead := alternating_trimHead hsplit
  have halternating := alternating_noBlanks (alternating_trimLast hhead)
  have hapart := splitBlocks_blocks halternating (fun _ => noBlanks_full) [] 0
  obtain ⟨htext, hspans⟩ := draftOf_eq (blocksOf draft)
  calc blocksOf (draftOf (blocksOf draft))
      = noBlanks (trimLast (trimHead (splitBlocks (draftOf (blocksOf draft)).text 0
          (draftOf (blocksOf draft)).spans))) := rfl
    _ = noBlanks (trimLast (trimHead (blocksOf draft))) := by
        rw [htext, hspans]
        exact congrArg (fun blocks => noBlanks (trimLast (trimHead blocks))) hapart
    _ = noBlanks (blocksOf draft) := by
        rw [blocksOf_eq, trimHead_noBlanks hsplit, trimLast_noBlanks hhead]
    _ = blocksOf draft := noBlanks_noBlanks _

end Yuke.Chat
