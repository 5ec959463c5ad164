import Yuke.Ai.Stream.Draft
import Yuke.Ai.Value
import Yuke.Store.ColumnJson
import Yuke.Store.Rows

/-!
# The cells of a commit row

What the statement that saves a commit binds, what the table checks, and what a read of the row
gives. A database integer is signed, so it holds no count from `2 ^ 63` on.
-/

set_option autoImplicit false

namespace Yuke.Store.Cells

open Yuke.Ai (Block Origin Usage Value bind_eq_ok)
open Yuke.Engine (Answer Commit CommitDisplay Outcome Replaced TurnEnd)
open Yuke.Protocol (ConsumedInput SessionId SessionSettings StoredEvent)
open Yuke.Shared (Codec Json)

structure SerdeJson where
  print : Json → String
  parse : String → Option Json

def SerdeJson.Lossless (serde : SerdeJson) (json : Json) : Prop :=
  serde.parse (serde.print json) = some json

inductive RowError where
  | sql (error : SqlError)
  | json
  | check
  deriving DecidableEq

inductive Cell where
  | null
  | integer (n : Int)
  | text (text : String)
  deriving DecidableEq

def blocksJson (blocks : List Block) : Json := ColumnJson.block.list.write blocks

def consumedJson (consumed : List ConsumedInput) : Json :=
  ColumnJson.consumedInput.list.write consumed

def displayJson (display : CommitDisplay) : Json := ColumnJson.commitDisplay.write display

def displayOf (commit : Commit) : Option CommitDisplay :=
  if commit.display.calls.isEmpty && commit.display.results.isEmpty then none
  else some commit.display

def columnJson (commit : Commit) (consumed : List ConsumedInput) : List Json :=
  [blocksJson commit.blocks, consumedJson consumed] ++
    (commit.replaced.toList.map fun replaced => blocksJson replaced.head) ++
    (displayOf commit).toList.map displayJson

structure InsertCommitParams where
  blocks : String
  consumed : String
  head : Option String
  keep : Option Nat
  model : Option String
  baseUrl : Option String
  inputTokens : Option Nat
  outputTokens : Option Nat
  reasoningTokens : Option Nat
  cacheReadTokens : Option Nat
  cacheWriteTokens : Option Nat
  finishReason : Option String
  endKind : Option String
  endFinishReason : Option String
  endMessage : Option String
  display : Option String
  deriving DecidableEq

def commitParams (serde : SerdeJson) (commit : Commit) (consumed : List ConsumedInput) :
    InsertCommitParams :=
  let answer := commit.answer
  let usage := answer.map (·.usage)
  let ended := endColumns commit.end
  { blocks := serde.print (blocksJson commit.blocks)
    consumed := serde.print (consumedJson consumed)
    head := commit.replaced.map fun replaced => serde.print (blocksJson replaced.head)
    keep := commit.replaced.map (·.keep)
    model := answer.map (·.origin.model)
    baseUrl := answer.map (·.origin.baseUrl)
    inputTokens := usage.bind (·.input)
    outputTokens := usage.bind (·.output)
    reasoningTokens := usage.bind (·.reasoning)
    cacheReadTokens := usage.bind (·.cacheRead)
    cacheWriteTokens := usage.bind (·.cacheWrite)
    finishReason := answer.map (·.finishReason.asStr)
    endKind := ended.1
    endFinishReason := ended.2.1
    endMessage := ended.2.2
    display := (displayOf commit).map fun display => serde.print (displayJson display) }

structure EventCells where
  kind : Cell
  blocks : Cell := .null
  settings : Cell := .null
  consumed : Cell := .null
  head : Cell := .null
  keep : Cell := .null
  model : Cell := .null
  baseUrl : Cell := .null
  inputTokens : Cell := .null
  outputTokens : Cell := .null
  reasoningTokens : Cell := .null
  cacheReadTokens : Cell := .null
  cacheWriteTokens : Cell := .null
  finishReason : Cell := .null
  endKind : Cell := .null
  endFinishReason : Cell := .null
  endMessage : Cell := .null
  display : Cell := .null
  deriving DecidableEq

def EventCells.meetsChecks (row : EventCells) : Bool :=
  (row.kind == .text "commit" || row.kind == .text "settings") &&
    (row.endKind == .text completedKind) == (row.endFinishReason != .null) &&
    (row.endKind == .text failedKind) == (row.endMessage != .null)

def bindText : Option String → Cell
  | some text => .text text
  | none => .null

/-- A machine integer binds as a signed integer of 64 bits. -/
def bindCount : Option Nat → Except RowError Cell
  | some n => if n < 2 ^ 63 then .ok (.integer n) else .error (.sql .outOfRange)
  | none => .ok .null

def insertCommit (params : InsertCommitParams) : Except RowError EventCells := do
  let keep ← bindCount params.keep
  let inputTokens ← bindCount params.inputTokens
  let outputTokens ← bindCount params.outputTokens
  let reasoningTokens ← bindCount params.reasoningTokens
  let cacheReadTokens ← bindCount params.cacheReadTokens
  let cacheWriteTokens ← bindCount params.cacheWriteTokens
  let row : EventCells := {
    kind := .text "commit"
    blocks := .text params.blocks
    consumed := .text params.consumed
    head := bindText params.head
    keep := keep
    model := bindText params.model
    baseUrl := bindText params.baseUrl
    inputTokens := inputTokens
    outputTokens := outputTokens
    reasoningTokens := reasoningTokens
    cacheReadTokens := cacheReadTokens
    cacheWriteTokens := cacheWriteTokens
    finishReason := bindText params.finishReason
    endKind := bindText params.endKind
    endFinishReason := bindText params.endFinishReason
    endMessage := bindText params.endMessage
    display := bindText params.display }
  if row.meetsChecks then return row else throw .check

def readText (column : String) : Cell → Except RowError (Option String)
  | .null => .ok none
  | .text text => .ok (some text)
  | .integer _ => .error (.sql (.invalidColumnType column "Integer"))

def readCount (column : String) : Cell → Except RowError (Option Nat)
  | .null => .ok none
  | .integer n => if 0 ≤ n then .ok (some n.toNat) else .error (.sql .outOfRange)
  | .text _ => .error (.sql (.invalidColumnType column "Text"))

def readJson {α : Type} (serde : SerdeJson) (read : Json → Option α) (column : String) :
    Cell → Except RowError (Option α)
  | .null => .ok none
  | .text text =>
    match (serde.parse text).bind read with
    | some value => .ok (some value)
    | none => .error .json
  | .integer _ => .error (.sql (.invalidColumnType column "Integer"))

def readKind : Cell → Except RowError EventKind
  | .text text =>
    if text = "commit" then .ok .commit
    else if text = "settings" then .ok .settings
    else .error (.sql (.invalidColumnType "kind" "Text"))
  | _ => .error (.sql (.invalidColumnType "kind" "Null"))

/-- The columns of a row as the values that they hold. A commit row has no settings, so
`readSettings` can be any reader. -/
def readRow (serde : SerdeJson) (readSettings : Json → Option SessionSettings) (row : EventCells) :
    Except RowError EventColumns := do
  let kind ← readKind row.kind
  let blocks ← readJson serde ColumnJson.block.list.read "blocks" row.blocks
  let settings ← readJson serde readSettings "settings" row.settings
  let consumed ← readJson serde ColumnJson.consumedInput.list.read "consumed" row.consumed
  let head ← readJson serde ColumnJson.block.list.read "head" row.head
  let keep ← readCount "keep" row.keep
  let model ← readText "model" row.model
  let baseUrl ← readText "base_url" row.baseUrl
  let inputTokens ← readCount "input_tokens" row.inputTokens
  let outputTokens ← readCount "output_tokens" row.outputTokens
  let reasoningTokens ← readCount "reasoning_tokens" row.reasoningTokens
  let cacheReadTokens ← readCount "cache_read_tokens" row.cacheReadTokens
  let cacheWriteTokens ← readCount "cache_write_tokens" row.cacheWriteTokens
  let finishReason ← readText "finish_reason" row.finishReason
  let endKind ← readText "end_kind" row.endKind
  let endFinishReason ← readText "end_finish_reason" row.endFinishReason
  let endMessage ← readText "end_message" row.endMessage
  let display ← readJson serde ColumnJson.commitDisplay.read "display" row.display
  return ⟨kind, blocks, settings, consumed, head, keep, model, baseUrl, inputTokens, outputTokens,
    reasoningTokens, cacheReadTokens, cacheWriteTokens, finishReason, endKind, endFinishReason,
    endMessage, display⟩

/-- Read the row with event number `seq` as its event. -/
def readEvent (serde : SerdeJson) (readSettings : Json → Option SessionSettings) (id : Nat)
    (session : SessionId) (seq createdAt : Nat) (row : EventCells) : Except RowError StoredEvent := do
  let columns ← readRow serde readSettings row
  (storedEvent ⟨id, session, seq, columns, createdAt⟩).mapError .sql

/-! ## What a row keeps -/

theorem bindCount_of_lt {count : Option Nat} (h : ∀ n ∈ count, n < 2 ^ 63) :
    ∃ cell, bindCount count = .ok cell ∧ ∀ column, readCount column cell = .ok count := by
  cases count with
  | none => exact ⟨.null, rfl, fun _ => rfl⟩
  | some n =>
    refine ⟨.integer n, if_pos (h n rfl), fun column => ?_⟩
    simp [readCount]

theorem lt_of_bindCount {count : Option Nat} {cell : Cell} (h : bindCount count = .ok cell) :
    ∀ n ∈ count, n < 2 ^ 63 := by
  intro n hn
  cases hn
  by_contra hlarge
  rw [bindCount, if_neg hlarge] at h
  cases h

@[simp] theorem readText_bindText (column : String) (text : Option String) :
    readText column (bindText text) = .ok text := by
  cases text <;> rfl

theorem readJson_print {α : Type} {serde : SerdeJson} {codec : Codec α} {value : α}
    (h : serde.Lossless (codec.write value)) (column : String) :
    readJson serde codec.read column (.text (serde.print (codec.write value))) = .ok (some value) := by
  rw [SerdeJson.Lossless] at h
  simp [readJson, h]

theorem endColumns_meetsChecks (ended : Option TurnEnd) (row : EventCells)
    (hkind : row.kind = .text "commit") (hendKind : row.endKind = bindText (endColumns ended).1)
    (hreason : row.endFinishReason = bindText (endColumns ended).2.1)
    (hmessage : row.endMessage = bindText (endColumns ended).2.2) : row.meetsChecks = true := by
  rw [EventCells.meetsChecks, hkind, hendKind, hreason, hmessage]
  rcases ended with - | (finishReason | - | -) | message <;> rfl

def countsOf (commit : Commit) : List Nat :=
  ((commit.replaced.map (·.keep)) :: (commit.answer.map fun answer =>
    [answer.usage.input, answer.usage.output, answer.usage.reasoning, answer.usage.cacheRead,
      answer.usage.cacheWrite]).getD []).reduceOption

variable {serde : SerdeJson} {commit : Commit} {consumed : List ConsumedInput}

theorem mem_countsOf {n : Nat} : n ∈ countsOf commit ↔
    n ∈ commit.replaced.map (·.keep) ∨ ∃ answer ∈ commit.answer, n ∈ answer.usage.input ∨
      n ∈ answer.usage.output ∨ n ∈ answer.usage.reasoning ∨ n ∈ answer.usage.cacheRead ∨
      n ∈ answer.usage.cacheWrite := by
  rw [countsOf, List.reduceOption_mem_iff]
  cases commit.answer <;> simp [eq_comm]

theorem insertCommit_ok (readSettings : Json → Option SessionSettings)
    (hserde : ∀ json ∈ columnJson commit consumed, serde.Lossless json)
    (h : ∀ n ∈ countsOf commit, n < 2 ^ 63) :
    ∃ cells, insertCommit (commitParams serde commit consumed) = .ok cells ∧
      readRow serde readSettings cells = .ok (Store.commitParams commit consumed) := by
  have hblocks : serde.Lossless (blocksJson commit.blocks) := hserde _ (by simp [columnJson])
  have hconsumed : serde.Lossless (consumedJson consumed) := hserde _ (by simp [columnJson])
  have hhead : ∀ replaced ∈ commit.replaced, serde.Lossless (blocksJson replaced.head) := by
    intro replaced hreplaced
    exact hserde _ (by simp [columnJson, Option.mem_def.mp hreplaced])
  have hdisplay : ∀ display ∈ displayOf commit, serde.Lossless (displayJson display) := by
    intro display hdisplay
    exact hserde _ (by simp [columnJson, Option.mem_def.mp hdisplay])
  have husage : ∀ (count : Usage → Option Nat), (∀ usage, ∀ n ∈ count usage, n ∈ usage.input ∨
      n ∈ usage.output ∨ n ∈ usage.reasoning ∨ n ∈ usage.cacheRead ∨ n ∈ usage.cacheWrite) →
      ∃ cell, bindCount ((commit.answer.map (·.usage)).bind count) = .ok cell ∧
        ∀ column, readCount column cell = .ok ((commit.answer.map (·.usage)).bind count) := by
    intro count hcount
    refine bindCount_of_lt fun n hn => h n (mem_countsOf.mpr (.inr ?_))
    rw [Option.mem_def, Option.bind_eq_some_iff] at hn
    obtain ⟨usage, husage, hn⟩ := hn
    obtain ⟨answer, hanswer, rfl⟩ := Option.map_eq_some_iff.mp husage
    exact ⟨answer, hanswer, hcount answer.usage n hn⟩
  obtain ⟨keep, hkeep, hreadKeep⟩ := bindCount_of_lt
    fun n hn => h n (mem_countsOf.mpr (.inl hn))
  obtain ⟨input, hinput, hreadInput⟩ := husage (·.input) fun _ _ hn => .inl hn
  obtain ⟨output, houtput, hreadOutput⟩ := husage (·.output) fun _ _ hn => .inr (.inl hn)
  obtain ⟨reasoning, hreasoning, hreadReasoning⟩ :=
    husage (·.reasoning) fun _ _ hn => .inr (.inr (.inl hn))
  obtain ⟨cacheRead, hcacheRead, hreadCacheRead⟩ :=
    husage (·.cacheRead) fun _ _ hn => .inr (.inr (.inr (.inl hn)))
  obtain ⟨cacheWrite, hcacheWrite, hreadCacheWrite⟩ :=
    husage (·.cacheWrite) fun _ _ hn => .inr (.inr (.inr (.inr hn)))
  unfold insertCommit commitParams
  simp only [hkeep, hinput, houtput, hreasoning, hcacheRead, hcacheWrite, Store.ok_bind]
  rw [if_pos (endColumns_meetsChecks commit.end _ rfl rfl rfl rfl)]
  refine ⟨_, rfl, ?_⟩
  have hreadBlocks : readJson serde ColumnJson.block.list.read "blocks"
      (.text (serde.print (blocksJson commit.blocks))) = .ok (some commit.blocks) :=
    readJson_print hblocks "blocks"
  have hreadConsumed : readJson serde ColumnJson.consumedInput.list.read "consumed"
      (.text (serde.print (consumedJson consumed))) = .ok (some consumed) :=
    readJson_print hconsumed "consumed"
  have hreadHead : readJson serde ColumnJson.block.list.read "head"
      (bindText (commit.replaced.map fun replaced => serde.print (blocksJson replaced.head))) =
      .ok (commit.replaced.map (·.head)) := by
    cases hreplaced : commit.replaced with
    | none => rfl
    | some replaced => exact readJson_print (hhead replaced hreplaced) "head"
  have hreadDisplay : readJson serde ColumnJson.commitDisplay.read "display"
      (bindText ((displayOf commit).map fun display => serde.print (displayJson display))) =
      .ok (displayOf commit) := by
    cases hsome : displayOf commit with
    | none => rfl
    | some display => exact readJson_print (hdisplay display hsome) "display"
  have hkind : readKind (.text "commit") = .ok .commit := rfl
  have hnull : readJson serde readSettings "settings" .null = .ok none := rfl
  unfold readRow
  simp only [hkind, hreadBlocks, hnull, hreadConsumed, hreadHead, hreadKeep, readText_bindText,
    hreadInput, hreadOutput, hreadReasoning, hreadCacheRead, hreadCacheWrite, hreadDisplay,
    Store.ok_bind]
  rfl

theorem lt_of_insertCommit {cells : EventCells}
    (h : insertCommit (commitParams serde commit consumed) = .ok cells) :
    ∀ n ∈ countsOf commit, n < 2 ^ 63 := by
  simp only [insertCommit, bind_eq_ok] at h
  obtain ⟨keep, hkeep, input, hinput, output, houtput, reasoning, hreasoning, cacheRead, hcacheRead,
    cacheWrite, hcacheWrite, -⟩ := h
  intro n hn
  rcases mem_countsOf.mp hn with hn | ⟨answer, hanswer, hn⟩
  · exact lt_of_bindCount hkeep n hn
  · have husage : commit.answer.map (·.usage) = some answer.usage := by
      rw [Option.mem_def.mp hanswer]
      rfl
    simp only [commitParams, husage, Option.bind_some] at hinput houtput hreasoning
    simp only [commitParams, husage, Option.bind_some] at hcacheRead hcacheWrite
    rcases hn with hn | hn | hn | hn | hn
    · exact lt_of_bindCount hinput n hn
    · exact lt_of_bindCount houtput n hn
    · exact lt_of_bindCount hreasoning n hn
    · exact lt_of_bindCount hcacheRead n hn
    · exact lt_of_bindCount hcacheWrite n hn

def Survives (serde : SerdeJson) (readSettings : Json → Option SessionSettings) (commit : Commit)
    (consumed : List ConsumedInput) : Prop :=
  ∃ cells, insertCommit (commitParams serde commit consumed) = .ok cells ∧
    ∀ id session seq createdAt, readEvent serde readSettings id session seq createdAt cells =
      .ok ⟨⟨seq⟩, .commit commit consumed⟩

/-- A commit survives the database exactly when the database can hold its counts. -/
theorem survives_iff (readSettings : Json → Option SessionSettings)
    (hserde : ∀ json ∈ columnJson commit consumed, serde.Lossless json) :
    Survives serde readSettings commit consumed ↔ ∀ n ∈ countsOf commit, n < 2 ^ 63 := by
  constructor
  · intro ⟨cells, hinsert, _⟩
    exact lt_of_insertCommit hinsert
  · intro h
    obtain ⟨cells, hinsert, hread⟩ := insertCommit_ok readSettings hserde h
    refine ⟨cells, hinsert, fun id session seq createdAt => ?_⟩
    have hevent : storedEvent ⟨id, session, seq, Store.commitParams commit consumed, createdAt⟩ =
        .ok ⟨⟨seq⟩, .commit commit consumed⟩ := storedEvent_columnsOf rfl
    rw [readEvent, hread, Store.ok_bind, hevent]
    rfl

def serdeEmpty : SerdeJson where
  print _ := "[]"
  parse text := Json.parse text.toList

/-- A turn that ends with an answer of no blocks, whose host counts `output` tokens. -/
def answered (output : Nat) : Commit where
  blocks := []
  answer := some {
    origin := ⟨"m", "https://h"⟩
    usage := { output := some output }
    finishReason := .stop }
  «end» := some (.outcome (.completed .stop))

theorem survives_answered :
    Survives serdeEmpty (fun _ => none) (answered 7) [] ↔ ∀ n ∈ countsOf (answered 7), n < 2 ^ 63 :=
  survives_iff (fun _ => none) (by
    intro json hjson
    obtain rfl | rfl : json = blocksJson [] ∨ json = consumedJson [] := by
      simpa [columnJson, displayOf, answered] using hjson
    · rfl
    · rfl)

/-- A count that the reader of a usage takes makes the save of its commit fail. -/
theorem not_survives_answered :
    (Value.object [("output_tokens", .unsigned (2 ^ 63))]).count "output_tokens" = some (2 ^ 63) ∧
      insertCommit (commitParams serdeEmpty (answered (2 ^ 63)) []) = .error (.sql .outOfRange) ∧
      ¬ Survives serdeEmpty (fun _ => none) (answered (2 ^ 63)) [] := by
  have hinsert : insertCommit (commitParams serdeEmpty (answered (2 ^ 63)) []) =
      .error (.sql .outOfRange) := rfl
  refine ⟨rfl, hinsert, ?_⟩
  intro ⟨cells, hcells, _⟩
  rw [hinsert] at hcells
  cases hcells

end Yuke.Store.Cells
