import Yuke.Ai.Request

/-!
# What a call answers

The streamed events, and the collected answer of one attempt.
-/

set_option autoImplicit false

namespace Yuke.Ai

inductive FinishReason where
  | stop
  | length
  | contentFilter
  | refusal
  | toolCalls
  | pause
  | unknown
  deriving DecidableEq

def FinishReason.asStr : FinishReason → String
  | .stop => "stop"
  | .length => "length"
  | .contentFilter => "content_filter"
  | .refusal => "refusal"
  | .toolCalls => "tool_calls"
  | .pause => "pause"
  | .unknown => "unknown"

def FinishReason.fromName (name : String) : Option FinishReason :=
  if name = "stop" then some .stop
  else if name = "length" then some .length
  else if name = "content_filter" then some .contentFilter
  else if name = "refusal" then some .refusal
  else if name = "tool_calls" then some .toolCalls
  else if name = "pause" then some .pause
  else if name = "unknown" then some .unknown
  else none

theorem FinishReason.fromName_asStr (reason : FinishReason) :
    FinishReason.fromName reason.asStr = some reason := by
  cases reason <;> decide

/-- Token counts of one attempt. A missing count is not zero. -/
structure Usage where
  input : Option Nat := none
  output : Option Nat := none
  reasoning : Option Nat := none
  cacheRead : Option Nat := none
  cacheWrite : Option Nat := none
  deriving DecidableEq

structure ResponseLimits where
  maxResponseBytes : Nat := 64 * 2 ^ 20
  maxEventBytes : Nat := 4 * 2 ^ 20
  maxToolArgBytes : Nat := 2 ^ 20
  maxBlocks : Nat := 1024
  maxErrorBodyBytes : Nat := 4096
  deriving DecidableEq

abbrev BlockId := Nat

inductive BlockKind where
  | text
  | refusal
  | reasoning
  | toolCall
  deriving DecidableEq

inductive BlockResult where
  | text
  | refusal
  | reasoning (replay : Option ReasoningReplay)
  | toolCall (call : ToolCall)
  deriving DecidableEq

inductive Event where
  | blockStarted (block : BlockId) (kind : BlockKind)
  | textDelta (block : BlockId) (text : String)
  | refusalDelta (block : BlockId) (text : String)
  | reasoningDelta (block : BlockId) (text : String)
  | reasoningSectionStarted (block : BlockId)
  | toolInputDelta (block : BlockId) (text : String)
  | blockStopped (block : BlockId) (result : BlockResult)
  | done (finishReason : FinishReason) (rawFinishReason : String) (usage : Usage)
  deriving DecidableEq

inductive Content where
  | text (text : String)
  | refusal (text : String)
  | reasoning (reasoning : Reasoning)
  | toolCall (call : ToolCall)
  deriving DecidableEq

def Content.toBlock : Content → Block
  | .text t | .refusal t => .assistantText t
  | .reasoning r => .reasoning r
  | .toolCall call => .toolCall call

/-- One output part of a failed attempt, without replay state. -/
inductive Partial where
  | text (text : String)
  | refusal (text : String)
  | reasoning (text : String)
  | toolCall (call : ToolCall)
  deriving DecidableEq

def Partial.toBlock : Partial → Block
  | .text t | .refusal t => .assistantText t
  | .reasoning t => .reasoning ⟨t, none⟩
  | .toolCall call => .toolCall call

structure PartialBlock where
  block : BlockId
  content : Partial
  deriving DecidableEq

structure Completion where
  content : List Content
  finishReason : FinishReason
  rawFinishReason : String
  usage : Usage
  deriving DecidableEq

def Content.toolCall? : Content → Option ToolCall
  | .toolCall call => some call
  | _ => none

def Block.toolCall? : Block → Option ToolCall
  | .toolCall call => some call
  | _ => none

def Completion.toolCalls (completion : Completion) : List ToolCall :=
  completion.content.filterMap Content.toolCall?

def Completion.intoBlocks (completion : Completion) : List Block :=
  completion.content.map Content.toBlock

def toolCallsOf (blocks : List Block) : List ToolCall := blocks.filterMap Block.toolCall?

@[simp] theorem toolCallsOf_nil : toolCallsOf [] = [] := rfl

@[simp] theorem toolCallsOf_append (xs ys : List Block) :
    toolCallsOf (xs ++ ys) = toolCallsOf xs ++ toolCallsOf ys :=
  List.filterMap_append

@[simp] theorem Content.toolCall?_toBlock (part : Content) :
    part.toBlock.toolCall? = part.toolCall? := by
  cases part <;> rfl

@[simp] theorem toolCallsOf_intoBlocks (completion : Completion) :
    toolCallsOf completion.intoBlocks = completion.toolCalls := by
  simp [toolCallsOf, Completion.intoBlocks, Completion.toolCalls, List.filterMap_map]

end Yuke.Ai
