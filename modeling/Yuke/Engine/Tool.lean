import Yuke.Ai.Response

/-!
# The tools of a driver

A toolset holds the tools that a driver offers. The model calls a deferred tool through the bridge
call, on a target without a native tool search.
-/

set_option autoImplicit false

namespace Yuke.Engine

open Yuke.Ai

structure DynError where
  text : String
  causes : List String := []
  deriving DecidableEq

def chainText (error : DynError) : String :=
  ": ".intercalate (error.text :: error.causes)

inductive Concurrency where
  | serial
  | parallel
  deriving DecidableEq

inductive SubjectKind where
  | text
  | file
  | uri
  deriving DecidableEq

structure Subject where
  argument : String
  kind : SubjectKind
  deriving DecidableEq

inductive Preview where
  | head
  | tail
  | none
  deriving DecidableEq

/-- How a frontend shows the calls of a tool. The model never sees the hints. -/
structure ToolHints where
  title : Option String := none
  subject : Option Subject := none
  preview : Preview := .head
  deriving DecidableEq

inductive DisplayBlock where
  | markdown (text : String)
  | diff (path patch : String)
  deriving DecidableEq

structure ToolContent where
  text : String
  media : List Media
  isError : Bool
  display : List DisplayBlock
  deriving DecidableEq

structure ToolOutcome where
  result : ToolResult
  display : List DisplayBlock
  deriving DecidableEq

/-- The outcome of a call and the milliseconds of its handler. A call without a handler run has no
duration. -/
structure Finished where
  outcome : ToolOutcome
  duration : Option Nat
  deriving DecidableEq

def ToolOutcome.ofResult (result : ToolResult) : ToolOutcome := ⟨result, []⟩

def Finished.ofResult (result : ToolResult) : Finished := ⟨.ofResult result, none⟩

inductive ToolNameError where
  | duplicate (name : String)
  | reserved (name : String)
  | invalid (name : String)
  deriving DecidableEq

def toolNameMax : Nat := 64

def toolCallName : String := "tool_call"

def toolNameCharacter (character : Char) : Bool :=
  character.isAlphanum || character == '_' || character == '-'

def checkToolName (name : String) : Except ToolNameError Unit :=
  if ¬ (1 ≤ name.utf8ByteSize ∧ name.utf8ByteSize ≤ toolNameMax ∧
      name.toList.all toolNameCharacter) then
    .error (.invalid name)
  else if name = searchToolName ∨ name = toolCallName then
    .error (.reserved name)
  else
    .ok ()

structure OfferedTool where
  definition : ToolDefinition
  concurrency : Concurrency
  hints : ToolHints
  deriving DecidableEq

structure Toolset where
  tools : List OfferedTool
  folder : Option String
  names_nodup : (tools.map fun tool => tool.definition.name).Nodup
  names_checked : ∀ tool ∈ tools, checkToolName tool.definition.name = .ok ()

namespace Toolset

def new : Toolset where
  tools := []
  folder := none
  names_nodup := .nil
  names_checked := by simp

/-- Offer `tool` to the model, unless its name is invalid, reserved, or taken. -/
def add (toolset : Toolset) (tool : OfferedTool) : Except ToolNameError Toolset :=
  match hname : checkToolName tool.definition.name with
  | .error error => .error error
  | .ok () =>
    if htaken : tool.definition.name ∈ toolset.tools.map fun held => held.definition.name then
      .error (.duplicate tool.definition.name)
    else
      .ok {
        tools := toolset.tools ++ [tool]
        folder := toolset.folder
        names_nodup := by
          rw [List.map_append, List.nodup_append]
          refine ⟨toolset.names_nodup, by simp, ?_⟩
          rintro held hheld name hname' rfl
          rw [List.map_singleton, List.mem_singleton] at hname'
          exact htaken (hname' ▸ hheld)
        names_checked := by
          intro held hheld
          rcases List.mem_append.mp hheld with hheld | hheld
          · exact toolset.names_checked held hheld
          · rw [List.mem_singleton.mp hheld]
            exact hname }

def definitions (toolset : Toolset) : List ToolDefinition :=
  toolset.tools.map fun tool => tool.definition

def find (toolset : Toolset) (name : String) : Option OfferedTool :=
  toolset.tools.find? fun tool => tool.definition.name == name

/-- The hints of the tool `name`, or the default hints for a name that no tool has. -/
def hintsOf (toolset : Toolset) (name : String) : ToolHints :=
  (toolset.find name).elim {} fun tool => tool.hints

def concurrency (toolset : Toolset) (name : String) : Concurrency :=
  (toolset.find name).elim .parallel fun tool => tool.concurrency

def deferred (toolset : Toolset) : List ToolDefinition :=
  toolset.definitions.filter fun definition => definition.deferLoading

def hasDeferred (toolset : Toolset) : Bool := !toolset.deferred.isEmpty

/-- The outcome of a call whose handler returned `content` after `duration`. -/
def outcomeOf (call : ToolCall) (content : Except DynError ToolContent) (duration : Nat) :
    Finished where
  outcome :=
    match content with
    | .ok content =>
      { result := { ToolResult.success call.callId content.text with isError := content.isError }
          |>.withMedia content.media
        display := content.display }
    | .error error => .ofResult (.error call.callId (chainText error))
  duration := some duration

def unknownTool (call : ToolCall) : Finished :=
  .ofResult (.error call.callId s!"Unknown tool: {call.name}")

@[simp] theorem outcomeOf_callId (call : ToolCall) (content : Except DynError ToolContent)
    (duration : Nat) : (outcomeOf call content duration).outcome.result.callId = call.callId := by
  cases content <;> rfl

@[simp] theorem unknownTool_callId (call : ToolCall) :
    (unknownTool call).outcome.result.callId = call.callId := rfl

end Toolset

/-- The code of other crates that the search and the bridge use: `serde_json` reads the two
argument objects, and the floating-point ranking orders the tools. -/
structure SearchParts where
  readSearch : String → Except String (String × Option Nat)
  readCall : String → Except String (String × String)
  bm25 : String → List ToolDefinition → Nat → List ToolDefinition

def defaultLimit : Nat := 5

def maxLimit : Nat := 20

def argumentsError (error : String) : String := s!"The arguments are not valid: {error}"

def searchSchema : String :=
  "\x7b\"type\":\"object\",\"properties\":\x7b\"query\":\x7b\"type\":\"string\"," ++
  "\"description\":\"Keywords that describe the tool.\"\x7d,\"limit\":\x7b\"type\":" ++
  "\"integer\",\"minimum\":1,\"maximum\":20,\"description\":\"The most matches. The " ++
  "default is 5.\"\x7d\x7d,\"required\":[\"query\"],\"additionalProperties\":false\x7d"

def callSchema : String :=
  "\x7b\"type\":\"object\",\"properties\":\x7b\"name\":\x7b\"type\":\"string\"," ++
  "\"description\":\"The name of the tool.\"\x7d,\"arguments\":\x7b\"type\":\"object\"," ++
  "\"description\":\"The arguments of the tool, as its input schema says.\"\x7d\x7d," ++
  "\"required\":[\"name\",\"arguments\"],\"additionalProperties\":false\x7d"

def nativeSearch : ToolDefinition where
  name := searchToolName
  description := "Load deferred tools. The deferred_tools section of the system prompt names " ++
    "them. Search by keywords or by a tool name. Each match becomes callable by its name."
  inputSchema := searchSchema
  deferLoading := false

def bridgeSearch : ToolDefinition where
  name := searchToolName
  description := "Find deferred tools. The deferred_tools section of the system prompt names " ++
    "them. Search by keywords or by a tool name. The result shows each match with its input " ++
    "schema. Call a match with tool_call."
  inputSchema := searchSchema
  deferLoading := false

def bridgeCall : ToolDefinition where
  name := toolCallName
  description := "Call a deferred tool that tool_search found. Pass its name and its arguments."
  inputSchema := callSchema
  deferLoading := false

def declaredTools (toolset : Toolset) (native : Bool) : List ToolDefinition :=
  if !toolset.hasDeferred then
    toolset.definitions
  else if native then
    toolset.definitions ++ [nativeSearch]
  else
    toolset.definitions.filter (fun definition => !definition.deferLoading)
      ++ [bridgeSearch, bridgeCall]

/-- Run the search `call` over the deferred tools of `toolset`. -/
def search (parts : SearchParts) (toolset : Toolset) (call : ToolCall) (native : Bool) :
    ToolResult :=
  match parts.readSearch call.arguments with
  | .error error => .error call.callId (argumentsError error)
  | .ok (query, limit) =>
    let limit := limit.getD defaultLimit
    if ¬ (1 ≤ limit ∧ limit ≤ maxLimit) then
      .error call.callId s!"The limit must be 1 to {maxLimit}."
    else
      let found := parts.bm25 query toolset.deferred limit
      if found.isEmpty then
        .success call.callId s!"No deferred tool matches \"{query}\"."
      else if native then
        let lines := found.map fun tool => s!"- {tool.name}: {tool.description}"
        let text := s!"Loaded {found.length} tools. Call each one by its name:\n"
          ++ "\n".intercalate lines
        (ToolResult.success call.callId text).withLoaded found
      else
        let sections := s!"Found {found.length} tools. Call one with tool_call." ::
          found.map fun tool =>
            s!"## {tool.name}\n{tool.description}\nInput schema: {tool.inputSchema}"
        .success call.callId ("\n\n".intercalate sections)

/-- The real call that the bridge `call` asks for, under the call id of `call`. -/
def unwrapCall (parts : SearchParts) (call : ToolCall) : Except ToolResult ToolCall :=
  match parts.readCall call.arguments with
  | .error error => .error (.error call.callId (argumentsError error))
  | .ok (name, arguments) => .ok ⟨call.callId, name, arguments⟩

@[simp] theorem search_callId (parts : SearchParts) (toolset : Toolset) (call : ToolCall)
    (native : Bool) : (search parts toolset call native).callId = call.callId := by
  unfold search
  split
  · rfl
  · simp only
    split_ifs <;> rfl

theorem unwrapCall_callId (parts : SearchParts) (call real : ToolCall)
    (h : unwrapCall parts call = .ok real) : real.callId = call.callId := by
  unfold unwrapCall at h
  split at h
  · cases h
  · cases h
    rfl

theorem unwrapCall_refused_callId (parts : SearchParts) (call : ToolCall) (refused : ToolResult)
    (h : unwrapCall parts call = .error refused) : refused.callId = call.callId := by
  unfold unwrapCall at h
  split at h
  · cases h
    rfl
  · cases h

end Yuke.Engine
