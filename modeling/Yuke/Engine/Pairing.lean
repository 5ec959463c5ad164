import Yuke.Ai.Response

/-!
# Paired contexts

A provider accepts a context when each tool call of an answer has one result, in call order, before
the next answer.
-/

set_option autoImplicit false

namespace Yuke.Engine

open Yuke.Ai

structure OpenCalls where
  ids : List String
  answering : Bool
  deriving DecidableEq

namespace OpenCalls

def closed : OpenCalls := ⟨[], false⟩

def scan (calls : OpenCalls) : Block → Option OpenCalls
  | .userText _ | .media _ => some calls
  | .assistantText _ | .reasoning _ => if calls.answering then none else some calls
  | .toolCall call =>
    if calls.answering then none else some ⟨calls.ids ++ [call.callId], false⟩
  | .toolResult result =>
    match calls.ids with
    | [] => none
    | id :: rest => if id = result.callId then some ⟨rest, !rest.isEmpty⟩ else none

end OpenCalls

def Paired (context : List Block) : Prop :=
  context.foldlM OpenCalls.scan .closed = some .closed

instance (context : List Block) : Decidable (Paired context) :=
  inferInstanceAs (Decidable (_ = _))

@[simp] theorem paired_nil : Paired [] := rfl

theorem Paired.append {xs ys : List Block} (hx : Paired xs) (hy : Paired ys) :
    Paired (xs ++ ys) := by
  unfold Paired at *
  rw [List.foldlM_append, hx]
  exact hy

theorem scan_answer {blocks : List Block} (hrole : ∀ block ∈ blocks, block.role = .assistant)
    (ids : List String) :
    blocks.foldlM OpenCalls.scan ⟨ids, false⟩
      = some ⟨ids ++ (toolCallsOf blocks).map fun call => call.callId, false⟩ := by
  induction blocks generalizing ids with
  | nil => simp
  | cons block rest ih =>
    have hrest := ih fun other hother => hrole other (List.mem_cons_of_mem _ hother)
    have hblock := hrole block List.mem_cons_self
    cases block with
    | userText | media | toolResult => cases hblock
    | assistantText text => exact hrest ids
    | reasoning reasoning => exact hrest ids
    | toolCall call =>
      rw [List.foldlM_cons]
      refine (hrest (ids ++ [call.callId])).trans ?_
      simp [toolCallsOf, Block.toolCall?]

theorem scan_results (results : List ToolResult) (answering : Bool)
    (hids : results = [] → answering = false) :
    (results.map Block.toolResult).foldlM OpenCalls.scan
      ⟨results.map fun result => result.callId, answering⟩ = some .closed := by
  induction results generalizing answering with
  | nil =>
    rw [hids rfl]
    rfl
  | cons result rest ih =>
    rw [List.map_cons, List.map_cons, List.foldlM_cons]
    have hstep : OpenCalls.scan ⟨result.callId :: rest.map fun result => result.callId, answering⟩
        (.toolResult result) = some ⟨rest.map fun result => result.callId,
          !(rest.map fun result => result.callId).isEmpty⟩ := by
      simp [OpenCalls.scan]
    rw [hstep]
    refine ih _ ?_
    rintro rfl
    rfl

theorem paired_answer {blocks : List Block} {results : List ToolResult}
    (hrole : ∀ block ∈ blocks, block.role = .assistant)
    (hids : results.map (fun result => result.callId)
      = (toolCallsOf blocks).map fun call => call.callId) :
    Paired (blocks ++ results.map Block.toolResult) := by
  unfold Paired
  rw [List.foldlM_append, OpenCalls.closed, scan_answer hrole []]
  rw [List.nil_append, ← hids]
  exact scan_results results false fun _ => rfl

end Yuke.Engine
