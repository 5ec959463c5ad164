import Yuke.Agent.Session
import Yuke.Engine.DriveCuts

/-!
# The histories that the driver produces

A session grows by settings, by the commits of its turns, and by the commit that closes a cut turn.
Each turn can stop at each of its waits.
-/

set_option autoImplicit false

namespace Yuke.Agent

open Yuke.Ai (Block toolCallsOf)
open Yuke.Engine
open Yuke.Protocol
open Yuke.Shared (Program)

def endsAnswer (block : Block) : Bool := block.role ≠ .user

theorem openCalls_eq (context : List Block) :
    openCalls context = (toolCallsOf (context.rtakeWhile endsAnswer)).map fun call => call.callId := by
  rw [toolCallsOf, List.map_filterMap]
  refine List.filterMap_congr fun block _ => ?_
  cases block <;> rfl

theorem role_of_mem_rtakeWhile {context : List Block} {block : Block}
    (h : block ∈ context.rtakeWhile endsAnswer) : block.role = .assistant := by
  have hrole := List.mem_rtakeWhile_imp h
  cases hblock : block.role with
  | assistant => rfl
  | user => simp [endsAnswer, hblock] at hrole

theorem scan_closed_of_assistant {blocks : List Block} {calls : OpenCalls}
    (hrole : ∀ block ∈ blocks, block.role = .assistant)
    (h : blocks.foldlM OpenCalls.scan calls = some .closed) : toolCallsOf blocks = [] := by
  cases blocks with
  | nil => rfl
  | cons block rest =>
    have hanswering : calls.answering = false := by
      have hblock := hrole block List.mem_cons_self
      rw [List.foldlM_cons] at h
      cases hanswering : calls.answering with
      | false => rfl
      | true =>
        cases block with
        | userText | media | toolResult => cases hblock
        | assistantText | reasoning | toolCall => simp [OpenCalls.scan, hanswering] at h
    obtain ⟨ids, answering⟩ := calls
    cases hanswering
    rw [scan_answer hrole] at h
    have hids := congrArg OpenCalls.ids (Option.some.inj h)
    have hcalls : (toolCallsOf (block :: rest)).map (fun call => call.callId) = [] :=
      (List.append_eq_nil_iff.mp hids).2
    exact List.map_eq_nil_iff.mp hcalls

theorem openCalls_of_paired {context : List Block} (h : Paired context) : openCalls context = [] := by
  have hsplit : context.rdropWhile endsAnswer ++ context.rtakeWhile endsAnswer = context :=
    List.rdropWhile_append_rtakeWhile
  rw [openCalls_eq]
  rw [Paired, ← hsplit, List.foldlM_append] at h
  cases hbefore : (context.rdropWhile endsAnswer).foldlM OpenCalls.scan .closed with
  | none =>
    rw [hbefore] at h
    cases h
  | some calls =>
    rw [hbefore] at h
    rw [scan_closed_of_assistant (fun block => role_of_mem_rtakeWhile) h]
    rfl

theorem openCalls_append {before blocks : List Block}
    (hrole : ∀ block ∈ blocks, block.role = .assistant) :
    openCalls (before ++ blocks) =
      openCalls before ++ (toolCallsOf blocks).map fun call => call.callId := by
  have htake : (before ++ blocks).rtakeWhile endsAnswer = before.rtakeWhile endsAnswer ++ blocks := by
    induction blocks using List.reverseRecOn with
    | nil => simp
    | append_singleton blocks block ih =>
      have hblock : endsAnswer block = true := by
        simp [endsAnswer, hrole block (by simp)]
      rw [← List.append_assoc, List.rtakeWhile_concat_pos _ _ _ hblock,
        ih fun other hother => hrole other (List.mem_append_left _ hother), List.append_assoc]
  rw [openCalls_eq, openCalls_eq, htake, Yuke.Ai.toolCallsOf_append, List.map_append]

theorem paired_repair {context : List Block} (h : AtMostOpen context) :
    Paired (context ++ (repairOf context).blocks) := by
  obtain ⟨before, blocks, rfl, hbefore, hrole⟩ := h
  have hcalls : openCalls (before ++ blocks) = (toolCallsOf blocks).map fun call => call.callId := by
    rw [openCalls_append hrole, openCalls_of_paired hbefore, List.nil_append]
  have hrepair : (repairOf (before ++ blocks)).blocks =
      ((toolCallsOf blocks).map fun call =>
        Yuke.Ai.ToolResult.error call.callId outcomeUnknown).map Block.toolResult := by
    rw [repairOf, hcalls, List.map_map, List.map_map]
    rfl
  rw [List.append_assoc, hrepair]
  refine hbefore.append (paired_answer hrole ?_)
  rw [List.map_map]
  rfl

/-! ## Histories -/

def commitEvents (saved : List (Commit × List ConsumedInput)) : List SessionEvent :=
  saved.map fun entry => .commit entry.1 entry.2

/-- A history of a session that the driver runs: new settings at any time, the commits of a turn up
to the point where it ended or stopped, and the commit that closes a stopped turn. A history can be
cut after each event, as a fork cuts its copy. -/
inductive DriverHistory : List SessionEvent → Prop where
  | created (settings : SessionSettings) : DriverHistory [.settings settings]
  | settings {events : List SessionEvent} (settings : SessionSettings) :
    DriverHistory events → DriverHistory (events ++ [.settings settings])
  | turn {events : List SessionEvent} (parts : TurnParts) (fuel : Nat) (input : List Block)
      (inputTokens : Option Nat) (saved : List (Commit × List ConsumedInput))
      {trace : List ((a : Await) × a.Reply)} {c : Chronicle}
      {rest : Driving (Except TurnError Outcome × List Block)} :
    DriverHistory events → (Replayed.of events).newestTurn.isOpen = false → Paired input →
    Program.Run chronicleAnswers
      (parts.run fuel (Replayed.of events).context inputTokens input)
      ⟨[.given (Replayed.of events).context, .input input], []⟩ trace rest c →
    saved.map Prod.fst = c.saved → DriverHistory (events ++ commitEvents saved)
  | recovered {events : List SessionEvent} : DriverHistory events →
    (Replayed.of events).newestTurn.isOpen = true →
    DriverHistory (events ++ [.commit (repairOf (Replayed.of events).context) []])
  | cut {front events : List SessionEvent} : DriverHistory events → front <+: events →
    DriverHistory front

structure Closes (events : List SessionEvent) : Prop where
  cut : AtMostOpen (Replayed.of events).context
  ended : (Replayed.of events).newestTurn.isOpen = false → Paired (Replayed.of events).context

theorem NewestTurn.isOpen_ofEnd (turnEnd : Option TurnEnd) :
    (NewestTurn.ofEnd turnEnd).isOpen = turnEnd.isNone := by
  cases turnEnd <;> rfl

theorem commitEvents_concat (saved : List (Commit × List ConsumedInput))
    (entry : Commit × List ConsumedInput) :
    commitEvents (saved ++ [entry]) = commitEvents saved ++ [.commit entry.1 entry.2] := by
  rw [commitEvents, List.map_append]
  rfl

theorem context_commitEvents (events : List SessionEvent) (saved : List (Commit × List ConsumedInput)) :
    (Replayed.of (events ++ commitEvents saved)).context =
      replay (Replayed.of events).context (saved.map Prod.fst) := by
  induction saved using List.reverseRecOn with
  | nil => simp [commitEvents]
  | append_singleton saved entry ih =>
    rw [commitEvents_concat, ← List.append_assoc, Replayed.of_concat, List.map_append,
      List.map_singleton, replay_append_singleton, ← ih]
    rfl

theorem Closes.nil : Closes [] := ⟨paired_nil.atMostOpen, fun _ => paired_nil⟩

theorem Closes.settings {events : List SessionEvent} (h : Closes events)
    (settings : SessionSettings) : Closes (events ++ [.settings settings]) := by
  constructor
  · rw [Replayed.of_concat]
    exact h.cut
  · rw [Replayed.of_concat]
    exact h.ended

theorem Closes.commit {events : List SessionEvent} {saved : List (Commit × List ConsumedInput)}
    {entry : Commit × List ConsumedInput}
    (h : Closable (replay (Replayed.of events).context ((saved ++ [entry]).map Prod.fst)) entry.1) :
    Closes (events ++ commitEvents (saved ++ [entry])) := by
  rw [← context_commitEvents] at h
  refine ⟨h.cut, fun hended => h.ended ?_⟩
  rw [commitEvents_concat, ← List.append_assoc, Replayed.of_concat] at hended
  have hisOpen := NewestTurn.isOpen_ofEnd entry.1.end
  cases hend : entry.1.end with
  | none =>
    rw [hend] at hisOpen
    rw [Replayed.next, hend, hisOpen] at hended
    cases hended
  | some => rfl

theorem Closes.recovered {events : List SessionEvent} (h : Closes events) :
    Closes (events ++ [.commit (repairOf (Replayed.of events).context) []]) := by
  have hcontext : (Replayed.of
      (events ++ [.commit (repairOf (Replayed.of events).context) []])).context =
      (Replayed.of events).context ++ (repairOf (Replayed.of events).context).blocks := by
    rw [Replayed.of_concat]
    rfl
  have hpaired := paired_repair h.cut
  rw [← hcontext] at hpaired
  exact ⟨hpaired.atMostOpen, fun _ => hpaired⟩

def ClosesAll (events : List SessionEvent) : Prop := ∀ front, front <+: events → Closes front

theorem ClosesAll.whole {events : List SessionEvent} (h : ClosesAll events) : Closes events :=
  h events (List.prefix_refl events)

theorem ClosesAll.concat {events : List SessionEvent} {event : SessionEvent} (h : ClosesAll events)
    (hwhole : Closes (events ++ [event])) : ClosesAll (events ++ [event]) := by
  intro front hfront
  rcases List.prefix_concat_iff.mp hfront with heq | hbefore
  · exact heq ▸ hwhole
  · exact h front hbefore

theorem ClosesAll.turn {events : List SessionEvent} (h : ClosesAll events)
    {saved : List (Commit × List ConsumedInput)}
    (hsaved : ClosableAfter (Replayed.of events).context (saved.map Prod.fst)) :
    ClosesAll (events ++ commitEvents saved) := by
  induction saved using List.reverseRecOn with
  | nil => simpa [commitEvents] using h
  | append_singleton saved entry ih =>
    have hwhole : Closes (events ++ commitEvents (saved ++ [entry])) := by
      apply Closes.commit
      rw [List.map_append]
      apply hsaved
      rw [List.map_append]
      exact List.prefix_refl _
    have hbefore : ClosesAll (events ++ commitEvents saved) := by
      apply ih
      intro front commit hfront
      apply hsaved front commit
      rw [List.map_append]
      exact hfront.trans (List.prefix_append _ _)
    rw [commitEvents_concat, ← List.append_assoc] at hwhole ⊢
    exact hbefore.concat hwhole

theorem DriverHistory.closesAll {events : List SessionEvent} (h : DriverHistory events) :
    ClosesAll events := by
  induction h with
  | created settings =>
    have hnil : ClosesAll [] := by
      intro front hfront
      rw [List.prefix_nil.mp hfront]
      exact .nil
    exact hnil.concat (Closes.nil.settings settings)
  | settings settings _ ih => exact ih.concat (ih.whole.settings settings)
  | turn parts fuel input inputTokens saved _ hended hinput hrun hsaved ih =>
    apply ih.turn
    rw [hsaved]
    exact cut_closable parts fuel _ input inputTokens (ih.whole.ended hended) hinput hrun
  | recovered _ _ ih => exact ih.concat ih.whole.recovered
  | cut _ hfront ih =>
    intro front hbefore
    exact ih front (hbefore.trans hfront)

theorem DriverHistory.closes {events : List SessionEvent} (h : DriverHistory events) :
    Closes events :=
  h.closesAll.whole

end Yuke.Agent
