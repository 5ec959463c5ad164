import Yuke.Shared.Steps
import Yuke.Mcp.ServersSteps

/-!
# The MCP servers over whole runs

A close takes the stops of the connections when it begins, and it tells the tasks to stop one after
another. A server that still starts goes on meanwhile: its program starts after the close began, or
it connects and is aborted with its connection. The life cycle is as promised in every other run.
-/

set_option autoImplicit false

namespace Yuke.Mcp

open Yuke.Shared

variable {Peer Tool : Type}

namespace Servers

variable {s s' : Servers Peer Tool} {left : List Nat} {i : Nat} {slot : Slot Peer Tool}

theorem mem_places {slots : List (Slot Peer Tool)} {phase : Phase} :
    i ∈ places slots phase ↔ ∃ slot, slots[i]? = some slot ∧ slot.task = phase := by
  unfold places
  rw [List.mem_filter, List.mem_range, decide_eq_true_eq, Option.map_eq_some_iff]
  constructor
  · exact fun h => h.2
  · rintro ⟨slot, hslot, htask⟩
    exact ⟨(List.getElem?_eq_some_iff.mp hslot).1, slot, hslot, htask⟩

theorem nodup_places {slots : List (Slot Peer Tool)} {phase : Phase} : (places slots phase).Nodup :=
  List.Nodup.filter _ List.nodup_range

theorem Inv.shrink (h : s.Inv (i :: left)) (hgated : ¬ s.At i .gated) : s.Inv left := by
  refine ⟨fun j slot hslot => ?_, h.count, h.trust, h.opened, h.closed⟩
  have hfits := h.fits j slot hslot
  refine ⟨hfits.shape, hfits.stop, hfits.trusted, fun htask => ?_, hfits.aborted, hfits.kept,
    hfits.held⟩
  rcases hfits.gated htask with hwaiting | haborted | hleft
  · exact .inl hwaiting
  · exact .inr (.inl haborted)
  · rcases List.mem_cons.mp hleft with rfl | hleft
    · exact absurd (at_iff.mpr ⟨slot, hslot, htask⟩) hgated
    · exact .inr (.inr hleft)

theorem holding_grown {slots : List (Slot Peer Tool)} {reports : List McpServer}
    {tasks : List (Option Nat)} {task : Option Nat} (h : s.closes = []) (hmem : task ∈ tasks) :
    task ∈ ({ s with slots := slots, reports := reports, tasks := tasks } :
      Servers Peer Tool).holding := by
  simp only [holding, h]
  exact hmem

theorem Inv.spawn (h : s.Inv (i :: left)) (hslot : s.slots[i]? = some slot)
    (htask : slot.task = .gated) (hopen : s.closed = false) (hanswer : s.answer = some true)
    (reports : List McpServer) :
    ({ s with
      slots := s.slots.set i { slot with state := .connecting, task := .spawned }
      reports := reports
      tasks := s.tasks ++ [some i] } : Servers Peer Tool).Inv left := by
  have hfits := h.fits i slot hslot
  have hshape := hfits.shape
  simp only [Slot.Shape, htask] at hshape
  have hcloses := h.opened hopen
  have hholding : s.holding = s.tasks := by rw [holding, hcloses]
  have hgrown : ∀ task, task ∈ s.holding → task ∈ s.tasks ++ [some i] := fun task hmem =>
    List.mem_append_left _ (hholding ▸ hmem)
  refine Inv.shrink (i := i) ⟨fun j other hother => ?_, ?_, fun hwaiting => ?_, h.opened,
    fun hclosed => ?_⟩ ?_
  · rw [List.getElem?_set] at hother
    split at hother
    · next heq =>
      subst heq
      split at hother
      · cases hother
        refine ⟨⟨hshape.1, rfl⟩, fun hopen => ?_, fun _ _ _ => hanswer, (by intros; contradiction),
          by intros; contradiction, by simp, fun _ => ?_⟩
        · have := hfits.stop hopen
          simpa [htask] using this
        · exact holding_grown hcloses (by simp)
      · cases hother
    · have hkept := h.fits j other hother
      refine ⟨hkept.shape, hkept.stop, hkept.trusted, hkept.gated, hkept.aborted, hkept.kept,
        fun hactive => ?_⟩
      exact holding_grown hcloses (hgrown _ (hkept.held hactive))
  · have hset := countP_set hslot { slot with state := .connecting, task := .spawned }
    have hcount := h.count
    simp only [Slot.starts, htask, if_true] at hset
    simp only
    omega
  · have hold := h.trust hwaiting
    exact ⟨holding_grown hcloses (hgrown _ hold.1), hold.2⟩
  · rw [hopen] at hclosed
    cases hclosed
  · have hi := (List.getElem?_eq_some_iff.mp hslot).1
    simp [At, hi]

theorem Inv.leave (h : s.Inv (i :: left)) (hslot : s.slots[i]? = some slot)
    (htask : slot.task = .gated) : (s.setTask i .absent).countDown.Inv left := by
  have hfits := h.fits i slot hslot
  have hshape := hfits.shape
  simp only [Slot.Shape, htask] at hshape
  rw [setTask_eq hslot]
  refine Inv.shrink (i := i) ?_ ?_
  · refine h.set hslot rfl rfl rfl rfl ?_ (by simp [Slot.starts, htask, countDown])
    constructor
    · refine ⟨hshape.1, fun tools heq => ?_⟩
      rw [hshape.2] at heq
      cases heq
    · intro hopen
      have := hfits.stop hopen
      simpa [htask] using this
    · intro _ habsent
      exact absurd rfl habsent
    · intro heq
      cases heq
    · intro heq
      cases heq
    · simp
    · intro hactive
      simp [Slot.Active] at hactive
  · have hi := (List.getElem?_eq_some_iff.mp hslot).1
    simp [At, countDown, hi]

theorem inv_startGated (h : s.Inv (i :: left)) (hslot : s.slots[i]? = some slot)
    (htask : slot.task = .gated) {trusted : Bool} (hanswer : s.answer = some trusted) :
    (startGated trusted s i).Inv left := by
  unfold startGated
  split_ifs with hrefused
  · exact h.leave hslot htask
  · push Not at hrefused
    rw [update_eq hslot]
    refine h.spawn hslot htask (by simpa using hrefused.2) ?_ _
    rw [hanswer]
    simpa using hrefused.1

theorem setTask_other {phase : Phase} {j : Nat} (hne : j ≠ i) :
    (s.setTask i phase).slots[j]? = s.slots[j]? ∧ (s.setTask i phase).answer = s.answer := by
  unfold setTask
  split
  · exact ⟨rfl, rfl⟩
  · exact ⟨List.getElem?_set_ne (Ne.symm hne), rfl⟩

theorem update_other {change : Slot Peer Tool → Slot Peer Tool} {j : Nat} (hne : j ≠ i) :
    (s.update i change).slots[j]? = s.slots[j]? ∧ (s.update i change).answer = s.answer := by
  unfold update
  split
  · exact ⟨rfl, rfl⟩
  · exact ⟨List.getElem?_set_ne (Ne.symm hne), rfl⟩

theorem startGated_other {trusted : Bool} {j : Nat} (hne : j ≠ i) :
    (startGated trusted s i).slots[j]? = s.slots[j]? ∧ (startGated trusted s i).answer = s.answer := by
  unfold startGated
  split
  · exact setTask_other hne
  · exact update_other hne

theorem inv_foldl_startGated {trusted : Bool} (h : s.Inv left) (hanswer : s.answer = some trusted)
    (hnodup : left.Nodup) (hgated : ∀ i ∈ left, s.At i .gated) :
    (left.foldl (startGated trusted) s).Inv [] := by
  induction left generalizing s with
  | nil => exact h
  | cons i left ih =>
    obtain ⟨slot, hslot, htask⟩ := at_iff.mp (hgated i (by simp))
    have hnodup := List.nodup_cons.mp hnodup
    refine ih (inv_startGated h hslot htask hanswer) ?_ hnodup.2 ?_
    · exact (startGated_other (Nat.succ_ne_self i)).2.trans hanswer
    · intro j hj
      have hne : j ≠ i := fun heq => hnodup.1 (heq ▸ hj)
      have hat := hgated j (List.mem_cons_of_mem i hj)
      unfold At at hat ⊢
      rw [(startGated_other hne).1]
      exact hat

theorem inv_startTrusted (h : s.Inv []) (hwaiting : s.trust = .waiting) (trusted : Bool) :
    (s.startTrusted trusted).Inv [] := by
  unfold startTrusted
  refine inv_foldl_startGated ?_ rfl nodup_places fun i hi => ?_
  · refine ⟨fun i slot hslot => ?_, h.count, fun heq => (nomatch heq), h.opened, h.closed⟩
    have hfits := h.fits i slot hslot
    refine ⟨hfits.shape, hfits.stop, fun hsource habsent hgated => ?_, fun htask => ?_,
      hfits.aborted, hfits.kept, hfits.held⟩
    · have hnone := (h.trust hwaiting).2
      have hsome : s.answer = some true := hfits.trusted hsource habsent hgated
      rw [hnone] at hsome
      cases hsome
    · exact .inr (.inr (mem_places.mpr ⟨slot, hslot, htask⟩))
  · exact at_iff.mpr (mem_places.mp hi)

theorem inv_close (h : s.Inv []) : s.close.Inv [] := by
  have hholding : s.close.holding = s.holding := by
    unfold close holding
    cases hcloses : s.closes with
    | nil => rfl
    | cons first rest => rfl
  refine ⟨fun i slot hslot => ?_, ?_, ?_, fun heq => (nomatch heq), fun _ => ⟨rfl, ?_⟩⟩
  · have hold : ∃ old, s.slots[i]? = some old ∧ { old with stop := false } = slot := by
      simp only [close, List.getElem?_map, Option.map_eq_some_iff] at hslot
      exact hslot
    obtain ⟨old, hold, rfl⟩ := hold
    have hfits := h.fits i old hold
    refine ⟨hfits.shape, fun heq => (nomatch heq), hfits.trusted, fun htask => ?_, fun _ => rfl,
      hfits.kept, fun hactive => ?_⟩
    · rcases hfits.gated htask with hwaiting | ⟨_, haborted⟩ | hleft
      · exact .inl hwaiting
      · exact .inr (.inl ⟨rfl, haborted⟩)
      · cases hleft
    · have hmem : some i ∈ s.holding := hfits.held hactive
      exact (hholding ▸ hmem : some i ∈ _)
  · simp only [close, List.countP_map]
    exact h.count
  · rw [hholding]
    exact h.trust
  · cases hclosed : s.closed with
    | false =>
      refine ⟨⟨s.tasks, s.slots.map Slot.stop, false⟩, [], ?_, by simp⟩
      simp [close, h.opened hclosed]
    | true =>
      obtain ⟨htasks, first, rest, hcloses, hrest⟩ := h.closed hclosed
      refine ⟨first, rest ++ [⟨[], s.slots.map Slot.stop, false⟩], ?_, ?_⟩
      · simp [close, hcloses, htasks]
      · intro c hc
        rcases List.mem_append.mp hc with hc | hc
        · exact hrest c hc
        · rw [List.mem_singleton] at hc
          rw [hc]

theorem Inv.first (h : s.Inv left) {call : Nat} {task : Option Nat} {tasks : List (Option Nat)}
    {stops : List Bool} {told : Bool} (hcall : s.closes[call]? = some ⟨task :: tasks, stops, told⟩) :
    call = 0 ∧ s.closed = true ∧ s.tasks = [] ∧
      ∃ rest, s.closes = ⟨task :: tasks, stops, told⟩ :: rest ∧ ∀ c ∈ rest, c.tasks = [] := by
  cases hclosed : s.closed with
  | false =>
    rw [h.opened hclosed] at hcall
    cases hcall
  | true =>
    obtain ⟨htasks, first, rest, hcloses, hrest⟩ := h.closed hclosed
    rw [hcloses] at hcall
    cases call with
    | zero =>
      cases hcall
      exact ⟨rfl, rfl, htasks, rest, hcloses, hrest⟩
    | succ call =>
      rw [List.getElem?_cons_succ] at hcall
      have hmem := List.mem_of_getElem? hcall
      have hnil := hrest _ hmem
      cases hnil

theorem Inv.setFirst (h : s.Inv []) {first c : Closing} {rest : List Closing}
    (hcloses : s.closes = first :: rest)
    (hheld : ∀ i slot, s.slots[i]? = some slot → slot.Active → some i ∈ c.tasks)
    (htrust : s.trust = .waiting → none ∈ c.tasks) :
    ({ s with closes := s.closes.set 0 c } : Servers Peer Tool).Inv [] := by
  have hset : s.closes.set 0 c = c :: rest := by rw [hcloses, List.set_cons_zero]
  have hholding : ({ s with closes := s.closes.set 0 c } : Servers Peer Tool).holding = c.tasks := by
    simp only [holding, hset]
  refine ⟨fun i slot hslot => ?_, h.count, fun hwaiting => ?_, fun hopen => ?_, fun hclosed => ?_⟩
  · have hfits := h.fits i slot hslot
    refine ⟨hfits.shape, hfits.stop, hfits.trusted, hfits.gated, hfits.aborted, hfits.kept,
      fun hactive => ?_⟩
    exact (hholding ▸ hheld i slot hslot hactive : some i ∈ _)
  · exact ⟨(hholding ▸ htrust hwaiting : none ∈ _), (h.trust hwaiting).2⟩
  · have hnil := h.opened hopen
    rw [hcloses] at hnil
    cases hnil
  · obtain ⟨htasks, first', rest', hcloses', hrest⟩ := h.closed hclosed
    rw [hcloses] at hcloses'
    cases hcloses'
    exact ⟨htasks, c, rest, hset, hrest⟩

theorem holding_of_closes {first : Closing} {rest : List Closing} (h : s.closes = first :: rest) :
    s.holding = first.tasks := by
  rw [holding, h]

theorem abort_closes : (s.abort i).closes = s.closes := by
  unfold abort setTask
  cases s.slots[i]? with
  | none => rfl
  | some slot =>
    simp only [Option.map_some]
    split <;> rfl

theorem inv_tell (h : s.Inv []) {call : Nat} {task : Option Nat} {tasks : List (Option Nat)}
    {stops : List Bool} (hcall : s.closes[call]? = some ⟨task :: tasks, stops, false⟩)
    (hearly : ∀ i, task = some i → stops[i]? ≠ some true → ¬ s.At i .connected ∧ ¬ s.At i .ending) :
    ({ s.tell stops task with
      closes := (s.tell stops task).closes.set call ⟨task :: tasks, stops, true⟩ } :
        Servers Peer Tool).Inv [] := by
  obtain ⟨rfl, hclosed, htasks, rest, hcloses, hrest⟩ := h.first hcall
  have htold : (s.tell stops task).Inv [] ∧ (s.tell stops task).closes = s.closes := by
    cases task with
    | none =>
      unfold tell
      simp only
      split_ifs with hwaiting
      · refine ⟨⟨fun i slot hslot => ?_, h.count, fun heq => (nomatch heq), h.opened, h.closed⟩, rfl⟩
        have hfits := h.fits i slot hslot
        refine ⟨hfits.shape, hfits.stop, hfits.trusted, fun htask => ?_, hfits.aborted, hfits.kept,
          hfits.held⟩
        exact .inr (.inl ⟨hclosed, rfl⟩)
      · exact ⟨h, rfl⟩
    | some i =>
      unfold tell
      simp only
      split_ifs with hstop
      · exact ⟨h, rfl⟩
      · exact ⟨inv_abort h hclosed (hearly i rfl hstop), abort_closes⟩
  obtain ⟨hinv, hsame⟩ := htold
  have hfirst : (s.tell stops task).closes = ⟨task :: tasks, stops, false⟩ :: rest := by
    rw [hsame, hcloses]
  refine hinv.setFirst hfirst ?_ ?_
  · intro i slot hslot hactive
    have hheld : some i ∈ (s.tell stops task).holding := (hinv.fits i slot hslot).held hactive
    rwa [holding_of_closes hfirst] at hheld
  · intro hwaiting
    have hheld := (hinv.trust hwaiting).1
    rwa [holding_of_closes hfirst] at hheld

theorem inv_next (h : s.Inv []) {call : Nat} {task : Option Nat} {tasks : List (Option Nat)}
    {stops : List Bool} (hcall : s.closes[call]? = some ⟨task :: tasks, stops, true⟩)
    (hover : s.Over task) :
    ({ s with closes := s.closes.set call ⟨tasks, stops, false⟩ } : Servers Peer Tool).Inv [] := by
  obtain ⟨rfl, hclosed, htasks, rest, hcloses, hrest⟩ := h.first hcall
  refine h.setFirst hcloses ?_ ?_
  · intro i slot hslot hactive
    have hheld : some i ∈ s.holding := (h.fits i slot hslot).held hactive
    rw [holding_of_closes hcloses] at hheld
    rcases List.mem_cons.mp hheld with heq | htail
    · subst heq
      exfalso
      rcases hover slot hslot with hend | hend | hend
      · simp [Slot.Active, hend] at hactive
      · simp [Slot.Active, hend] at hactive
      · simp [Slot.Active, hend] at hactive
    · exact htail
  · intro hwaiting
    have hheld := (h.trust hwaiting).1
    rw [holding_of_closes hcloses] at hheld
    rcases List.mem_cons.mp hheld with heq | htail
    · subst heq
      exact absurd hwaiting hover
    · exact htail

theorem length_places (slots : List (Slot Peer Tool)) (phase : Phase) :
    (places slots phase).length = slots.countP fun slot => slot.task = phase := by
  unfold places
  induction slots with
  | nil => rfl
  | cons slot slots ih =>
    rw [List.length_cons, List.range_succ_eq_map, List.filter_cons, List.filter_map, List.countP_cons]
    have htail : (fun i => decide (((slot :: slots)[i]?).map Slot.task = some phase)) ∘ Nat.succ =
        fun i => decide ((slots[i]?).map Slot.task = some phase) := rfl
    rw [htail]
    by_cases hphase : slot.task = phase
    · rw [if_pos (by simpa using hphase), List.length_cons, List.length_map, ih,
        if_pos (by simpa using hphase)]
    · rw [if_neg (by simpa using hphase), List.length_map, ih, if_neg (by simpa using hphase),
        Nat.add_zero]

theorem countP_starts {slots : List (Slot Peer Tool)}
    (h : ∀ slot ∈ slots, slot.task = .absent ∨ slot.task = .spawned ∨ slot.task = .gated) :
    slots.countP Slot.starts = (slots.countP fun slot => slot.task = .spawned) +
      slots.countP fun slot => slot.task = .gated := by
  induction slots with
  | nil => rfl
  | cons slot slots ih =>
    have hrest := ih fun other hother => h other (List.mem_cons_of_mem slot hother)
    rw [List.countP_cons, List.countP_cons, List.countP_cons, hrest]
    rcases h slot (by simp) with htask | htask | htask
    · simp [Slot.starts, htask]
    · simp only [Slot.starts, htask]
      simp
      omega
    · simp only [Slot.starts, htask]
      simp
      omega

theorem start_slot (source : McpServerSource) (entry : String × ServerConfig) :
    let slot : Slot Peer Tool := Slot.start source entry
    slot.Shape ∧ slot.stop = false ∧
      (slot.task = .absent ∨ slot.task = .spawned ∧ slot.source = .user ∨ slot.task = .gated) := by
  unfold Slot.start
  simp only
  split
  · exact ⟨⟨rfl, by simp⟩, rfl, .inl rfl⟩
  · split
    · exact ⟨⟨rfl, by simp⟩, rfl, .inl rfl⟩
    · cases source with
      | user => exact ⟨⟨rfl, rfl⟩, rfl, .inr (.inl ⟨rfl, rfl⟩)⟩
      | project => exact ⟨⟨rfl, rfl⟩, rfl, .inr (.inr rfl)⟩

theorem inv_start (user project : List (String × ServerConfig)) :
    (start user project : Servers Peer Tool).Inv [] := by
  have hslots : ∀ slot ∈ (start user project : Servers Peer Tool).slots,
      slot.Shape ∧ slot.stop = false ∧
        (slot.task = .absent ∨ slot.task = .spawned ∧ slot.source = .user ∨ slot.task = .gated) := by
    intro slot hslot
    rcases List.mem_append.mp hslot with hslot | hslot
    · obtain ⟨entry, _, rfl⟩ := List.mem_map.mp hslot
      exact start_slot .user entry
    · obtain ⟨entry, _, rfl⟩ := List.mem_map.mp hslot
      exact start_slot .project entry
  have htasks : (start user project : Servers Peer Tool).tasks =
      (places (start user project : Servers Peer Tool).slots .spawned).map some ++
        if (places (start user project : Servers Peer Tool).slots .gated).isEmpty then []
        else [none] := rfl
  have htrust : (start user project : Servers Peer Tool).trust =
      if (places (start user project : Servers Peer Tool).slots .gated).isEmpty then .absent
      else .waiting := rfl
  refine ⟨fun i slot hslot => ?_, ?_, fun hwaiting => ⟨?_, rfl⟩, fun _ => rfl, fun hclosed => ?_⟩
  · obtain ⟨hshape, hstop, htask⟩ := hslots slot (List.mem_of_getElem? hslot)
    refine ⟨hshape, fun _ => ?_, fun hsource habsent hgated => ?_, fun hgated => ?_, fun heq => ?_,
      ?_, fun hactive => ?_⟩
    · rw [hstop]
      rcases htask with htask | ⟨htask, _⟩ | htask
      · simp [htask]
      · simp [htask]
      · simp [htask]
    · rcases htask with htask | ⟨_, huser⟩ | htask
      · exact absurd htask habsent
      · rw [hsource] at huser
        cases huser
      · exact absurd htask hgated
    · left
      have hmem : i ∈ places (start user project : Servers Peer Tool).slots .gated :=
        mem_places.mpr ⟨slot, hslot, hgated⟩
      show (start user project : Servers Peer Tool).trust = .waiting
      rw [htrust, if_neg]
      rw [List.isEmpty_iff]
      exact List.ne_nil_of_mem hmem
    · rw [heq] at htask
      simp at htask
    · rcases htask with htask | ⟨htask, _⟩ | htask
      · simp [htask]
      · simp [htask]
      · simp [htask]
    · rcases htask with htask | ⟨htask, _⟩ | htask
      · simp [Slot.Active, htask] at hactive
      · show some i ∈ (start user project : Servers Peer Tool).tasks
        rw [htasks]
        exact List.mem_append_left _
          (List.mem_map_of_mem (mem_places.mpr ⟨slot, hslot, htask⟩))
      · simp [Slot.Active, htask] at hactive
  · have hcount := countP_starts fun slot hslot => (hslots slot hslot).2.2.imp_right
      (Or.imp_left And.left)
    rw [hcount, ← length_places, ← length_places]
    exact (Nat.cast_add _ _).symm
  · rw [htrust] at hwaiting
    show none ∈ (start user project : Servers Peer Tool).tasks
    rw [htasks]
    split_ifs at hwaiting ⊢
    simp
  · cases hclosed

def InTime (s : Servers Peer Tool) : Event Peer Tool → Prop
  | .launch index => ∀ slot ∈ s.slots[index]?, slot.source = .project → s.closed = false
  | .tell call =>
    match s.closes[call]? with
    | some ⟨some index :: _, stops, _⟩ =>
      stops[index]? ≠ some true → ¬ s.At index .connected ∧ ¬ s.At index .ending
    | _ => True
  | _ => True

instance (s : Servers Peer Tool) (event : Event Peer Tool) : Decidable (s.InTime event) := by
  cases event with
  | tell call =>
    unfold InTime
    simp only
    split <;> infer_instance
  | _ => unfold InTime; infer_instance

theorem inv_step (h : s.Inv []) {event : Event Peer Tool} (hintime : s.InTime event)
    (hstep : s.step event = some s') : s'.Inv [] := by
  cases event with
  | answer trusted =>
    simp only [step] at hstep
    split_ifs at hstep with hwaiting
    cases hstep
    exact inv_startTrusted h hwaiting trusted
  | launch index =>
    simp only [step] at hstep
    split_ifs at hstep with hat
    cases hstep
    obtain ⟨slot, hslot, htask⟩ := at_iff.mp hat
    exact inv_launch h hslot htask
  | connected index result =>
    simp only [step] at hstep
    split_ifs at hstep with hat
    cases hstep
    obtain ⟨slot, hslot, htask⟩ := at_iff.mp hat
    exact inv_connected h hslot htask result
  | stopped index =>
    simp only [step] at hstep
    split_ifs at hstep with hat
    cases hstep
    obtain ⟨slot, hslot, htask⟩ := at_iff.mp hat
    exact inv_stopped h hslot htask
  | ended index log =>
    simp only [step] at hstep
    split_ifs at hstep with hat
    cases hstep
    obtain ⟨slot, hslot, htask⟩ := at_iff.mp hat
    exact inv_ended h hslot htask log
  | close =>
    cases hstep
    exact inv_close h
  | tell call =>
    simp only [step] at hstep
    split at hstep
    · next task tasks stops hcall =>
      cases hstep
      refine inv_tell h hcall ?_
      rintro i rfl
      simp only [InTime, hcall] at hintime
      exact hintime
    · cases hstep
  | next call =>
    simp only [step] at hstep
    split at hstep
    · next task tasks stops hcall =>
      split_ifs at hstep with hover
      cases hstep
      exact inv_next h hcall hover
    · cases hstep
  | ready =>
    simp only [step] at hstep
    split_ifs at hstep
    cases hstep
    exact h

theorem run_inv {user project : List (String × ServerConfig)} {events : List (Event Peer Tool)}
    (hrun : Steps (when InTime (outcome step)) (start user project) events s) : s.Inv [] :=
  hrun.keeps (P := fun s => s.Inv []) (inv_start user project)
    fun _ _ _ h hnext => inv_step h hnext.1 hnext.2

def Waits (slot : Slot Peer Tool) : Prop :=
  slot.task = .gated ∨ slot.task = .spawned ∨ slot.task = .connecting

instance (slot : Slot Peer Tool) : Decidable (Waits slot) := inferInstanceAs (Decidable (_ ∨ _))

structure Sound (s : Servers Peer Tool) : Prop where
  peer : ∀ slot ∈ s.slots, slot.peer.isSome ↔ ∃ tools, slot.state = .connected tools
  counted : s.closed = false → s.starting = (s.slots.countP fun slot => Waits slot : Nat)
  positive : 0 ≤ s.starting
  returned : ∀ first rest, s.closes = first :: rest → first.tasks = [] →
    s.trust ≠ .waiting ∧ ∀ slot ∈ s.slots, ¬ slot.Active
  cleaned : ∀ slot ∈ s.slots, slot.task ≠ .aborted false

structure StepSound (s : Servers Peer Tool) (event : Event Peer Tool) (s' : Servers Peer Tool) :
    Prop where
  launch : ∀ i slot, event = .launch i → s.slots[i]? = some slot → slot.source = .project →
    s.answer = some true ∧ s.closed = false
  ready : event = .ready → s.closed = true ∨ ∀ slot ∈ s.slots, ¬ Waits slot
  quiet : s.closed = true → s'.reports = s.reports

theorem starts_of_open (h : s.Inv []) (hopen : s.closed = false) (hslot : slot ∈ s.slots) :
    slot.starts = true ↔ Waits slot := by
  obtain ⟨i, hi⟩ := List.mem_iff_getElem?.mp hslot
  have hfits := h.fits i slot hi
  have haborted : slot.task ≠ .aborted true := by
    intro heq
    have hclosed : s.closed = true := hfits.aborted heq
    rw [hopen] at hclosed
    cases hclosed
  have hkept := hfits.kept
  unfold Slot.starts Waits
  split
  · next heq => simp [heq]
  · next heq => simp [heq]
  · next heq => simp [heq]
  · next heq => exact absurd heq haborted
  · next heq => simp [heq]
  · next heq => simp [heq]
  · next heq => simp [heq]
  · next heq => simp [heq]
  · next heq => exact absurd heq hkept

theorem sound (h : s.Inv []) : s.Sound := by
  have hfits : ∀ slot ∈ s.slots, ∃ i, Fits (s.context []) i slot := by
    intro slot hslot
    obtain ⟨i, hi⟩ := List.mem_iff_getElem?.mp hslot
    exact ⟨i, h.fits i slot hi⟩
  refine ⟨fun slot hslot => ?_, fun hopen => ?_, ?_, fun first rest hcloses hnil => ⟨?_, ?_⟩,
    fun slot hslot => ?_⟩
  · obtain ⟨_, hfits⟩ := hfits slot hslot
    exact hfits.shape.peer
  · rw [h.count]
    congr 1
    refine List.countP_congr fun slot hslot => ?_
    rw [decide_eq_true_eq]
    exact starts_of_open h hopen hslot
  · rw [h.count]
    exact Int.natCast_nonneg _
  · intro hwaiting
    have hheld := (h.trust hwaiting).1
    rw [holding_of_closes hcloses, hnil] at hheld
    cases hheld
  · intro slot hslot hactive
    obtain ⟨i, hfits⟩ := hfits slot hslot
    have hheld : some i ∈ s.holding := hfits.held hactive
    rw [holding_of_closes hcloses, hnil] at hheld
    cases hheld
  · obtain ⟨_, hfits⟩ := hfits slot hslot
    exact hfits.kept

theorem setTask_reports {phase : Phase} : (s.setTask i phase).reports = s.reports ∧
    (s.setTask i phase).closed = s.closed := by
  unfold setTask
  split
  · exact ⟨rfl, rfl⟩
  · exact ⟨rfl, rfl⟩

theorem update_reports {change : Slot Peer Tool → Slot Peer Tool} (hclosed : s.closed = true) :
    (s.update i change).reports = s.reports := by
  unfold update
  split
  · rfl
  · simp [hclosed]

theorem foldl_startGated_reports {trusted : Bool} (hclosed : s.closed = true) (indices : List Nat) :
    (indices.foldl (startGated trusted) s).reports = s.reports := by
  induction indices generalizing s with
  | nil => rfl
  | cons i indices ih =>
    have hone : startGated trusted s i = (s.setTask i .absent).countDown := by
      unfold startGated
      rw [if_pos (.inr hclosed)]
    rw [List.foldl_cons, hone, ih]
    · exact setTask_reports.1
    · exact setTask_reports.2.trans hclosed

theorem step_reports {event : Event Peer Tool} (hclosed : s.closed = true)
    (hstep : s.step event = some s') : s'.reports = s.reports := by
  cases event with
  | answer trusted =>
    simp only [step] at hstep
    split_ifs at hstep
    cases hstep
    unfold startTrusted
    exact foldl_startGated_reports (s := { s with trust := .over, answer := some trusted }) hclosed _
  | launch index =>
    simp only [step] at hstep
    split_ifs at hstep
    cases hstep
    exact setTask_reports.1
  | connected index result =>
    simp only [step] at hstep
    split_ifs at hstep
    cases hstep
    cases result with
    | ok found => exact update_reports hclosed
    | error error => exact update_reports hclosed
  | stopped index =>
    simp only [step] at hstep
    split_ifs at hstep
    cases hstep
    exact setTask_reports.1
  | ended index log =>
    simp only [step] at hstep
    split_ifs at hstep
    cases hstep
    exact update_reports hclosed
  | close =>
    cases hstep
    rfl
  | tell call =>
    simp only [step] at hstep
    split at hstep
    · cases hstep
      unfold tell
      split
      · split
        · rfl
        · rfl
      · split
        · rfl
        · unfold abort
          split
          · exact setTask_reports.1
          · exact setTask_reports.1
          · exact setTask_reports.1
          · exact setTask_reports.1
          · rfl
    · cases hstep
  | next call =>
    simp only [step] at hstep
    split at hstep
    · split_ifs at hstep
      cases hstep
      rfl
    · cases hstep
  | ready =>
    simp only [step] at hstep
    split_ifs at hstep
    cases hstep
    rfl

theorem ready_waits (h : s.Inv []) (hstep : s.step .ready = some s') :
    s.closed = true ∨ ∀ slot ∈ s.slots, ¬ Waits slot := by
  cases hclosed : s.closed with
  | true => exact .inl rfl
  | false =>
    right
    intro slot hslot hwaits
    simp only [step] at hstep
    split_ifs at hstep with hready
    rcases hready with hzero | hsender
    · have hcount := h.count
      have hpos : 0 < s.slots.countP Slot.starts :=
        List.countP_pos_iff.mpr ⟨slot, hslot, (starts_of_open h hclosed hslot).mpr hwaits⟩
      omega
    · obtain ⟨i, hi⟩ := List.mem_iff_getElem?.mp hslot
      have hfits := h.fits i slot hi
      refine hsender ?_
      rcases hwaits with htask | htask | htask
      · rcases hfits.gated htask with hwaiting | ⟨hclosed', _⟩ | hleft
        · exact .inl hwaiting
        · have htrue : s.closed = true := hclosed'
          rw [hclosed] at htrue
          cases htrue
        · cases hleft
      · exact .inr ⟨slot, hslot, .inl htask⟩
      · exact .inr ⟨slot, hslot, .inr (.inl htask)⟩

theorem stepSound (h : s.Inv []) {event : Event Peer Tool} (hintime : s.InTime event)
    (hstep : s.step event = some s') : s.StepSound event s' := by
  refine ⟨?_, ?_, fun hclosed => step_reports hclosed hstep⟩
  · rintro i slot rfl hslot hsource
    refine ⟨?_, hintime slot hslot hsource⟩
    simp only [step] at hstep
    split_ifs at hstep with hat
    obtain ⟨slot', hslot', htask⟩ := at_iff.mp hat
    rw [hslot] at hslot'
    cases hslot'
    exact (h.fits i slot hslot).trusted hsource (by simp [htask]) (by simp [htask])
  · rintro rfl
    exact ready_waits h hstep

/-- The life cycle of the servers in each run in which no project server starts its program after a
close began, and no abort of a close hits a server that connected meanwhile. -/
theorem servers_life_cycle {user project : List (String × ServerConfig)}
    {events : List (Event Peer Tool)}
    (hrun : Steps (when InTime (outcome step)) (start user project) events s) :
    s.Sound ∧ ∀ event s', s.InTime event → s.step event = some s' → s.StepSound event s' := by
  have h := run_inv hrun
  exact ⟨sound h, fun event s' hintime hstep => stepSound h hintime hstep⟩

/-- A user server connects, a project server is trusted and fails, and a close stops the first. -/
def quietRun : List (Event Unit Unit) :=
  [.launch 0, .connected 0 (.ok ((), [()])), .answer true, .launch 1, .connected 1 (.error "gone"),
    .ready, .close, .tell 0, .stopped 0, .ended 0 "", .next 0, .tell 0, .next 0, .tell 0, .next 0]

theorem servers_life_cycle_quiet :
    ∃ s, quietRun.foldlM (guarded InTime step)
        (start [("a", ⟨true, .ok ()⟩)] [("b", ⟨true, .ok ()⟩)]) = some s ∧
      s.closes = [⟨[], [true, false], false⟩] ∧ s.reports.length = 3 ∧
      s.Sound ∧ ∀ event s', s.InTime event → s.step event = some s' → s.StepSound event s' := by
  have hrun : ∃ s, quietRun.foldlM (guarded InTime step)
        (start [("a", ⟨true, .ok ()⟩)] [("b", ⟨true, .ok ()⟩)]) = some s ∧
      s.closes = [⟨[], [true, false], false⟩] ∧ s.reports.length = 3 := ⟨_, rfl, rfl, rfl⟩
  obtain ⟨s, hrun, hcloses, hreports⟩ := hrun
  exact ⟨s, hrun, hcloses, hreports, servers_life_cycle (Steps.of_guarded hrun)⟩

def lateRun : List (Event Unit Unit) :=
  [.launch 0, .connected 0 (.ok ((), [])), .answer true, .close, .tell 0]

def abortedRun : List (Event Unit Unit) :=
  [.launch 0, .connected 0 (.ok ((), [])), .launch 1, .close, .tell 0, .connected 1 (.ok ((), [])),
    .stopped 0, .ended 0 "", .next 0, .tell 0, .next 0]

/-- The program of a project server starts after the close began, and a close that returned aborted
a connected server. -/
theorem close_is_late :
    (∃ s s' : Servers Unit Unit, Steps (outcome step)
        (start [("a", ⟨true, .ok ()⟩)] [("b", ⟨true, .ok ()⟩)]) lateRun s ∧
      s.closed = true ∧ s.step (.launch 1) = some s' ∧
      s.slots[1]?.map Slot.source = some .project) ∧
      ∃ s : Servers Unit Unit, Steps (outcome step)
          (start [("a", ⟨true, .ok ()⟩), ("b", ⟨true, .ok ()⟩)] []) abortedRun s ∧
        s.closes = [⟨[], [true, false], false⟩] ∧
        s.slots[1]?.map Slot.task = some (.aborted false) ∧
        s.slots[1]?.map Slot.state = some (.connected 0) := by
  constructor
  · have hrun : ∃ s s' : Servers Unit Unit, lateRun.foldlM step
          (start [("a", ⟨true, .ok ()⟩)] [("b", ⟨true, .ok ()⟩)]) = some s ∧
        s.closed = true ∧ s.step (.launch 1) = some s' ∧
        s.slots[1]?.map Slot.source = some .project := ⟨_, _, rfl, rfl, rfl, rfl⟩
    obtain ⟨s, s', hrun, hrest⟩ := hrun
    exact ⟨s, s', .of_foldlM hrun, hrest⟩
  · have hrun : ∃ s : Servers Unit Unit, abortedRun.foldlM step
          (start [("a", ⟨true, .ok ()⟩), ("b", ⟨true, .ok ()⟩)] []) = some s ∧
        s.closes = [⟨[], [true, false], false⟩] ∧
        s.slots[1]?.map Slot.task = some (.aborted false) ∧
        s.slots[1]?.map Slot.state = some (.connected 0) := ⟨_, rfl, rfl, rfl, rfl⟩
    obtain ⟨s, hrun, hrest⟩ := hrun
    exact ⟨s, .of_foldlM hrun, hrest⟩

end Servers

end Yuke.Mcp
