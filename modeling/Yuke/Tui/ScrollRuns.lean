import Yuke.Shared.Steps
import Yuke.Tui.ScrollReads

/-!
# Runs of the scroll list

A layout that throws keeps the entries of the list, but the caches hold what it rendered before the
throw. In a run where no such render changes the rows of an entry, the list goes through the states
of the list without caches, so a throw changes nothing that a caller can see.
-/

set_option autoImplicit false
set_option linter.unusedSectionVars false

namespace Yuke.Tui

open Yuke.Shared

variable {Item Key Row : Type} [DecidableEq Item] [DecidableEq Key]
variable {o : ScrollOptions Item Key Row} {time : Nat} {shown : Shown Item Key}
variable {list : ScrollList Item Key Row} {size : Size} {keyed : List (Item × Key)}

/-! ## The calls with caches -/

theorem relayout_threw (h : list.Sound o time) (hnone : list.shown.relaid o time keyed size = none)
    (hsame : ∀ item ∈ untilThrow o time size.width keyed, ∀ entry ∈ list.shown.entries,
      0 < entry.height → entry.item = item → o.render time item size.width = some [] ∨
        o.render time item size.width = o.render time item list.shown.size.width) :
    (list.relayout o time keyed size).1 = .threw ∧
      (list.relayout o time keyed size).2.shown = list.shown ∧
      (list.relayout o time keyed size).2.Sound o time := by
  have hmeasured : measured o time size.width keyed = none := Option.map_eq_none_iff.mp hnone
  obtain ⟨hentries, hcaches, hfresh⟩ := measureAll_keeps size.width list.shown keyed
    (P := Fresh o time list.shown) h.caches h.fresh
    (fun item hitem key caches rows _ _ hfresh hrows => hfresh.filled hrows
      fun entry hentry hpos heq => (hsame item hitem entry hentry hpos heq).imp_left
        fun hnil => by
          rw [hrows] at hnil
          exact Option.some.inj hnil)
  unfold ScrollList.relayout
  rw [hmeasured] at hentries
  generalize measureAll o time list.shown size.width keyed list.caches = result at *
  obtain ⟨entries, caches⟩ := result
  simp only at hentries hcaches hfresh
  subst hentries
  exact ⟨rfl, rfl, h.shown, hcaches, hfresh⟩

theorem relayout_done {next : Shown Item Key} (h : list.Sound o time)
    (hnodup : (keyed.map Prod.snd).Nodup) (hkey : ∀ pair ∈ keyed, pair.2 = o.key pair.1)
    (hnext : list.shown.relaid o time keyed size = some next) :
    (list.relayout o time keyed size).1 = .done ∧
      (list.relayout o time keyed size).2.shown = next ∧
      (list.relayout o time keyed size).2.Sound o time := by
  have hsound := Shown.relaid_sound hnodup hkey hnext
  obtain ⟨entries, hmeasured, rfl⟩ := Option.map_eq_some_iff.mp hnext
  obtain ⟨hkeyed, hmeasure⟩ := measured_get hmeasured
  obtain ⟨hentries, hcaches, _⟩ := measureAll_keeps size.width list.shown keyed
    (P := fun _ => True) h.caches trivial (fun _ _ _ _ _ _ _ _ _ => trivial)
  rw [hmeasured] at hentries
  have hknown := fun hwidth => measureAll_known h.caches hwidth hentries
  unfold ScrollList.relayout
  generalize measureAll o time list.shown size.width keyed list.caches = result at *
  obtain ⟨found, caches⟩ := result
  simp only at hentries hcaches hknown
  subst hentries
  have hfewer : Fewer ((caches.retain (entries.map Entry.item)).trim
      (list.shown.placed entries size) none) caches :=
    (trim_fewer none).trans (retain_fewer _)
  refine ⟨rfl, rfl, hsound, hcaches.fewer hfewer, Fresh.fewer ?_ hfewer⟩
  intro entry hentry hpos
  have hwidth : 0 < size.width := by
    have hheight := hmeasure entry hentry
    unfold measure at hheight
    split at hheight
    · rw [Option.some.injEq] at hheight
      rw [← hheight] at hpos
      exact absurd hpos (Nat.lt_irrefl 0)
    · omega
  obtain ⟨height, hheight⟩ := hknown hwidth (entry.item, entry.key)
    (hkeyed ▸ List.mem_map.mpr ⟨entry, hentry, rfl⟩)
  obtain ⟨rows, hrows, hlength⟩ := hsound.render hentry hpos
  refine ⟨fun kept hmem hitem => ?_, fun width known hwidth' _ => ?_⟩
  · obtain ⟨_, rows', hrows', hlength'⟩ := hcaches.heights _ _ _ hheight
    have hsame : rows' = rows := Option.some.inj (hrows'.symm.trans hrows)
    rw [hsame, hlength] at hlength'
    rw [← hitem]
    exact hcaches.rendered kept hmem size.width height (by rw [hitem]; exact hheight)
      (hlength' ▸ hpos)
  · have hsame : width = size.width := by
      have := hheight.symm.trans hwidth'
      simp only [Option.some.injEq, Prod.mk.injEq] at this
      exact this.1.symm
    rw [hsame]
    rfl

theorem call_sound (h : list.Sound o time) {event : ScrollEvent Item Key}
    (hunmixed : list.shown.Unmixed o time event) :
    (list.call o time event).1 = (list.shown.call o time event).1 ∧
      (list.call o time event).2.shown = (list.shown.call o time event).2 ∧
      (list.call o time event).2.Sound o time := by
  have hshow : ∀ {next : Shown Item Key}, next.Sound o time → next.entries = list.shown.entries →
      next.size.width = list.shown.size.width →
      ScrollList.Sound o time { list with shown := next } :=
    fun hnext hentries hwidth => ⟨hnext, h.caches, h.fresh.of_entries hentries hwidth⟩
  have halike : ∀ {next : Shown Item Key}, next.Sound o time → next.Alike list.shown →
      ScrollList.Sound o time { list with shown := next } :=
    fun hnext hsame => hshow hnext hsame.1 (congrArg Size.width hsame.2)
  have hmove : ∀ row, ScrollList.Sound o time { list with shown := list.shown.moveTo row } :=
    fun row => halike (Shown.moveTo_sound h.shown row) (Shown.moveTo_alike row)
  cases event with
  | setItems items =>
    simp only [ScrollList.call, Shown.call, ScrollList.setItems, Shown.setItems]
    split
    · exact ⟨rfl, rfl, h⟩
    · rename_i hnodup
      split
      · exact ⟨rfl, rfl, h⟩
      · cases hnext : list.shown.relaid o time (items.map fun item => (item, o.key item))
            list.shown.size with
        | none =>
          obtain ⟨hthrew, hshown, hsound⟩ := relayout_threw h hnext fun _ _ _ _ _ _ => .inr rfl
          generalize list.relayout o time (items.map fun item => (item, o.key item))
            list.shown.size = result at *
          obtain ⟨outcome, next⟩ := result
          simp only at hthrew
          subst hthrew
          exact ⟨rfl, hshown, hsound⟩
        | some shown =>
          obtain ⟨hdone, hshown, hsound⟩ := relayout_done h
            (by rw [List.map_map]; exact Decidable.not_not.mp hnodup)
            (fun pair hpair => by
              obtain ⟨item, _, rfl⟩ := List.mem_map.mp hpair
              rfl) hnext
          generalize list.relayout o time (items.map fun item => (item, o.key item))
            list.shown.size = result at *
          obtain ⟨outcome, next⟩ := result
          simp only at hdone hshown hsound
          subst hdone
          have halike := next.shown.markBelow_alike list.shown.items
          exact ⟨rfl, congrArg (Shown.markBelow · list.shown.items) hshown,
            Shown.markBelow_sound hsound.shown _, hsound.caches,
            hsound.fresh.of_entries halike.1 (congrArg Size.width halike.2)⟩
  | layout size =>
    simp only [ScrollList.call, Shown.call, ScrollList.layout, Shown.layout]
    split
    · exact ⟨rfl, rfl, h⟩
    · split
      · rename_i hwidth
        exact ⟨rfl, rfl, hshow (Shown.resized_sound h.shown hwidth) rfl hwidth⟩
      · rename_i hwidth
        cases hnext : list.shown.relaid o time list.shown.keyed size with
        | none =>
          have hmeasured : measured o time size.width list.shown.keyed = none :=
            Option.map_eq_none_iff.mp hnext
          obtain ⟨hthrew, hshown, hsound⟩ := relayout_threw h hnext
            fun item hitem entry hentry hpos heq => by
              rcases hunmixed hwidth hmeasured entry hentry (heq ▸ hitem) with hzero | hsame
              · omega
              · exact heq ▸ hsame
          exact ⟨hthrew, hshown, hsound⟩
        | some shown =>
          exact relayout_done h h.shown.keyed_nodup h.shown.keyed_key hnext
  | scrollBy rows => exact ⟨rfl, rfl, hmove _⟩
  | scrollTo row => exact ⟨rfl, rfl, hmove _⟩
  | followTail => exact ⟨rfl, rfl, hmove _⟩
  | scrollToItem key row =>
    exact ⟨rfl, rfl, halike (Shown.scrollToItem_sound h.shown key row)
      (Shown.scrollToItem_alike key row)⟩
  | ensureVisible key row =>
    exact ⟨rfl, rfl, halike (Shown.ensureVisible_sound h.shown key row)
      (Shown.ensureVisible_alike key row)⟩
  | rowAt row => exact ⟨rfl, (rowAt_sound h row).2⟩
  | rowsOf key => exact ⟨rfl, (rowsOf_sound h key).2⟩
  | draw height => exact ⟨rfl, (draw_sound h height).2⟩

structure Timed (Item Key Row : Type) where
  list : ScrollList Item Key Row
  time : Nat

namespace Timed

def new (followTail : Bool) : Timed Item Key Row := ⟨.new followTail, 0⟩

def next (o : ScrollOptions Item Key Row) (s : Timed Item Key Row)
    (event : ScrollEvent Item Key × Nat) (t : Timed Item Key Row) : Prop :=
  s.time ≤ event.2 ∧ t = ⟨(s.list.call o event.2 event.1).2, event.2⟩

def Unmixed (o : ScrollOptions Item Key Row) (s : Timed Item Key Row)
    (event : ScrollEvent Item Key × Nat) : Prop :=
  s.list.shown.Unmixed o event.2 event.1

def Sound (o : ScrollOptions Item Key Row) (s : Timed Item Key Row) : Prop :=
  s.list.Sound o s.time

variable {s t s' t' : Timed Item Key Row} {events : List (ScrollEvent Item Key × Nat)}
variable {event : ScrollEvent Item Key × Nat}

theorem new_sound (followTail : Bool) : (Timed.new followTail : Timed Item Key Row).Sound o := by
  refine ⟨⟨?_, ?_, rfl, ?_, Nat.zero_le _, fun _ => rfl⟩, ⟨?_, ?_⟩, ?_⟩
  all_goals simp [Timed.new, ScrollList.new, Fresh]

theorem next_sound (h : s.Sound o) (hnext : when (Unmixed o) (next o) s event t) : t.Sound o := by
  obtain ⟨hunmixed, hle, rfl⟩ := hnext
  exact (call_sound (h.later hle) hunmixed).2.2

theorem run_sound {followTail : Bool}
    (hrun : Steps (when (Unmixed o) (next o)) (.new followTail) events s) : s.Sound o :=
  hrun.keeps (P := Timed.Sound o) (new_sound followTail) fun _ _ _ h hnext => next_sound h hnext

structure SameReads (o : ScrollOptions Item Key Row) (time : Nat) (s t : Timed Item Key Row) :
    Prop where
  state : s.list.shown.state = t.list.shown.state
  rowAt : ∀ now row, time ≤ now → (s.list.rowAt o now row).1 = (t.list.rowAt o now row).1
  rowsOf : ∀ now key, time ≤ now → (s.list.rowsOf o now key).1 = (t.list.rowsOf o now key).1
  draw : ∀ now height, time ≤ now → (s.list.draw o now height).1 = (t.list.draw o now height).1

theorem sameReads_of_shown (h : s.Sound o) (h' : t.Sound o) (hle : s.time ≤ t.time)
    (hshown : s.list.shown = t.list.shown) : SameReads o t.time s t := by
  refine ⟨by rw [hshown], fun now row hnow => ?_, fun now key hnow => ?_, fun now height hnow => ?_⟩
  · rw [(rowAt_sound (h.later (hle.trans hnow)) row).1, (rowAt_sound (h'.later hnow) row).1, hshown]
  · rw [(rowsOf_sound (h.later (hle.trans hnow)) key).1, (rowsOf_sound (h'.later hnow) key).1,
      hshown]
  · rw [(draw_sound (h.later (hle.trans hnow)) height).1, (draw_sound (h'.later hnow) height).1,
      hshown]

theorem run_same (h : s.Sound o) (h' : s'.Sound o) (hle : s.time ≤ s'.time)
    (hshown : s.list.shown = s'.list.shown)
    (hrun : Steps (when (Unmixed o) (next o)) s' events t') :
    ∃ t, Steps (when (Unmixed o) (next o)) s events t ∧ t.Sound o ∧ t'.Sound o ∧
      t.time ≤ t'.time ∧ t.list.shown = t'.list.shown := by
  induction hrun with
  | start => exact ⟨s, .start, h, h', hle, hshown⟩
  | @step events event last u hrun hnext ih =>
    obtain ⟨t, hsteps, ht, hlast, htime, hsame⟩ := ih
    obtain ⟨hunmixed, hnow, rfl⟩ := hnext
    have hunmixed' : t.list.shown.Unmixed o event.2 event.1 := by
      rw [hsame]
      exact hunmixed
    have hnow' := htime.trans hnow
    obtain ⟨_, hcall, hsound⟩ := call_sound (ht.later hnow') hunmixed'
    obtain ⟨_, hcall', hsound'⟩ := call_sound (hlast.later hnow) hunmixed
    exact ⟨_, .step hsteps ⟨hunmixed', hnow', rfl⟩, hsound, hsound', Nat.le_refl _,
      by rw [hcall, hcall', hsame]⟩

end Timed

/-! ## The place of the view -/

def Relays (shown : Shown Item Key) : ScrollEvent Item Key → Prop
  | .setItems _ => True
  | .layout size => size.width ≠ shown.size.width
  | _ => False

namespace Shown

variable {entry : Entry Item Key} {i : Nat} {anchor : Anchor Key}

theorem Sound.anchor_top (h : shown.Sound o time) (hanchor : shown.anchor = some anchor)
    (hentry : shown.entries[i]? = some entry) (hkey : entry.key = anchor.key) :
    shown.top = shown.rowsBefore i + anchor.row := by
  unfold Shown.anchor at hanchor
  split at hanchor
  · cases hanchor
  · obtain ⟨j, hat, hmap⟩ := Option.bind_eq_some_iff.mp hanchor
    obtain ⟨found, hfound, rfl⟩ := Option.map_eq_some_iff.mp hmap
    have hindex := index_of_nodup h.nodup hentry
    rw [hkey, index_of_nodup h.nodup hfound] at hindex
    cases hindex
    have htotal : 0 < shown.total := by
      unfold Shown.entryAt at hat
      split at hat
      · cases hat
      · omega
    obtain ⟨k, _, hat', _, hlow, _⟩ := h.entryAt (h.top.trans (Nat.sub_le _ _)) htotal
    rw [hat] at hat'
    cases hat'
    simp only
    omega

theorem anchored_of_rowOf {order : List Key} {top : Nat}
    (h : shown.rowOf anchor.key anchor.row = some top) (hlast : top ≤ shown.last) :
    shown.anchored (some anchor) order = top := by
  simp only [anchored, h, Option.some_or, Option.getD_some]
  exact Nat.min_eq_left hlast

theorem placed_top {entries : List (Entry Item Key)}
    (hnodup : (entries.map Entry.key).Nodup) (hfollow : shown.following = false)
    (hanchor : shown.anchor = some anchor) (hentry : entries[i]? = some entry)
    (hkey : entry.key = anchor.key) (hrow : anchor.row < entry.height)
    (hlast : (shown.placed entries size).rowsBefore i + anchor.row ≤
      (shown.placed entries size).last) :
    (shown.placed entries size).top = (shown.placed entries size).rowsBefore i + anchor.row := by
  have htop : (shown.placed entries size).top =
      (shown.withEntries entries size).anchored (some anchor) (shown.entries.map Entry.key) := by
    simp only [placed, hfollow, hanchor, Bool.false_eq_true, if_false]
  have hfound : (shown.withEntries entries size).entries[i]? = some entry := hentry
  have hindex := index_of_nodup hnodup hfound
  rw [htop]
  refine anchored_of_rowOf ?_ hlast
  unfold Shown.rowOf
  rw [← hkey, hindex, Option.bind_some, hfound, Option.bind_some, if_neg (by omega),
    Nat.min_eq_left (by omega)]
  rfl

def Kept (before next : Shown Item Key) : Prop :=
  next.following = false → ∀ anchor, before.anchor = some anchor →
    ∀ (i : Nat) entry, next.entries[i]? = some entry → entry.key = anchor.key →
      anchor.row < entry.height → next.rowsBefore i + anchor.row ≤ next.last →
      next.top = next.rowsBefore i + anchor.row

theorem Kept.markBelow {before next : Shown Item Key} (h : Kept before next) (old : List Item) :
    Kept before (next.markBelow old) := by
  unfold Shown.markBelow
  split
  · exact h
  · exact h

theorem relaid_kept {next : Shown Item Key} (hnodup : (keyed.map Prod.snd).Nodup)
    (hnext : shown.relaid o time keyed size = some next) : Kept shown next := by
  obtain ⟨entries, hentries, rfl⟩ := Option.map_eq_some_iff.mp hnext
  obtain ⟨hmap, _⟩ := measured_get hentries
  intro hfollow anchor hanchor i entry hentry hkey hrow hlast
  refine placed_top ?_ hfollow hanchor hentry hkey hrow hlast
  rw [← hmap, List.map_map] at hnodup
  exact hnodup

theorem Sound.call_kept (h : shown.Sound o time) {event : ScrollEvent Item Key}
    (hrelays : Relays shown event) (hdone : (shown.call o time event).1 = .done) :
    Kept shown (shown.call o time event).2 := by
  cases event with
  | setItems items =>
    simp only [Shown.call, Shown.setItems] at hdone ⊢
    split at hdone
    · cases hdone
    · rename_i hnodup
      rw [if_neg hnodup]
      split at hdone
      · rename_i hsame
        rw [if_pos hsame]
        intro _ anchor hanchor i entry hentry hkey _ _
        exact h.anchor_top hanchor hentry hkey
      · rename_i hsame
        rw [if_neg hsame]
        cases hnext : shown.relaid o time (items.map fun item => (item, o.key item)) shown.size with
        | none =>
          rw [hnext] at hdone
          cases hdone
        | some next =>
          refine (relaid_kept ?_ hnext).markBelow shown.items
          rw [List.map_map]
          exact Decidable.not_not.mp hnodup
  | layout size =>
    have hwidth : size.width ≠ shown.size.width := hrelays
    have hsize : size ≠ shown.size := fun heq => hwidth (congrArg Size.width heq)
    simp only [Shown.call, Shown.layout] at hdone ⊢
    rw [if_neg hsize, if_neg hwidth] at hdone ⊢
    cases hnext : shown.relaid o time shown.keyed size with
    | none =>
      rw [hnext] at hdone
      cases hdone
    | some next => exact relaid_kept h.keyed_nodup hnext
  | _ => cases hrelays

end Shown

/-- The list after its items were measured: the sums count the rows that it draws, the top is in the
list, and a view that does not follow the tail keeps its item at the top where it can. -/
structure InPlace (o : ScrollOptions Item Key Row) (time : Nat) (before : Shown Item Key)
    (list : ScrollList Item Key Row) : Prop where
  sums : ∀ (i : Nat) entry, list.shown.entries[i]? = some entry →
    ∃ rows, (list.rowsOf o time entry.key).1 = some (some (list.shown.rowsBefore i, rows)) ∧
      list.shown.rowsBefore (i + 1) = list.shown.rowsBefore i + rows.length
  drawn : ∀ height, (list.draw o time height).1 =
    some (((list.shown.allRows o time).drop list.shown.top).take height)
  top : list.shown.top ≤ list.shown.last
  follow : list.shown.following = true → list.shown.top = list.shown.last
  anchor : before.Kept list.shown

theorem call_inPlace (h : list.Sound o time) {event : ScrollEvent Item Key}
    (hunmixed : list.shown.Unmixed o time event) (hrelays : Relays list.shown event)
    (hdone : (list.call o time event).1 = .done) :
    InPlace o time list.shown (list.call o time event).2 := by
  obtain ⟨houtcome, hshown, hsound⟩ := call_sound h hunmixed
  have hkept := h.shown.call_kept hrelays (houtcome ▸ hdone)
  rw [← hshown] at hkept
  refine ⟨fun i entry hentry => ?_, fun height => (draw_sound hsound height).1, hsound.shown.top,
    hsound.shown.follow, hkept⟩
  obtain ⟨hrows, hsucc⟩ := hsound.shown.sums hentry
  exact ⟨_, by rw [(rowsOf_sound hsound entry.key).1, hrows], hsucc⟩

theorem call_threw_shown (h : list.Sound o time) {event : ScrollEvent Item Key}
    (hunmixed : list.shown.Unmixed o time event) (hthrew : (list.call o time event).1 = .threw) :
    (list.call o time event).2.shown = list.shown := by
  obtain ⟨houtcome, hshown, _⟩ := call_sound h hunmixed
  rw [hshown]
  rw [houtcome] at hthrew
  cases event with
  | setItems items =>
    simp only [Shown.call, Shown.setItems] at hthrew ⊢
    split
    · rfl
    · rename_i hnodup
      rw [if_neg hnodup] at hthrew
      split
      · rfl
      · rename_i hsame
        rw [if_neg hsame] at hthrew
        split
        · rfl
        · rename_i hnext
          rw [hnext] at hthrew
          cases hthrew
  | layout size =>
    simp only [Shown.call, Shown.layout] at hthrew ⊢
    split
    · rfl
    · rename_i hsize
      rw [if_neg hsize] at hthrew
      split
      · rename_i hwidth
        rw [if_pos hwidth] at hthrew
        cases hthrew
      · rename_i hwidth
        rw [if_neg hwidth] at hthrew
        split
        · rfl
        · rename_i hnext
          rw [hnext] at hthrew
          cases hthrew
  | _ => cases hthrew

namespace Timed

/-- In a run where no layout throws after a render changed the rows of an entry, a call that throws
changes no later read of the list, and one that goes through keeps the view in place. -/
theorem relayout_all_or_nothing {followTail : Bool} {events : List (ScrollEvent Item Key × Nat)}
    {s : Timed Item Key Row} {event : ScrollEvent Item Key} {time : Nat}
    (hrun : Steps (when (Unmixed o) (next o)) (.new followTail) events s) (hle : s.time ≤ time)
    (hunmixed : s.list.shown.Unmixed o time event) (hrelays : Relays s.list.shown event) :
    ((s.list.call o time event).1 = .threw → ∀ later t',
      Steps (when (Unmixed o) (next o)) ⟨(s.list.call o time event).2, time⟩ later t' →
        ∃ t, Steps (when (Unmixed o) (next o)) s later t ∧ SameReads o t'.time t t') ∧
      ((s.list.call o time event).1 = .done →
        InPlace o time s.list.shown (s.list.call o time event).2) := by
  have hsound := run_sound hrun
  refine ⟨fun hthrew later t' hlater => ?_, fun hdone =>
    call_inPlace (hsound.later hle) hunmixed hrelays hdone⟩
  have hshown := call_threw_shown (hsound.later hle) hunmixed hthrew
  have hsound' : Timed.Sound o ⟨(s.list.call o time event).2, time⟩ :=
    (call_sound (hsound.later hle) hunmixed).2.2
  obtain ⟨t, hsteps, ht, ht', htime, hsame⟩ := run_same hsound hsound' hle hshown.symm hlater
  exact ⟨t, hsteps, sameReads_of_shown ht ht' htime hsame⟩

end Timed

/-- Two items: the first one has two rows at width 20, and the second one does not render there. -/
def narrowOptions : ScrollOptions Nat Nat Nat where
  key := id
  render := fun _ item width =>
    if item = 0 then some (if width = 20 then [1, 2] else [0])
    else if width = 20 then none else some [3]
  again := fun _ h => h

def wideEvents : List (ScrollEvent Nat Nat × Nat) := [(.setItems [0, 1], 0), (.layout ⟨80, 10⟩, 0)]

def listed : Timed Nat Nat Nat :=
  ⟨((Timed.new false).list.call narrowOptions 0 (.setItems [0, 1])).2, 0⟩

/-- The list of both items at width 80. -/
def wide : Timed Nat Nat Nat := ⟨(listed.list.call narrowOptions 0 (.layout ⟨80, 10⟩)).2, 0⟩

theorem listed_next : when (Timed.Unmixed narrowOptions) (Timed.next narrowOptions) (.new false)
    (.setItems [0, 1], 0) listed :=
  ⟨trivial, Nat.le_refl 0, rfl⟩

theorem wide_next : when (Timed.Unmixed narrowOptions) (Timed.next narrowOptions) listed
    (.layout ⟨80, 10⟩, 0) wide :=
  ⟨fun _ h => (nomatch h), Nat.le_refl 0, rfl⟩

theorem wide_run :
    Steps (when (Timed.Unmixed narrowOptions) (Timed.next narrowOptions)) (.new false) wideEvents
      wide :=
  .cons listed_next (.cons wide_next .start)

theorem relayout_all_or_nothing_wide :
    ((wide.list.call narrowOptions 0 (.setItems [1])).1 = .threw → ∀ later t',
      Steps (when (Timed.Unmixed narrowOptions) (Timed.next narrowOptions))
          ⟨(wide.list.call narrowOptions 0 (.setItems [1])).2, 0⟩ later t' →
        ∃ t, Steps (when (Timed.Unmixed narrowOptions) (Timed.next narrowOptions)) wide later t ∧
          Timed.SameReads narrowOptions t'.time t t') ∧
      ((wide.list.call narrowOptions 0 (.setItems [1])).1 = .done →
        InPlace narrowOptions 0 wide.list.shown
          (wide.list.call narrowOptions 0 (.setItems [1])).2) :=
  Timed.relayout_all_or_nothing wide_run (Nat.le_refl 0) trivial trivial

/-- The layout at width 20 throws, and the list gives the rows of width 20 for the first item. -/
theorem throw_changes_rows :
    Steps (Timed.next narrowOptions) (.new false) wideEvents wide ∧
      (wide.list.call narrowOptions 0 (.layout ⟨20, 10⟩)).1 = .threw ∧
      (wide.list.rowsOf narrowOptions 0 0).1 = some (some (0, [0])) ∧
      ((wide.list.call narrowOptions 0 (.layout ⟨20, 10⟩)).2.rowsOf narrowOptions 0 0).1 =
        some (some (0, [1, 2])) :=
  ⟨wide_run.free, rfl, rfl, rfl⟩

/-- In each run the reads of the list, with its caches, are the reads of a list that renders each
item anew. -/
theorem reads_uncached {Item Key Row : Type} [DecidableEq Item] [DecidableEq Key]
    {o : ScrollOptions Item Key Row} {followTail : Bool}
    {events : List (ScrollEvent Item Key × Nat)} {s : Timed Item Key Row} {now : Nat}
    (hrun : Steps (when (Timed.Unmixed o) (Timed.next o)) (.new followTail) events s)
    (hnow : s.time ≤ now) :
    (∀ row, (s.list.rowAt o now row).1 = some (s.list.shown.rowAt o now row)) ∧
      (∀ key, (s.list.rowsOf o now key).1 = some (s.list.shown.rowsOf o now key)) ∧
      ∀ height, (s.list.draw o now height).1 = some (s.list.shown.drawn o now height) := by
  have h := (Timed.run_sound hrun).later hnow
  exact ⟨fun row => (rowAt_sound h row).1, fun key => (rowsOf_sound h key).1,
    fun height => (draw_sound h height).1⟩

theorem reads_uncached_wide :
    (wide.list.draw narrowOptions 0 2).1 = some (wide.list.shown.drawn narrowOptions 0 2) :=
  (reads_uncached wide_run (Nat.le_refl 0)).2.2 2

end Yuke.Tui
