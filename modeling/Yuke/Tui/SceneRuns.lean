import Yuke.Shared.Steps
import Yuke.Tui.Scene

/-!
# The end of a taken press

A view that takes a left press and the capture gets one release or one `cancel` for it. This holds in
each run where no view takes a press under a capture, the captured view gets only releases of the
left button, its release handler opens no modal and does not throw, and no later drag or release comes
over the view.
-/

set_option autoImplicit false

namespace Yuke.Tui

open Yuke.Shared

def MouseEvent.ends (event : MouseEvent) : Bool :=
  event.action = .cancel || (event.action = .release && event.button = .left)

def MouseEvent.late (event : MouseEvent) : Bool := event.ends || event.action = .drag

namespace Scene

variable {View : Type} [DecidableEq View]

omit [DecidableEq View] in
@[simp] theorem ends_localTo (place : Place View) (event : MouseEvent) :
    (localTo place event).ends = event.ends := rfl

omit [DecidableEq View] in
@[simp] theorem late_localTo (place : Place View) (event : MouseEvent) :
    (localTo place event).late = event.late := rfl

/-! ## What the views saw -/

def Entry.isTook : Entry View → Bool
  | .took _ => true
  | .given _ _ => false

def Entry.endsPressOf (view : View) : Entry View → Bool
  | .took _ => false
  | .given other event => other = view && event.ends

structure OneEnd (log : List (Entry View)) : Prop where
  once : ∀ before view period after, log = before ++ .took view :: (period ++ after) →
    (∀ entry ∈ period, entry.isTook = false) → period.countP (Entry.endsPressOf view) ≤ 1
  ended : ∀ before view period next after,
    log = before ++ .took view :: (period ++ .took next :: after) →
    (∀ entry ∈ period, entry.isTook = false) → period.countP (Entry.endsPressOf view) = 1
  drags : ∀ before view period event after,
    log = before ++ .took view :: (period ++ .given view event :: after) →
    (∀ entry ∈ period, entry.isTook = false) → event.action = .drag →
    period.countP (Entry.endsPressOf view) = 0

def AllEnded (log : List (Entry View)) : Prop :=
  ∀ before view period, log = before ++ .took view :: period →
    (∀ entry ∈ period, entry.isTook = false) → period.countP (Entry.endsPressOf view) = 1

inductive Press (View : Type) where
  | none
  | held (view : View)
  | ended (view : View)
  deriving DecidableEq

/-- Read one entry. `none` is an entry that cannot come. -/
def Press.read (press : Press View) (entry : Entry View) : Option (Press View) :=
  match press, entry with
  | .held _, .took _ => Option.none
  | .none, .took view | .ended _, .took view => some (.held view)
  | .none, .given _ _ => some .none
  | .held view, .given other event =>
    some (if other = view ∧ event.ends = true then .ended view else .held view)
  | .ended view, .given other event =>
    if other = view ∧ event.late = true then Option.none else some (.ended view)

def pressOf (log : List (Entry View)) : Option (Press View) := log.foldlM Press.read .none

theorem foldlM_read_singleton (press : Press View) (entry : Entry View) :
    [entry].foldlM Press.read press = press.read entry := by
  rw [List.foldlM_cons]
  exact bind_pure _

theorem pressOf_concat {log : List (Entry View)} {press : Press View}
    (h : pressOf log = some press) (entry : Entry View) :
    pressOf (log ++ [entry]) = press.read entry := by
  unfold pressOf at *
  rw [List.foldlM_append, h]
  exact foldlM_read_singleton press entry

theorem pressOf_append {first rest : List (Entry View)} {press : Press View}
    (h : pressOf (first ++ rest) = some press) :
    ∃ middle, pressOf first = some middle ∧ rest.foldlM Press.read middle = some press := by
  unfold pressOf at *
  rw [List.foldlM_append] at h
  exact Option.bind_eq_some_iff.mp h

theorem pressOf_period {before period : List (Entry View)} {view : View} {press : Press View}
    (h : pressOf (before ++ .took view :: period) = some press)
    (htook : ∀ entry ∈ period, entry.isTook = false) :
    press = .held view ∧ period.countP (Entry.endsPressOf view) = 0 ∨
      press = .ended view ∧ period.countP (Entry.endsPressOf view) = 1 := by
  induction period using List.reverseRecOn generalizing press with
  | nil =>
    obtain ⟨first, hfirst, hread⟩ := pressOf_append h
    left
    cases first with
    | held => cases hread
    | none | ended =>
      cases hread
      exact ⟨rfl, rfl⟩
  | append_singleton period entry ih =>
    rw [← List.cons_append, ← List.append_assoc] at h
    obtain ⟨middle, hmiddle, hread⟩ := pressOf_append h
    have hread' : middle.read entry = some press := by
      rwa [foldlM_read_singleton] at hread
    have hentry := htook entry (List.mem_append_right _ List.mem_cons_self)
    have hbefore := ih hmiddle fun other hother => htook other (List.mem_append_left _ hother)
    cases entry with
    | took => cases hentry
    | given other event =>
      rw [List.countP_append, List.countP_singleton]
      rcases hbefore with ⟨rfl, hcount⟩ | ⟨rfl, hcount⟩
      · rw [hcount]
        simp only [Press.read, Option.some.injEq] at hread'
        by_cases hends : other = view ∧ event.ends = true
        · rw [if_pos hends] at hread'
          exact .inr ⟨hread'.symm, by simp [Entry.endsPressOf, hends]⟩
        · rw [if_neg hends] at hread'
          refine .inl ⟨hread'.symm, ?_⟩
          have hother : Entry.endsPressOf view (.given other event) = false := by
            simpa [Entry.endsPressOf] using hends
          rw [hother]
          rfl
      · rw [hcount]
        simp only [Press.read] at hread'
        split at hread'
        · cases hread'
        · next hlate =>
          refine .inr ⟨(Option.some.inj hread').symm, ?_⟩
          have hother : Entry.endsPressOf view (.given other event) = false := by
            by_contra hends
            simp only [Entry.endsPressOf, Bool.not_eq_false, Bool.and_eq_true,
              decide_eq_true_eq] at hends
            exact hlate ⟨hends.1, by simp [MouseEvent.late, hends.2]⟩
          rw [hother]
          rfl

theorem oneEnd_of_pressOf {log : List (Entry View)} {press : Press View}
    (h : pressOf log = some press) : OneEnd log := by
  constructor
  · intro before view period after hlog htook
    rw [hlog, ← List.cons_append, ← List.append_assoc] at h
    obtain ⟨middle, hmiddle, _⟩ := pressOf_append h
    rcases pressOf_period hmiddle htook with ⟨_, hcount⟩ | ⟨_, hcount⟩ <;> omega
  · intro before view period next after hlog htook
    rw [hlog, ← List.cons_append, ← List.append_assoc] at h
    obtain ⟨middle, hmiddle, hread⟩ := pressOf_append h
    rcases pressOf_period hmiddle htook with ⟨rfl, _⟩ | ⟨_, hcount⟩
    · cases hread
    · exact hcount
  · intro before view period event after hlog htook hdrag
    rw [hlog, ← List.cons_append, ← List.append_assoc] at h
    obtain ⟨middle, hmiddle, hread⟩ := pressOf_append h
    rcases pressOf_period hmiddle htook with ⟨_, hcount⟩ | ⟨rfl, _⟩
    · exact hcount
    · rw [List.foldlM_cons, Press.read, if_pos ⟨rfl, by simp [MouseEvent.late, hdrag]⟩] at hread
      cases hread

theorem allEnded_of_pressOf {log : List (Entry View)} {press : Press View}
    (h : pressOf log = some press) (hheld : ∀ view, press ≠ .held view) : AllEnded log := by
  intro before view period hlog htook
  rw [hlog] at h
  rcases pressOf_period h htook with ⟨rfl, _⟩ | ⟨_, hcount⟩
  · exact absurd rfl (hheld view)
  · exact hcount

def lastTook (log : List (Entry View)) : Option View :=
  log.reverse.findSome? fun entry =>
    match entry with
    | .took view => some view
    | .given _ _ => none

omit [DecidableEq View] in
theorem lastTook_took (log : List (Entry View)) (view : View) :
    lastTook (log ++ [.took view]) = some view := by
  simp [lastTook]

omit [DecidableEq View] in
theorem lastTook_given (log : List (Entry View)) (view : View) (event : MouseEvent) :
    lastTook (log ++ [.given view event]) = lastTook log := by
  simp [lastTook]

theorem lastTook_of_pressOf {log : List (Entry View)} {press : Press View} {view : View}
    (h : pressOf log = some press) (hpress : press = .held view ∨ press = .ended view) :
    lastTook log = some view := by
  induction log using List.reverseRecOn generalizing press with
  | nil =>
    cases h
    rcases hpress with hpress | hpress <;> cases hpress
  | append_singleton log entry ih =>
    obtain ⟨middle, hmiddle, hread⟩ := pressOf_append h
    rw [foldlM_read_singleton] at hread
    cases entry with
    | took other =>
      rw [lastTook_took]
      cases middle with
      | held => cases hread
      | none | ended =>
        cases hread
        rcases hpress with hpress | hpress <;> cases hpress
        rfl
    | given other event =>
      rw [lastTook_given]
      refine ih hmiddle ?_
      cases middle with
      | none =>
        cases hread
        rcases hpress with hpress | hpress <;> cases hpress
      | held held =>
        simp only [Press.read, Option.some.injEq] at hread
        left
        split at hread
        · rcases hpress with hpress | hpress
          · rw [hpress] at hread
            cases hread
          · rw [hpress] at hread
            cases hread
            rfl
        · rcases hpress with hpress | hpress
          · rw [hpress] at hread
            exact hread
          · rw [hpress] at hread
            cases hread
      | ended ended =>
        simp only [Press.read] at hread
        split at hread
        · cases hread
        · rw [Option.some.injEq] at hread
          rw [hread]
          exact hpress

omit [DecidableEq View] in
theorem split_of_lastTook {log : List (Entry View)} {view : View} (h : lastTook log = some view) :
    ∃ before period, log = before ++ .took view :: period ∧
      ∀ entry ∈ period, entry.isTook = false := by
  induction log using List.reverseRecOn with
  | nil => cases h
  | append_singleton log entry ih =>
    cases entry with
    | took other =>
      rw [lastTook_took] at h
      obtain rfl := Option.some.inj h
      exact ⟨log, [], rfl, fun entry hentry => absurd hentry List.not_mem_nil⟩
    | given other event =>
      rw [lastTook_given] at h
      obtain ⟨before, period, rfl, htook⟩ := ih h
      refine ⟨before, period ++ [.given other event], by simp, ?_⟩
      intro entry hentry
      rcases List.mem_append.mp hentry with hbefore | hlast
      · exact htook entry hbefore
      · rw [List.mem_singleton.mp hlast]
        rfl

omit [DecidableEq View] in
/-- `view` is under `point`, in the top root or in an overlay. -/
def Over (s : Scene View) (point : Point) (view : View) : Prop :=
  (∃ place ∈ under point s.rootTree, place.view = view) ∨
    ∃ layer ∈ s.overlays, ∃ place ∈ under point layer.tree, place.view = view

omit [DecidableEq View] in
def Phase.isRelease : Phase View → Bool
  | .captured release => release
  | _ => false

omit [DecidableEq View] in
/-- The condition on a step:
- a captured release is of the left button;
- a drag or a left release without a capture is not over the view that took the last press;
- a view takes a left press only without a capture;
- the handler of a captured release opens no modal and does not throw. -/
def Fair (s : Scene View) (act : Act View) : Prop :=
  match act with
  | .mouse event =>
    if s.capture.isSome then event.action = .release → event.button = .left
    else event.late = true → ∀ view, lastTook s.log = some view → ¬ s.Over event.point view
  | .returns true =>
    s.opening = [] → ∀ routing, s.phase = .routed routing → s.captures routing = true →
      s.capture = none
  | .overlay _ true | .throws => s.phase.isRelease = false
  | _ => True

/-! ## What each step keeps -/

omit [DecidableEq View] in
def Holds (capture : Option (Capture View)) (press : Press View) : Prop :=
  match capture with
  | some capture => press = .held capture.view
  | none => ∀ view, press ≠ .held view

omit [DecidableEq View] in
def Quiet (s : Scene View) (press : Press View) (routing : Routing View) : Prop :=
  routing.event.late = true → s.capture = none ∧ ∀ view, press = .ended view →
    (∀ place ∈ routing.parents, place.view ≠ view) ∧
    ∀ below, routing.below = some below →
      (∀ layer ∈ below, ∀ place ∈ under routing.event.point layer.tree, place.view ≠ view) ∧
      ∀ place ∈ under routing.event.point s.rootTree, place.view ≠ view

omit [DecidableEq View] in
def PhaseHolds (s : Scene View) (press : Press View) : Prop :=
  match s.phase with
  | .captured true => ∃ capture, s.capture = some capture ∧ press = .ended capture.view
  | .focusing routing =>
    Holds s.capture press ∧ routing.event.action = .press
  | .routed routing => Holds s.capture press ∧ s.Quiet press routing
  | _ => Holds s.capture press

structure Inv (s : Scene View) (press : Press View) : Prop where
  read : pressOf s.log = some press
  lower : ∀ layer ∈ s.roots.dropLast, layer.tree = none
  phase : s.PhaseHolds press

variable {s s' : Scene View} {press : Press View}

theorem Inv.holds (h : s.Inv press) (hphase : s.phase.isRelease = false) :
    Holds s.capture press := by
  have hholds := h.phase
  unfold PhaseHolds at hholds
  cases hrun : s.phase with
  | captured release =>
    cases release with
    | true =>
      rw [hrun] at hphase
      cases hphase
    | false => rwa [hrun] at hholds
  | focusing | routed =>
    rw [hrun] at hholds
    exact hholds.1
  | idle | code | cancelled | placing | placed | syncing => rwa [hrun] at hholds

mutual

theorem findIn_view {view : View} {found : Place View} :
    ∀ {target : Target View}, findIn view target = some found → found.view = view
  | .mk own rect clip children, h => by
    rw [findIn] at h
    split at h
    · next heq =>
      cases h
      exact heq
    · exact findInAny_view h

theorem findInAny_view {view : View} {found : Place View} :
    ∀ {targets : List (Target View)}, findInAny view targets = some found → found.view = view
  | [], h => nomatch h
  | child :: rest, h => by
    rw [findInAny] at h
    split at h
    · next hfound =>
      cases h
      exact findIn_view hfound
    · exact findInAny_view h

end

theorem find_view {view : View} {found : Place View} (h : s.find view = some found) :
    found.view = view := by
  obtain ⟨tree, _, hfound⟩ := List.exists_of_findSome?_eq_some h
  exact findIn_view hfound

theorem read_given {view : View} {event : MouseEvent}
    (h : event.late = true → press ≠ .held view ∧ press ≠ .ended view) :
    press.read (.given view event) = some press := by
  cases press with
  | none => rfl
  | held held =>
    refine congrArg some (if_neg ?_)
    rintro ⟨rfl, hends⟩
    exact (h (by simp [MouseEvent.late, hends])).1 rfl
  | ended ended =>
    refine if_neg ?_
    rintro ⟨rfl, hlate⟩
    exact (h hlate).2 rfl

theorem read_ends {view : View} {event : MouseEvent} (h : event.ends = true) :
    (Press.held view).read (.given view event) = some (.ended view) :=
  congrArg some (if_pos ⟨rfl, h⟩)

theorem pressOf_cancel {capture : Capture View} (hread : pressOf s.log = some (.held capture.view)) :
    pressOf (s.cancel capture).log = some (.ended capture.view) := by
  have hends : ((s.find capture.view).elim
      { point := capture.point, button := capture.button, action := .cancel }
      fun place => localTo place
        { point := capture.point, button := capture.button, action := .cancel }).ends = true := by
    cases s.find capture.view <;> rfl
  exact (pressOf_concat hread _).trans (read_ends hends)

omit [DecidableEq View] in
/-- No target in `places` is of a press with an end. -/
def Clear (press : Press View) (places : List (Place View)) : Prop :=
  ∀ view, press = .ended view → ∀ place ∈ places, place.view ≠ view

structure Ready (s : Scene View) (press : Press View) : Prop where
  read : pressOf s.log = some press
  lower : ∀ layer ∈ s.roots.dropLast, layer.tree = none
  holds : Holds s.capture press

theorem Inv.ready (h : s.Inv press) (hphase : s.phase.isRelease = false) : s.Ready press :=
  ⟨h.read, h.lower, h.holds hphase⟩

theorem Ready.idle (h : s.Ready press) : Inv { s with phase := .idle } press :=
  ⟨h.read, h.lower, h.holds⟩

theorem Ready.give (h : s.Ready press) {routing : Routing View}
    (hplace : routing.event.late = true → s.capture = none ∧ Clear press [routing.place])
    (hquiet : s.Quiet press routing) : (s.give routing).Inv press := by
  constructor
  · refine (pressOf_concat h.read _).trans (read_given ?_)
    intro hlate
    obtain ⟨hcapture, hclear⟩ := hplace hlate
    have hholds := h.holds
    rw [hcapture] at hholds
    refine ⟨hholds _, ?_⟩
    intro hended
    exact hclear _ hended routing.place List.mem_cons_self rfl
  · exact h.lower
  · exact ⟨h.holds, hquiet⟩

theorem Ready.route (h : s.Ready press) {tree : Option (Target View)} {event : MouseEvent}
    {below : Option (List (Overlay View))} {next : Scene View}
    (hcalm : event.late = true → s.capture = none ∧ Clear press (under event.point tree) ∧
      ∀ layers, below = some layers →
        (∀ layer ∈ layers, Clear press (under event.point layer.tree)) ∧
        Clear press (under event.point s.rootTree))
    (hroute : s.route tree event below = some next) : next.Inv press := by
  unfold Scene.route at hroute
  split at hroute
  · cases hroute
  · next place parents hunder =>
    split at hroute
    · next hpress =>
      cases hroute
      exact ⟨h.read, h.lower, h.holds, hpress.1⟩
    · cases hroute
      refine h.give ?_ ?_
      · intro hlate
        obtain ⟨hcapture, hclear, _⟩ := hcalm hlate
        refine ⟨hcapture, ?_⟩
        intro view hended other hother
        refine hclear view hended other ?_
        rw [hunder, List.mem_singleton.mp hother]
        exact List.mem_cons_self
      · intro hlate
        obtain ⟨hcapture, hclear, hbelow⟩ := hcalm hlate
        refine ⟨hcapture, ?_⟩
        intro view hended
        constructor
        · intro other hother
          refine hclear view hended other ?_
          rw [hunder]
          exact List.mem_cons_of_mem _ hother
        · intro layers hlayers
          obtain ⟨hlayersClear, hroot⟩ := hbelow layers hlayers
          refine ⟨?_, hroot view hended⟩
          intro layer hlayer
          exact hlayersClear layer hlayer view hended

theorem Ready.routeLayers (h : s.Ready press) {event : MouseEvent} {layers : List (Overlay View)}
    (hcalm : event.late = true → s.capture = none ∧
      (∀ layer ∈ layers, Clear press (under event.point layer.tree)) ∧
      Clear press (under event.point s.rootTree)) : (s.routeLayers event layers).Inv press := by
  induction layers with
  | nil =>
    rw [Scene.routeLayers]
    cases hroute : s.route s.rootTree event none with
    | none => exact h.idle
    | some next =>
      refine h.route ?_ hroute
      intro hlate
      obtain ⟨hcapture, _, hroot⟩ := hcalm hlate
      exact ⟨hcapture, hroot, nofun⟩
  | cons layer below ih =>
    have hrest : (s.routeLayers event below).Inv press := by
      refine ih ?_
      intro hlate
      obtain ⟨hcapture, hlayers, hroot⟩ := hcalm hlate
      exact ⟨hcapture, fun other hother => hlayers other (List.mem_cons_of_mem _ hother), hroot⟩
    rw [Scene.routeLayers]
    split
    · exact hrest
    · split
      · cases hroute : s.route layer.tree event none with
        | none => exact h.idle
        | some next =>
          refine h.route ?_ hroute
          intro hlate
          obtain ⟨hcapture, hlayers, _⟩ := hcalm hlate
          exact ⟨hcapture, hlayers layer List.mem_cons_self, nofun⟩
      · split
        · next hroute =>
          refine h.route ?_ hroute
          intro hlate
          obtain ⟨hcapture, hlayers, hroot⟩ := hcalm hlate
          refine ⟨hcapture, hlayers layer List.mem_cons_self, ?_⟩
          intro others hothers
          cases hothers
          exact ⟨fun other hother => hlayers other (List.mem_cons_of_mem _ hother), hroot⟩
        · exact hrest

theorem Ready.routeOn (h : s.Ready press) {routing : Routing View}
    (hquiet : s.Quiet press routing) : (s.routeOn routing).Inv press := by
  unfold Scene.routeOn
  split
  · next place parents hparents =>
    refine h.give ?_ ?_
    · intro hlate
      obtain ⟨hcapture, hclear⟩ := hquiet hlate
      refine ⟨hcapture, ?_⟩
      intro view hended other hother
      refine (hclear view hended).1 other ?_
      rw [hparents, List.mem_singleton.mp hother]
      exact List.mem_cons_self
    · intro hlate
      obtain ⟨hcapture, hclear⟩ := hquiet hlate
      refine ⟨hcapture, ?_⟩
      intro view hended
      refine ⟨?_, (hclear view hended).2⟩
      intro other hother
      refine (hclear view hended).1 other ?_
      rw [hparents]
      exact List.mem_cons_of_mem _ hother
  · next below _ hbelow =>
    refine h.routeLayers ?_
    intro hlate
    obtain ⟨hcapture, hclear⟩ := hquiet hlate
    refine ⟨hcapture, ?_, ?_⟩
    · intro layer hlayer view hended
      exact ((hclear view hended).2 below hbelow).1 layer hlayer
    · intro view hended
      exact ((hclear view hended).2 below hbelow).2
  · exact h.idle

theorem Ready.take (h : s.Ready press) {routing : Routing View}
    (hfree : s.captures routing = true → s.capture = none) : (s.take routing).Inv press ∨
      (s.take routing).Inv (.held routing.place.view) := by
  unfold Scene.take
  split
  · next hcaptures =>
    right
    have hholds := h.holds
    rw [hfree hcaptures] at hholds
    constructor
    · refine (pressOf_concat h.read _).trans ?_
      cases press with
      | held view => exact absurd rfl (hholds view)
      | none | ended => rfl
    · exact h.lower
    · exact rfl
  · left
    exact h.idle

omit [DecidableEq View] in
theorem getLast_sublist {roots others : List (Layer View)} (h : others.Sublist roots) :
    others.dropLast.Sublist roots.dropLast ∧
      (others.getLast? = roots.getLast? ∨
        ∀ layer, others.getLast? = some layer → layer ∈ roots.dropLast) := by
  rcases List.eq_nil_or_concat roots with rfl | ⟨first, top, rfl⟩
  · rw [List.sublist_nil.mp h]
    exact ⟨.slnil, .inl rfl⟩
  · rw [List.concat_eq_append] at h ⊢
    obtain ⟨left, right, rfl, hleft, hright⟩ := List.sublist_append_iff.mp h
    rw [List.dropLast_concat, List.getLast?_concat]
    rcases List.sublist_singleton.mp hright with rfl | rfl
    · rw [List.append_nil]
      refine ⟨(List.dropLast_sublist left).trans hleft, .inr ?_⟩
      intro layer hlayer
      exact hleft.subset (List.mem_of_getLast? hlayer)
    · rw [List.dropLast_concat, List.getLast?_concat]
      exact ⟨hleft, .inl rfl⟩

omit [DecidableEq View] in
theorem dropLast_setTop (roots : List (Layer View)) (tree : Layer View → Option (Target View)) :
    (setTop roots tree).dropLast = roots.dropLast := by
  rcases List.eq_nil_or_concat roots with rfl | ⟨first, top, rfl⟩
  · rfl
  · simp [setTop]

theorem Inv.layers (h : s.Inv press) {roots : List (Layer View)}
    (hlower : ∀ layer ∈ roots.dropLast, layer.tree = none)
    (hroot : roots.getLast?.bind Layer.tree = s.rootTree ∨ roots.getLast?.bind Layer.tree = none)
    (overlays opening : List (Overlay View)) (nextId : ℕ) :
    Inv { s with
      roots := roots
      overlays := overlays
      opening := opening
      nextId := nextId } press := by
  refine ⟨h.read, hlower, ?_⟩
  have hphase := h.phase
  unfold PhaseHolds at hphase ⊢
  cases hrun : s.phase with
  | routed routing =>
    rw [hrun] at hphase
    obtain ⟨hholds, hquiet⟩ := hphase
    refine ⟨hholds, ?_⟩
    intro hlate
    obtain ⟨hcapture, hclear⟩ := hquiet hlate
    refine ⟨hcapture, ?_⟩
    intro view hended
    refine ⟨(hclear view hended).1, ?_⟩
    intro below hbelow
    obtain ⟨hlayers, htop⟩ := (hclear view hended).2 below hbelow
    refine ⟨hlayers, ?_⟩
    rcases hroot with heq | hnone
    · change ∀ place ∈ under _ (roots.getLast?.bind Layer.tree), _
      rw [heq]
      exact htop
    · change ∀ place ∈ under _ (roots.getLast?.bind Layer.tree), _
      rw [hnone]
      intro place hplace
      cases hplace
  | captured release =>
    rw [hrun] at hphase
    cases release <;> exact hphase
  | focusing | idle | code | cancelled | placing | placed | syncing =>
    rw [hrun] at hphase
    exact hphase

theorem Inv.overlays (h : s.Inv press) (overlays opening : List (Overlay View)) (nextId : ℕ) :
    Inv { s with overlays := overlays, opening := opening, nextId := nextId } press :=
  h.layers h.lower (.inl rfl) overlays opening nextId

theorem Inv.wrapRoot (h : s.Inv press) (view : View) : (s.wrapRoot view).Inv press := by
  refine h.layers ?_ ?_ _ _ _
  · rw [List.dropLast_concat]
    intro layer hlayer
    rcases List.mem_append.mp hlayer with hlower | htop
    · exact h.lower layer hlower
    · obtain ⟨top, _, rfl⟩ := Option.map_eq_some_iff.mp (Option.mem_toList.mp htop)
      rfl
  · rw [List.getLast?_concat]
    exact .inr rfl

theorem Inv.closeRoot (h : s.Inv press) (id : ℕ) : (s.closeRoot id).Inv press := by
  have hsub : (s.closeRoot id).roots.Sublist s.roots := by
    conv_rhs => rw [← List.take_append_drop 1 s.roots]
    exact List.Sublist.append_left List.filter_sublist _
  obtain ⟨hlower, hlast⟩ := getLast_sublist hsub
  refine h.layers ?_ ?_ s.overlays s.opening s.nextId
  · intro layer hlayer
    exact h.lower layer (hlower.subset hlayer)
  · rcases hlast with heq | hmem
    · exact .inl (by rw [rootTree, ← heq]; rfl)
    · right
      cases htop : (s.closeRoot id).roots.getLast? with
      | none =>
        rw [Scene.closeRoot] at htop
        rw [htop]
        rfl
      | some top =>
        have hnone := h.lower top (hmem top htop)
        rw [Scene.closeRoot] at htop
        rw [htop]
        exact hnone

theorem Ready.cancel (h : s.Ready press) {capture : Capture View}
    (hcapture : s.capture = some capture) :
    (s.cancel capture).Ready (.ended capture.view) := by
  have hholds := h.holds
  rw [hcapture] at hholds
  have hread := h.read
  rw [show press = .held capture.view from hholds] at hread
  exact ⟨pressOf_cancel hread, h.lower, nofun⟩

theorem Inv.cancel (h : s.Inv press) (hphase : s.phase.isRelease = false)
    {capture : Capture View} (hcapture : s.capture = some capture) :
    (s.cancel capture).Inv (.ended capture.view) := by
  obtain ⟨hread, hlower, hholds⟩ := (h.ready hphase).cancel hcapture
  refine ⟨hread, hlower, ?_⟩
  have hrun := h.phase
  unfold PhaseHolds at hrun ⊢
  change match s.phase with
    | .captured true => _
    | .focusing routing => _
    | .routed routing => _
    | _ => _
  cases hcase : s.phase with
  | captured release =>
    cases release with
    | true =>
      rw [hcase] at hphase
      cases hphase
    | false => exact hholds
  | focusing routing =>
    rw [hcase] at hrun
    exact ⟨hholds, hrun.2⟩
  | routed routing =>
    rw [hcase] at hrun
    refine ⟨hholds, ?_⟩
    intro hlate
    have hnone := (hrun.2 hlate).1
    rw [hcapture] at hnone
    cases hnone
  | idle | code | cancelled | placing | placed | syncing => exact hholds

theorem Inv.overlay (h : s.Inv press) (view : View) (modal : Bool)
    (hfair : modal = true → s.phase.isRelease = false) :
    ∃ press', (s.overlay view modal).Inv press' := by
  have hopen := h.overlays (s.overlays ++ [⟨⟨s.nextId, view, none⟩, modal⟩]) s.opening (s.nextId + 1)
  unfold Scene.overlay
  cases modal with
  | false => exact ⟨press, hopen⟩
  | true =>
    cases hcapture : s.capture with
    | none =>
      refine ⟨press, ?_⟩
      rw [hcapture] at hopen
      exact hopen
    | some capture =>
      exact ⟨_, (h.cancel (hfair rfl) hcapture).overlays s.overlays
        (⟨⟨s.nextId, view, none⟩, true⟩ :: s.opening) (s.nextId + 1)⟩

theorem Inv.mouse (h : s.Inv press) (hidle : s.phase = .idle) {event : MouseEvent}
    (haction : event.action ≠ .cancel) (hfair : s.Fair (.mouse event)) :
    ∃ press', (s.mouse event).Inv press' := by
  have hphase : s.phase.isRelease = false := by rw [hidle]; rfl
  have hready := h.ready hphase
  unfold Fair at hfair
  dsimp only at hfair
  unfold Scene.mouse
  cases hcapture : s.capture with
  | none =>
    rw [hcapture, Option.isSome_none, if_neg Bool.false_ne_true] at hfair
    refine ⟨press, hready.routeLayers ?_⟩
    intro hlate
    have hover := hfair hlate
    refine ⟨hcapture, ?_, ?_⟩
    · rintro layer hlayer view rfl place hplace heq
      refine hover view (lastTook_of_pressOf h.read (.inr rfl)) (.inr ⟨layer, ?_, place, hplace, heq⟩)
      exact List.mem_reverse.mp hlayer
    · rintro view rfl place hplace heq
      exact hover view (lastTook_of_pressOf h.read (.inr rfl)) (.inl ⟨place, hplace, heq⟩)
  | some capture =>
    rw [hcapture, Option.isSome_some, if_pos rfl] at hfair
    have hread := h.read
    have hheld : press = .held capture.view := by
      have hholds := hready.holds
      rwa [hcapture] at hholds
    rw [hheld] at hread
    dsimp only
    split
    · next hdrag =>
      cases hfind : s.find capture.view with
      | none =>
        obtain ⟨hread', hlower, hholds⟩ := hready.cancel hcapture
        exact ⟨_, hread', hlower, hholds⟩
      | some place =>
        have hview := find_view hfind
        rcases hdrag with hdrag | hrelease
        · -- A drag leaves the press without an end.
          refine ⟨.held capture.view, ?_, h.lower, ?_⟩
          · refine (pressOf_concat hread _).trans (congrArg some (if_neg ?_))
            rintro ⟨_, hends⟩
            rw [ends_localTo] at hends
            simp [MouseEvent.ends, hdrag] at hends
          · rw [hdrag]
            exact rfl
        · refine ⟨.ended capture.view, ?_, h.lower, ?_⟩
          · refine (pressOf_concat hread _).trans ?_
            rw [hview]
            refine read_ends ?_
            rw [ends_localTo]
            simp [MouseEvent.ends, hrelease, hfair hrelease]
          · rw [hrelease]
            exact ⟨_, rfl, rfl⟩
    · next hother =>
      refine ⟨press, hready.routeLayers ?_⟩
      intro hlate
      have hnot : event.late = false := by
        cases haction' : event.action with
        | drag => exact absurd (.inl haction') hother
        | release => exact absurd (.inr haction') hother
        | cancel => exact absurd haction' haction
        | press | motion => simp [MouseEvent.late, MouseEvent.ends, haction']
      rw [hnot] at hlate
      cases hlate

theorem Inv.place (h : s.Inv press) (hphase : s.phase = .placing)
    (trees : ℕ → Option (Target View)) :
    Inv { s.place trees with phase := .placed } press := by
  have hready := h.ready (by rw [hphase]; rfl)
  refine ⟨hready.read, ?_, hready.holds⟩
  intro layer hlayer
  rw [Scene.place, dropLast_setTop] at hlayer
  exact h.lower layer hlayer

theorem Inv.returns (h : s.Inv press) {taken : Bool} (hfair : s.Fair (.returns taken))
    (hstep : s.returns taken = some s') : ∃ press', s'.Inv press' := by
  unfold Scene.returns at hstep
  cases hopening : s.opening with
  | cons layer rest =>
    rw [hopening] at hstep
    cases hstep
    exact ⟨press, h.overlays _ rest s.nextId⟩
  | nil =>
    rw [hopening] at hstep
    dsimp only at hstep
    have hready : s.phase.isRelease = false → s.Ready press := h.ready
    have hrun := h.phase
    unfold PhaseHolds at hrun
    cases hphase : s.phase with
    | idle | placing =>
      rw [hphase] at hstep
      cases hstep
    | code | syncing =>
      rw [hphase] at hstep hready
      cases hstep
      exact ⟨press, h.read, h.lower, (hready rfl).holds⟩
    | focusing routing =>
      rw [hphase] at hstep hready hrun
      cases hstep
      have hnot : routing.event.late = false := by
        simp [MouseEvent.late, MouseEvent.ends, hrun.2]
      refine ⟨press, (hready rfl).give ?_ ?_⟩
      · intro hlate
        rw [hnot] at hlate
        cases hlate
      · intro hlate
        rw [hnot] at hlate
        cases hlate
    | routed routing =>
      rw [hphase] at hstep hready hrun
      cases taken with
      | false =>
        cases hstep
        exact ⟨press, (hready rfl).routeOn hrun.2⟩
      | true =>
        cases hstep
        rcases (hready rfl).take (hfair hopening routing hphase) with htake | htake
        · exact ⟨_, htake⟩
        · exact ⟨_, htake⟩
    | captured release =>
      rw [hphase] at hstep hrun
      cases hstep
      cases release with
      | true =>
        obtain ⟨capture, hcapture, rfl⟩ := hrun
        exact ⟨_, h.read, h.lower, nofun⟩
      | false => exact ⟨press, h.read, h.lower, hrun⟩
    | cancelled layout =>
      rw [hphase] at hstep hready
      cases layout with
      | false =>
        cases hstep
        exact ⟨press, h.read, h.lower, (hready rfl).holds⟩
      | true =>
        cases hstep
        exact ⟨press, h.read, h.lower, (hready rfl).holds⟩
    | placed =>
      rw [hphase] at hstep hready
      dsimp only at hstep
      split at hstep
      · cases hstep
        exact ⟨press, h.read, h.lower, (hready rfl).holds⟩
      · next capture hcapture =>
        split at hstep
        · cases hstep
          obtain ⟨hread, hlower, hholds⟩ := (hready rfl).cancel hcapture
          exact ⟨_, hread, hlower, hholds⟩
        · cases hstep
          exact ⟨press, h.read, h.lower, (hready rfl).holds⟩

theorem Inv.throws (h : s.Inv press) (hfair : s.Fair .throws) (hstep : s.throws = some s') :
    s'.Inv press := by
  unfold Scene.throws at hstep
  split at hstep
  · cases hstep
    exact h.overlays s.overlays _ s.nextId
  · split at hstep
    · cases hstep
    · cases hstep
      exact (h.ready hfair).idle

theorem Inv.step (h : s.Inv press) {act : Act View} (hfair : s.Fair act)
    (hstep : s.step act = some s') : ∃ press', s'.Inv press' := by
  unfold Scene.step at hstep
  split at hstep
  · next event hidle =>
    split at hstep
    · cases hstep
    · next haction =>
      cases hstep
      exact h.mouse hidle haction hfair
  · next hidle =>
    cases hstep
    exact ⟨press, h.read, h.lower, h.holds (by rw [hidle]; rfl)⟩
  · next hidle =>
    cases hstep
    have hready := h.ready (by rw [hidle]; rfl)
    cases hcapture : s.capture with
    | none => exact ⟨press, h⟩
    | some capture =>
      obtain ⟨hread, hlower, hholds⟩ := hready.cancel hcapture
      exact ⟨_, hread, hlower, hholds⟩
  · next hidle =>
    cases hstep
    exact ⟨press, h.read, h.lower, h.holds (by rw [hidle]; rfl)⟩
  · cases hstep
  · cases hstep
  · cases hstep
  · cases hstep
  · cases hstep
  · next view modal _ =>
    cases hstep
    refine h.overlay view modal ?_
    rintro rfl
    exact hfair
  · cases hstep
    exact ⟨press, h.overlays _ s.opening s.nextId⟩
  · cases hstep
    exact ⟨press, h.wrapRoot _⟩
  · cases hstep
    exact ⟨press, h.closeRoot _⟩
  · next hphase =>
    split at hstep
    · cases hstep
      exact ⟨press, h.place hphase _⟩
    · cases hstep
  · cases hstep
  · exact h.returns hfair hstep
  · exact ⟨press, h.throws hfair hstep⟩

theorem inv_new (root : View) : (new root).Inv .none := by
  refine ⟨rfl, ?_, nofun⟩
  intro layer hlayer
  cases hlayer

/-- In each run that meets the condition, each taken press has one end, and when nothing runs, the
press without an end is the one of the capture. -/
theorem taken_press_ends {root : View} {acts : List (Act View)}
    (hrun : Steps (when Fair (outcome step)) (new root) acts s) :
    OneEnd s.log ∧ (s.phase = .idle → s.capture = none → AllEnded s.log) ∧
      (s.phase = .idle → ∀ capture, s.capture = some capture →
        lastTook s.log = some capture.view ∧ ¬ AllEnded s.log) := by
  obtain ⟨press, hinv⟩ : ∃ press, s.Inv press := by
    refine hrun.keeps (P := fun s => ∃ press, s.Inv press) ⟨.none, inv_new root⟩ ?_
    rintro t act u ⟨press, hinv⟩ ⟨hfair, hstep⟩
    exact hinv.step hfair hstep
  refine ⟨oneEnd_of_pressOf hinv.read, ?_, ?_⟩
  · intro hidle hcapture
    have hholds := hinv.holds (by rw [hidle]; rfl)
    rw [hcapture] at hholds
    exact allEnded_of_pressOf hinv.read hholds
  · intro hidle capture hcapture
    have hholds := hinv.holds (by rw [hidle]; rfl)
    rw [hcapture] at hholds
    have hlast := lastTook_of_pressOf hinv.read (.inl hholds)
    refine ⟨hlast, ?_⟩
    intro hall
    obtain ⟨before, period, hlog, htook⟩ := split_of_lastTook hlast
    have hread := hinv.read
    rw [hlog] at hread
    have hone := hall before capture.view period hlog htook
    rcases pressOf_period hread htook with ⟨_, hcount⟩ | ⟨hended, _⟩
    · omega
    · rw [hholds] at hended
      cases hended

def oneView : Target ℕ := .mk 0 ⟨0, 0, 8, 4⟩ ⟨0, 0, 8, 4⟩ []

def leftMouse (action : MouseAction) : MouseEvent := { point := ⟨1, 1⟩, button := .left, action }

def laidOut : List (Act ℕ) :=
  [.layout, .places fun _ => some oneView, .returns false, .returns false]

def pressed : List (Act ℕ) := [.mouse (leftMouse .press), .returns false, .returns true]

def released : List (Act ℕ) := [.mouse (leftMouse .release), .returns true]

theorem taken_press_ends_released : ∃ s, Steps (outcome step) (new 0)
      (laidOut ++ pressed ++ released) s ∧
    (OneEnd s.log ∧ (s.phase = .idle → s.capture = none → AllEnded s.log) ∧
      (s.phase = .idle → ∀ capture, s.capture = some capture →
        lastTook s.log = some capture.view ∧ ¬ AllEnded s.log)) := by
  have hpress : (leftMouse .press).late = false := rfl
  have hrun : ∃ s, Steps (when Fair (outcome step)) (new 0) (laidOut ++ pressed ++ released) s :=
    ⟨_, .cons ⟨trivial, rfl⟩ <| .cons ⟨trivial, rfl⟩ <| .cons ⟨trivial, rfl⟩ <|
      .cons ⟨trivial, rfl⟩ <|
      .cons ⟨fun hlate => (nomatch hpress.symm.trans hlate), rfl⟩ <| .cons ⟨trivial, rfl⟩ <|
      .cons ⟨fun _ _ _ _ => rfl, rfl⟩ <|
      .cons ⟨fun _ => rfl, rfl⟩ <|
      .cons ⟨fun _ _ hphase => (nomatch hphase), rfl⟩ .start⟩
  obtain ⟨s, hrun⟩ := hrun
  exact ⟨s, hrun.free, taken_press_ends hrun⟩

def lostRelease : List (Act ℕ) := laidOut ++ pressed ++ pressed

def modalAtRelease : List (Act ℕ) :=
  laidOut ++ pressed ++
    [.mouse (leftMouse .release), .overlay 1 true, .returns false, .returns true]

def throwAtRelease : List (Act ℕ) :=
  laidOut ++ pressed ++ [.mouse (leftMouse .release), .throws] ++ released

def otherRelease : List (Act ℕ) :=
  laidOut ++ pressed ++
    [.mouse { leftMouse .release with button := .right }, .returns true] ++ pressed

def dragAfterBlur : List (Act ℕ) :=
  laidOut ++ pressed ++ [.blur, .returns false, .mouse (leftMouse .drag), .returns true]

def leftPress : Entry ℕ := .given 0 (leftMouse .press)

/-- The run `acts` of one root view ends with a press that has no single end. -/
def Misses (acts : List (Act ℕ)) : Prop :=
  ∃ s, Steps (outcome step) (new 0) acts s ∧ ¬ OneEnd s.log

/-- A press without an end, with two ends, and with a drag after its end. -/
theorem taken_press_misses :
    Misses lostRelease ∧ Misses modalAtRelease ∧ Misses throwAtRelease ∧ Misses otherRelease ∧
      Misses dragAfterBlur := by
  have hlost : ∃ s, Steps (outcome step) (new 0) lostRelease s ∧
      s.log = [leftPress] ++ .took 0 :: ([leftPress] ++ .took 0 :: []) := ⟨_, .of_foldlM rfl, rfl⟩
  have hother : ∃ s, Steps (outcome step) (new 0) otherRelease s ∧
      s.log = [leftPress] ++ .took 0 ::
        ([.given 0 { leftMouse .release with button := .right }, leftPress] ++ .took 0 :: []) :=
    ⟨_, .of_foldlM rfl, rfl⟩
  have hmodal : ∃ s, Steps (outcome step) (new 0) modalAtRelease s ∧
      s.log = [leftPress] ++ .took 0 ::
        ([.given 0 (leftMouse .release), .given 0 (leftMouse .cancel)] ++ []) :=
    ⟨_, .of_foldlM rfl, rfl⟩
  have hthrow : ∃ s, Steps (outcome step) (new 0) throwAtRelease s ∧
      s.log = [leftPress] ++ .took 0 ::
        ([.given 0 (leftMouse .release), .given 0 (leftMouse .release)] ++ []) :=
    ⟨_, .of_foldlM rfl, rfl⟩
  have hdrag : ∃ s, Steps (outcome step) (new 0) dragAfterBlur s ∧
      s.log = [leftPress] ++ .took 0 ::
        ([.given 0 (leftMouse .cancel)] ++ .given 0 (leftMouse .drag) :: []) :=
    ⟨_, .of_foldlM rfl, rfl⟩
  refine ⟨?_, ?_, ?_, ?_, ?_⟩
  · obtain ⟨s, hrun, hlog⟩ := hlost
    refine ⟨s, hrun, fun h => ?_⟩
    have hone := h.ended _ _ _ _ _ hlog (by decide)
    revert hone
    decide
  · obtain ⟨s, hrun, hlog⟩ := hmodal
    refine ⟨s, hrun, fun h => ?_⟩
    have hone := h.once _ _ _ _ hlog (by decide)
    revert hone
    decide
  · obtain ⟨s, hrun, hlog⟩ := hthrow
    refine ⟨s, hrun, fun h => ?_⟩
    have hone := h.once _ _ _ _ hlog (by decide)
    revert hone
    decide
  · obtain ⟨s, hrun, hlog⟩ := hother
    refine ⟨s, hrun, fun h => ?_⟩
    have hone := h.ended _ _ _ _ _ hlog (by decide)
    revert hone
    decide
  · obtain ⟨s, hrun, hlog⟩ := hdrag
    refine ⟨s, hrun, fun h => ?_⟩
    have hnone := h.drags _ _ _ _ _ hlog (by decide) rfl
    revert hnone
    decide

end Scene

end Yuke.Tui
