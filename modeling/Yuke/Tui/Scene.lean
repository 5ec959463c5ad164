import Mathlib

/-!
# The scene

The scene holds the roots, the overlays, the placed views and the mouse capture, and routes the mouse
input. A handler of a view can open and close overlays and roots while it runs.
-/

set_option autoImplicit false

namespace Yuke.Tui

inductive MouseButton where
  | left
  | middle
  | right
  | none
  | wheelUp
  | wheelDown
  | wheelLeft
  | wheelRight
  | button (number : ℕ)
  deriving DecidableEq

def MouseButton.isWheel : MouseButton → Bool
  | .wheelUp | .wheelDown | .wheelLeft | .wheelRight => true
  | _ => false

inductive MouseAction where
  | press
  | release
  | motion
  | drag
  /-- The end of a capture without a release. The terminal reports no `cancel`. -/
  | cancel
  deriving DecidableEq

structure Point where
  column : ℤ
  row : ℤ
  deriving DecidableEq

structure Rect where
  column : ℤ
  row : ℤ
  width : ℤ
  height : ℤ
  deriving DecidableEq

def Rect.inside (rect : Rect) (point : Point) : Bool :=
  rect.column ≤ point.column && point.column < rect.column + rect.width &&
    rect.row ≤ point.row && point.row < rect.row + rect.height

structure Modifiers where
  shift : Bool := false
  alt : Bool := false
  ctrl : Bool := false
  super : Bool := false
  hyper : Bool := false
  «meta» : Bool := false
  deriving DecidableEq

structure MouseEvent where
  point : Point
  button : MouseButton
  action : MouseAction
  modifiers : Modifiers := {}
  deriving DecidableEq

namespace Scene

inductive Target (View : Type) where
  | mk (view : View) (rect clip : Rect) (children : List (Target View))

structure Place (View : Type) where
  view : View
  rect : Rect
  deriving DecidableEq

variable {View : Type}

mutual

def findIn [DecidableEq View] (view : View) : Target View → Option (Place View)
  | .mk own rect _ children => if own = view then some ⟨own, rect⟩ else findInAny view children

def findInAny [DecidableEq View] (view : View) : List (Target View) → Option (Place View)
  | [] => none
  | child :: rest =>
    match findIn view child with
    | some found => some found
    | none => findInAny view rest

end

mutual

/-- The deepest target under `point`, inside its clip, with the targets over it up to the root. -/
def deepest (point : Point) : Target View → Option (List (Place View))
  | .mk view rect clip children =>
    if clip.inside point then
      match deepestOf point children with
      | some found => some (found ++ [⟨view, rect⟩])
      | none => some [⟨view, rect⟩]
    else none

def deepestOf (point : Point) : List (Target View) → Option (List (Place View))
  | [] => none
  | child :: rest =>
    match deepestOf point rest with
    | some found => some found
    | none => deepest point child

end

/-- The targets under `point`, from the deepest one up. A layer without a tree has none. -/
def under (point : Point) (tree : Option (Target View)) : List (Place View) :=
  (tree.bind (deepest point)).getD []

def localTo (place : Place View) (event : MouseEvent) : MouseEvent :=
  { event with point := ⟨event.point.column - place.rect.column, event.point.row - place.rect.row⟩ }

structure Layer (View : Type) where
  id : ℕ
  view : View
  tree : Option (Target View)

structure Overlay (View : Type) extends Layer View where
  modal : Bool

structure Capture (View : Type) where
  view : View
  button : MouseButton
  point : Point
  deriving DecidableEq

/-- A mouse event on its way through the layers. `place` gets it now, then `parents` from the deepest
one up. -/
structure Routing (View : Type) where
  event : MouseEvent
  /-- The input layer before the first handler. -/
  input : ℕ
  place : Place View
  parents : List (Place View)
  /-- The layers under a float, the top first. The root comes after them. -/
  below : Option (List (Overlay View))

/-- What runs now. In each phase but `idle`, the code of a view or of a plugin runs. -/
inductive Phase (View : Type) where
  | idle
  /-- A key handler, a command, a timer, or other code of a plugin. -/
  | code
  /-- The `focusChanged` handlers of a press, before its mouse handlers. -/
  | focusing (routing : Routing View)
  | routed (routing : Routing View)
  /-- The handler of the captured view. -/
  | captured (release : Bool)
  /-- The handler of the view that lost the capture, in a layout or not. -/
  | cancelled (layout : Bool)
  /-- The `layout` functions of the views. -/
  | placing
  /-- The hosts of the placed views. -/
  | placed
  /-- The `focusChanged` handlers of a layout. -/
  | syncing

/-- What the views saw: a view took a press and the capture, or its handler got an event. -/
inductive Entry (View : Type) where
  | took (view : View)
  | given (view : View) (event : MouseEvent)
  deriving DecidableEq

end Scene

open Scene in
structure Scene (View : Type) where
  /-- The roots from the bottom up. The root of the core stays first. -/
  roots : List (Layer View)
  overlays : List (Overlay View)
  capture : Option (Capture View) := none
  nextId : ℕ
  phase : Phase View := .idle
  /-- The modals that wait for the end of a `cancel` handler, the inner one first. -/
  opening : List (Overlay View) := []
  log : List (Entry View) := []

namespace Scene

variable {View : Type}

def new (root : View) : Scene View where
  roots := [⟨0, root, none⟩]
  overlays := []
  nextId := 1

def rootTree (s : Scene View) : Option (Target View) := s.roots.getLast?.bind Layer.tree

def inputLayer (s : Scene View) : ℕ :=
  match s.overlays.reverse.find? fun layer => layer.modal with
  | some layer => layer.id
  | none => (s.roots.getLast?.map Layer.id).getD 0

def find [DecidableEq View] (s : Scene View) (view : View) : Option (Place View) :=
  (s.rootTree.toList ++ s.overlays.filterMap fun layer => layer.tree).findSome? (findIn view)

/-- End the capture `capture` without a release. Its view gets `cancel`, also when it left the
tree. -/
def cancel [DecidableEq View] (s : Scene View) (capture : Capture View) : Scene View :=
  let event : MouseEvent := { point := capture.point, button := capture.button, action := .cancel }
  let delivered := (s.find capture.view).elim event fun place => localTo place event
  { s with capture := none, log := s.log ++ [.given capture.view delivered] }

def give (s : Scene View) (routing : Routing View) : Scene View :=
  { s with
    phase := .routed routing
    log := s.log ++ [.given routing.place.view (localTo routing.place routing.event)] }

/-- Route an event inside a layer: a press focuses, and the deepest view under the pointer gets it
first. -/
def route (s : Scene View) (tree : Option (Target View)) (event : MouseEvent)
    (below : Option (List (Overlay View))) : Option (Scene View) :=
  match under event.point tree with
  | [] => none
  | place :: parents =>
    let routing : Routing View := ⟨event, s.inputLayer, place, parents, below⟩
    -- Which views a press focuses, and so which handlers run, is open here.
    if event.action = .press ∧ event.button.isWheel = false then
      some { s with phase := .focusing routing }
    else some (s.give routing)

/-- Route an event through `layers`, the top first, and then the root. -/
def routeLayers (s : Scene View) (event : MouseEvent) : List (Overlay View) → Scene View
  | [] => (s.route s.rootTree event none).getD { s with phase := .idle }
  | layer :: below =>
    if layer.tree.isNone then s.routeLayers event below
    else if layer.modal then (s.route layer.tree event none).getD { s with phase := .idle }
    else
      match s.route layer.tree event (some below) with
      | some next => next
      | none => s.routeLayers event below

def routeOn (s : Scene View) (routing : Routing View) : Scene View :=
  match routing.parents, routing.below with
  | place :: parents, _ => s.give { routing with place := place, parents := parents }
  | [], some below => s.routeLayers routing.event below
  | [], none => { s with phase := .idle }

/-- A handler that opened a modal gave the input away, so it gets no capture. -/
def captures (s : Scene View) (routing : Routing View) : Bool :=
  routing.event.action = .press && routing.event.button = .left && s.inputLayer = routing.input

def take (s : Scene View) (routing : Routing View) : Scene View :=
  if s.captures routing then
    { s with
      phase := .idle
      capture := some ⟨routing.place.view, routing.event.button, routing.event.point⟩
      log := s.log ++ [.took routing.place.view] }
  else { s with phase := .idle }

/-- Route a mouse event in screen cells. A drag or a release goes to the captured view first. -/
def mouse [DecidableEq View] (s : Scene View) (event : MouseEvent) : Scene View :=
  match s.capture with
  | some capture =>
    if event.action = .drag ∨ event.action = .release then
      match s.find capture.view with
      | none => { s.cancel capture with phase := .cancelled false }
      | some place =>
        { s with
          capture := some { capture with point := event.point }
          phase := .captured (event.action = .release)
          log := s.log ++ [.given place.view (localTo place event)] }
    else s.routeLayers event s.overlays.reverse
  | none => s.routeLayers event s.overlays.reverse

def overlay [DecidableEq View] (s : Scene View) (view : View) (modal : Bool) : Scene View :=
  let layer : Overlay View := { id := s.nextId, view := view, tree := none, modal := modal }
  let made := { s with nextId := s.nextId + 1 }
  match modal, s.capture with
  | true, some capture => { made.cancel capture with opening := layer :: s.opening }
  | _, _ => { made with overlays := s.overlays ++ [layer] }

/-- Give the top root the tree `tree`. -/
def setTop (roots : List (Layer View)) (tree : Layer View → Option (Target View)) :
    List (Layer View) :=
  roots.dropLast ++ (roots.getLast?.map fun layer => { layer with tree := tree layer }).toList

def wrapRoot (s : Scene View) (view : View) : Scene View :=
  { s with
    roots := setTop s.roots (fun _ => none) ++ [⟨s.nextId, view, none⟩]
    nextId := s.nextId + 1 }

/-- Close the root `id`. The root of the core has no mount. -/
def closeRoot (s : Scene View) (id : ℕ) : Scene View :=
  { s with roots := s.roots.take 1 ++ (s.roots.drop 1).filter fun layer => layer.id ≠ id }

def place (s : Scene View) (trees : ℕ → Option (Target View)) : Scene View :=
  { s with
    roots := setTop s.roots fun layer => trees layer.id
    overlays := s.overlays.map fun layer => { layer with tree := trees layer.id } }

inductive Act (View : Type) where
  /-- The event loop takes the next event. -/
  | mouse (event : MouseEvent)
  | layout
  /-- The terminal lost the focus. -/
  | blur
  | run
  /-- The running code uses the scene. -/
  | overlay (view : View) (modal : Bool)
  | closeOverlay (id : ℕ)
  | wrapRoot (view : View)
  | closeRoot (id : ℕ)
  /-- The running code ends. -/
  | places (trees : ℕ → Option (Target View))
  | returns (taken : Bool)
  | throws

def Phase.isIdle : Phase View → Bool
  | .idle => true
  | _ => false

def returns [DecidableEq View] (s : Scene View) (taken : Bool) : Option (Scene View) :=
  match s.opening with
  | layer :: rest => some { s with overlays := s.overlays ++ [layer], opening := rest }
  | [] =>
    match s.phase with
    | .idle | .placing => none
    | .code | .cancelled false | .syncing => some { s with phase := .idle }
    | .focusing routing => some (s.give routing)
    | .routed routing => some (if taken then s.take routing else s.routeOn routing)
    | .captured release =>
      some { s with capture := if release then none else s.capture, phase := .idle }
    | .cancelled true => some { s with phase := .syncing }
    | .placed =>
      match s.capture with
      | none => some { s with phase := .syncing }
      | some capture =>
        -- A captured view that left the tree gets its `cancel` now: no release can reach it.
        if (s.find capture.view).isNone then
          some { s.cancel capture with phase := .cancelled true }
        else some { s with phase := .syncing }

def throws (s : Scene View) : Option (Scene View) :=
  match s.opening with
  | _ :: rest => some { s with opening := rest }
  | [] => if s.phase.isIdle then none else some { s with phase := .idle }

/-- The scene after an act, or `none` when the act cannot happen. -/
def step [DecidableEq View] (s : Scene View) (act : Act View) : Option (Scene View) :=
  match s.phase, act with
  | .idle, .mouse event => if event.action = .cancel then none else some (s.mouse event)
  | .idle, .layout => some { s with phase := .placing }
  | .idle, .blur =>
    some (s.capture.elim s fun capture => { s.cancel capture with phase := .cancelled false })
  | .idle, .run => some { s with phase := .code }
  | .idle, _ => none
  | _, .mouse _ | _, .layout | _, .blur | _, .run => none
  | _, .overlay view modal => some (s.overlay view modal)
  | _, .closeOverlay id =>
    some { s with overlays := s.overlays.filter fun layer => layer.id ≠ id }
  | _, .wrapRoot view => some (s.wrapRoot view)
  | _, .closeRoot id => some (s.closeRoot id)
  | .placing, .places trees =>
    if s.opening = [] then some { s.place trees with phase := .placed } else none
  | _, .places _ => none
  | _, .returns taken => s.returns taken
  | _, .throws => s.throws

end Scene

end Yuke.Tui
