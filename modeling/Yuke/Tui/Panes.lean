import Yuke.Tui.Scene
import Yuke.Tui.ScrollList
import Yuke.Tui.Styles

/-!
# The pane tree

Leaves and splits, the active pane, and the operations of the core on them. The factory of a view is
foreign code: it can call each operation while it runs. So an operation that starts a factory leaves a
frame on a stack, and the rest of the operation runs when that factory returns.
-/

set_option autoImplicit false

namespace Yuke.Tui

inductive SplitDirection where
  | row
  | column
  deriving DecidableEq

inductive FocusDirection where
  | left
  | right
  | up
  | down
  deriving DecidableEq

structure PaneLeaf where
  id : ℕ
  view : Option ℕ
  deriving DecidableEq

inductive PaneView where
  | given (view : ℕ)
  | empty (id : ℕ)
  deriving DecidableEq

def PaneLeaf.shown (leaf : PaneLeaf) : PaneView :=
  match leaf.view with
  | some view => .given view
  | none => .empty leaf.id

def PaneLeaf.pane (leaf : PaneLeaf) : Option ℕ := leaf.view.map fun _ => leaf.id

inductive PaneNode where
  | leaf (leaf : PaneLeaf)
  | split (direction : SplitDirection) (first second : PaneNode)
  deriving DecidableEq

namespace PaneNode

def leaves : PaneNode → List PaneLeaf
  | .leaf here => [here]
  | .split _ first second => first.leaves ++ second.leaves

def firstLeaf : PaneNode → PaneLeaf
  | .leaf here => here
  | .split _ first _ => first.firstLeaf

def panes (node : PaneNode) : List ℕ := node.leaves.filterMap PaneLeaf.pane

def ids (node : PaneNode) : List ℕ := node.leaves.map PaneLeaf.id

/-- Put `replacement` where the leaf `old` is. A leaf is in the tree once. -/
def replace (old : PaneLeaf) : PaneNode → PaneNode → PaneNode
  | .leaf here, replacement => if here = old then replacement else .leaf here
  | .split direction first second, replacement =>
    .split direction (first.replace old replacement) (second.replace old replacement)

/-- The other part of the split of `leaf`. -/
def sibling (leaf : PaneLeaf) : PaneNode → Option PaneNode
  | .leaf _ => none
  | .split _ first second =>
    if first = .leaf leaf then some second
    else if second = .leaf leaf then some first
    else (first.sibling leaf).or (second.sibling leaf)

/-- The sibling of `leaf` takes the place of their split. -/
def drop (leaf : PaneLeaf) : PaneNode → PaneNode
  | .leaf here => .leaf here
  | .split direction first second =>
    if first = .leaf leaf then second
    else if second = .leaf leaf then first
    else .split direction (first.drop leaf) (second.drop leaf)

def firstPart (total : ℤ) : ℤ := max 0 (mathRound ((total : ℚ) / 2))

def secondPart (total : ℤ) : ℤ := max 0 (total - firstPart total)

def parts (direction : SplitDirection) (rect : Rect) : Rect × Rect × Rect :=
  match direction with
  | .row =>
    let first := firstPart (rect.width - 1)
    ({ rect with width := first }, { rect with column := rect.column + first, width := 1 },
      { rect with column := rect.column + first + 1, width := secondPart (rect.width - 1) })
  | .column =>
    let first := firstPart (rect.height - 1)
    ({ rect with height := first }, { rect with row := rect.row + first, height := 1 },
      { rect with row := rect.row + first + 1, height := secondPart (rect.height - 1) })

def leafRects : PaneNode → Rect → List (PaneLeaf × Rect)
  | .leaf here, rect => [(here, rect)]
  | .split direction first second, rect =>
    let (left, _, right) := parts direction rect
    first.leafRects left ++ second.leafRects right

def dividers : PaneNode → Rect → List (SplitDirection × Rect)
  | .leaf _, _ => []
  | .split direction first second, rect =>
    let (left, divider, right) := parts direction rect
    first.dividers left ++ (direction, divider) :: second.dividers right

end PaneNode

/-- A saved pane: `null`, a typed view or a split. -/
inductive SavedPane where
  | null
  | view (type : String)
  | split (direction : SplitDirection) (first second : SavedPane)
  deriving DecidableEq

def SavedPane.leaves : SavedPane → List (Option String)
  | .null => [none]
  | .view type => [some type]
  | .split _ first second => first.leaves ++ second.leaves

def joinParts (direction : SplitDirection) : Option PaneNode → Option PaneNode → Option PaneNode
  | none, second => second
  | first, none => first
  | some first, some second => some (.split direction first second)

/-- The tree of the leaves in `order`, and the leaves after it. -/
def SavedPane.build : SavedPane → List (Option PaneLeaf) → Option PaneNode × List (Option PaneLeaf)
  | .null, order | .view _, order => (order.head?.join.map .leaf, order.tail)
  | .split direction first second, order =>
    let (left, rest) := first.build order
    let (right, rest) := second.build rest
    (joinParts direction left right, rest)

/-- A restore: the tree and the focus to restore, the leaves of the tree before, and the leaves made
so far. A type without a factory gives no leaf. -/
structure Restore where
  saved : SavedPane
  focus : ℕ
  before : List PaneLeaf
  order : List (Option PaneLeaf)
  deriving DecidableEq

def Restore.add (r : Restore) (leaf : Option PaneLeaf) : Restore :=
  { r with order := r.order ++ [leaf] }

/-! ## The operations -/

/-- What the operation that started a factory does with its leaf. A `restore` has `todo` left. -/
inductive PaneUse where
  | split (direction : SplitDirection)
  | splitDefault (direction : SplitDirection)
  | start (empty : PaneLeaf)
  | remove (leaf : PaneLeaf)
  | restore (r : Restore) (todo : List (Option String))
  | root (r : Restore)
  deriving DecidableEq

/-- A factory that runs for the mount `mount`. -/
structure PaneFrame where
  mount : ℕ
  use : PaneUse
  deriving DecidableEq

/-- The tree with its last layout. The host has a default pane or not, and a factory for each type of
`types`. `started` are the panes whose views started, and `closed` the closed mounts. The factory on
top of the stack runs. -/
structure PaneTree where
  root : PaneNode
  active : PaneLeaf
  leafRects : List (PaneLeaf × Rect)
  dividers : List (SplitDirection × Rect)
  hasDefault : Bool
  types : List String
  made : ℕ
  started : List ℕ
  closed : List ℕ
  stack : List PaneFrame
  deriving DecidableEq

namespace PaneTree

def new : PaneTree where
  root := .leaf ⟨0, none⟩
  active := ⟨0, none⟩
  leafRects := []
  dividers := []
  hasDefault := false
  types := []
  made := 1
  started := []
  closed := []
  stack := []

variable (s : PaneTree)

def activate (leaf : PaneLeaf) : PaneTree := { s with active := leaf }

def emptyLeaf : PaneLeaf × PaneTree := (⟨s.made, none⟩, { s with made := s.made + 1 })

def begin (use : PaneUse) : PaneTree :=
  { s with made := s.made + 1, stack := ⟨s.made, use⟩ :: s.stack }

/-- Put `leaf` after the active pane in a new split, and give it the focus. -/
def insert (leaf : PaneLeaf) (direction : SplitDirection) : PaneTree :=
  { s with root := s.root.replace s.active (.split direction (.leaf s.active) (.leaf leaf)) }.activate
    leaf

/-- The end of `start`: the new pane takes the place of the empty one. -/
def fill (empty leaf : PaneLeaf) : PaneTree :=
  let t := { s with root := s.root.replace empty (.leaf leaf) }
  if s.active = empty then t.activate leaf else t

/-- The focus after `leaf` went. -/
def refocus (leaf next : PaneLeaf) : PaneTree :=
  if s.active = leaf ∨ s.active ∉ s.root.leaves then s.activate next else s

/-- The end of `restore`. None of the panes before is in the new tree, so their close takes no leaf
out. -/
def swap (r : Restore) (tree : PaneNode) : PaneTree :=
  { s with root := tree, closed := r.before.filterMap PaneLeaf.pane ++ s.closed }.activate
    ((r.order[r.focus]?).join.getD tree.firstLeaf)

/-- The rest of `restore`, up to the next factory that runs. -/
def build (s : PaneTree) (r : Restore) : List (Option String) → PaneTree
  | [] =>
    match (r.saved.build r.order).1 with
    | some tree => s.swap r tree
    | none =>
      if s.hasDefault then s.begin (.root r) else s.emptyLeaf.2.swap r (.leaf s.emptyLeaf.1)
  | none :: todo =>
    if s.hasDefault then s.begin (.restore r todo)
    else s.emptyLeaf.2.build (r.add (some s.emptyLeaf.1)) todo
  | some type :: todo =>
    if type ∈ s.types then s.begin (.restore r todo) else s.build (r.add none) todo

/-- The rest of the operation that asked for `leaf`. -/
def finish (leaf : PaneLeaf) : PaneUse → PaneTree
  | .split direction | .splitDefault direction => s.insert leaf direction
  | .start empty => s.fill empty leaf
  | .remove old => { s with root := .leaf leaf }.refocus old leaf
  | .restore r todo => s.build (r.add (some leaf)) todo
  | .root r => s.swap r (.leaf leaf)

def defaultLeaf (use : PaneUse) : PaneTree :=
  if s.hasDefault then s.begin use else s.emptyLeaf.2.finish s.emptyLeaf.1 use

/-- Take `leaf` out. The last leaf gives way to a new default pane. -/
def remove (leaf : PaneLeaf) : PaneTree :=
  if leaf ∈ s.root.leaves then
    if s.root = .leaf leaf then s.defaultLeaf (.remove leaf)
    else
      match s.root.sibling leaf with
      | none => s
      | some sibling => { s with root := s.root.drop leaf }.refocus leaf sibling.firstLeaf
  else s

def leafOfPane (pane : ℕ) : Option PaneLeaf := s.root.leaves.find? fun leaf => leaf.pane = some pane

def close (pane : ℕ) : PaneTree :=
  if pane ∈ s.closed then s
  else
    let t := { s with closed := pane :: s.closed }
    match t.leafOfPane pane with
    | some leaf => t.remove leaf
    | none => t

def closeActive : PaneTree :=
  match s.active.pane with
  | some pane => s.close pane
  | none => s.remove s.active

def start : PaneTree :=
  if s.hasDefault then
    match s.root.leaves.find? fun leaf => leaf.pane = none with
    | some empty => s.begin (.start empty)
    | none => s
  else s

def restore (saved : SavedPane) (focus : ℕ) : PaneTree :=
  s.build ⟨saved, focus, s.root.leaves, []⟩ saved.leaves

def rectOf (leaf : PaneLeaf) : Option Rect := s.leafRects.lookup leaf

def center (rect : Rect) : ℚ × ℚ :=
  ((rect.column : ℚ) + rect.width / 2, (rect.row : ℚ) + rect.height / 2)

/-- The distance along `direction` plus twice the distance across, for a center ahead. -/
def score (direction : FocusDirection) (origin point : ℚ × ℚ) : Option ℚ :=
  let dx := point.1 - origin.1
  let dy := point.2 - origin.2
  let (along, across) :=
    match direction with
    | .left => (-dx, dy)
    | .right => (dx, dy)
    | .up => (-dy, dx)
    | .down => (dy, dx)
  if along ≤ 0 then none else some (along + 2 * |across|)

/-- The better one of `best` and `leaf`, from the center of `own`. -/
def nearer (direction : FocusDirection) (own : Rect) (best : Option (PaneLeaf × ℚ))
    (leaf : PaneLeaf) : Option (PaneLeaf × ℚ) :=
  if leaf = s.active then best
  else
    match (s.rectOf leaf).bind fun rect => score direction (center own) (center rect), best with
    | none, best => best
    | some new, none => some (leaf, new)
    | some new, some (other, old) => if new < old then some (leaf, new) else some (other, old)

def nearest (direction : FocusDirection) : Option PaneLeaf :=
  match s.rectOf s.active with
  | none => none
  | some own => (s.root.leaves.foldl (s.nearer direction own) none).map Prod.fst

def focus (direction : FocusDirection) : PaneTree :=
  match s.nearest direction with
  | some leaf => s.activate leaf
  | none => s

def focusNext : PaneTree :=
  match s.root.leaves[(s.root.leaves.idxOf s.active + 1) % s.root.leaves.length]? with
  | some next => if next = s.active then s else s.activate next
  | none => s

def focusPane (pane : ℕ) : PaneTree :=
  match s.leafOfPane pane with
  | some leaf => s.activate leaf
  | none => s

def noteFocus (rootPath : List PaneView) : PaneTree :=
  match s.root.leaves.find? fun leaf => leaf.shown ∈ rootPath with
  | some leaf => { s with active := leaf }
  | none => s

def layout (size : Size) : PaneTree :=
  let rect : Rect := ⟨0, 0, size.width, size.height⟩
  { s with leafRects := s.root.leafRects rect, dividers := s.root.dividers rect }

def mounts : List ℕ := s.started ++ s.stack.map PaneFrame.mount

inductive FactoryEnd where
  | view (view : ℕ)
  | fails
  deriving DecidableEq

/-- A view that does not start gives an empty leaf, and a `split` none. -/
def withoutView : PaneUse → PaneTree
  | .split _ => s
  | use => s.emptyLeaf.2.finish s.emptyLeaf.1 use

/-- The factory of the popped `frame` returned. One that closed its own mount wants no view. -/
def returned (frame : PaneFrame) : FactoryEnd → PaneTree
  | .view view =>
    if frame.mount ∈ s.closed then s.withoutView frame.use
    else
      { s with started := frame.mount :: s.started }.finish ⟨frame.mount, some view⟩ frame.use
  | .fails => { s with closed := frame.mount :: s.closed }.withoutView frame.use

end PaneTree

/-- What happens to the tree. Each one can come from the factory on top of the stack. -/
inductive PaneAct where
  | split (direction : SplitDirection)
  | splitDefault (direction : SplitDirection)
  | start
  | restore (saved : SavedPane) (focus : ℕ)
  | closeActive
  | close (pane : ℕ)
  | focus (direction : FocusDirection)
  | focusNext
  | focusPane (pane : ℕ)
  | noteFocus (rootPath : List PaneView)
  | layout (size : Size)
  | setDefault (present : Bool)
  | register (types : List String)
  | returns (result : PaneTree.FactoryEnd)

namespace PaneTree

def step (s : PaneTree) : PaneAct → Option PaneTree
  | .split direction => some (s.begin (.split direction))
  | .splitDefault direction => some (s.defaultLeaf (.splitDefault direction))
  | .start => some s.start
  | .restore saved focus => some (s.restore saved focus)
  | .closeActive => some s.closeActive
  | .close pane => if pane ∈ s.mounts then some (s.close pane) else none
  | .focus direction => some (s.focus direction)
  | .focusNext => some s.focusNext
  | .focusPane pane => some (s.focusPane pane)
  | .noteFocus rootPath => some (s.noteFocus rootPath)
  | .layout size => some (s.layout size)
  | .setDefault present => some { s with hasDefault := present }
  | .register types => some { s with types := types }
  | .returns result =>
    match s.stack with
    | [] => none
    | frame :: stack => some ({ s with stack := stack }.returned frame result)

end PaneTree

end Yuke.Tui
