import Yuke.Shared.Blocks

/-!
# The scroll list

Items rendered to rows and scrolled by rows. What the list shows is in `Shown`. The heights and the
rows of recent items are kept in caches, and each layout fills them item by item.
-/

set_option autoImplicit false

namespace Yuke.Tui

open Yuke.Shared

variable {Item Key Row : Type}

structure Size where
  width : Nat
  height : Nat
  deriving DecidableEq

structure Entry (Item Key : Type) where
  item : Item
  key : Key
  height : Nat
  deriving DecidableEq

structure Anchor (Key : Type) where
  key : Key
  row : Nat
  deriving DecidableEq

structure ScrollState (Key : Type) where
  top : Nat
  height : Nat
  total : Nat
  following : Bool
  changedBelow : Bool
  anchor : Option (Anchor Key)
  deriving DecidableEq

/-- The key and the render of the owner. The rows can depend on when the render runs only in that a
render that threw can give rows later: for one item and width the rows stay the same. -/
structure ScrollOptions (Item Key Row : Type) where
  key : Item → Key
  render : Nat → Item → Nat → Option (List Row)
  again : ∀ {time later item width rows}, time ≤ later →
    render time item width = some rows → render later item width = some rows

structure Shown (Item Key : Type) where
  entries : List (Entry Item Key)
  /-- the rows before each entry, and the total at the end -/
  before : List Nat
  size : Size
  top : Nat
  following : Bool
  changedBelow : Bool
  deriving DecidableEq

def maxSafeInteger : Nat := 9007199254740991

namespace Shown

variable (shown : Shown Item Key)

def total : Nat := shown.before.getLast?.getD 0

def last : Nat := shown.total - shown.size.height

def rowsBefore (i : Nat) : Nat := shown.before.getD i 0

def entryAt (row : Nat) : Option Nat :=
  if shown.total = 0 then none
  else some (lastAtMost shown.before row shown.entries.length 0 (shown.entries.length - 1))

def items : List Item := shown.entries.map Entry.item

def anchor : Option (Anchor Key) :=
  if shown.size.height = 0 then none
  else
    (shown.entryAt shown.top).bind fun i =>
      shown.entries[i]?.map fun entry => ⟨entry.key, shown.top - shown.rowsBefore i⟩

def state : ScrollState Key where
  top := shown.top
  height := shown.size.height
  total := shown.total
  following := shown.following
  changedBelow := shown.changedBelow
  anchor := shown.anchor

section Keys
variable [DecidableEq Key]

def index (key : Key) : Option Nat := shown.entries.findIdx? (·.key = key)

def rowOf (key : Key) (row : Nat) : Option Nat :=
  (shown.index key).bind fun i =>
    shown.entries[i]?.bind fun entry =>
      if entry.height = 0 then none else some (shown.rowsBefore i + min row (entry.height - 1))

/-- The top row for `anchor` in the new entries: the item, or the next one that stays, or the last
row of the one before it. `order` holds the keys before the change. -/
def anchored (anchor : Option (Anchor Key)) (order : List Key) : Nat :=
  match anchor with
  | none => min shown.top shown.last
  | some anchor =>
    let old := order.idxOf anchor.key
    let found :=
      (shown.rowOf anchor.key anchor.row).or
        (((order.drop (old + 1)).findSome? (shown.rowOf · 0)).or
          ((order.take old).reverse.findSome? (shown.rowOf · maxSafeInteger)))
    min (found.getD 0) shown.last

def inView (key : Key) : Bool :=
  match shown.index key with
  | none => false
  | some i =>
    shown.rowsBefore i < shown.top + shown.size.height && shown.top < shown.rowsBefore (i + 1)

def withEntries (entries : List (Entry Item Key)) (size : Size) : Shown Item Key :=
  { shown with entries, before := sums (entries.map Entry.height), size }

def placed (entries : List (Entry Item Key)) (size : Size) : Shown Item Key :=
  let next := shown.withEntries entries size
  { next with
    top :=
      if shown.following then next.last
      else next.anchored shown.anchor (shown.entries.map Entry.key) }

def moveTo (row : Int) : Shown Item Key :=
  let top := (max 0 (min row shown.last)).toNat
  let following := decide (top = shown.last)
  if top = shown.top ∧ following = shown.following then shown
  else { shown with top, following, changedBelow := !following && shown.changedBelow }

def scrollToItem (key : Key) (row : Int) : Shown Item Key :=
  match shown.index key with
  | none => shown
  | some i =>
    match shown.entries[i]? with
    | none => shown
    | some entry =>
      if row < 0 ∨ entry.height ≤ row then shown else shown.moveTo (shown.rowsBefore i + row)

def ensureVisible (key : Key) (row : Int) : Shown Item Key :=
  match shown.index key with
  | none => shown
  | some i =>
    match shown.entries[i]? with
    | none => shown
    | some entry =>
      if shown.size.height = 0 ∨ row < 0 ∨ entry.height ≤ row then shown
      else
        let target := shown.rowsBefore i + row
        if target < shown.top then shown.moveTo target
        else if shown.top + shown.size.height ≤ target then
          shown.moveTo (target - shown.size.height + 1)
        else shown

end Keys

def resized (size : Size) : Shown Item Key :=
  let next := { shown with size }
  { next with top := if shown.following then next.last else min shown.top next.last }

def newBelow [DecidableEq Item] (old : List Item) : Bool :=
  shown.entries.zipIdx.any fun (entry, i) =>
    entry.item ∉ old && 0 < entry.height &&
      shown.top + shown.size.height < shown.rowsBefore (i + 1)

def markBelow [DecidableEq Item] (old : List Item) : Shown Item Key :=
  if !shown.following && old ≠ [] && 0 < shown.size.height && shown.newBelow old then
    { shown with changedBelow := true }
  else shown

end Shown

structure Kept (Item Key Row : Type) where
  item : Item
  key : Key
  rows : List Row
  deriving DecidableEq

structure Caches (Item Key Row : Type) where
  /-- the width and the height of the last render of an item -/
  heights : Item → Option (Nat × Nat)
  /-- the oldest render comes first -/
  rendered : List (Kept Item Key Row)
  renderedRows : Nat

def keptRows : Nat := 2000

variable [DecidableEq Item] [DecidableEq Key]

namespace Caches

variable (caches : Caches Item Key Row) (shown : Shown Item Key)

def get (item : Item) : Option (Kept Item Key Row) := caches.rendered.find? (·.item = item)

def forget (kept : Kept Item Key Row) : Caches Item Key Row :=
  { caches with
    rendered := caches.rendered.filter (·.item ≠ kept.item)
    renderedRows := caches.renderedRows - kept.rows.length }

/-- Drop the oldest items outside the view while too many rows are kept. `newest` stays. -/
def trimOver (newest : Option Item) :
    List (Kept Item Key Row) → Caches Item Key Row → Caches Item Key Row
  | [], caches => caches
  | kept :: rest, caches =>
    if caches.renderedRows ≤ keptRows then caches
    else if some kept.item ≠ newest ∧ ¬ shown.inView kept.key then
      trimOver newest rest (caches.forget kept)
    else trimOver newest rest caches

def trim (newest : Option Item) : Caches Item Key Row :=
  trimOver shown newest caches.rendered caches

def drop (item : Item) : Caches Item Key Row :=
  match caches.get item with
  | none => caches
  | some old => caches.forget old

def keep (item : Item) (key : Key) (rows : List Row) : Caches Item Key Row :=
  let caches := caches.drop item
  if rows.isEmpty then caches
  else
    let added : Caches Item Key Row :=
      { caches with
        rendered := caches.rendered ++ [⟨item, key, rows⟩]
        renderedRows := caches.renderedRows + rows.length }
    added.trim shown (some item)

def setHeight (item : Item) (width height : Nat) : Caches Item Key Row :=
  { caches with heights := Function.update caches.heights item (some (width, height)) }

def retain (items : List Item) : Caches Item Key Row :=
  caches.rendered.foldl (fun caches kept => if kept.item ∈ items then caches else caches.forget kept)
    caches

end Caches

variable (o : ScrollOptions Item Key Row) (time : Nat)

def measureItem (shown : Shown Item Key) (width : Nat) (item : Item) (key : Key)
    (caches : Caches Item Key Row) : Option (Entry Item Key) × Caches Item Key Row :=
  let fresh :=
    if width = 0 then (some ⟨item, key, 0⟩, caches)
    else
      match o.render time item width with
      | none => (none, caches)
      | some rows =>
        (some ⟨item, key, rows.length⟩,
          (caches.setHeight item width rows.length).keep shown item key rows)
  match caches.heights item with
  | none => fresh
  | some (known, height) => if known = width then (some ⟨item, key, height⟩, caches) else fresh

def measureAll (shown : Shown Item Key) (width : Nat) :
    List (Item × Key) → Caches Item Key Row →
      Option (List (Entry Item Key)) × Caches Item Key Row
  | [], caches => (some [], caches)
  | (item, key) :: keyed, caches =>
    match measureItem o time shown width item key caches with
    | (none, caches) => (none, caches)
    | (some entry, caches) =>
      match measureAll shown width keyed caches with
      | (none, caches) => (none, caches)
      | (some entries, caches) => (some (entry :: entries), caches)

structure ScrollList (Item Key Row : Type) where
  shown : Shown Item Key
  caches : Caches Item Key Row

inductive Outcome where
  | done
  | threw
  deriving DecidableEq

namespace ScrollList

variable (list : ScrollList Item Key Row)

omit [DecidableEq Item] [DecidableEq Key] in
def new (followTail : Bool) : ScrollList Item Key Row where
  shown :=
    { entries := [], before := [0], size := ⟨0, 0⟩, top := 0, following := followTail
      changedBelow := false }
  caches := { heights := fun _ => none, rendered := [], renderedRows := 0 }

/-- Render the items at a width and keep the anchor. A throw keeps what the caches got before. -/
def relayout (keyed : List (Item × Key)) (size : Size) : Outcome × ScrollList Item Key Row :=
  match measureAll o time list.shown size.width keyed list.caches with
  | (none, caches) => (.threw, { list with caches })
  | (some entries, caches) =>
    let shown := list.shown.placed entries size
    (.done, { shown, caches := (caches.retain (entries.map Entry.item)).trim shown none })

def setItems (items : List Item) : Outcome × ScrollList Item Key Row :=
  if ¬ (items.map o.key).Nodup then (.threw, list)
  else if list.shown.items = items then (.done, list)
  else
    match list.relayout o time (items.map fun item => (item, o.key item)) list.shown.size with
    | (.threw, next) => (.threw, next)
    | (.done, next) => (.done, { next with shown := next.shown.markBelow list.shown.items })

def layout (size : Size) : Outcome × ScrollList Item Key Row :=
  if size = list.shown.size then (.done, list)
  else if size.width = list.shown.size.width then
    (.done, { list with shown := list.shown.resized size })
  else list.relayout o time (list.shown.entries.map fun entry => (entry.item, entry.key)) size

def entryRows (entry : Entry Item Key) : Option (List Row) × ScrollList Item Key Row :=
  if entry.height = 0 then (some [], list)
  else
    match list.caches.get entry.item with
    | some kept => (some kept.rows, list)
    | none =>
      match o.render time entry.item list.shown.size.width with
      | none => (none, list)
      | some rows =>
        (some rows, { list with caches := list.caches.keep list.shown entry.item entry.key rows })

def rowAt (row : Int) :
    Option (Option (Item × Nat × Option Row)) × ScrollList Item Key Row :=
  if row < 0 ∨ list.shown.total ≤ row then (some none, list)
  else
    match (list.shown.entryAt row.toNat).bind fun i => list.shown.entries[i]?.map fun e => (i, e) with
    | none => (some none, list)
    | some (i, entry) =>
      let place := row.toNat - list.shown.rowsBefore i
      match list.entryRows o time entry with
      | (none, next) => (none, next)
      | (some rows, next) => (some (some (entry.item, place, rows[place]?)), next)

def rowsOf (key : Key) : Option (Option (Nat × List Row)) × ScrollList Item Key Row :=
  match (list.shown.index key).bind fun i => list.shown.entries[i]?.map fun e => (i, e) with
  | none => (some none, list)
  | some (i, entry) =>
    match list.entryRows o time entry with
    | (none, next) => (none, next)
    | (some rows, next) => (some (some (list.shown.rowsBefore i, rows)), next)

/-- The rows that `draw` paints from the row `row` of the entry `i` on. Each turn takes a line or an
entry. -/
def drawFrom : Nat → ScrollList Item Key Row → Nat → Nat → Nat →
    Option (List Row) × ScrollList Item Key Row
  | 0, list, _, _, _ => (some [], list)
  | fuel + 1, list, i, row, lines =>
    match lines, list.shown.entries[i]? with
    | 0, _ => (some [], list)
    | _, none => (some [], list)
    | lines + 1, some entry =>
      match list.entryRows o time entry with
      | (none, next) => (none, next)
      | (some rows, next) =>
        match rows[row]? with
        | none => drawFrom fuel next (i + 1) 0 (lines + 1)
        | some text =>
          match drawFrom fuel next i (row + 1) lines with
          | (none, next) => (none, next)
          | (some texts, next) => (some (text :: texts), next)

def draw (height : Nat) : Option (List Row) × ScrollList Item Key Row :=
  match list.shown.entryAt list.shown.top with
  | none => (some [], list)
  | some i =>
    drawFrom o time (height + list.shown.entries.length) list i
      (list.shown.top - list.shown.rowsBefore i) height

end ScrollList

inductive ScrollEvent (Item Key : Type) where
  | setItems (items : List Item)
  | layout (size : Size)
  | scrollBy (rows : Int)
  | scrollTo (row : Int)
  | followTail
  | scrollToItem (key : Key) (row : Int)
  | ensureVisible (key : Key) (row : Int)
  | rowAt (row : Int)
  | rowsOf (key : Key)
  | draw (height : Nat)

def ScrollList.call (list : ScrollList Item Key Row) :
    ScrollEvent Item Key → Outcome × ScrollList Item Key Row
  | .setItems items => list.setItems o time items
  | .layout size => list.layout o time size
  | .scrollBy rows => (.done, { list with shown := list.shown.moveTo (list.shown.top + rows) })
  | .scrollTo row => (.done, { list with shown := list.shown.moveTo row })
  | .followTail => (.done, { list with shown := list.shown.moveTo list.shown.last })
  | .scrollToItem key row => (.done, { list with shown := list.shown.scrollToItem key row })
  | .ensureVisible key row => (.done, { list with shown := list.shown.ensureVisible key row })
  | .rowAt row => (.done, (list.rowAt o time row).2)
  | .rowsOf key => (.done, (list.rowsOf o time key).2)
  | .draw height => (.done, (list.draw o time height).2)

end Yuke.Tui
