import Yuke.Tui.Editor

/-!
# The styles of the terminal interface

The default theme gives the base, each `set` adds a layer of groups, and the active theme sits above
each layer. The look of the themes and the resolved groups are kept until a change drops them. An
object is a value here, so the copies of a registered theme and of a registered layer need no step.
-/

set_option autoImplicit false

namespace Yuke.Tui

inductive PaletteColor where
  | fg
  | bg
  | surfaceFg
  | strongFg
  | accent
  | accentMuted
  | surface
  | warn
  | danger
  | pendingBg
  | errorBg
  | diffAddBg
  | diffDelBg
  deriving DecidableEq

inductive Background where
  | dark
  | light
  deriving DecidableEq

/-- A color of the terminal grid: an index (`none` is NaN), the text after a `#`, or `reset`. -/
inductive TermColor where
  | index (value : Option ℤ)
  | hash (digits : Text)
  | reset
  deriving DecidableEq

inductive Color where
  | term (color : TermColor)
  | named (name : PaletteColor)
  deriving DecidableEq

abbrev Palette := PaletteColor → TermColor

def rgb (digits : String) : TermColor := .hash (digits.toList.map fun c => c.toNat.toUInt16)

def indexOf256 (value : ℤ) : TermColor := .index (some value)

/-- The steps of the color cube of the 256-color palette, which starts at index 16. -/
def cube : List ℤ := [0, 95, 135, 175, 215, 255]

def hexDigit? (unit : UInt16) : Option ℤ :=
  if 0x30 ≤ unit ∧ unit ≤ 0x39 then some (unit.toNat - 0x30)
  else if 0x41 ≤ unit ∧ unit ≤ 0x46 then some (unit.toNat - 0x37)
  else if 0x61 ≤ unit ∧ unit ≤ 0x66 then some (unit.toNat - 0x57)
  else none

def parseDigits (text : Text) : Option ℤ :=
  match text.takeWhile fun unit => (hexDigit? unit).isSome with
  | [] => none
  | digits => some ((digits.filterMap hexDigit?).foldl (fun value digit => 16 * value + digit) 0)

def dropHexMark : Text → Text
  | 0x30 :: 0x58 :: rest | 0x30 :: 0x78 :: rest => rest
  | text => text

/-- `Number.parseInt(text, 16)`. -/
def parseInt16 (text : Text) : Option ℤ :=
  match text.dropWhile isSpace with
  | 0x2D :: rest => (parseDigits (dropHexMark rest)).map (- ·)
  | 0x2B :: rest => parseDigits (dropHexMark rest)
  | rest => parseDigits (dropHexMark rest)

/-- The step of the cube next to `part`. -/
def cubeStep (part : ℤ) : ℕ :=
  (List.range cube.length).foldl
    (fun best at' => if |cube.getD at' 0 - part| < |cube.getD best 0 - part| then at' else best) 0

def distance (parts others : List ℤ) : ℤ :=
  (List.zipWith (fun part other => (other - part) ^ 2) parts others).sum

/-- `Math.round`: a half goes up. -/
def mathRound (value : ℚ) : ℤ := ⌊value + 1 / 2⌋

/-- `color` for a terminal without 24-bit color: the nearest index of the cube or the grays. -/
def indexed : TermColor → TermColor
  | .hash digits =>
    match [0, 2, 4].map fun at' => parseInt16 (slice digits at' (at' + 2)) with
    | [some r, some g, some b] =>
      let steps := [cubeStep r, cubeStep g, cubeStep b]
      let gray := min 23 (max 0 (mathRound ((((r + g + b : ℤ) : ℚ) / 3 - 8) / 10)))
      let level := 8 + 10 * gray
      if distance [r, g, b] (steps.map fun step => cube.getD step 0) ≤
          distance [r, g, b] [level, level, level] then
        .index (some (16 + 36 * cubeStep r + 6 * cubeStep g + cubeStep b))
      else .index (some (232 + gray))
    -- A part that is NaN makes each distance and the gray NaN.
    | _ => .index none
  | color => color

example : indexed (rgb "A8CFA0") = .index (some 151) := by decide +kernel

example : indexed (rgb "343A46") = .index (some 237) := by decide +kernel

example : indexed (rgb "A8CF") = .index none := by decide +kernel

/-- The fields of a style, each held in `F`. -/
structure StyleFields (F : Type → Type) where
  fg : F Color
  bg : F Color
  underlineColor : F Color
  bold : F Bool
  dim : F Bool
  italic : F Bool
  reverse : F Bool
  underline : F Bool
  inherits : F String

inductive Patched (α : Type) where
  | undefined
  | null
  | value (a : α)
  deriving DecidableEq

abbrev Style := StyleFields Option

abbrev StylePatch := StyleFields fun α => Option (Patched α)

def StyleFields.zip {F G H : Type → Type} (op : {α : Type} → F α → G α → H α)
    (first : StyleFields F) (second : StyleFields G) : StyleFields H where
  fg := op first.fg second.fg
  bg := op first.bg second.bg
  underlineColor := op first.underlineColor second.underlineColor
  bold := op first.bold second.bold
  dim := op first.dim second.dim
  italic := op first.italic second.italic
  reverse := op first.reverse second.reverse
  underline := op first.underline second.underline
  inherits := op first.inherits second.inherits

def noStyle : Style := ⟨none, none, none, none, none, none, none, none, none⟩

def noPatch : StylePatch := ⟨none, none, none, none, none, none, none, none, none⟩

/-- `{ ...old, ...patch }`: a field of `patch` wins also when it is undefined. -/
def StyleFields.spread (old patch : StylePatch) : StylePatch :=
  old.zip (fun first second => second.or first) patch

/-- One field of a layer: `null` deletes the field, and undefined keeps it. -/
def Patched.change {α : Type} (field : Option α) : Option (Patched α) → Option α
  | some .null => none
  | some (.value a) => some a
  | some .undefined | none => field

def StyleFields.change (fields : Style) (patch : StylePatch) : Style :=
  fields.zip Patched.change patch

def StyleFields.asPatch (style : Style) : StylePatch :=
  style.zip (fun field _ => field.map .value) noPatch

structure TermStyle where
  fg : Option TermColor
  bg : Option TermColor
  ul : Option TermColor
  bold : Option Bool
  dim : Option Bool
  italic : Option Bool
  reverse : Option Bool
  underline : Option Bool
  deriving DecidableEq

def noTermStyle : TermStyle := ⟨none, none, none, none, none, none, none, none⟩

/-- The fields of `later` win. -/
def TermStyle.assign (style later : TermStyle) : TermStyle where
  fg := later.fg.or style.fg
  bg := later.bg.or style.bg
  ul := later.ul.or style.ul
  bold := later.bold.or style.bold
  dim := later.dim.or style.dim
  italic := later.italic.or style.italic
  reverse := later.reverse.or style.reverse
  underline := later.underline.or style.underline

abbrev Groups := List (String × StylePatch)

/-! ## The default theme -/

def ink (name : PaletteColor) : Option Color := some (.named name)

def defaultGroups : List (String × Style) :=
  [("chat.user", { noStyle with fg := ink .surfaceFg, bg := ink .surface }),
    ("chat.meta", { noStyle with dim := some true }),
    ("chat.title", { noStyle with bold := some true }),
    ("chat.subject", { noStyle with fg := ink .accent }),
    ("chat.thought", { noStyle with dim := some true, italic := some true }),
    ("chat.error", { noStyle with fg := ink .danger, bold := some true }),
    ("chat.hint", { noStyle with fg := ink .accent }),
    ("chat.rule", { noStyle with dim := some true }),
    ("chat.command", { noStyle with fg := ink .accent }),
    ("chat.tool.output", { noStyle with fg := ink .surfaceFg, dim := some true }),
    ("chat.tool.pending", { noStyle with bg := ink .pendingBg }),
    ("chat.tool.failed", { noStyle with bg := ink .errorBg }),
    ("chat.diff.header", { noStyle with bold := some true }),
    ("chat.diff.gutter", { noStyle with fg := ink .surfaceFg, dim := some true }),
    ("chat.diff.add", { noStyle with fg := ink .strongFg, bg := ink .diffAddBg }),
    ("chat.diff.delete", { noStyle with fg := ink .danger, bg := ink .diffDelBg }),
    ("chat.diff.context", { noStyle with fg := ink .surfaceFg, dim := some true }),
    ("markdown.strong", { noStyle with bold := some true }),
    ("markdown.emphasis", { noStyle with italic := some true }),
    ("markdown.strongEmphasis", { noStyle with bold := some true, italic := some true }),
    ("markdown.code", { noStyle with dim := some true }),
    ("markdown.heading", { noStyle with bold := some true }),
    ("markdown.quote", { noStyle with dim := some true }),
    ("markdown.codeBlock", { noStyle with dim := some true }),
    ("markdown.rule", { noStyle with dim := some true }),
    ("markdown.listMark", { noStyle with dim := some true }),
    ("markdown.tableBorder", { noStyle with dim := some true }),
    ("markdown.linkText", { noStyle with underline := some true }),
    ("markdown.link", { noStyle with dim := some true }),
    ("editor.selection", { noStyle with reverse := some true }),
    ("editor.label", { noStyle with fg := ink .accent }),
    ("editor.placeholder", { noStyle with dim := some true }),
    ("textView.selection", { noStyle with fg := ink .surfaceFg, bg := ink .accentMuted }),
    ("picker.match", { noStyle with fg := ink .accent, bold := some true }),
    ("picker.detail", { noStyle with dim := some true }),
    ("picker.selected", { noStyle with fg := ink .surfaceFg, bg := ink .accentMuted }),
    ("dialog.title", { noStyle with dim := some true }),
    ("dialog.keys", { noStyle with dim := some true }),
    ("panes.divider", { noStyle with dim := some true }),
    ("bar", { noStyle with dim := some true }),
    ("toast.body", { noStyle with fg := ink .surfaceFg, bg := ink .surface }),
    ("toast.title", { noStyle with bold := some true }),
    ("toast.info", { noStyle with inherits := some "toast.body", fg := ink .accent }),
    ("toast.warn", { noStyle with inherits := some "toast.body", fg := ink .warn }),
    ("toast.error", { noStyle with inherits := some "toast.body", fg := ink .danger }),
    ("plugins.title", { noStyle with bold := some true }),
    ("plugins.detail", { noStyle with dim := some true })]

def darkPalette : Palette
  | .fg => .reset
  | .bg => .reset
  | .surfaceFg => rgb "E6EDF3"
  | .strongFg => rgb "F6F8FA"
  | .accent => rgb "A8CFA0"
  | .accentMuted => rgb "355C4A"
  | .surface => rgb "343A46"
  | .warn => rgb "E3B341"
  | .danger => rgb "FF7B72"
  | .pendingBg => rgb "3B3520"
  | .errorBg => rgb "4A2323"
  | .diffAddBg => rgb "20372A"
  | .diffDelBg => rgb "3A2426"

def darkPalette256 : Palette
  | .fg => .reset
  | .bg => .reset
  | .surfaceFg => indexOf256 255
  | .strongFg => indexOf256 231
  | .accent => indexOf256 151
  | .accentMuted => indexOf256 23
  | .surface => indexOf256 237
  | .warn => indexOf256 179
  | .danger => indexOf256 209
  | .pendingBg => indexOf256 58
  | .errorBg => indexOf256 52
  | .diffAddBg => indexOf256 22
  | .diffDelBg => indexOf256 52

def lightPalette : Palette
  | .fg => .reset
  | .bg => .reset
  | .surfaceFg => rgb "1F2328"
  | .strongFg => rgb "0D1117"
  | .accent => rgb "2D6A4F"
  | .accentMuted => rgb "B7D7B0"
  | .surface => rgb "E8EAED"
  | .warn => rgb "9A6700"
  | .danger => rgb "CF222E"
  | .pendingBg => rgb "FFF8C5"
  | .errorBg => rgb "FFEBE9"
  | .diffAddBg => rgb "E6F4EA"
  | .diffDelBg => rgb "FFEBE9"

def lightPalette256 : Palette
  | .fg => .reset
  | .bg => .reset
  | .surfaceFg => indexOf256 235
  | .strongFg => indexOf256 233
  | .accent => indexOf256 29
  | .accentMuted => indexOf256 151
  | .surface => indexOf256 255
  | .warn => indexOf256 94
  | .danger => indexOf256 124
  | .pendingBg => indexOf256 230
  | .errorBg => indexOf256 224
  | .diffAddBg => indexOf256 194
  | .diffDelBg => indexOf256 224

inductive BasePalette where
  | palette (background : Background)
  | palette256 (background : Background)
  deriving DecidableEq

def BasePalette.background : BasePalette → Background
  | .palette background | .palette256 background => background

def BasePalette.truecolor : BasePalette → Bool
  | .palette _ => true
  | .palette256 _ => false

def BasePalette.colors : BasePalette → Palette
  | .palette .dark => darkPalette
  | .palette .light => lightPalette
  | .palette256 .dark => darkPalette256
  | .palette256 .light => lightPalette256

structure ThemeLook where
  palette : PaletteColor → Option TermColor
  palette256 : PaletteColor → Option TermColor
  groups : Groups

structure Theme where
  inherits : Option String
  dark : Option ThemeLook
  light : Option ThemeLook

/-- A theme under its name. `id` is the identity of the object. -/
structure NamedTheme where
  id : ℕ
  name : String
  theme : Theme

structure Layer where
  id : ℕ
  groups : Groups

/-- The default theme and the active theme for the color depth and the background now. -/
structure Look where
  palette : Palette
  base : Groups
  groups : Groups

def Theme.lookFor (theme : Theme) : Background → Option ThemeLook
  | .dark => theme.dark.or theme.light
  | .light => theme.light.or theme.dark

def findTheme (themes : List NamedTheme) (name : String) : Option NamedTheme :=
  (themes.filter fun entry => entry.name = name).getLast?

theorem findTheme_some {themes : List NamedTheme} {name : String} {entry : NamedTheme}
    (h : findTheme themes name = some entry) : entry ∈ themes ∧ entry.name = name := by
  have hmem := List.mem_of_getLast? h
  rw [List.mem_filter, decide_eq_true_eq] at hmem
  exact hmem

/-- How many of `names` a walk has not met. -/
def unmet (names seen : List String) : ℕ := (names.toFinset \ seen.toFinset).card

theorem unmet_lt {names seen : List String} {name : String} (hmem : name ∈ names)
    (hnew : name ∉ seen) : unmet names (name :: seen) < unmet names seen := by
  have hbefore : name ∈ names.toFinset \ seen.toFinset := by
    rw [Finset.mem_sdiff, List.mem_toFinset, List.mem_toFinset]
    exact ⟨hmem, hnew⟩
  have hafter : name ∉ names.toFinset \ (name :: seen).toFinset := by
    rw [Finset.mem_sdiff, List.mem_toFinset, List.mem_toFinset]
    intro h
    exact h.2 List.mem_cons_self
  have hsub : names.toFinset \ (name :: seen).toFinset ⊆ names.toFinset \ seen.toFinset := by
    rw [List.toFinset_cons]
    exact Finset.sdiff_subset_sdiff (Finset.Subset.refl _) (Finset.subset_insert _ _)
  apply Finset.card_lt_card
  exact (Finset.ssubset_iff_of_subset hsub).mpr ⟨name, hbefore, hafter⟩

/-- The theme `name` after the themes that it inherits. A cycle stops at the first repeated name. -/
def chainFrom (themes : List NamedTheme) (seen : List String) (name : String) : List NamedTheme :=
  if _hseen : name ∈ seen then []
  else
    match _hentry : findTheme themes name with
    | none => []
    | some entry =>
      match entry.theme.inherits with
      | none => [entry]
      | some next => chainFrom themes (name :: seen) next ++ [entry]
termination_by unmet (themes.map (·.name)) seen
decreasing_by
  obtain ⟨hmem, hname⟩ := findTheme_some _hentry
  exact unmet_lt (List.mem_map.mpr ⟨entry, hmem, hname⟩) _hseen

def Palette.assign (palette : Palette) (colors : PaletteColor → Option TermColor) : Palette :=
  fun name => (colors name).getD (palette name)

def Groups.get (groups : Groups) (name : String) : StylePatch := (groups.lookup name).getD noPatch

def Look.add (base : BasePalette) (look : Look) (entry : NamedTheme) : Look :=
  match entry.theme.lookFor base.background with
  | none => look
  | some own =>
    { look with
      palette :=
        if base.truecolor then look.palette.assign own.palette
        else (look.palette.assign own.palette).assign own.palette256
      groups := own.groups.foldl
        (fun groups (name, patch) => (name, (Groups.get groups name).spread patch) :: groups)
        look.groups }

def lookOf (chain : List NamedTheme) (base : BasePalette) : Look :=
  chain.foldl (Look.add base)
    ⟨base.colors, defaultGroups.map fun (name, style) => (name, style.asPatch), []⟩

structure StyleSource where
  look : Look
  layers : List Groups
  truecolor : Bool

namespace StyleSource

variable (source : StyleSource)

def all : List Groups := [source.look.base] ++ source.layers ++ [source.look.groups]

def fields (name : String) : Style :=
  source.all.foldl (fun fields layer => fields.change (layer.get name)) noStyle

def names : List String := source.all.flatMap fun layer => layer.map Prod.fst

theorem get_of_not_mem {layer : Groups} {name : String} (h : name ∉ layer.map Prod.fst) :
    layer.get name = noPatch := by
  rw [Groups.get, List.lookup_eq_none_iff.mpr]
  · rfl
  · intro entry hentry
    rw [bne_iff_ne]
    intro heq
    exact h (heq ▸ List.mem_map_of_mem hentry)

theorem change_noPatch (fields : Style) : fields.change noPatch = fields := rfl

theorem fields_of_not_mem {name : String} (h : name ∉ source.names) :
    source.fields name = noStyle := by
  unfold fields
  unfold names at h
  generalize source.all = layers at h
  induction layers with
  | nil => rfl
  | cons layer layers ih =>
    rw [List.flatMap_cons, List.mem_append, not_or] at h
    rw [List.foldl_cons, get_of_not_mem h.1, change_noPatch]
    exact ih h.2

def shown (color : TermColor) : TermColor := if source.truecolor then color else indexed color

def color : Color → TermColor
  | .term color => source.shown color
  | .named name => source.shown (source.look.palette name)

/-- The own fields of `style` over the ones of its inherited group. -/
def cell (style : Style) (inherited : TermStyle) : TermStyle :=
  inherited.assign
    { fg := style.fg.map source.color
      bg := style.bg.map source.color
      ul := style.underlineColor.map source.color
      bold := style.bold
      dim := style.dim
      italic := style.italic
      reverse := style.reverse
      underline := style.underline }

/-- The cell style of a group. A link cycle stops at the first repeated group. -/
def named (seen : List String) (name : String) : TermStyle :=
  if _hseen : name ∈ seen then noTermStyle
  else
    match _hparent : (source.fields name).inherits with
    | none => source.cell (source.fields name) noTermStyle
    | some parent => source.cell (source.fields name) (named (name :: seen) parent)
termination_by unmet source.names seen
decreasing_by
  apply unmet_lt _ _hseen
  by_contra hmem
  rw [source.fields_of_not_mem hmem] at _hparent
  cases _hparent

def styled (seen : List String) (style : Style) : TermStyle :=
  source.cell style
    (match style.inherits with
    | none => noTermStyle
    | some parent => source.named seen parent)

/-- The palette colors of the text and of the ground for the fields that `merged` leaves out. -/
def filled (merged : TermStyle) : TermStyle :=
  let fg := if merged.fg.isNone then source.look.palette .fg else .reset
  let bg := if merged.bg.isNone then source.look.palette .bg else .reset
  if fg = .reset ∧ bg = .reset then merged
  else
    { merged with
      fg := if fg = .reset then merged.fg else some (source.shown fg)
      bg := if bg = .reset then merged.bg else some (source.shown bg) }

end StyleSource

/-! ## The object -/

structure Terminal where
  truecolor : Bool
  background : Background
  deriving DecidableEq

def Terminal.base (terminal : Terminal) : BasePalette :=
  if terminal.truecolor then .palette terminal.background else .palette256 terminal.background

/-- The `Styles` object and its terminal. `created` counts the themes and layers made so far, and
`frames` and `told` count the calls of `changed` and `themeChanged`. -/
structure Styles where
  terminal : Terminal
  themes : List NamedTheme
  active : String
  layers : List Layer
  cache : List (String × TermStyle)
  look : Option Look
  base : Option BasePalette
  created : ℕ
  frames : ℕ
  told : ℕ

def defaultTheme : String := "default"

inductive Item where
  | group (name : String)
  | style (style : Style)

inductive CanvasStyle where
  | undefined
  | item (item : Item)
  | items (items : List Item)

namespace Styles

def new (terminal : Terminal) : Styles where
  terminal := terminal
  themes := []
  active := defaultTheme
  layers := []
  cache := []
  look := none
  base := none
  created := 0
  frames := 0
  told := 0

variable (s : Styles)

def chain : List NamedTheme := chainFrom s.themes [] s.active

def includes (id : ℕ) : Bool := s.chain.any fun entry => entry.id = id

/-- The two calls come last, so what they read is the new state. -/
def lookChanged : Styles :=
  { s with look := none, cache := [], frames := s.frames + 1, told := s.told + 1 }

def setTheme (name : String) : Styles :=
  if name = s.active then s else { s with active := name }.lookChanged

def addTheme (name : String) (theme : Theme) : Except String (ℕ × Styles) :=
  if name = defaultTheme then
    .error ("the theme name " ++ defaultTheme ++ " is reserved: choose another name")
  else
    let t : Styles :=
      { s with themes := s.themes ++ [⟨s.created, name, theme⟩], created := s.created + 1 }
    .ok (s.created, if t.includes s.created then t.lookChanged else t)

def removeTheme (id : ℕ) : Styles :=
  if s.themes.any fun entry => entry.id = id then
    let t := { s with themes := s.themes.eraseP fun entry => entry.id = id }
    if s.includes id then t.lookChanged else t
  else s

def layersChanged (layers : List Layer) : Styles :=
  { s with layers := layers, cache := [], frames := s.frames + 1 }

def set (groups : Groups) : ℕ × Styles :=
  let t := s.layersChanged (s.layers ++ [⟨s.created, groups⟩])
  (s.created, { t with created := s.created + 1 })

def unset (id : ℕ) : Styles :=
  if s.layers.any fun layer => layer.id = id then
    s.layersChanged (s.layers.eraseP fun layer => layer.id = id)
  else s

def rebuilt : Look × Styles :=
  let look := lookOf s.chain s.terminal.base
  (look, { s with base := some s.terminal.base, look := some look, cache := [] })

def lookNow : Look × Styles :=
  match s.look with
  | some look => if s.terminal.base = s.base then (look, s) else s.rebuilt
  | none => s.rebuilt

def sourceOf (look : Look) : StyleSource where
  look := look
  layers := s.layers.map (·.groups)
  truecolor := s.terminal.truecolor

def resolve (item : Item) : TermStyle × Styles :=
  let (look, t) := s.lookNow
  match item with
  | .style style => ((t.sourceOf look).styled [] style, t)
  | .group name =>
    match t.cache.lookup name with
    | some style => (style, t)
    | none =>
      let style := (t.sourceOf look).named [] name
      (style, { t with cache := (name, style) :: t.cache })

def merged : CanvasStyle → TermStyle × Styles
  | .undefined => (noTermStyle, s)
  | .item item => s.resolve item
  | .items items =>
    items.foldl
      (fun (style, t) item => (style.assign (t.resolve item).1, (t.resolve item).2))
      (noTermStyle, s)

def cell (style : CanvasStyle) : TermStyle × Styles :=
  let (merged, t) := s.merged style
  if merged.fg.isSome && merged.bg.isSome then (merged, t)
  else
    let (look, t) := t.lookNow
    ((t.sourceOf look).filled merged, t)

end Styles

/-- What happens to the object. A remover and a disposer can run at any time, also again. -/
inductive StylesOp where
  | setTheme (name : String)
  | addTheme (name : String) (theme : Theme)
  | removeTheme (id : ℕ)
  | set (groups : Groups)
  | unset (id : ℕ)
  | terminal (terminal : Terminal)
  | resolve (item : Item)
  | cell (style : CanvasStyle)

def Styles.step (s : Styles) : StylesOp → Styles
  | .setTheme name => s.setTheme name
  | .addTheme name theme =>
    match s.addTheme name theme with
    | .ok (_, t) => t
    | .error _ => s
  | .removeTheme id => s.removeTheme id
  | .set groups => (s.set groups).2
  | .unset id => s.unset id
  | .terminal terminal => { s with terminal := terminal }
  | .resolve item => (s.resolve item).2
  | .cell style => (s.cell style).2

end Yuke.Tui
