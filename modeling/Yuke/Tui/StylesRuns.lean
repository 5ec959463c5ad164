import Yuke.Tui.Styles

/-!
# Kept styles are fresh ones

The kept look belongs to the active theme, and each kept style to the kept look. So a resolve gives
what it gives without them, and a change of the look is told.
-/

set_option autoImplicit false

namespace Yuke.Tui

section Chain

variable {themes : List NamedTheme} {seen : List String} {name : String}

theorem chainFrom_seen (h : name ∈ seen) : chainFrom themes seen name = [] := by
  rw [chainFrom, dif_pos h]

theorem chainFrom_none (hnew : name ∉ seen) (hentry : findTheme themes name = none) :
    chainFrom themes seen name = [] := by
  rw [chainFrom, dif_neg hnew]
  split
  · rfl
  · next hfound =>
    rw [hentry] at hfound
    cases hfound

theorem chainFrom_some {entry : NamedTheme} (hnew : name ∉ seen)
    (hentry : findTheme themes name = some entry) :
    chainFrom themes seen name =
      (match entry.theme.inherits with
      | none => []
      | some next => chainFrom themes (name :: seen) next) ++ [entry] := by
  rw [chainFrom, dif_neg hnew]
  split
  · next hfound =>
    rw [hentry] at hfound
    cases hfound
  · next hfound =>
    rw [hentry] at hfound
    cases hfound
    cases entry.theme.inherits <;> rfl

end Chain

theorem chainFrom_congr {themes themes' : List NamedTheme} {id : ℕ}
    (hdiff : ∀ name, findTheme themes' name = findTheme themes name ∨
      ∃ entry, findTheme themes name = some entry ∧ entry.id = id)
    (seen : List String) (name : String)
    (hnot : ∀ entry ∈ chainFrom themes seen name, entry.id ≠ id) :
    chainFrom themes' seen name = chainFrom themes seen name := by
  induction seen, name using chainFrom.induct themes with
  | case1 seen name hseen => rw [chainFrom_seen hseen, chainFrom_seen hseen]
  | case2 seen name hseen hentry =>
    rcases hdiff name with hsame | ⟨entry, hfound, _⟩
    · rw [hentry] at hsame
      rw [chainFrom_none hseen hentry, chainFrom_none hseen hsame]
    · rw [hentry] at hfound
      cases hfound
  | case3 seen name hseen entry hentry hinherits =>
    rw [chainFrom_some hseen hentry, hinherits] at hnot ⊢
    rcases hdiff name with hsame | ⟨other, hfound, hid⟩
    · rw [hentry] at hsame
      rw [chainFrom_some hseen hsame, hinherits]
    · rw [hentry] at hfound
      cases hfound
      exact absurd hid (hnot entry (List.mem_append_right _ List.mem_cons_self))
  | case4 seen name hseen entry hentry next hinherits ih =>
    rw [chainFrom_some hseen hentry, hinherits] at hnot ⊢
    rcases hdiff name with hsame | ⟨other, hfound, hid⟩
    · rw [hentry] at hsame
      rw [chainFrom_some hseen hsame, hinherits]
      have hrest := ih fun entry hmem => hnot entry (List.mem_append_left _ hmem)
      change chainFrom themes' _ _ ++ _ = chainFrom themes _ _ ++ _
      rw [hrest]
    · rw [hentry] at hfound
      cases hfound
      exact absurd hid (hnot entry (List.mem_append_right _ List.mem_cons_self))

theorem findTheme_append (themes : List NamedTheme) (entry : NamedTheme) (name : String) :
    findTheme themes name = findTheme (themes ++ [entry]) name ∨
      findTheme (themes ++ [entry]) name = some entry := by
  unfold findTheme
  rw [List.filter_append]
  by_cases hname : entry.name = name
  · right
    rw [List.filter_singleton, decide_eq_true hname]
    exact List.getLast?_concat
  · left
    rw [List.filter_singleton, decide_eq_false hname]
    exact congrArg _ (List.append_nil _).symm

theorem findTheme_eraseP (themes : List NamedTheme) (id : ℕ) (name : String) :
    findTheme (themes.eraseP fun entry => entry.id = id) name = findTheme themes name ∨
      ∃ entry, findTheme themes name = some entry ∧ entry.id = id := by
  rcases List.exists_or_eq_self_of_eraseP (fun entry : NamedTheme => decide (entry.id = id)) themes
    with hsame | ⟨entry, before, after, _, hid, rfl, hrest⟩
  · left
    rw [hsame]
  · rw [hrest, findTheme, findTheme, List.filter_append, List.filter_append, List.filter_cons]
    -- The last of the newer themes of the name stays the last one. Without one it was `entry`.
    split
    · rcases hlast : after.filter fun entry => entry.name = name with _ | ⟨next, rest⟩
      · right
        rw [hlast]
        exact ⟨entry, List.getLast?_concat, of_decide_eq_true hid⟩
      · left
        rw [hlast, List.getLast?_append, List.getLast?_append, List.getLast?_cons_cons]
    · exact .inl rfl

def StyleSource.item (source : StyleSource) : Item → TermStyle
  | .style style => source.styled [] style
  | .group name => source.named [] name

def StyleSource.merged (source : StyleSource) : CanvasStyle → TermStyle
  | .undefined => noTermStyle
  | .item item => source.item item
  | .items items => items.foldl (fun style item => style.assign (source.item item)) noTermStyle

def StyleSource.drawn (source : StyleSource) (style : CanvasStyle) : TermStyle :=
  if (source.merged style).fg.isSome && (source.merged style).bg.isSome then source.merged style
  else source.filled (source.merged style)

theorem Terminal.truecolor_base (terminal : Terminal) :
    terminal.base.truecolor = terminal.truecolor := by
  unfold Terminal.base
  cases terminal.truecolor <;> rfl

namespace Styles

variable {s t : Styles}

def fresh (s : Styles) : Styles :=
  { new s.terminal with themes := s.themes, active := s.active, layers := s.layers }

def source (s : Styles) : StyleSource := s.sourceOf (lookOf s.chain s.terminal.base)

theorem source_fresh (s : Styles) : s.fresh.source = s.source := rfl

theorem sourceOf_eq (h : t.fresh = s.fresh) (look : Look) : t.sourceOf look = s.sourceOf look := by
  change t.fresh.sourceOf look = s.fresh.sourceOf look
  rw [h]

theorem source_eq (h : t.fresh = s.fresh) : t.source = s.source := by
  change t.fresh.source = s.fresh.source
  rw [h]

theorem chain_eq (h : t.fresh = s.fresh) : t.chain = s.chain := by
  change t.fresh.chain = s.fresh.chain
  rw [h]

/-- The kept styles are the ones of the kept look, and the kept look is the one of its palette. -/
structure Coherent (s : Styles) : Prop where
  looked : ∀ look, s.look = some look →
    ∃ base, s.base = some base ∧ look = lookOf s.chain base
  cached : ∀ name style, s.cache.lookup name = some style →
    ∃ base, s.base = some base ∧ s.look = some (lookOf s.chain base) ∧
      style =
        StyleSource.named ⟨lookOf s.chain base, s.layers.map (·.groups), base.truecolor⟩ [] name

structure Current (s : Styles) : Prop where
  coherent : s.Coherent
  look : s.look = some (lookOf s.chain s.terminal.base)
  base : s.base = some s.terminal.base

theorem coherent_of_nil (hcache : s.cache = [])
    (hlook : ∀ look, s.look = some look →
      ∃ base, s.base = some base ∧ look = lookOf s.chain base) : s.Coherent := by
  constructor
  · exact hlook
  · intro name style hmem
    rw [hcache] at hmem
    cases hmem

theorem coherent_new (terminal : Terminal) : (new terminal).Coherent := by
  apply coherent_of_nil rfl
  intro look hlook
  cases hlook

theorem coherent_fresh (s : Styles) : s.fresh.Coherent := by
  apply coherent_of_nil rfl
  intro look hlook
  cases hlook

theorem current_rebuilt (s : Styles) : s.rebuilt.2.Current := by
  constructor
  · apply coherent_of_nil rfl
    intro look hlook
    cases hlook
    exact ⟨s.terminal.base, rfl, rfl⟩
  · rfl
  · rfl

theorem lookNow_spec (h : s.Coherent) :
    s.lookNow.1 = lookOf s.chain s.terminal.base ∧ s.lookNow.2.fresh = s.fresh ∧
      s.lookNow.2.Current := by
  unfold lookNow
  rcases hkept : s.look with _ | look
  · exact ⟨rfl, rfl, current_rebuilt s⟩
  · obtain ⟨base, hbase, rfl⟩ := h.looked look hkept
    dsimp only
    split
    · next hsame =>
      rw [hbase, Option.some.injEq] at hsame
      subst hsame
      exact ⟨rfl, rfl, h, hkept, hbase⟩
    · exact ⟨rfl, rfl, current_rebuilt s⟩

theorem Current.named (h : s.Current) {name : String} {style : TermStyle}
    (hkept : s.cache.lookup name = some style) : style = s.source.named [] name := by
  obtain ⟨base, hbase, _, rfl⟩ := h.coherent.cached name style hkept
  rw [h.base, Option.some.injEq] at hbase
  subst hbase
  rw [Terminal.truecolor_base]
  rfl

theorem Current.keep (h : s.Current) (name : String) :
    { s with cache := (name, s.source.named [] name) :: s.cache }.Coherent := by
  constructor
  · exact h.coherent.looked
  · intro other style hkept
    rw [List.lookup_cons] at hkept
    split at hkept
    · next heq =>
      cases hkept
      refine ⟨s.terminal.base, h.base, h.look, ?_⟩
      rw [eq_of_beq heq, Terminal.truecolor_base]
      rfl
    · exact h.coherent.cached other style hkept

theorem resolve_spec (h : s.Coherent) (item : Item) :
    (s.resolve item).1 = s.source.item item ∧ (s.resolve item).2.fresh = s.fresh ∧
      (s.resolve item).2.Coherent := by
  obtain ⟨hlook, hfresh, hcurrent⟩ := lookNow_spec h
  have hsource : s.lookNow.2.sourceOf s.lookNow.1 = s.source := by
    rw [hlook, sourceOf_eq hfresh]
    rfl
  unfold resolve
  cases item with
  | style style =>
    refine ⟨?_, hfresh, hcurrent.coherent⟩
    exact congrArg (fun source : StyleSource => source.styled [] style) hsource
  | group name =>
    rcases hkept : s.lookNow.2.cache.lookup name with _ | style
    · refine ⟨?_, ?_, ?_⟩
      · simp only [hkept, hsource]
        rfl
      · simp only [hkept]
        exact hfresh
      · simp only [hkept, hsource]
        rw [← source_eq hfresh]
        exact hcurrent.keep name
    · simp only [hkept]
      refine ⟨?_, hfresh, hcurrent.coherent⟩
      rw [hcurrent.named hkept, source_eq hfresh]
      rfl

theorem merged_items_spec (items : List Item) (style : TermStyle) (h : s.Coherent) :
    let after := items.foldl
      (fun (style, t) item => (style.assign (resolve t item).1, (resolve t item).2)) (style, s)
    after.1 = items.foldl (fun style item => style.assign (s.source.item item)) style ∧
      after.2.fresh = s.fresh ∧ after.2.Coherent := by
  induction items generalizing style s with
  | nil => exact ⟨rfl, rfl, h⟩
  | cons item items ih =>
    obtain ⟨hstyle, hfresh, hafter⟩ := resolve_spec h item
    have hrest := ih (style.assign (s.resolve item).1) hafter
    rw [source_eq hfresh, hfresh] at hrest
    rw [List.foldl_cons, List.foldl_cons, ← hstyle]
    exact hrest

theorem merged_spec (h : s.Coherent) (style : CanvasStyle) :
    (s.merged style).1 = s.source.merged style ∧ (s.merged style).2.fresh = s.fresh ∧
      (s.merged style).2.Coherent := by
  cases style with
  | undefined => exact ⟨rfl, rfl, h⟩
  | item item => exact resolve_spec h item
  | items items => exact merged_items_spec items noTermStyle h

theorem cell_spec (h : s.Coherent) (style : CanvasStyle) :
    (s.cell style).1 = s.source.drawn style ∧ (s.cell style).2.fresh = s.fresh ∧
      (s.cell style).2.Coherent := by
  obtain ⟨hmerged, hfresh, hafter⟩ := merged_spec h style
  obtain ⟨hlook, hfresh', hcurrent⟩ := lookNow_spec hafter
  unfold cell StyleSource.drawn
  rw [← hmerged]
  dsimp only
  split
  · exact ⟨rfl, hfresh, hafter⟩
  · refine ⟨?_, hfresh'.trans hfresh, hcurrent.coherent⟩
    have hsource : (s.merged style).2.source = s.source := source_eq hfresh
    rw [hlook, sourceOf_eq hfresh', ← hsource]
    rfl

theorem ne_of_not_includes {id : ℕ} (hnot : s.includes id = false) :
    ∀ entry ∈ s.chain, entry.id ≠ id := by
  intro entry hentry hid
  rw [includes, List.any_eq_false] at hnot
  exact hnot entry hentry (decide_eq_true hid)

theorem Coherent.of_chain (h : s.Coherent) (hchain : t.chain = s.chain)
    (hlayers : t.layers = s.layers) (hcache : t.cache = s.cache) (hlook : t.look = s.look)
    (hbase : t.base = s.base) : t.Coherent := by
  constructor
  · rw [hlook, hbase, hchain]
    exact h.looked
  · rw [hcache, hlook, hbase, hchain, hlayers]
    exact h.cached

theorem coherent_lookChanged (s : Styles) : s.lookChanged.Coherent := by
  apply coherent_of_nil rfl
  intro look hlook
  cases hlook

theorem coherent_layersChanged (h : s.Coherent) (layers : List Layer) :
    (s.layersChanged layers).Coherent := coherent_of_nil rfl h.looked

structure Told (s t : Styles) : Prop where
  coherent : s.Coherent → t.Coherent
  told : t.chain = s.chain ∨ t.told = s.told + 1

theorem told_lookChanged (h : t.told = s.told) : s.Told t.lookChanged := by
  constructor
  · intro _
    exact coherent_lookChanged t
  · right
    change t.told + 1 = s.told + 1
    rw [h]

theorem told_of_chain (hchain : t.chain = s.chain) (hcoherent : s.Coherent → t.Coherent) :
    s.Told t := ⟨hcoherent, .inl hchain⟩

theorem told_setTheme (s : Styles) (name : String) : s.Told (s.setTheme name) := by
  unfold setTheme
  split
  · exact told_of_chain rfl id
  · exact told_lookChanged rfl

theorem told_addTheme {name : String} {theme : Theme} {id : ℕ}
    (h : s.addTheme name theme = .ok (id, t)) : s.Told t := by
  unfold addTheme at h
  split at h
  · cases h
  · cases h
    split
    · exact told_lookChanged rfl
    · next hnot =>
      rw [Bool.not_eq_true] at hnot
      have hchain := chainFrom_congr
        (fun other => (findTheme_append s.themes ⟨s.created, name, theme⟩ other).imp_right
          fun hfound => ⟨_, hfound, rfl⟩) [] s.active (ne_of_not_includes hnot)
      apply told_of_chain
      · exact hchain.symm
      · intro hcoherent
        exact hcoherent.of_chain hchain.symm rfl rfl rfl rfl

theorem told_removeTheme (s : Styles) (id : ℕ) : s.Told (s.removeTheme id) := by
  unfold removeTheme
  dsimp only
  split
  · split
    · exact told_lookChanged rfl
    · next hnot =>
      rw [Bool.not_eq_true] at hnot
      have hchain := chainFrom_congr (findTheme_eraseP s.themes id) [] s.active
        (ne_of_not_includes hnot)
      apply told_of_chain
      · exact hchain
      · intro hcoherent
        exact hcoherent.of_chain hchain rfl rfl rfl rfl
  · exact told_of_chain rfl fun hcoherent => hcoherent

theorem told_step (h : s.Coherent) (op : StylesOp) : s.Told (s.step op) := by
  cases op with
  | setTheme name => exact told_setTheme s name
  | addTheme name theme =>
    unfold step
    dsimp only
    split
    · next hadd => exact told_addTheme hadd
    · exact told_of_chain rfl id
  | removeTheme id => exact told_removeTheme s id
  | set groups =>
    apply told_of_chain
    · rfl
    · intro hcoherent
      exact (coherent_layersChanged hcoherent _).of_chain rfl rfl rfl rfl rfl
  | unset id =>
    unfold step unset
    dsimp only
    split
    · apply told_of_chain
      · rfl
      · intro hcoherent
        exact coherent_layersChanged hcoherent _
    · exact told_of_chain rfl fun hcoherent => hcoherent
  | terminal terminal =>
    apply told_of_chain
    · rfl
    · intro hcoherent
      exact hcoherent.of_chain rfl rfl rfl rfl rfl
  | resolve item =>
    obtain ⟨_, hfresh, hafter⟩ := resolve_spec h item
    exact told_of_chain (chain_eq hfresh) fun _ => hafter
  | cell style =>
    obtain ⟨_, hfresh, hafter⟩ := cell_spec h style
    exact told_of_chain (chain_eq hfresh) fun _ => hafter

theorem coherent_run (terminal : Terminal) (ops : List StylesOp) :
    (ops.foldl step (new terminal)).Coherent := by
  induction ops using List.reverseRecOn with
  | nil => exact coherent_new terminal
  | append_singleton ops op ih =>
    rw [List.foldl_concat]
    exact (told_step ih op).coherent ih

/-- After each run a resolve and a cell give what a new object gives, and an operation after which
the themes give another look is told. -/
theorem styles_fresh (terminal : Terminal) (ops : List StylesOp) :
    let s := ops.foldl step (new terminal)
    (∀ item, (s.resolve item).1 = (s.fresh.resolve item).1) ∧
      (∀ style, (s.cell style).1 = (s.fresh.cell style).1) ∧
      ∀ op base, lookOf (s.step op).chain base ≠ lookOf s.chain base →
        (s.step op).told = s.told + 1 := by
  intro s
  have hs : s.Coherent := coherent_run terminal ops
  refine ⟨?_, ?_, ?_⟩
  · intro item
    rw [(resolve_spec hs item).1, (resolve_spec (coherent_fresh s) item).1, source_fresh]
  · intro style
    rw [(cell_spec hs style).1, (cell_spec (coherent_fresh s) style).1, source_fresh]
  · intro op base hchange
    rcases (told_step hs op).told with hchain | htold
    · exact absurd (by rw [hchain]) hchange
    · exact htold

end Styles

end Yuke.Tui
