import Yuke.Tui.ScrollCaches

/-!
# What a scroll list shows

The abstract list has no caches: its rows are those of a render at its width. A list whose caches
are sound shows the same rows and goes through the same states.
-/

set_option autoImplicit false
set_option linter.unusedSectionVars false

namespace Yuke.Tui

open Yuke.Shared

variable {Item Key Row : Type} [DecidableEq Item] [DecidableEq Key]

namespace Shown

variable (o : ScrollOptions Item Key Row) (time : Nat) (shown : Shown Item Key)

def rows (entry : Entry Item Key) : List Row :=
  if entry.height = 0 then [] else (o.render time entry.item shown.size.width).getD []

def keyed : List (Item × Key) := shown.entries.map fun entry => (entry.item, entry.key)

def relaid (keyed : List (Item × Key)) (size : Size) : Option (Shown Item Key) :=
  (measured o time size.width keyed).map fun entries => shown.placed entries size

def setItems (items : List Item) : Outcome × Shown Item Key :=
  if ¬ (items.map o.key).Nodup then (.threw, shown)
  else if shown.items = items then (.done, shown)
  else
    match shown.relaid o time (items.map fun item => (item, o.key item)) shown.size with
    | none => (.threw, shown)
    | some next => (.done, next.markBelow shown.items)

def layout (size : Size) : Outcome × Shown Item Key :=
  if size = shown.size then (.done, shown)
  else if size.width = shown.size.width then (.done, shown.resized size)
  else
    match shown.relaid o time shown.keyed size with
    | none => (.threw, shown)
    | some next => (.done, next)

/-- A call of the list without caches: a render that throws changes nothing. -/
def call : ScrollEvent Item Key → Outcome × Shown Item Key
  | .setItems items => shown.setItems o time items
  | .layout size => shown.layout o time size
  | .scrollBy rows => (.done, shown.moveTo (shown.top + rows))
  | .scrollTo row => (.done, shown.moveTo row)
  | .followTail => (.done, shown.moveTo shown.last)
  | .scrollToItem key row => (.done, shown.scrollToItem key row)
  | .ensureVisible key row => (.done, shown.ensureVisible key row)
  | .rowAt _ | .rowsOf _ | .draw _ => (.done, shown)

def Unmixed : ScrollEvent Item Key → Prop
  | .layout size =>
    size.width ≠ shown.size.width → measured o time size.width shown.keyed = none →
      ∀ entry ∈ shown.entries, entry.item ∈ untilThrow o time size.width shown.keyed →
        entry.height = 0 ∨ o.render time entry.item size.width = some [] ∨
          o.render time entry.item size.width = o.render time entry.item shown.size.width
  | _ => True

structure Sound : Prop where
  key : ∀ entry ∈ shown.entries, entry.key = o.key entry.item
  nodup : (shown.entries.map Entry.key).Nodup
  before : shown.before = sums (shown.entries.map Entry.height)
  height : ∀ entry ∈ shown.entries,
    measure o time shown.size.width entry.item entry.key = some entry
  top : shown.top ≤ shown.last
  follow : shown.following = true → shown.top = shown.last

end Shown

variable {o : ScrollOptions Item Key Row} {time time' : Nat} {shown : Shown Item Key}
variable {entry : Entry Item Key} {entries : List (Entry Item Key)} {size : Size} {i : Nat}

namespace Shown

theorem Sound.rowsBefore (h : shown.Sound o time) (hi : i ≤ shown.entries.length) :
    shown.rowsBefore i = ((shown.entries.map Entry.height).take i).sum := by
  unfold Shown.rowsBefore
  rw [h.before, sums_getD (by simpa using hi)]

theorem Sound.total (h : shown.Sound o time) :
    shown.total = (shown.entries.map Entry.height).sum := by
  unfold Shown.total
  rw [h.before, sums_last, Option.getD_some]

theorem Sound.render (h : shown.Sound o time) (hentry : entry ∈ shown.entries)
    (hpos : 0 < entry.height) :
    ∃ rows, o.render time entry.item shown.size.width = some rows ∧ rows.length = entry.height := by
  have hmeasure := h.height entry hentry
  unfold measure at hmeasure
  split at hmeasure
  · rw [Option.some.injEq] at hmeasure
    rw [← hmeasure] at hpos
    exact absurd hpos (Nat.lt_irrefl 0)
  · obtain ⟨rows, hrows, heq⟩ := Option.map_eq_some_iff.mp hmeasure
    exact ⟨rows, hrows, congrArg Entry.height heq⟩

theorem Sound.rows_length (h : shown.Sound o time) (hentry : entry ∈ shown.entries) :
    (shown.rows o time entry).length = entry.height := by
  unfold Shown.rows
  split
  · rename_i hzero
    rw [hzero]
    rfl
  · obtain ⟨rows, hrows, hlength⟩ := h.render hentry (by omega)
    rw [hrows]
    exact hlength

theorem index_of_nodup (hnodup : (shown.entries.map Entry.key).Nodup)
    (hentry : shown.entries[i]? = some entry) : shown.index entry.key = some i :=
  findIdx_of_nodup hnodup hentry

/-! ## The calls keep what is shown sound -/

theorem anchored_le {anchor : Option (Anchor Key)} {order : List Key} :
    shown.anchored anchor order ≤ shown.last := by
  unfold Shown.anchored
  split
  · exact min_le_right _ _
  · exact min_le_right _ _

theorem placed_sound (hnodup : (entries.map Entry.key).Nodup)
    (hkey : ∀ entry ∈ entries, entry.key = o.key entry.item)
    (hheight : ∀ entry ∈ entries, measure o time size.width entry.item entry.key = some entry) :
    (shown.placed entries size).Sound o time where
  key := hkey
  nodup := hnodup
  before := rfl
  height := hheight
  top := by
    unfold placed
    simp only
    split
    · exact Nat.le_refl _
    · exact anchored_le
  follow := by
    intro hfollow
    unfold placed
    simp only
    rw [if_pos (show shown.following = true from hfollow)]
    rfl

theorem moveTo_sound (h : shown.Sound o time) (row : Int) : (shown.moveTo row).Sound o time := by
  unfold moveTo
  simp only
  split
  · exact h
  · refine ⟨h.key, h.nodup, h.before, h.height, ?_, fun hfollow => ?_⟩
    · show (max 0 (min row (shown.last : Int))).toNat ≤ shown.last
      omega
    · exact of_decide_eq_true hfollow

theorem scrollToItem_sound (h : shown.Sound o time) (key : Key) (row : Int) :
    (shown.scrollToItem key row).Sound o time := by
  unfold scrollToItem
  split
  · exact h
  · split
    · exact h
    · split
      · exact h
      · exact moveTo_sound h _

theorem ensureVisible_sound (h : shown.Sound o time) (key : Key) (row : Int) :
    (shown.ensureVisible key row).Sound o time := by
  unfold ensureVisible
  split
  · exact h
  · split
    · exact h
    · split
      · exact h
      · simp only
        split
        · exact moveTo_sound h _
        · split
          · exact moveTo_sound h _
          · exact h

theorem resized_sound (h : shown.Sound o time) (hwidth : size.width = shown.size.width) :
    (shown.resized size).Sound o time where
  key := h.key
  nodup := h.nodup
  before := h.before
  height := by
    intro entry hentry
    show measure o time size.width entry.item entry.key = some entry
    rw [hwidth]
    exact h.height entry hentry
  top := by
    unfold resized
    simp only
    split
    · exact Nat.le_refl _
    · exact min_le_right _ _
  follow := by
    intro hfollow
    unfold resized at hfollow ⊢
    simp only at hfollow ⊢
    rw [if_pos hfollow]
    rfl

theorem markBelow_sound (h : shown.Sound o time) (old : List Item) :
    (shown.markBelow old).Sound o time := by
  unfold markBelow
  split
  · exact ⟨h.key, h.nodup, h.before, h.height, h.top, h.follow⟩
  · exact h

def Alike (next shown : Shown Item Key) : Prop :=
  next.entries = shown.entries ∧ next.size = shown.size

theorem moveTo_alike (row : Int) : Alike (shown.moveTo row) shown := by
  simp only [moveTo]
  split <;> exact ⟨rfl, rfl⟩

theorem scrollToItem_alike (key : Key) (row : Int) : Alike (shown.scrollToItem key row) shown := by
  unfold scrollToItem
  split
  · exact ⟨rfl, rfl⟩
  · split
    · exact ⟨rfl, rfl⟩
    · split
      · exact ⟨rfl, rfl⟩
      · exact moveTo_alike _

theorem ensureVisible_alike (key : Key) (row : Int) : Alike (shown.ensureVisible key row) shown := by
  unfold ensureVisible
  split
  · exact ⟨rfl, rfl⟩
  · split
    · exact ⟨rfl, rfl⟩
    · split
      · exact ⟨rfl, rfl⟩
      · simp only
        split
        · exact moveTo_alike _
        · split
          · exact moveTo_alike _
          · exact ⟨rfl, rfl⟩

theorem markBelow_alike (old : List Item) : Alike (shown.markBelow old) shown := by
  unfold markBelow
  split <;> exact ⟨rfl, rfl⟩

theorem Sound.later (h : shown.Sound o time) (hle : time ≤ time') : shown.Sound o time' := by
  refine ⟨h.key, h.nodup, h.before, fun entry hentry => ?_, h.top, h.follow⟩
  have hheight := h.height entry hentry
  unfold measure at hheight ⊢
  split
  · rename_i hzero
    rwa [if_pos hzero] at hheight
  · rename_i hwidth
    rw [if_neg hwidth] at hheight
    obtain ⟨rows, hrows, heq⟩ := Option.map_eq_some_iff.mp hheight
    rw [o.again hle hrows]
    exact congrArg some heq

theorem relaid_sound {keyed : List (Item × Key)} {next : Shown Item Key}
    (hnodup : (keyed.map Prod.snd).Nodup) (hkey : ∀ pair ∈ keyed, pair.2 = o.key pair.1)
    (h : shown.relaid o time keyed size = some next) : next.Sound o time := by
  obtain ⟨entries, hentries, rfl⟩ := Option.map_eq_some_iff.mp h
  obtain ⟨hmap, hmeasure⟩ := measured_get hentries
  refine placed_sound ?_ (fun entry hentry => ?_) hmeasure
  · rw [← hmap, List.map_map] at hnodup
    exact hnodup
  · exact hkey (entry.item, entry.key) (hmap ▸ List.mem_map.mpr ⟨entry, hentry, rfl⟩)

theorem Sound.keyed_nodup (h : shown.Sound o time) : (shown.keyed.map Prod.snd).Nodup := by
  unfold Shown.keyed
  rw [List.map_map]
  exact h.nodup

theorem Sound.keyed_key (h : shown.Sound o time) : ∀ pair ∈ shown.keyed, pair.2 = o.key pair.1 := by
  intro pair hpair
  obtain ⟨entry, hentry, rfl⟩ := List.mem_map.mp hpair
  exact h.key entry hentry

end Shown

variable {list : ScrollList Item Key Row} {caches : Caches Item Key Row}

def Fresh (o : ScrollOptions Item Key Row) (time : Nat) (shown : Shown Item Key)
    (caches : Caches Item Key Row) : Prop :=
  ∀ entry ∈ shown.entries, 0 < entry.height →
    (∀ kept ∈ caches.rendered, kept.item = entry.item →
      o.render time entry.item shown.size.width = some kept.rows) ∧
    ∀ width height, caches.heights entry.item = some (width, height) → 0 < height →
      o.render time entry.item width = o.render time entry.item shown.size.width

structure ScrollList.Sound (o : ScrollOptions Item Key Row) (time : Nat)
    (list : ScrollList Item Key Row) : Prop where
  shown : list.shown.Sound o time
  caches : list.caches.Sound o time
  fresh : Fresh o time list.shown list.caches

theorem Fresh.fewer {fewer : Caches Item Key Row} (h : Fresh o time shown caches)
    (hfewer : Fewer fewer caches) : Fresh o time shown fewer := by
  intro entry hentry hpos
  obtain ⟨hkept, hheights⟩ := h entry hentry hpos
  refine ⟨fun kept hmem => hkept kept (hfewer.rendered kept hmem), ?_⟩
  rw [hfewer.heights]
  exact hheights

theorem Fresh.of_entries {next : Shown Item Key} (h : Fresh o time shown caches)
    (hentries : next.entries = shown.entries) (hwidth : next.size.width = shown.size.width) :
    Fresh o time next caches := by
  unfold Fresh
  rw [hentries, hwidth]
  exact h

theorem Fresh.filled {width : Nat} {item : Item} {key : Key} {rows : List Row}
    (h : Fresh o time shown caches) (hrows : o.render time item width = some rows)
    (hsame : ∀ entry ∈ shown.entries, 0 < entry.height → entry.item = item →
      rows = [] ∨ o.render time item width = o.render time item shown.size.width) :
    Fresh o time shown (caches.filled shown width item key rows) := by
  intro entry hentry hpos
  obtain ⟨hkept, hheights⟩ := h entry hentry hpos
  refine ⟨fun kept hmem hitem => ?_, fun known height hknown hheight => ?_⟩
  · rcases mem_filled hmem with ⟨hold, _⟩ | ⟨rfl, hne⟩
    · exact hkept kept hold hitem
    · simp only at hitem
      subst hitem
      rcases hsame entry hentry hpos rfl with hnil | hsame
      · exact absurd hnil hne
      · rw [← hsame, hrows]
  · by_cases hitem : entry.item = item
    · subst hitem
      rw [filled_height] at hknown
      cases hknown
      rcases hsame entry hentry hpos rfl with hnil | hsame
      · simp [hnil] at hheight
      · exact hsame
    · rw [filled_other hitem] at hknown
      exact hheights known height hknown hheight

theorem Caches.Sound.later (h : caches.Sound o time) (hle : time ≤ time') :
    caches.Sound o time' := by
  refine ⟨fun item width height hknown => ?_, fun kept hkept width height hknown hpos =>
    o.again hle (h.rendered kept hkept width height hknown hpos)⟩
  obtain ⟨hwidth, rows, hrows, hlength⟩ := h.heights item width height hknown
  exact ⟨hwidth, rows, o.again hle hrows, hlength⟩

theorem ScrollList.Sound.later (h : list.Sound o time) (hle : time ≤ time') :
    list.Sound o time' := by
  refine ⟨h.shown.later hle, h.caches.later hle, fun entry hentry hpos => ?_⟩
  obtain ⟨hkept, hheights⟩ := h.fresh entry hentry hpos
  refine ⟨fun kept hmem hitem => o.again hle (hkept kept hmem hitem),
    fun width height hknown hheight => ?_⟩
  obtain ⟨rows, hrows, _⟩ := h.shown.render hentry hpos
  have hsame := (hheights width height hknown hheight).trans hrows
  rw [o.again hle hsame, o.again hle hrows]

theorem entryRows_sound (h : list.Sound o time) (hentry : entry ∈ list.shown.entries) :
    (list.entryRows o time entry).1 = some (list.shown.rows o time entry) ∧
      (list.entryRows o time entry).2.shown = list.shown ∧
      (list.entryRows o time entry).2.Sound o time := by
  unfold ScrollList.entryRows Shown.rows
  split
  · exact ⟨rfl, rfl, h⟩
  · rename_i hheight
    have hpos : 0 < entry.height := by omega
    obtain ⟨hkept, hheights⟩ := h.fresh entry hentry hpos
    obtain ⟨rows, hrows, _⟩ := h.shown.render hentry hpos
    rw [hrows]
    split
    · rename_i kept hget
      have hitem : kept.item = entry.item := by simpa using List.find?_some hget
      have hrows' := hkept kept (List.mem_of_find?_eq_some hget) hitem
      rw [hrows] at hrows'
      cases hrows'
      exact ⟨rfl, rfl, h⟩
    · refine ⟨rfl, rfl, h.shown, ⟨?_, ?_⟩, ?_⟩
      · simp only [keep_heights]
        exact h.caches.heights
      · intro kept hmem width height hknown hpos
        simp only [keep_heights] at hknown
        rcases mem_keep hmem with ⟨hold, _⟩ | ⟨rfl, _⟩
        · exact h.caches.rendered kept hold width height hknown hpos
        · rw [hheights width height hknown hpos, hrows]
      · intro other hother hpos
        obtain ⟨hkept, hheights⟩ := h.fresh other hother hpos
        simp only [keep_heights]
        refine ⟨fun kept hmem hitem => ?_, hheights⟩
        rcases mem_keep hmem with ⟨hold, _⟩ | ⟨rfl, _⟩
        · exact hkept kept hold hitem
        · simp only at hitem
          rw [← hitem]
          exact hrows

end Yuke.Tui
