import Yuke.Tui.ScrollList

/-!
# The caches of the scroll list

The kept rows and heights are the ones that a render gives. A layout that goes through measures each
item as a render of its own would, and one that throws leaves what it measured before.
-/

set_option autoImplicit false
set_option linter.unusedSectionVars false

namespace Yuke.Tui

open Yuke.Shared

variable {Item Key Row : Type} [DecidableEq Item] [DecidableEq Key]
variable {o : ScrollOptions Item Key Row} {time width : Nat} {shown : Shown Item Key}
variable {caches later : Caches Item Key Row} {item : Item} {key : Key} {rows : List Row}

structure Caches.Sound (o : ScrollOptions Item Key Row) (time : Nat) (caches : Caches Item Key Row) :
    Prop where
  heights : ∀ item width height, caches.heights item = some (width, height) →
    0 < width ∧ ∃ rows, o.render time item width = some rows ∧ rows.length = height
  rendered : ∀ kept ∈ caches.rendered, ∀ width height,
    caches.heights kept.item = some (width, height) → 0 < height →
    o.render time kept.item width = some kept.rows

structure Fewer (later caches : Caches Item Key Row) : Prop where
  heights : later.heights = caches.heights
  rendered : ∀ kept ∈ later.rendered, kept ∈ caches.rendered

theorem Fewer.refl (caches : Caches Item Key Row) : Fewer caches caches := ⟨rfl, fun _ h => h⟩

theorem Fewer.trans {last : Caches Item Key Row} (h : Fewer last later) (h' : Fewer later caches) :
    Fewer last caches :=
  ⟨h.heights.trans h'.heights, fun kept hkept => h'.rendered kept (h.rendered kept hkept)⟩

theorem Caches.Sound.fewer (h : caches.Sound o time) (hfewer : Fewer later caches) :
    later.Sound o time := by
  refine ⟨fun item width height hknown => ?_, fun kept hkept width height hknown => ?_⟩
  · rw [hfewer.heights] at hknown
    exact h.heights item width height hknown
  · rw [hfewer.heights] at hknown
    exact h.rendered kept (hfewer.rendered kept hkept) width height hknown

theorem forget_fewer (kept : Kept Item Key Row) : Fewer (caches.forget kept) caches :=
  ⟨rfl, fun _ h => (List.mem_filter.mp h).1⟩

theorem trimOver_fewer (newest : Option Item) (list : List (Kept Item Key Row))
    (caches : Caches Item Key Row) :
    Fewer (Caches.trimOver shown newest list caches) caches := by
  induction list generalizing caches with
  | nil => exact .refl caches
  | cons kept list ih =>
    unfold Caches.trimOver
    split
    · exact .refl caches
    · split
      · exact (ih _).trans (forget_fewer kept)
      · exact ih caches

theorem trim_fewer (newest : Option Item) : Fewer (caches.trim shown newest) caches :=
  trimOver_fewer newest _ caches

theorem retain_fewer (items : List Item) : Fewer (caches.retain items) caches := by
  unfold Caches.retain
  generalize caches.rendered = list
  induction list generalizing caches with
  | nil => exact .refl caches
  | cons kept list ih =>
    rw [List.foldl_cons]
    split
    · exact ih
    · exact ih.trans (forget_fewer kept)

theorem drop_fewer : Fewer (caches.drop item) caches := by
  unfold Caches.drop
  split
  · exact .refl caches
  · exact forget_fewer _

theorem not_mem_drop {kept : Kept Item Key Row} (h : kept ∈ (caches.drop item).rendered) :
    kept.item ≠ item := by
  unfold Caches.drop at h
  split at h
  · rename_i hnone
    simpa using List.find?_eq_none.mp hnone kept h
  · rename_i old hold
    have hitem : old.item = item := by simpa using List.find?_some hold
    simpa [hitem] using (List.mem_filter.mp h).2

@[simp] theorem keep_heights : (caches.keep shown item key rows).heights = caches.heights := by
  unfold Caches.keep
  simp only
  split
  · exact drop_fewer.heights
  · exact (trim_fewer _).heights.trans (drop_fewer).heights

theorem mem_keep {kept : Kept Item Key Row} (h : kept ∈ (caches.keep shown item key rows).rendered) :
    (kept ∈ caches.rendered ∧ kept.item ≠ item) ∨ (kept = ⟨item, key, rows⟩ ∧ rows ≠ []) := by
  unfold Caches.keep at h
  simp only at h
  split at h
  · exact .inl ⟨drop_fewer.rendered kept h, not_mem_drop h⟩
  · rename_i hrows
    have hmem := (trim_fewer (some item)).rendered kept h
    rcases List.mem_append.mp hmem with hmem | hmem
    · exact .inl ⟨drop_fewer.rendered kept hmem, not_mem_drop hmem⟩
    · exact .inr ⟨List.mem_singleton.mp hmem, by simpa using hrows⟩

def Caches.filled (caches : Caches Item Key Row) (shown : Shown Item Key) (width : Nat) (item : Item)
    (key : Key) (rows : List Row) : Caches Item Key Row :=
  (caches.setHeight item width rows.length).keep shown item key rows

theorem filled_height : (caches.filled shown width item key rows).heights item =
    some (width, rows.length) := by
  simp [Caches.filled, Caches.setHeight]

theorem filled_other {other : Item} (h : other ≠ item) :
    (caches.filled shown width item key rows).heights other = caches.heights other := by
  simp [Caches.filled, Caches.setHeight, h]

theorem mem_filled {kept : Kept Item Key Row}
    (h : kept ∈ (caches.filled shown width item key rows).rendered) :
    (kept ∈ caches.rendered ∧ kept.item ≠ item) ∨ (kept = ⟨item, key, rows⟩ ∧ rows ≠ []) := by
  have hkept := mem_keep h
  exact hkept

theorem Caches.Sound.filled (h : caches.Sound o time) (hwidth : 0 < width)
    (hrows : o.render time item width = some rows) :
    (caches.filled shown width item key rows).Sound o time := by
  refine ⟨fun other known height hknown => ?_, fun kept hkept known height hknown hpos => ?_⟩
  · by_cases hother : other = item
    · subst hother
      rw [filled_height] at hknown
      cases hknown
      exact ⟨hwidth, rows, hrows, rfl⟩
    · rw [filled_other hother] at hknown
      exact h.heights other known height hknown
  · rcases mem_filled hkept with ⟨hold, hne⟩ | ⟨rfl, _⟩
    · rw [filled_other hne] at hknown
      exact h.rendered kept hold known height hknown hpos
    · rw [filled_height] at hknown
      cases hknown
      exact hrows

def measure (o : ScrollOptions Item Key Row) (time width : Nat) (item : Item) (key : Key) :
    Option (Entry Item Key) :=
  if width = 0 then some ⟨item, key, 0⟩
  else (o.render time item width).map fun rows => ⟨item, key, rows.length⟩

theorem measureItem_cases (h : caches.Sound o time) :
    (measureItem o time shown width item key caches).1 = measure o time width item key ∧
      ((measureItem o time shown width item key caches).2 = caches ∧
          (0 < width → o.render time item width = none ∨
            ∃ height, caches.heights item = some (width, height)) ∨
        0 < width ∧ ∃ rows, o.render time item width = some rows ∧
          (measureItem o time shown width item key caches).2 =
            caches.filled shown width item key rows) := by
  by_cases hknown : ∃ height, caches.heights item = some (width, height)
  · obtain ⟨height, hknown⟩ := hknown
    obtain ⟨hwidth, rows, hrows, rfl⟩ := h.heights item width height hknown
    simp [measureItem, hknown, measure, hrows, Nat.ne_of_gt hwidth]
  · have hother : ∀ known height, caches.heights item = some (known, height) → known ≠ width :=
      fun known height heq hsame => hknown ⟨height, hsame ▸ heq⟩
    unfold measure
    by_cases hwidth : width = 0
    · have hfresh : measureItem o time shown width item key caches =
          (some ⟨item, key, 0⟩, caches) := by
        unfold measureItem
        simp only [if_pos hwidth]
        split
        · rfl
        · rename_i known height heq
          rw [if_neg (hother known height heq)]
      rw [hfresh, if_pos hwidth]
      exact ⟨rfl, .inl ⟨rfl, fun hpos => by omega⟩⟩
    · rw [if_neg hwidth]
      cases hrows : o.render time item width with
      | none =>
        have hfresh : measureItem o time shown width item key caches = (none, caches) := by
          unfold measureItem
          simp only [if_neg hwidth, hrows]
          split
          · rfl
          · rename_i known height heq
            rw [if_neg (hother known height heq)]
        rw [hfresh]
        exact ⟨rfl, .inl ⟨rfl, fun _ => .inl rfl⟩⟩
      | some rows =>
        have hfresh : measureItem o time shown width item key caches =
            (some ⟨item, key, rows.length⟩, caches.filled shown width item key rows) := by
          unfold measureItem
          simp only [if_neg hwidth, hrows]
          split
          · rfl
          · rename_i known height heq
            rw [if_neg (hother known height heq)]
            rfl
        rw [hfresh]
        exact ⟨rfl, .inr ⟨by omega, rows, rfl, rfl⟩⟩

/-! ## The renders of a layout -/

def measured (o : ScrollOptions Item Key Row) (time width : Nat) :
    List (Item × Key) → Option (List (Entry Item Key))
  | [] => some []
  | (item, key) :: keyed =>
    match measure o time width item key with
    | none => none
    | some entry =>
      match measured o time width keyed with
      | none => none
      | some entries => some (entry :: entries)

def untilThrow (o : ScrollOptions Item Key Row) (time width : Nat) (keyed : List (Item × Key)) :
    List Item :=
  (keyed.map Prod.fst).takeWhile fun item => (o.render time item width).isSome

variable (width shown) in
theorem measureAll_keeps {P : Caches Item Key Row → Prop} (keyed : List (Item × Key))
    (hsound : caches.Sound o time) (hP : P caches)
    (hstep : ∀ item ∈ untilThrow o time width keyed, ∀ key caches rows, 0 < width →
      caches.Sound o time → P caches →
      o.render time item width = some rows → P (caches.filled shown width item key rows)) :
    (measureAll o time shown width keyed caches).1 = measured o time width keyed ∧
      (measureAll o time shown width keyed caches).2.Sound o time ∧
      P (measureAll o time shown width keyed caches).2 := by
  induction keyed generalizing caches with
  | nil => exact ⟨rfl, hsound, hP⟩
  | cons first keyed ih =>
    obtain ⟨item, key⟩ := first
    obtain ⟨hentry, hcaches⟩ := measureItem_cases hsound
    unfold measureAll measured
    generalize measureItem o time shown width item key caches = result at hentry hcaches
    obtain ⟨entry, next⟩ := result
    simp only at hentry hcaches
    subst hentry
    have hnext : next.Sound o time ∧ P next := by
      rcases hcaches with ⟨rfl, _⟩ | ⟨hwidth, rows, hrows, rfl⟩
      · exact ⟨hsound, hP⟩
      · exact ⟨hsound.filled hwidth hrows, hstep item (by simp [untilThrow, hrows]) key caches rows
          hwidth hsound hP hrows⟩
    cases hmeasure : measure o time width item key with
    | none => exact ⟨rfl, hnext.1, hnext.2⟩
    | some entry =>
      have hrest : ∀ other ∈ untilThrow o time width keyed, ∀ key caches rows, 0 < width →
          caches.Sound o time → P caches → o.render time other width = some rows →
          P (caches.filled shown width other key rows) := by
        intro other hother key caches rows hwidth
        have hsome : (o.render time item width).isSome := by
          unfold measure at hmeasure
          rw [if_neg (Nat.ne_of_gt hwidth)] at hmeasure
          obtain ⟨rows, hrows, _⟩ := Option.map_eq_some_iff.mp hmeasure
          simp [hrows]
        refine hstep other ?_ key caches rows hwidth
        unfold untilThrow at hother ⊢
        simp [hsome, hother]
      obtain ⟨hentries, hlast⟩ := ih hnext.1 hnext.2 hrest
      simp only
      generalize measureAll o time shown width keyed next = rest at hentries hlast ⊢
      obtain ⟨entries, last⟩ := rest
      simp only at hentries hlast
      subst hentries
      cases measured o time width keyed with
      | none => exact ⟨rfl, hlast⟩
      | some entries => exact ⟨rfl, hlast⟩

theorem measureAll_known {keyed : List (Item × Key)} {entries : List (Entry Item Key)}
    (hsound : caches.Sound o time) (hwidth : 0 < width)
    (h : (measureAll o time shown width keyed caches).1 = some entries) :
    ∀ pair ∈ keyed, ∃ height,
      (measureAll o time shown width keyed caches).2.heights pair.1 = some (width, height) := by
  induction keyed generalizing caches entries with
  | nil => simp
  | cons first keyed ih =>
    obtain ⟨item, key⟩ := first
    obtain ⟨hentry, hcaches⟩ := measureItem_cases hsound
    unfold measureAll at h ⊢
    generalize measureItem o time shown width item key caches = result at hentry hcaches h ⊢
    obtain ⟨entry, next⟩ := result
    simp only at hentry hcaches
    cases entry with
    | none => cases h
    | some entry =>
      obtain ⟨rows, hrows⟩ : ∃ rows, o.render time item width = some rows := by
        unfold measure at hentry
        rw [if_neg (Nat.ne_of_gt hwidth)] at hentry
        obtain ⟨rows, hrows, _⟩ := Option.map_eq_some_iff.mp hentry.symm
        exact ⟨rows, hrows⟩
      have hnext : next.Sound o time ∧ ∃ height, next.heights item = some (width, height) := by
        rcases hcaches with ⟨rfl, hknown⟩ | ⟨_, rows, hrows, rfl⟩
        · rcases hknown hwidth with hnone | hknown
          · simp [hrows] at hnone
          · exact ⟨hsound, hknown⟩
        · exact ⟨hsound.filled hwidth hrows, rows.length, filled_height⟩
      have hstep : ∀ other ∈ untilThrow o time width keyed, ∀ key caches rows, 0 < width →
          Caches.Sound o time caches →
          (∃ height, Caches.heights caches item = some (width, height)) →
          o.render time other width = some rows →
          ∃ height, (Caches.filled caches shown width other key rows).heights item =
            some (width, height) := by
        intro other _ key caches rows _ _ hheight _
        by_cases hother : other = item
        · subst hother
          exact ⟨_, filled_height⟩
        · rw [filled_other (Ne.symm hother)]
          exact hheight
      have hkeeps := measureAll_keeps width shown keyed
        (P := fun caches => ∃ height, caches.heights item = some (width, height))
        hnext.1 hnext.2 hstep
      have hrest : ∀ entries, (measureAll o time shown width keyed next).1 = some entries →
          ∀ pair ∈ keyed, ∃ height,
            (measureAll o time shown width keyed next).2.heights pair.1 = some (width, height) :=
        fun entries => ih hnext.1
      simp only at h ⊢
      generalize measureAll o time shown width keyed next = rest at h hkeeps hrest ⊢
      obtain ⟨last, caches⟩ := rest
      cases last with
      | none => cases h
      | some last =>
        refine List.forall_mem_cons.mpr ⟨hkeeps.2.2, ?_⟩
        exact hrest last rfl

theorem measured_get {keyed : List (Item × Key)} {entries : List (Entry Item Key)}
    (h : measured o time width keyed = some entries) :
    entries.map (fun entry => (entry.item, entry.key)) = keyed ∧
      ∀ entry ∈ entries, measure o time width entry.item entry.key = some entry := by
  induction keyed generalizing entries with
  | nil =>
    cases h
    exact ⟨rfl, by simp⟩
  | cons first keyed ih =>
    obtain ⟨item, key⟩ := first
    unfold measured at h
    split at h
    · cases h
    rename_i entry hentry
    split at h
    · cases h
    rename_i rest hrest
    cases h
    have hitem : entry.item = item ∧ entry.key = key := by
      unfold measure at hentry
      split at hentry
      · cases hentry
        exact ⟨rfl, rfl⟩
      · obtain ⟨rows, _, rfl⟩ := Option.map_eq_some_iff.mp hentry
        exact ⟨rfl, rfl⟩
    obtain ⟨hkeyed, hentries⟩ := ih hrest
    refine ⟨by simp [hitem, hkeyed], List.forall_mem_cons.mpr ⟨?_, hentries⟩⟩
    rw [hitem.1, hitem.2]
    exact hentry

end Yuke.Tui
