import Yuke.Shared.Steps
import Yuke.App.SessionTreeSteps

/-!
# The tree of the saved sessions over whole runs

No store checks the name of a parent. A `create` that saves its session after a `remove` read the
children of the parent leaves a session whose parent is gone. The tree holds in every other run.
-/

set_option autoImplicit false
set_option linter.unusedSectionVars false

namespace Yuke.App

open Yuke.Protocol Yuke.Shared

namespace Service

variable {kind : StoreKind} {s s' : Service} {event : ServiceEvent} {id : SessionId} {call : Nat}

def Names (s : Service) (c p : SessionId) : Prop := ∃ row ∈ s.past, row.id = c ∧ row.parent = some p

def age (s : Service) (id : SessionId) : Nat := s.pastIds.idxOf id

structure History (s : Service) : Prop where
  nodup : s.pastIds.Nodup
  kept : s.saved.Sublist s.past
  older : ∀ row ∈ s.past, ∀ other, row.parent = some other ∨ row.forkOf = some other →
    other ∈ s.pastIds ∧ s.age other < s.age row.id
  forks : ∀ row ∈ s.past, row.forkOf ≠ none → row.parent = none
  checked : ∀ call parent, s.creations call = some (.creating (some parent)) → parent ∈ s.pastIds

structure Leases (s : Service) : Prop where
  opened : ∀ id live, s.app.OpenAs id live → s.Leased id
  starts : ∀ call id fresh, s.app.calls call = some (.starting id fresh) → (id, call) ∈ s.leases

/-- The tree of a `remove` that has read the children of its first `next` sessions. -/
structure Tree (s : Service) (id : SessionId) (tree : List SessionId) (next : Nat) : Prop where
  first : ∃ rest, tree = id :: rest
  layered : Layered s.Names tree
  nodup : tree.Nodup
  parents : ∀ c ∈ tree.tail, ∃ p ∈ tree.take next, s.Names c p

def RemovalSound (s : Service) : Removal → Prop
  | .reading id tree next => s.Tree id tree next
  | .deleting id tree left => (∃ next, s.Tree id tree next) ∧
      ∃ done, tree = left ++ done ∧ ∀ x ∈ done, x ∈ s.pastIds ∧ x ∉ s.ids

structure Inv (s : Service) : Prop where
  history : s.History
  leases : s.Leases
  removals : ∀ call removal, s.removals call = some removal → s.RemovalSound removal

section Lists

theorem mem_ids_erase {other : SessionId} : other ∈ (s.erase id).ids ↔ other ∈ s.ids ∧ other ≠ id := by
  unfold ids erase
  simp only [List.mem_map, List.mem_filter, decide_eq_true_eq]
  constructor
  · rintro ⟨row, ⟨hrow, hne⟩, rfl⟩
    exact ⟨⟨row, hrow, rfl⟩, hne⟩
  · rintro ⟨⟨row, hrow, rfl⟩, hne⟩
    exact ⟨row, ⟨hrow, hne⟩, rfl⟩

theorem mem_children {c p : SessionId} :
    c ∈ s.children p ↔ ∃ row ∈ s.saved, row.id = c ∧ row.parent = some p := by
  unfold children
  simp only [List.mem_map, List.mem_filter, decide_eq_true_eq]
  constructor
  · rintro ⟨row, ⟨hrow, hparent⟩, rfl⟩
    exact ⟨row, hrow, rfl, hparent⟩
  · rintro ⟨row, hrow, rfl, hparent⟩
    exact ⟨row, ⟨hrow, hparent⟩, rfl⟩

theorem leased_append {id' : SessionId} {call' : Nat} (h : s.Leased id) :
    id ∈ (s.leases ++ [(id', call')]).map Prod.fst := by
  rw [List.map_append]
  exact List.mem_append_left _ h

end Lists

namespace History

variable (h : s.History)
include h

theorem past_of_mem (hid : id ∈ s.ids) : id ∈ s.pastIds := by
  obtain ⟨row, hrow, rfl⟩ := List.mem_map.mp hid
  exact List.mem_map_of_mem (h.kept.subset hrow)

theorem names_lt {c p : SessionId} (hnames : s.Names c p) : s.age p < s.age c := by
  obtain ⟨row, hrow, rfl, hparent⟩ := hnames
  exact (h.older row hrow p (.inl hparent)).2

theorem row_unique {row row' : SavedSession} (hrow : row ∈ s.past) (hrow' : row' ∈ s.past)
    (hid : row.id = row'.id) : row = row' :=
  List.inj_on_of_nodup_map h.nodup hrow hrow' hid

theorem names_unique {c p p' : SessionId} (hnames : s.Names c p) (hnames' : s.Names c p') :
    p = p' := by
  obtain ⟨row, hrow, hid, hparent⟩ := hnames
  obtain ⟨row', hrow', hid', hparent'⟩ := hnames'
  have heq := h.row_unique hrow hrow' (hid.trans hid'.symm)
  rw [heq, hparent'] at hparent
  exact (Option.some.inj hparent).symm

theorem names_of_child {c p : SessionId} (hchild : c ∈ s.children p) : s.Names c p := by
  obtain ⟨row, hrow, hid, hparent⟩ := mem_children.mp hchild
  exact ⟨row, h.kept.subset hrow, hid, hparent⟩

theorem makes_older {session : SavedSession} (hmakes : s.Makes call session) {other : SessionId}
    (hother : session.parent = some other ∨ session.forkOf = some other) : other ∈ s.pastIds := by
  cases hmakes with
  | create hcreation hfork =>
    rcases hother with hparent | hsource
    · exact h.checked call other (by rw [hcreation, hparent])
    · rw [hfork] at hsource
      cases hsource
  | fork source _ hmem hparent hfork =>
    rcases hother with hother | hsource
    · rw [hparent] at hother
      cases hother
    · rw [hfork] at hsource
      cases hsource
      exact h.past_of_mem hmem

theorem setCreation (other : Nat) (state : Option Creation) (app : System)
    (hstate : ∀ parent, state = some (.creating (some parent)) → parent ∈ s.pastIds) :
    ({ s.setCreation other state with app := app } : Service).History := by
  refine ⟨h.nodup, h.kept, h.older, h.forks, fun call parent hcreation => ?_⟩
  by_cases hcall : call = other
  · subst hcall
    exact hstate parent (by simpa [Service.setCreation] using hcreation)
  · exact h.checked call parent (by simpa [Service.setCreation, hcall] using hcreation)

theorem erase (id : SessionId) : (s.erase id).History :=
  ⟨h.nodup, List.filter_sublist.trans h.kept, h.older, h.forks, h.checked⟩

theorem insert {session : SavedSession} (hfresh : session.id ∉ s.pastIds)
    (hmakes : s.Makes call session) : (s.insert session).History := by
  have hpast : (s.insert session).pastIds = s.pastIds ++ [session.id] := by
    simp [Service.insert, pastIds]
  have hage : ∀ id ∈ s.pastIds, (s.insert session).age id = s.age id := by
    intro id hid
    rw [age, hpast, List.idxOf_append_of_mem hid]
    rfl
  have hnew : (s.insert session).age session.id = s.pastIds.length := by
    rw [age, hpast, List.idxOf_append_of_notMem hfresh]
    simp
  refine ⟨?_, h.kept.append (List.Sublist.refl _), ?_, ?_, ?_⟩
  · rw [hpast, List.nodup_append]
    refine ⟨h.nodup, List.nodup_singleton _, ?_⟩
    intro id hid new hnew heq
    rw [List.mem_singleton] at hnew
    exact hfresh (hnew ▸ heq ▸ hid)
  · intro row hrow other hother
    rcases List.mem_append.mp hrow with hrow | hrow
    · obtain ⟨hmem, hlt⟩ := h.older row hrow other hother
      rw [hpast, hage other hmem, hage row.id (List.mem_map_of_mem hrow)]
      exact ⟨List.mem_append_left _ hmem, hlt⟩
    · rw [List.mem_singleton] at hrow
      subst hrow
      have hmem := h.makes_older hmakes hother
      rw [hpast, hage other hmem, hnew]
      exact ⟨List.mem_append_left _ hmem, List.idxOf_lt_length_of_mem hmem⟩
  · intro row hrow hfork
    rcases List.mem_append.mp hrow with hrow | hrow
    · exact h.forks row hrow hfork
    · rw [List.mem_singleton] at hrow
      subst hrow
      cases hmakes with
      | create _ hnone => exact absurd hnone hfork
      | fork _ _ _ hparent _ => exact hparent
  · intro call parent hcreation
    rw [hpast]
    exact List.mem_append_left _ (h.checked call parent hcreation)

end History

theorem history_step (h : s.History) (hmoved : Moved s event s') : s'.History := by
  cases hmoved with
  | app => exact ⟨h.nodup, h.kept, h.older, h.forks, h.checked⟩
  | creation other state _ _ hstate =>
    exact h.setCreation other state _ fun parent heq => h.past_of_mem (hstate parent heq)
  | halfway other session _ hfresh hmakes =>
    exact (h.insert hfresh hmakes).setCreation other none _ (by simp)
  | saved other session runs _ _ hfresh hmakes =>
    have hset := (h.insert hfresh hmakes).setCreation other none s.app (by simp)
    exact ⟨hset.nodup, hset.kept, hset.older, hset.forks, hset.checked⟩
  | read => exact ⟨h.nodup, h.kept, h.older, h.forks, h.checked⟩
  | release => exact ⟨h.nodup, h.kept, h.older, h.forks, h.checked⟩
  | removal => exact ⟨h.nodup, h.kept, h.older, h.forks, h.checked⟩
  | @deleted _ session =>
    have herase := h.erase session
    exact ⟨herase.nodup, herase.kept, herase.older, herase.forks, herase.checked⟩
  | @discarded id =>
    have herase := h.erase id
    exact ⟨herase.nodup, herase.kept, herase.older, herase.forks, herase.checked⟩

theorem leases_of_follows (h : s.Leases) {app : System} (hfollows : System.Follows s.app app) :
    (∀ id live, app.OpenAs id live → s.Leased id) ∧
      ∀ call id fresh, app.calls call = some (.starting id fresh) → (id, call) ∈ s.leases := by
  constructor
  · intro id live hopen
    rcases hfollows.opened id live hopen with ⟨live', hopen'⟩ | ⟨call, fresh, hcall⟩
    · exact h.opened id live' hopen'
    · exact List.mem_map_of_mem (h.starts call id fresh hcall)
  · intro call id fresh hcall
    exact h.starts call id fresh (hfollows.starts call id fresh hcall)

theorem leases_taken (h : s.Leases) {app : System} {id' : SessionId} {call' : Nat}
    (hopened : ∀ id live, app.OpenAs id live → s.app.OpenAs id live)
    (hstarts : ∀ other id fresh, app.calls other = some (.starting id fresh) →
      (other = call' ∧ id = id') ∨ s.app.calls other = some (.starting id fresh)) :
    (∀ id live, app.OpenAs id live → id ∈ (s.leases ++ [(id', call')]).map Prod.fst) ∧
      ∀ call id fresh, app.calls call = some (.starting id fresh) →
        (id, call) ∈ s.leases ++ [(id', call')] := by
  constructor
  · intro id live hopen
    exact leased_append (h.opened id live (hopened id live hopen))
  · intro call id fresh hcall
    rcases hstarts call id fresh hcall with ⟨rfl, rfl⟩ | hold
    · simp
    · exact List.mem_append_left _ (h.starts call id fresh hold)

theorem opened_eq_none (h : s.opened id = none) (live : LiveSession) : ¬ s.app.OpenAs id live := by
  rintro ⟨state, hslot, rfl⟩
  unfold opened at h
  rw [hslot] at h
  cases h

theorem leases_step (h : s.Leases) (hmoved : Moved s event s') : s'.Leases := by
  cases hmoved with
  | app _ hfollows =>
    obtain ⟨hopened, hstarts⟩ := leases_of_follows h hfollows
    exact ⟨hopened, hstarts⟩
  | creation other state _ hfollows =>
    obtain ⟨hopened, hstarts⟩ := leases_of_follows h hfollows
    exact ⟨hopened, hstarts⟩
  | halfway other session hfollows =>
    obtain ⟨hopened, hstarts⟩ := leases_of_follows h hfollows
    exact ⟨hopened, hstarts⟩
  | saved other session runs hopened hstarts =>
    obtain ⟨hopened, hstarts⟩ := leases_taken h hopened hstarts
    exact ⟨hopened, hstarts⟩
  | read other id hopened hstarts =>
    obtain ⟨hopened, hstarts⟩ := leases_taken h hopened hstarts
    exact ⟨hopened, hstarts⟩
  | release gone other hstarts hopened =>
    constructor
    · intro id live hopen
      have hne : id ≠ gone := by
        rintro rfl
        exact opened_eq_none hopened live hopen
      obtain ⟨lease, hlease, rfl⟩ := List.mem_map.mp (h.opened id live hopen)
      refine List.mem_map.mpr ⟨lease, List.mem_filter.mpr ⟨hlease, ?_⟩, rfl⟩
      rw [decide_eq_true_eq]
      rintro rfl
      exact hne rfl
    · intro call id fresh hcall
      refine List.mem_filter.mpr ⟨h.starts call id fresh hcall, ?_⟩
      rw [decide_eq_true_eq]
      intro heq
      cases heq
      refine hstarts ?_
      cases fresh
      · exact .inr hcall
      · exact .inl hcall
  | removal => exact ⟨h.opened, h.starts⟩
  | deleted => exact ⟨h.opened, h.starts⟩
  | @discarded id stop call =>
    have hfollows : System.Follows s.app (s.app.setCall call none) :=
      System.follows_setCall (fun _ _ h => nomatch h)
    obtain ⟨hopened, hstarts⟩ := leases_of_follows h hfollows
    exact ⟨hopened, hstarts⟩

/-- What every step does to the saved sessions: no session comes back. -/
structure Grew (s s' : Service) : Prop where
  past : ∃ more, s'.past = s.past ++ more
  fresh : ∀ id ∈ s'.ids, id ∈ s.ids ∨ id ∉ s.pastIds

theorem grew_insert {session : SavedSession} (hfresh : session.id ∉ s.pastIds)
    (hsaved : s'.saved = s.saved ++ [session]) (hpast : s'.past = s.past ++ [session]) :
    Grew s s' := by
  refine ⟨⟨[session], hpast⟩, fun id hid => ?_⟩
  rw [ids, hsaved, List.map_append, List.mem_append] at hid
  rcases hid with hid | hid
  · exact .inl hid
  · have heq : id = session.id := by simpa using hid
    exact .inr (heq ▸ hfresh)

theorem grew_same (hsaved : ∀ id ∈ s'.ids, id ∈ s.ids) (hpast : s'.past = s.past) : Grew s s' :=
  ⟨⟨[], by simp [hpast]⟩, fun id hid => .inl (hsaved id hid)⟩

theorem grew_step (hmoved : Moved s event s') : Grew s s' := by
  cases hmoved with
  | app => exact grew_same (fun _ hid => hid) rfl
  | creation => exact grew_same (fun _ hid => hid) rfl
  | halfway other session _ hfresh _ => exact grew_insert hfresh rfl rfl
  | saved other session runs _ _ hfresh _ => exact grew_insert hfresh rfl rfl
  | read => exact grew_same (fun _ hid => hid) rfl
  | release => exact grew_same (fun _ hid => hid) rfl
  | removal => exact grew_same (fun _ hid => hid) rfl
  | deleted => exact grew_same (fun _ hid => (mem_ids_erase.mp hid).1) rfl
  | discarded => exact grew_same (fun _ hid => (mem_ids_erase.mp hid).1) rfl

theorem Grew.names (h : Grew s s') {c p : SessionId} (hnames : s.Names c p) : s'.Names c p := by
  obtain ⟨row, hrow, hid, hparent⟩ := hnames
  obtain ⟨more, hmore⟩ := h.past
  refine ⟨row, ?_, hid, hparent⟩
  rw [hmore]
  exact List.mem_append_left more hrow

theorem Grew.gone (h : Grew s s') (hid : id ∈ s.pastIds ∧ id ∉ s.ids) :
    id ∈ s'.pastIds ∧ id ∉ s'.ids := by
  obtain ⟨more, hmore⟩ := h.past
  constructor
  · rw [pastIds, hmore, List.map_append]
    exact List.mem_append_left _ hid.1
  · intro hmem
    rcases h.fresh id hmem with hold | hnew
    · exact hid.2 hold
    · exact hnew hid.1

theorem Tree.grew {tree : List SessionId} {next : Nat} (h : s.Tree id tree next)
    (hgrew : Grew s s') : s'.Tree id tree next := by
  refine ⟨h.first, h.layered.mono fun _ _ => hgrew.names, h.nodup, fun c hc => ?_⟩
  obtain ⟨p, hp, hnames⟩ := h.parents c hc
  exact ⟨p, hp, hgrew.names hnames⟩

theorem RemovalSound.grew {removal : Removal} (h : s.RemovalSound removal) (hgrew : Grew s s') :
    s'.RemovalSound removal := by
  cases removal with
  | reading id tree next => exact Tree.grew h hgrew
  | deleting id tree left =>
    obtain ⟨⟨next, htree⟩, done, hsplit, hdone⟩ := h
    exact ⟨⟨next, htree.grew hgrew⟩, done, hsplit, fun x hx => hgrew.gone (hdone x hx)⟩

theorem Tree.append {tree page : List SessionId} {parent : SessionId} {next : Nat}
    (h : s.Tree id tree next) (hhistory : s.History) (hparent : tree[next]? = some parent)
    (hpage : s.IsPage parent page) : s.Tree id (tree ++ page) (next + 1) := by
  obtain ⟨hnodup, hchildren, _⟩ := hpage
  obtain ⟨rest, rfl⟩ := h.first
  have hmem := List.mem_of_getElem? hparent
  have hnames : ∀ c ∈ page, s.Names c parent := fun c hc => hhistory.names_of_child (hchildren c hc)
  have hnext := (List.getElem?_eq_some_iff.mp hparent).1
  have htake : (id :: rest).take (next + 1) = (id :: rest).take next ++ [parent] := by
    rw [List.take_add_one, hparent]
    rfl
  have hapart : ∀ c ∈ page, c ∉ id :: rest := by
    intro c hc hin
    rcases List.mem_cons.mp hin with rfl | htail
    · have hle := h.layered.le (fun _ _ hnames => hhistory.names_lt hnames) parent hmem
      have hlt := hhistory.names_lt (hnames c hc)
      omega
    · obtain ⟨p, hp, hnamesp⟩ := h.parents c htail
      have heq := hhistory.names_unique hnamesp (hnames c hc)
      subst heq
      have hsplit : (id :: rest).take (next + 1) ++ (id :: rest).drop (next + 1) = id :: rest :=
        List.take_append_drop _ _
      have hdouble := h.nodup
      rw [← hsplit, htake] at hdouble
      have htwice := (List.nodup_append.mp hdouble).1
      have hdisjoint := (List.nodup_append.mp htwice).2.2 p hp p (by simp)
      exact hdisjoint rfl
  refine ⟨⟨rest ++ page, rfl⟩, h.layered.append hmem hnames, ?_, ?_⟩
  · refine List.nodup_append.mpr ⟨h.nodup, hnodup, ?_⟩
    intro c hc c' hc' heq
    exact hapart c' hc' (heq ▸ hc)
  · intro c hc
    rw [List.take_append_of_le_length (by omega), htake]
    rcases List.mem_append.mp (show c ∈ rest ++ page from hc) with hold | hnew
    · obtain ⟨p, hp, hnamesp⟩ := h.parents c hold
      exact ⟨p, List.mem_append_left _ hp, hnamesp⟩
    · exact ⟨parent, by simp, hnames c hnew⟩

theorem removals_step (h : s.Inv) (hmoved : Moved s event s') :
    ∀ call removal, s'.removals call = some removal → s'.RemovalSound removal := by
  have hgrew := grew_step hmoved
  have hkept : ∀ call removal, s.removals call = some removal → s'.RemovalSound removal :=
    fun call removal hremoval => (h.removals call removal hremoval).grew hgrew
  cases hmoved with
  | app => exact hkept
  | creation => exact hkept
  | halfway => exact hkept
  | saved => exact hkept
  | read => exact hkept
  | release => exact hkept
  | discarded => exact hkept
  | removal other state _ hturns =>
    intro call removal hremoval
    by_cases hcall : call = other
    · subst hcall
      have hstate : state = some removal := by simpa [setRemoval] using hremoval
      cases hturns with
      | ends => cases hstate
      | starts id =>
        cases hstate
        exact ⟨⟨[], rfl⟩, layered_singleton id, List.nodup_singleton id, by simp⟩
      | reads hreading hparent hpage =>
        cases hstate
        have htree : s.Tree _ _ _ := h.removals call _ hreading
        exact (htree.append h.history hparent hpage).grew hgrew
      | looks hreading =>
        cases hstate
        have htree : s.Tree _ _ _ := h.removals call _ hreading
        exact ⟨⟨_, htree.grew hgrew⟩, [], by simp, by simp⟩
    · refine hkept call removal ?_
      simpa [setRemoval, hcall] using hremoval
  | @deleted id session tree left stop other hdeleting hlast hmem _ _ =>
    intro call removal hremoval
    by_cases hcall : call = other
    · subst hcall
      have hstate : (if stop = .deleted then some (.deleting id tree left.dropLast) else none) =
          some removal := by simpa [setRemoval] using hremoval
      split_ifs at hstate
      cases hstate
      obtain ⟨⟨next, htree⟩, done, hsplit, hdone⟩ := h.removals call _ hdeleting
      refine ⟨⟨next, htree.grew hgrew⟩, session :: done, ?_, ?_⟩
      · rw [hsplit]
        have hleft := List.dropLast_append_getLast? session hlast
        rw [List.append_cons, hleft]
      · intro x hx
        rcases List.mem_cons.mp hx with rfl | hx
        · refine ⟨h.history.past_of_mem hmem, fun hstays => ?_⟩
          exact (mem_ids_erase.mp hstays).2 rfl
        · exact hgrew.gone (hdone x hx)
    · refine hkept call removal ?_
      simpa [setRemoval, Service.erase, hcall] using hremoval

theorem inv_step (h : s.Inv) (hmoved : Moved s event s') : s'.Inv :=
  ⟨history_step h.history hmoved, leases_step h.leases hmoved, removals_step h hmoved⟩

theorem inv_start : ({} : Service).Inv := by
  refine ⟨⟨List.nodup_nil, .slnil, ?_, ?_, ?_⟩, ⟨?_, ?_⟩, ?_⟩
  · intro row hrow
    cases hrow
  · intro row hrow
    cases hrow
  · intro call parent hcreation
    cases hcreation
  · rintro id live ⟨state, hslot, _⟩
    cases hslot
  · intro call id fresh hcall
    cases hcall
  · intro call removal hremoval
    cases hremoval

def NoOrphan (s : Service) : Prop :=
  ∀ row ∈ s.saved, ∀ parent, row.parent = some parent → parent ∈ s.ids

def checkedParent (s : Service) (call : Nat) : Option SessionId :=
  match s.creations call with
  | some (.creating parent) => parent
  | _ => none

def nextDelete (s : Service) (call : Nat) : Option (SessionId × List SessionId) :=
  match s.removals call with
  | some (.deleting _ tree left) => left.getLast?.map fun session => (session, tree)
  | _ => none

def nextDiscard (s : Service) (call : Nat) : Option SessionId :=
  match s.app.calls call with
  | some (.deleting id) => some id
  | _ => none

/-- A `create` saves its session while the parent is saved. A `remove` deletes a session whose saved
children it has read, and a session that did not start goes before it has children. -/
def InTime (s : Service) : ServiceEvent → Prop
  | .save call _ stop => stop ≠ .failed → ∀ parent ∈ s.checkedParent call, parent ∈ s.ids
  | .delete call stop =>
    stop ≠ .failed → ∀ next ∈ s.nextDelete call, ∀ c ∈ s.children next.1, c ∈ next.2
  | .discard call stop => stop ≠ .failed → ∀ id ∈ s.nextDiscard call, s.children id = []
  | _ => True

instance (s : Service) (event : ServiceEvent) : Decidable (s.InTime event) := by
  cases event <;> unfold InTime <;> infer_instance

theorem inTime_of_not_writes (h : ¬ event.Writes) : s.InTime event := by
  cases event with
  | save | delete | discard => exact fun hwrites => absurd hwrites h
  | _ => trivial

theorem noOrphan_insert (h : s.NoOrphan) (hhistory : s.History) {session : SavedSession}
    (hfresh : session.id ∉ s.pastIds) (hmakes : s.Makes call session)
    (hsaved : s'.saved = s.saved ++ [session]) :
    s'.NoOrphan ↔ ∀ parent ∈ s.checkedParent call, parent ∈ s.ids := by
  have hids : ∀ id, id ∈ s'.ids ↔ id ∈ s.ids ∨ id = session.id := by
    intro id
    simp [ids, hsaved]
  have hparent : s.checkedParent call = session.parent := by
    unfold checkedParent
    cases hmakes with
    | create hcreation => rw [hcreation]
    | fork source hcreation _ hnone _ => rw [hcreation, hnone]
  rw [hparent]
  constructor
  · intro hnone parent hnames
    have hmem := hnone session (by simp [hsaved]) parent hnames
    rcases (hids parent).mp hmem with hold | rfl
    · exact hold
    · exact absurd (hhistory.makes_older hmakes (.inl hnames)) hfresh
  · intro hkept row hrow parent hnames
    rw [hsaved, List.mem_append, List.mem_singleton] at hrow
    rw [hids]
    rcases hrow with hrow | rfl
    · exact .inl (h row hrow parent hnames)
    · exact .inl (hkept parent hnames)

theorem noOrphan_erase (h : s.NoOrphan) (hhistory : s.History) (id : SessionId)
    (hsaved : s'.saved = (s.erase id).saved) : s'.NoOrphan ↔ s.children id = [] := by
  have hids : ∀ other, other ∈ s'.ids ↔ other ∈ s.ids ∧ other ≠ id := by
    intro other
    rw [ids, hsaved]
    exact mem_ids_erase
  constructor
  · intro hnone
    refine List.eq_nil_iff_forall_not_mem.mpr fun c hc => ?_
    obtain ⟨row, hrow, rfl, hparent⟩ := mem_children.mp hc
    have hlt := hhistory.names_lt (hhistory.names_of_child hc)
    have hstays : row ∈ s'.saved := by
      rw [hsaved]
      refine List.mem_filter.mpr ⟨hrow, ?_⟩
      rw [decide_eq_true_eq]
      intro heq
      rw [heq] at hlt
      omega
    exact ((hids id).mp (hnone row hstays id hparent)).2 rfl
  · intro hnil row hrow parent hparent
    rw [hsaved] at hrow
    have hold := (List.mem_filter.mp hrow).1
    refine (hids parent).mpr ⟨h row hold parent hparent, ?_⟩
    rintro rfl
    have hchild : row.id ∈ s.children parent := mem_children.mpr ⟨row, hold, rfl, hparent⟩
    rw [hnil] at hchild
    cases hchild

theorem children_of_last (h : s.Inv) {tree left : List SessionId} {session : SessionId}
    (hdeleting : s.removals call = some (.deleting id tree left))
    (hlast : left.getLast? = some session) (hread : ∀ c ∈ s.children session, c ∈ tree) :
    s.children session = [] := by
  obtain ⟨⟨next, htree⟩, done, hsplit, hdone⟩ := h.removals call _ hdeleting
  have hleft : left = left.dropLast ++ [session] :=
    (List.dropLast_append_getLast? session hlast).symm
  refine List.eq_nil_iff_forall_not_mem.mpr fun c hc => ?_
  have hnames := h.history.names_of_child hc
  have hlt := h.history.names_lt hnames
  have hplace := hread c hc
  rw [hsplit, hleft, List.mem_append, List.mem_append, List.mem_singleton] at hplace
  rcases hplace with (hbefore | rfl) | hgone
  · obtain ⟨before, after, hcut⟩ := List.append_of_mem hbefore
    have hwhole : tree = before ++ c :: (after ++ session :: done) := by
      rw [hsplit, hleft, hcut]
      simp
    rcases htree.layered _ _ _ hwhole with rfl | ⟨p, hp, hnamesp⟩
    · obtain ⟨rest, hfirst⟩ := htree.first
      have hlayered := htree.layered
      rw [hfirst] at hlayered
      have hhead : c = id := by
        rw [hfirst] at hwhole
        exact (List.cons.inj hwhole).1.symm
      have hmem : session ∈ id :: rest := by
        rw [← hfirst, hwhole]
        simp
      have hle := hlayered.le (fun _ _ hnames => h.history.names_lt hnames) session hmem
      rw [hhead] at hlt
      omega
    · have hsame := h.history.names_unique hnamesp hnames
      subst hsame
      have hnodup := htree.nodup
      rw [hwhole] at hnodup
      exact (List.nodup_append.mp hnodup).2.2 p hp p (by simp) rfl
  · omega
  · obtain ⟨row, hrow, rfl, _⟩ := mem_children.mp hc
    exact (hdone _ hgone).2 (List.mem_map_of_mem hrow)

theorem noOrphan_step (hinv : s.Inv) (h : s.NoOrphan) (hmoved : Moved s event s') :
    s'.NoOrphan ↔ s.InTime event := by
  cases hmoved with
  | app hwrites => exact iff_of_true h (inTime_of_not_writes hwrites)
  | creation _ _ hwrites => exact iff_of_true h (inTime_of_not_writes hwrites)
  | removal _ _ hwrites => exact iff_of_true h (inTime_of_not_writes hwrites)
  | read => exact iff_of_true h trivial
  | release => exact iff_of_true h trivial
  | halfway other session _ hfresh hmakes =>
    rw [noOrphan_insert h hinv.history hfresh hmakes rfl]
    exact ⟨fun hkept _ => hkept, fun hkept => hkept (by simp)⟩
  | saved other session runs _ _ hfresh hmakes =>
    rw [noOrphan_insert h hinv.history hfresh hmakes rfl]
    exact ⟨fun hkept _ => hkept, fun hkept => hkept (by simp)⟩
  | @deleted id session tree left stop other hdeleting hlast _ _ hstop =>
    have hnext : s.nextDelete other = some (session, tree) := by
      rw [nextDelete, hdeleting]
      simp only
      rw [hlast]
      rfl
    refine (noOrphan_erase h hinv.history session rfl).trans ?_
    constructor
    · intro hnil _ next hmem c hc
      rw [hnext] at hmem
      cases hmem
      rw [hnil] at hc
      cases hc
    · intro hread
      exact children_of_last hinv hdeleting hlast (hread hstop _ hnext)
  | @discarded id stop other hcall _ hstop =>
    have hnext : s.nextDiscard other = some id := by
      rw [nextDiscard, hcall]
    refine (noOrphan_erase h hinv.history id rfl).trans ?_
    constructor
    · intro hnil _ id' hmem
      rw [hnext] at hmem
      cases hmem
      exact hnil
    · intro hread
      exact hread hstop id hnext

/-- A walk of `session/list` from its roots finds each saved session, and a `remove` that returned
has left no session below its own. -/
structure Rooted (s : Service) : Prop where
  parent : s.NoOrphan
  reached : ∀ id ∈ s.ids, Reached (fun id => ∃ row ∈ s.saved, row.id = id ∧ row.parent = none)
    (fun c p => c ∈ s.children p) (fun id => id ∈ s.ids) id
  removed : ∀ call id tree, s.removals call = some (.deleting id tree []) →
    id ∉ s.ids ∧ ∀ below, Relation.TransGen s.Names below id → below ∉ s.ids

/-- A `remove` deletes sessions of its tree, none of them open and none a fork of another one. -/
def Spares (kind : StoreKind) (s : Service) : Prop :=
  ∀ call stop s', s.step kind (.delete call stop) = some s' →
    ∃ id tree left, s.removals call = some (.deleting id tree left) ∧
      ∀ row ∈ s.saved, row ∉ s'.saved →
        (row.id = id ∨ Relation.TransGen s.Names row.id id) ∧ s.opened row.id = none ∧
          ∀ source ∈ tree, row.forkOf ≠ some source

theorem names_of_row (h : s.History) {row : SavedSession} (hrow : row ∈ s.saved) {c p : SessionId}
    (hnames : s.Names c p) (hid : row.id = c) : row.parent = some p := by
  obtain ⟨row', hrow', hid', hparent⟩ := hnames
  rw [h.row_unique (h.kept.subset hrow) hrow' (hid.trans hid'.symm)]
  exact hparent

theorem rooted (hinv : s.Inv) (h : s.NoOrphan) : s.Rooted := by
  have hhistory := hinv.history
  refine ⟨h, ?_, ?_⟩
  · refine reached_of_rank s.age ?_ ?_
    · exact fun c p hchild => hhistory.names_lt (hhistory.names_of_child hchild)
    · intro c hc
      obtain ⟨row, hrow, rfl⟩ := List.mem_map.mp hc
      cases hparent : row.parent with
      | none => exact .inl ⟨row, hrow, rfl, hparent⟩
      | some parent =>
        exact .inr ⟨parent, h row hrow parent hparent, mem_children.mpr ⟨row, hrow, rfl, hparent⟩⟩
  · intro call id tree hdeleting
    obtain ⟨⟨next, htree⟩, done, hsplit, hdone⟩ := hinv.removals call _ hdeleting
    obtain ⟨rest, hfirst⟩ := htree.first
    have hgone : id ∉ s.ids := by
      refine (hdone id ?_).2
      rw [List.nil_append] at hsplit
      rw [← hsplit, hfirst]
      simp
    refine ⟨hgone, fun below hchain hbelow => hgone ?_⟩
    have hclosed : ∀ c ∈ {id | id ∈ s.ids}, ∀ p, s.Names c p → p ∈ {id | id ∈ s.ids} := by
      intro c hc p hnames
      obtain ⟨row, hrow, hid⟩ := List.mem_map.mp hc
      exact h row hrow p (names_of_row hhistory hrow hnames hid)
    exact mem_of_chain hclosed hchain hbelow

theorem spares (hinv : s.Inv) : s.Spares kind := by
  intro call stop s' hstep
  have hhistory := hinv.history
  have hdeleting : ∃ id tree left, s.removals call = some (.deleting id tree left) := by
    simp only [step] at hstep
    split at hstep
    · next hdeleting => exact ⟨_, _, _, hdeleting⟩
    · cases hstep
  obtain ⟨id, tree, left, hdeleting⟩ := hdeleting
  refine ⟨id, tree, left, hdeleting, fun row hrow hgone => ?_⟩
  have hmoved := step_moved hstep
  cases hmoved with
  | app => exact absurd hrow hgone
  | creation => exact absurd hrow hgone
  | removal => exact absurd hrow hgone
  | @deleted id' session tree' left' stop other hdeleting' hlast _ hleased _ =>
    rw [hdeleting] at hdeleting'
    cases hdeleting'
    have hsession : row.id = session := by
      by_contra hne
      exact hgone (List.mem_filter.mpr ⟨hrow, by simpa using hne⟩)
    obtain ⟨⟨next, htree⟩, done, hsplit, _⟩ := hinv.removals call _ hdeleting
    obtain ⟨rest, hfirst⟩ := htree.first
    have hlayered := htree.layered
    have hmem : row.id ∈ id :: rest := by
      rw [← hfirst, hsplit, hsession]
      exact List.mem_append_left _ (List.mem_of_getLast? hlast)
    rw [hfirst] at hlayered
    have hbelow := hlayered.chain row.id hmem
    refine ⟨hbelow, ?_, fun source hsource hfork => ?_⟩
    · cases hopened : s.opened row.id with
      | none => rfl
      | some live =>
        obtain ⟨slot, hslot, hlive⟩ := Option.bind_eq_some_iff.mp hopened
        cases slot with
        | «open» state =>
          exact absurd (hinv.leases.opened _ _ ⟨state, hslot, rfl⟩) (hsession ▸ hleased)
        | opening => cases hlive
        | closing => cases hlive
    · have hpast := hhistory.kept.subset hrow
      have hnone : row.parent = none := hhistory.forks row hpast (by simp [hfork])
      have hlt := (hhistory.older row hpast source (.inr hfork)).2
      rw [hfirst] at hsource
      have hle := hlayered.le (fun _ _ hnames => hhistory.names_lt hnames) source hsource
      have hroot : row.id = id := by
        rcases hbelow with hroot | hchain
        · exact hroot
        · obtain ⟨p, hnames, _⟩ := Relation.TransGen.head'_iff.mp hchain
          have hparent := names_of_row hhistory hrow hnames rfl
          rw [hnone] at hparent
          cases hparent
      rw [hroot] at hlt
      omega

theorem noOrphan_run {events : List ServiceEvent}
    (hrun : Steps (when InTime (outcome (step kind))) {} events s) : s.Inv ∧ s.NoOrphan := by
  have hstart : ({} : Service).Inv ∧ ({} : Service).NoOrphan :=
    ⟨inv_start, fun row hrow => absurd hrow List.not_mem_nil⟩
  refine hrun.keeps (P := fun s => s.Inv ∧ s.NoOrphan) hstart ?_
  rintro t event u ⟨hinv, hnone⟩ ⟨hintime, hstep⟩
  have hmoved := step_moved hstep
  exact ⟨inv_step hinv hmoved, (noOrphan_step hinv hnone hmoved).mpr hintime⟩

def removedRun : List ServiceEvent :=
  [.create 0 (.creating none), .save 0 ⟨1⟩ (.saved true), .registry (.started 0 none),
    .create 1 (.checking ⟨1⟩), .check 1 true, .save 1 ⟨2⟩ (.saved true),
    .registry (.started 1 none), .create 2 (.forking ⟨1⟩), .save 2 ⟨3⟩ (.saved true),
    .registry (.started 2 none), .registry (.close 3 ⟨1⟩), .registry (.finish 3), .release ⟨1⟩ 0,
    .registry (.close 3 ⟨2⟩), .registry (.finish 3), .release ⟨2⟩ 1,
    .remove 0 ⟨1⟩, .list 0 (some [⟨2⟩]), .list 0 (some []), .look 0, .delete 0 .deleted,
    .delete 0 .deleted]

/-- A `create` saves its session after the `remove` of its parent has read the children. -/
def lateRun : List ServiceEvent :=
  [.create 0 (.creating none), .save 0 ⟨1⟩ (.saved true), .registry (.started 0 none),
    .registry (.close 1 ⟨1⟩), .registry (.finish 1), .release ⟨1⟩ 0,
    .create 1 (.checking ⟨1⟩), .check 1 true, .remove 0 ⟨1⟩, .list 0 (some []), .look 0,
    .save 1 ⟨2⟩ (.saved true), .registry (.started 1 none), .delete 0 .deleted]

end Service

end Yuke.App
