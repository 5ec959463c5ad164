import Yuke.Shared.Greedy

/-!
# The load order of the plugins

The list is checked first: names and services come once, and each used service has a provider.
The order takes the first plugin whose services loaded, until none waits.
-/

set_option autoImplicit false

namespace Yuke.Plugins

open Yuke.Shared

inductive Origin where
  | folder (root : String) (entry : Option String)
  | bundled (module : String)
  | given
  deriving DecidableEq

structure Plugin where
  name : String
  origin : Origin
  uses : List String
  provides : List String
  deriving DecidableEq

namespace Plugin

def fail (plugin : Plugin) (message : String) : String :=
  "plugin " ++ plugin.name ++ ": " ++ message

/-- The services of `plugin` with its name, each one that no plugin provides yet. -/
def insertProvides (plugin : Plugin) :
    List String → List (String × String) → Except String (List (String × String))
  | [], providers => .ok providers
  | service :: rest, providers =>
    match providers.lookup service with
    | some provider =>
      .error (plugin.fail ("plugin " ++ provider ++ " provides '" ++ service ++ "' already"))
    | none => plugin.insertProvides rest ((service, plugin.name) :: providers)

end Plugin

/-- The name and the services of each plugin of the rest, after those of `earlier`. -/
def checkProvides : List Plugin → List Plugin → List (String × String) →
    Except String (List (String × String))
  | _, [], providers => .ok providers
  | earlier, plugin :: rest, providers =>
    match earlier.find? (·.name = plugin.name) with
    | some other =>
      match other.origin with
      | .bundled _ =>
        .error (plugin.fail ("a bundled plugin has this name: add \"" ++ plugin.name ++
          "\" to \"disable\" in config.json to replace it"))
      | .folder _ _ | .given => .error (plugin.fail "another plugin of the list has this name")
    | none =>
      match plugin.insertProvides plugin.provides providers with
      | .error error => .error error
      | .ok providers => checkProvides (earlier ++ [plugin]) rest providers

def checkUses (providers : List (String × String)) : List Plugin → Except String Unit
  | [] => .ok ()
  | plugin :: rest =>
    match plugin.uses.find? fun service => (providers.lookup service).isNone with
    | some service =>
      .error (plugin.fail ("it uses '" ++ service ++ "', and no plugin of the list provides it"))
    | none => checkUses providers rest

/-- All services that `plugin` uses loaded. -/
def usesLoaded (loaded : List String) (plugin : Plugin) : Bool :=
  plugin.uses.all (· ∈ loaded)

def loadWaiting (waiting : List Plugin) (loaded : List String) (order : List Plugin) :
    Except String (List Plugin) :=
  if waiting.isEmpty then .ok order
  else
    match _hfind : waiting.find? (usesLoaded loaded) with
    | none =>
      .error ("plugins " ++ ", ".intercalate (waiting.map Plugin.name) ++
        ": a cycle of uses keeps them from loading")
    | some plugin =>
      loadWaiting (waiting.eraseP (usesLoaded loaded)) (loaded ++ plugin.provides)
        (order ++ [plugin])
termination_by waiting.length
decreasing_by
  have hmem := List.mem_of_find?_eq_some _hfind
  have hlength := List.length_eraseP_of_mem hmem (List.find?_some _hfind)
  have hpos := List.length_pos_of_mem hmem
  omega

def loadOrder (plugins : List Plugin) : Except String (List Plugin) :=
  match checkProvides [] plugins [] with
  | .error error => .error error
  | .ok providers =>
    match checkUses providers plugins with
    | .error error => .error error
    | .ok () => loadWaiting plugins [] []

/-! ## The checks -/

/-- `user` uses a service of `provider`. -/
def Needs (plugins : List Plugin) (user provider : Plugin) : Prop :=
  user ∈ plugins ∧ provider ∈ plugins ∧ ∃ service ∈ user.uses, service ∈ provider.provides

structure Loadable (plugins : List Plugin) : Prop where
  names : (plugins.map Plugin.name).Nodup
  services : (plugins.flatMap Plugin.provides).Nodup
  provided : ∀ plugin ∈ plugins, ∀ service ∈ plugin.uses,
    ∃ provider ∈ plugins, service ∈ provider.provides
  acyclic : Acyclic (Needs plugins)

theorem lookup_isNone {providers : List (String × String)} {service : String} :
    providers.lookup service = none ↔ service ∉ providers.map Prod.fst := by
  rw [List.lookup_eq_none_iff, List.mem_map]
  constructor
  · rintro h ⟨entry, hentry, rfl⟩
    simpa using h entry hentry
  · intro h entry hentry
    rw [bne_iff_ne]
    intro heq
    exact h ⟨entry, hentry, heq.symm⟩

theorem insertProvides_ok (plugin : Plugin) (services : List String)
    (providers after : List (String × String)) :
    plugin.insertProvides services providers = .ok after ↔
      services.Nodup ∧ (∀ service ∈ services, service ∉ providers.map Prod.fst) ∧
        after = (services.map fun service => (service, plugin.name)).reverse ++ providers := by
  induction services generalizing providers with
  | nil =>
    rw [Plugin.insertProvides, Except.ok.injEq]
    simp [eq_comm]
  | cons service rest ih =>
    rw [Plugin.insertProvides]
    cases hlookup : providers.lookup service with
    | some provider =>
      have hmem : service ∈ providers.map Prod.fst := by
        by_contra hnot
        rw [lookup_isNone.mpr hnot] at hlookup
        cases hlookup
      constructor
      · intro h
        cases h
      · rintro ⟨_, hfresh, _⟩
        exact absurd hmem (hfresh service List.mem_cons_self)
    | none =>
      have hfresh := lookup_isNone.mp hlookup
      dsimp only
      rw [ih]
      simp only [List.map_cons, List.mem_cons, not_or, List.nodup_cons, List.reverse_cons,
        List.append_assoc, List.singleton_append, forall_eq_or_imp]
      constructor
      · rintro ⟨hnodup, hrest, hafter⟩
        refine ⟨⟨?_, hnodup⟩, ⟨hfresh, fun other hother => (hrest other hother).2⟩, hafter⟩
        intro hmem
        exact (hrest service hmem).1 rfl
      · rintro ⟨⟨hnot, hnodup⟩, ⟨_, hrest⟩, hafter⟩
        refine ⟨hnodup, fun other hother => ⟨?_, hrest other hother⟩, hafter⟩
        intro heq
        exact hnot (heq ▸ hother)

/-- The services of `plugins`, each with the name of its plugin. -/
def provided (plugins : List Plugin) : List (String × String) :=
  plugins.flatMap fun plugin => plugin.provides.map fun service => (service, plugin.name)

theorem provided_fst (plugins : List Plugin) :
    (provided plugins).map Prod.fst = plugins.flatMap Plugin.provides := by
  induction plugins with
  | nil => rfl
  | cons plugin rest ih =>
    rw [provided, List.flatMap_cons, List.map_append, List.map_map, ← provided, ih,
      List.flatMap_cons]
    congr 1
    exact List.map_id _

theorem checkProvides_ok (earlier rest : List Plugin) (providers after : List (String × String)) :
    checkProvides earlier rest providers = .ok after ↔
      ((rest.map Plugin.name).Nodup ∧ ∀ plugin ∈ rest, plugin.name ∉ earlier.map Plugin.name) ∧
      ((rest.flatMap Plugin.provides).Nodup ∧
        ∀ service ∈ rest.flatMap Plugin.provides, service ∉ providers.map Prod.fst) ∧
      after = (provided rest).reverse ++ providers := by
  induction rest generalizing earlier providers with
  | nil =>
    rw [checkProvides, Except.ok.injEq]
    simp [provided, eq_comm]
  | cons plugin rest ih =>
    rw [checkProvides]
    cases hfind : earlier.find? (·.name = plugin.name) with
    | some other =>
      have hname : plugin.name ∈ earlier.map Plugin.name := by
        have heq : other.name = plugin.name := by simpa using List.find?_some hfind
        exact heq ▸ List.mem_map_of_mem (List.mem_of_find?_eq_some hfind)
      constructor
      · intro h
        dsimp only at h
        split at h
        · cases h
        · cases h
        · cases h
      · rintro ⟨⟨_, hnames⟩, _⟩
        exact absurd hname (hnames plugin List.mem_cons_self)
    | none =>
      have hname : plugin.name ∉ earlier.map Plugin.name := by
        intro hmem
        obtain ⟨other, hother, heq⟩ := List.mem_map.mp hmem
        have hnot := List.find?_eq_none.mp hfind other hother
        exact hnot (by simpa using heq)
      dsimp only
      cases hinsert : plugin.insertProvides plugin.provides providers with
      | error error =>
        constructor
        · intro h
          cases h
        · rintro ⟨_, ⟨hnodup, hfresh⟩, _⟩
          rw [List.flatMap_cons] at hnodup hfresh
          have hok := (insertProvides_ok plugin plugin.provides providers _).mpr
            ⟨(List.nodup_append.mp hnodup).1,
              fun service hservice => hfresh service (List.mem_append_left _ hservice), rfl⟩
          rw [hinsert] at hok
          cases hok
      | ok middle =>
        obtain ⟨hown, hfresh, hmiddle⟩ := (insertProvides_ok _ _ _ _).mp hinsert
        dsimp only
        have hafter : (provided (plugin :: rest)).reverse ++ providers = (provided rest).reverse ++
            ((plugin.provides.map fun service => (service, plugin.name)).reverse ++ providers) := by
          rw [provided, List.flatMap_cons, List.reverse_append, List.append_assoc, provided]
        rw [ih, hmiddle, hafter]
        have hkeys : ((plugin.provides.map fun service => (service, plugin.name)).reverse ++
            providers).map Prod.fst = plugin.provides.reverse ++ providers.map Prod.fst := by
          rw [List.map_append, List.map_reverse, List.map_map]
          congr 2
          exact List.map_id _
        rw [hkeys]
        simp only [List.map_cons, List.nodup_cons, List.map_append, List.map_nil, List.mem_append,
          List.mem_singleton, List.flatMap_cons, List.nodup_append, List.mem_reverse, not_or]
        constructor
        · rintro ⟨⟨hnames, hearlier⟩, ⟨hservices, hnew⟩, hafter⟩
          refine ⟨⟨⟨?_, hnames⟩, ?_⟩, ⟨⟨hown, hservices, ?_⟩, ?_⟩, hafter⟩
          · intro hmem
            obtain ⟨other, hother, heq⟩ := List.mem_map.mp hmem
            exact (hearlier other hother).2 heq
          · intro other hother
            rcases List.mem_cons.mp hother with rfl | hother
            · exact hname
            · exact (hearlier other hother).1
          · intro service hservice other hother heq
            exact (hnew other hother).1 (heq ▸ hservice)
          · rintro service (hservice | hservice)
            · exact hfresh service hservice
            · exact (hnew service hservice).2
        · rintro ⟨⟨⟨hnot, hnames⟩, hearlier⟩, ⟨⟨_, hservices, hapart⟩, hnew⟩, hafter⟩
          refine ⟨⟨hnames, fun other hother => ⟨hearlier other (.tail _ hother), ?_⟩⟩,
            ⟨hservices, fun service hservice => ⟨?_, hnew service (.inr hservice)⟩⟩, hafter⟩
          · intro heq
            exact hnot (heq ▸ List.mem_map_of_mem hother)
          · intro hmem
            exact hapart service hmem service hservice rfl

theorem checkUses_ok (providers : List (String × String)) (plugins : List Plugin) :
    checkUses providers plugins = .ok () ↔
      ∀ plugin ∈ plugins, ∀ service ∈ plugin.uses, service ∈ providers.map Prod.fst := by
  induction plugins with
  | nil => simp [checkUses]
  | cons plugin rest ih =>
    rw [checkUses]
    cases hfind : plugin.uses.find? fun service => (providers.lookup service).isNone with
    | some service =>
      have hnone := List.find?_some hfind
      rw [Option.isNone_iff_eq_none] at hnone
      constructor
      · intro h
        cases h
      · intro h
        exact absurd (h plugin List.mem_cons_self service (List.mem_of_find?_eq_some hfind))
          (lookup_isNone.mp hnone)
    | none =>
      dsimp only
      rw [ih, List.forall_mem_cons, and_iff_right]
      intro service hservice
      by_contra hnot
      apply List.find?_eq_none.mp hfind service hservice
      rw [lookup_isNone.mpr hnot, Option.isNone_none]

/-! ## The loop -/

/-- `order` took all of `plugins` that no longer wait, each time the first one that was ready. -/
structure Loading (plugins order : List Plugin) : Prop where
  nodup : order.Nodup
  subset : ∀ plugin ∈ order, plugin ∈ plugins
  needs_first : NeedsFirst (Needs plugins) order
  first : FirstReady (fun placed => usesLoaded (placed.flatMap Plugin.provides)) plugins order

theorem usesLoaded_iff {plugins placed : List Plugin} {plugin : Plugin}
    (hservices : (plugins.flatMap Plugin.provides).Nodup)
    (hprovided : ∀ service ∈ plugin.uses, ∃ provider ∈ plugins, service ∈ provider.provides)
    (hplugin : plugin ∈ plugins) (hplaced : ∀ other ∈ placed, other ∈ plugins) :
    usesLoaded (placed.flatMap Plugin.provides) plugin = true ↔
      ∀ provider, Needs plugins plugin provider → provider ∈ placed := by
  rw [usesLoaded, List.all_eq_true]
  simp only [decide_eq_true_eq, List.mem_flatMap]
  constructor
  · rintro h provider ⟨_, hprovider, service, huses, hservice⟩
    obtain ⟨other, hother, hgives⟩ := h service huses
    -- Each service is listed once, so the two providers are one.
    have heq : other = provider := by
      by_contra hne
      have hsymm : Std.Symm (Function.onFun List.Disjoint Plugin.provides) :=
        ⟨fun _ _ h => List.Disjoint.symm h⟩
      have hapart := (List.nodup_flatMap.mp hservices).2
      exact hapart.forall (hplaced other hother) hprovider hne hgives hservice
    exact heq ▸ hother
  · intro h service huses
    obtain ⟨provider, hprovider, hservice⟩ := hprovided service huses
    exact ⟨provider, h provider ⟨hplugin, hprovider, service, huses, hservice⟩, hservice⟩

section Loop

variable {plugins : List Plugin} (hnodup : plugins.Nodup)
  (hservices : (plugins.flatMap Plugin.provides).Nodup)
  (hprovided : ∀ plugin ∈ plugins, ∀ service ∈ plugin.uses,
    ∃ provider ∈ plugins, service ∈ provider.provides)

include hservices hprovided in
theorem Loading.concat {order : List Plugin} {plugin : Plugin} (h : Loading plugins order)
    (hfind : (plugins.filter (· ∉ order)).find?
      (usesLoaded (order.flatMap Plugin.provides)) = some plugin) :
    Loading plugins (order ++ [plugin]) := by
  obtain ⟨hplugin, hnot⟩ := List.mem_filter.mp (List.mem_of_find?_eq_some hfind)
  rw [decide_eq_true_eq] at hnot
  constructor
  · rw [List.nodup_append]
    refine ⟨h.nodup, List.nodup_singleton plugin, ?_⟩
    intro other hother last hlast heq
    rw [List.mem_singleton.mp hlast] at heq
    exact hnot (heq ▸ hother)
  · intro other hother
    rcases List.mem_append.mp hother with hother | hother
    · exact h.subset other hother
    · exact List.mem_singleton.mp hother ▸ hplugin
  · apply h.needs_first.concat
    exact (usesLoaded_iff hservices (hprovided plugin hplugin) hplugin h.subset).mp
      (List.find?_some hfind)
  · exact h.first.concat hfind

include hnodup hservices hprovided in
theorem loadWaiting_ok {order result : List Plugin} (h : Loading plugins order)
    (hresult : loadWaiting (plugins.filter (· ∉ order)) (order.flatMap Plugin.provides) order =
      .ok result) :
    Loading plugins result ∧ ∀ plugin ∈ plugins, plugin ∈ result := by
  induction hleft : (plugins.filter (· ∉ order)).length using Nat.strong_induction_on
    generalizing order with
  | _ left ih =>
    rw [loadWaiting] at hresult
    split at hresult
    · next hempty =>
      cases hresult
      refine ⟨h, fun plugin hplugin => ?_⟩
      by_contra hnot
      rw [List.isEmpty_iff, List.filter_eq_nil_iff] at hempty
      exact hempty plugin hplugin (by simpa using hnot)
    · split at hresult
      · cases hresult
      · next plugin hfind =>
        have hmem := List.mem_of_find?_eq_some hfind
        have hlength := List.length_eraseP_of_mem hmem (List.find?_some hfind)
        have hpos := List.length_pos_of_mem hmem
        have hnext := h.concat hservices hprovided hfind
        rw [eraseP_left hnodup hfind] at hresult hlength
        have hmore : (order ++ [plugin]).flatMap Plugin.provides =
            order.flatMap Plugin.provides ++ plugin.provides := by simp
        rw [← hmore] at hresult
        exact ih _ (by omega) hnext hresult rfl

include hnodup hservices hprovided in
theorem loadWaiting_of_acyclic (hacyclic : Acyclic (Needs plugins)) {order : List Plugin}
    (h : Loading plugins order) :
    ∃ result, loadWaiting (plugins.filter (· ∉ order)) (order.flatMap Plugin.provides) order =
      .ok result := by
  induction hleft : (plugins.filter (· ∉ order)).length using Nat.strong_induction_on
    generalizing order with
  | _ left ih =>
    rw [loadWaiting]
    split
    · exact ⟨order, rfl⟩
    · next hwaiting =>
      rw [List.isEmpty_iff] at hwaiting
      split
      · next hnone =>
        exfalso
        obtain ⟨free, hfree, hneeds⟩ := hacyclic.exists_free hwaiting
        have hplugin := (List.mem_filter.mp hfree).1
        apply List.find?_eq_none.mp hnone free hfree
        apply (usesLoaded_iff hservices (hprovided free hplugin) hplugin h.subset).mpr
        intro provider hprovider
        by_contra hnot
        apply hneeds provider _ hprovider
        exact List.mem_filter.mpr ⟨hprovider.2.1, by simpa using hnot⟩
      · next plugin hfind =>
        have hmem := List.mem_of_find?_eq_some hfind
        have hlength := List.length_eraseP_of_mem hmem (List.find?_some hfind)
        have hpos := List.length_pos_of_mem hmem
        have hnext := h.concat hservices hprovided hfind
        rw [eraseP_left hnodup hfind] at hlength ⊢
        have hmore : (order ++ [plugin]).flatMap Plugin.provides =
            order.flatMap Plugin.provides ++ plugin.provides := by simp
        rw [← hmore]
        exact ih _ (by omega) hnext rfl

end Loop

/-- What a load order is: all plugins, each provider before its users, and at each place the first
plugin of the list whose services are provided before. -/
structure LoadsInOrder (plugins order : List Plugin) : Prop where
  perm : order.Perm plugins
  providers_first : ∀ i user, order[i]? = some user → ∀ provider ∈ plugins,
    ∀ service ∈ user.uses, service ∈ provider.provides → provider ∈ order.take i
  first : ∀ i, i < order.length →
    (plugins.filter (· ∉ order.take i)).find?
      (fun plugin => plugin.uses.all (· ∈ (order.take i).flatMap Plugin.provides)) = order[i]?

theorem Loading.loadsInOrder {plugins order : List Plugin} (hnodup : plugins.Nodup)
    (h : Loading plugins order) (hall : ∀ plugin ∈ plugins, plugin ∈ order) :
    LoadsInOrder plugins order := by
  constructor
  · apply (List.perm_ext_iff_of_nodup h.nodup hnodup).mpr
    intro plugin
    exact ⟨h.subset plugin, hall plugin⟩
  · intro i user huser provider hprovider service huses hservice
    apply h.needs_first i user huser
    exact ⟨h.subset user (List.mem_of_getElem? huser), hprovider, service, huses, hservice⟩
  · exact h.first

theorem loadOrder_ok (plugins order : List Plugin) :
    loadOrder plugins = .ok order ↔
      (plugins.map Plugin.name).Nodup ∧ (plugins.flatMap Plugin.provides).Nodup ∧
        (∀ plugin ∈ plugins, ∀ service ∈ plugin.uses,
          ∃ provider ∈ plugins, service ∈ provider.provides) ∧
        loadWaiting plugins [] [] = .ok order := by
  have huses : ∀ providers, checkProvides [] plugins [] = .ok providers →
      (checkUses providers plugins = .ok () ↔ ∀ plugin ∈ plugins, ∀ service ∈ plugin.uses,
        ∃ provider ∈ plugins, service ∈ provider.provides) := by
    intro providers hproviders
    obtain ⟨_, _, rfl⟩ := (checkProvides_ok _ _ _ _).mp hproviders
    rw [checkUses_ok, List.append_nil, List.map_reverse, provided_fst]
    simp only [List.mem_reverse, List.mem_flatMap]
  rw [loadOrder]
  constructor
  · intro h
    split at h
    · cases h
    · next providers hproviders =>
      obtain ⟨⟨hnames, _⟩, ⟨hservices, _⟩, _⟩ := (checkProvides_ok _ _ _ _).mp hproviders
      split at h
      · cases h
      · next hchecked =>
        exact ⟨hnames, hservices, (huses providers hproviders).mp hchecked, h⟩
  · rintro ⟨hnames, hservices, hprovided, hloop⟩
    have hproviders := (checkProvides_ok [] plugins [] _).mpr
      ⟨⟨hnames, fun _ _ => by simp⟩, ⟨hservices, fun _ _ => by simp⟩, rfl⟩
    rw [hproviders]
    dsimp only
    rw [(huses _ hproviders).mpr hprovided]
    exact hloop

theorem loading_nil (plugins : List Plugin) : Loading plugins [] := by
  constructor
  · exact List.nodup_nil
  · intro plugin hplugin
    cases hplugin
  · intro i plugin hplugin
    cases hplugin
  · intro i hi
    cases hi

/-- A list has a load order if and only if its names and services come once, each used service has
a provider, and no cycle of uses exists; and the order is the first one. -/
theorem loadOrder_spec (plugins : List Plugin) :
    ((∃ order, loadOrder plugins = .ok order) ↔ Loadable plugins) ∧
      ∀ order, loadOrder plugins = .ok order → LoadsInOrder plugins order := by
  have hall : ∀ order, loadOrder plugins = .ok order →
      Loadable plugins ∧ LoadsInOrder plugins order := by
    intro order h
    obtain ⟨hnames, hservices, hprovided, hloop⟩ := (loadOrder_ok plugins order).mp h
    have hnodup := List.Nodup.of_map _ hnames
    obtain ⟨hloading, hmem⟩ := loadWaiting_ok hnodup hservices hprovided (loading_nil plugins)
      (by simpa using hloop)
    refine ⟨⟨hnames, hservices, hprovided, ?_⟩, hloading.loadsInOrder hnodup hmem⟩
    exact hloading.needs_first.acyclic fun user provider hneeds => hmem user hneeds.1
  refine ⟨⟨?_, ?_⟩, fun order h => (hall order h).2⟩
  · rintro ⟨order, h⟩
    exact (hall order h).1
  · intro h
    have hnodup := List.Nodup.of_map _ h.names
    obtain ⟨order, horder⟩ := loadWaiting_of_acyclic hnodup h.services h.provided h.acyclic
      (loading_nil plugins)
    refine ⟨order, (loadOrder_ok plugins order).mpr ⟨h.names, h.services, h.provided, ?_⟩⟩
    simpa using horder

def notesUser : Plugin := ⟨"user", .given, ["notes"], []⟩

def notesProvider : Plugin := ⟨"provider", .bundled "yuke:notes", [], ["notes"]⟩

/-- A provider after its user moves before it. -/
theorem loadOrder_moves : LoadsInOrder [notesUser, notesProvider] [notesProvider, notesUser] := by
  apply (loadOrder_spec [notesUser, notesProvider]).2
  have hloop : loadWaiting [notesUser, notesProvider] [] [] = .ok [notesProvider, notesUser] := by
    rw [loadWaiting]
    change loadWaiting [notesUser] ["notes"] [notesProvider] = _
    rw [loadWaiting]
    change loadWaiting [] ["notes"] [notesProvider, notesUser] = _
    rw [loadWaiting]
    rfl
  exact hloop

end Yuke.Plugins
