import SiteMacros.Proofs.Emissions
import SiteMacros.Proofs.ResourceFiles
import SiteMacros.Proofs.RouteTrees

/-!
# Registrations of a pages tree

A call that loads routes goes through the routes of a pages tree from the top, and where a
route has translations it loads them, makes their namespace known, and puts a registration
below the imports. The routes are not the pages. An index view beside other pages has a route
too, the routes of siblings are in an order of their own, and the path of a fallback is
rewritten. None of this touches the translations: a route has those of its page, and that of an
index view has none (`translated_perm`). So each page with translations is registered, and it
is registered once.

A registration is told from its form (`IsRegistration`): a function that adds one bundle for
each file, given to the function that waits for the holder of translations. Its names are those
of the module's imports after the call, since an import keeps the name that it was given.
-/

namespace SiteMacros

open ImportScope

namespace Translations

/-! ## The form of a registration -/

/-- The call that adds the bundle of a file to the namespace. -/
def IsAddition (later : ImportScope) (holder id : String) (r : Resource) (e : Expression) :
    Prop :=
  ∃ bundle, later.bound.lookup ⟨r.specifier, .default⟩ = some bundle ∧
    e = .call (.member (.name holder) "addResourceBundle")
      [.string r.language, .string id, .name bundle, .bool true, .bool true]

/-- The call that registers the translations: one addition for each file, made as soon as the
holder is initialized. -/
def IsRegistration (runtime : TranslationRuntime) (later : ImportScope) (t : Translations)
    (e : Expression) : Prop :=
  ∃ holder additions, later.bound.lookup runtime.holder = some holder ∧
    List.Forall₂ (IsAddition later holder t.id) t.resources additions ∧
    e = .call (.arrow ["register"]
      (.conditional (.member (.name holder) "isInitialized") (.call (.name "register") [])
        (.call (.member (.name holder) "on") [.string "initialized", .name "register"])))
      [.arrowBlock [] additions]

theorem IsRegistration.grown {runtime : TranslationRuntime} {scope later : ImportScope}
    {t : Translations} {e : Expression} (h : IsRegistration runtime scope t e)
    (hgrown : Grown scope later) : IsRegistration runtime later t e := by
  obtain ⟨holder, additions, hholder, hadditions, he⟩ := h
  refine ⟨holder, additions, hgrown.lookup hholder, hadditions.imp fun r a ha => ?_, he⟩
  obtain ⟨bundle, hbundle, ha⟩ := ha
  exact ⟨bundle, hgrown.lookup hbundle, ha⟩

theorem emits_registration (runtime : TranslationRuntime) (t : Translations) :
    Emits (t.emit runtime) fun later e => IsRegistration runtime later t e := by
  refine .bind (.requestDefault _ _) fun holder => ?_
  refine .bind (.mapM (P := fun later => IsAddition later holder t.id)
    (fun r => .bind (.requestDefault _ _) fun bundle => .pure fun _ hbundle => ?_)
      t.resources) fun additions => ?_
  · exact ⟨bundle, hbundle, rfl⟩
  · exact .pure fun later hadditions hholder => ⟨holder, additions, hholder, hadditions, rfl⟩

end Translations

/-! ## Translations of routes -/

namespace Route

theorem translations_ofChild (p : Page) :
    (ofChild p).translations = p.imports.translations.map (p.id, ·) := by
  rw [ofChild, ofPage_eq]
  rcases p.kind with _ | (n | n | _) <;> rfl

theorem translations_indexRoute (p : Page) :
    p.indexRoute?.toList.filterMap (·.translations) = [] := by
  cases h : p.indexRoute? with
  | none => rfl
  | some r =>
      obtain ⟨index, hindex⟩ := isIndexOf_of_indexRoute h
      rw [Option.toList_some, List.filterMap_cons, hindex.translations, List.filterMap_nil]

/-- The routes of a tree have the translations of its pages, each page's once. -/
theorem translated_perm {p : Page} (h : p.Formed) :
    (ofChild p).translated.Perm
      (p.placed.filterMap fun q => q.2.imports.translations.map (q.2.id, ·)) := by
  have hpages : ∀ qs : List (List String × Page),
      (qs.flatMap fun q => ofChild q.2 :: q.2.indexRoute?.toList).filterMap (·.translations) =
        qs.filterMap fun q => q.2.imports.translations.map (q.2.id, ·) := by
    intro qs
    induction qs with
    | nil => rfl
    | cons q qs ih =>
        rw [List.flatMap_cons, List.cons_append, List.filterMap_cons, List.filterMap_append,
          translations_indexRoute, List.nil_append, ih, translations_ofChild, List.filterMap_cons]
  rw [← hpages]
  exact (flatten_ofChild_perm h).filterMap _

end Route

namespace Expansion

open Script

variable {s : Surroundings}

/-- The registration of a page's translations: the id is the page's, and the files are those
that are loaded from its directory. -/
def RegistersPage (s : Surroundings) (pages : ImportPattern) (later : ImportScope)
    (row : String × Path) (registration : Expression) : Prop :=
  ∃ loaded, Translations.ofPage s.tree row.1 row.2 s.configuration.translations.languages
      (specifierBy s pages) = .ok loaded ∧ loaded.id = row.1 ∧
    loaded.IsRegistration s.configuration.translations.runtime later registration

/-- What the translations of some routes come to: a registration for each, and their
namespaces. -/
structure RegistersPages (s : Surroundings) (pages : ImportPattern) (rows : List (String × Path))
    (x y : Expansion) : Prop where
  registrations : ∃ registrations, y.prelude = x.prelude ++ registrations ∧
    List.Forall₂ (RegistersPage s pages y.scope) rows registrations
  namespaces : ∀ ns, ns ∈ y.registry.namespaces ↔
    ns ∈ rows.map (·.1) ∨ ns ∈ x.registry.namespaces
  routes : y.registry.routes = x.registry.routes
  scope : Grown x.scope y.scope

theorem RegistersPages.refl (pages : ImportPattern) (x : Expansion) :
    RegistersPages s pages [] x x where
  registrations := ⟨[], (List.append_nil _).symm, .nil⟩
  namespaces _ := (or_iff_right List.not_mem_nil).symm
  routes := rfl
  scope := .refl _

theorem RegistersPages.cons {pages : ImportPattern} {row : String × Path}
    {rows : List (String × Path)} {x y z : Expansion} {registration : Expression}
    {loaded : Translations}
    (hloaded : Translations.ofPage s.tree row.1 row.2 s.configuration.translations.languages
      (specifierBy s pages) = .ok loaded)
    (hprelude : y.prelude = x.prelude ++ [registration])
    (hfirst : Loads s x y loaded registration) (hrest : RegistersPages s pages rows y z) :
    RegistersPages s pages (row :: rows) x z := by
  obtain ⟨_, _, -, -, heq⟩ := Translations.ofPage_eq_ok hloaded
  have hid : loaded.id = row.1 := by rw [heq]
  obtain ⟨hgrown, hregistration⟩ :=
    (Translations.emits_registration s.configuration.translations.runtime loaded).of_run
      hfirst.emitted
  obtain ⟨registrations, hrestPrelude, hrows⟩ := hrest.registrations
  refine ⟨⟨registration :: registrations, ?_, .cons ?_ hrows⟩, fun ns => ?_, ?_,
    hgrown.trans hrest.scope⟩
  · rw [hrestPrelude, hprelude, List.append_assoc, List.singleton_append]
  · exact ⟨loaded, hloaded, hid, hregistration.grown hrest.scope⟩
  · rw [hrest.namespaces, hfirst.namespaces.namespaces, hid, List.map_cons, List.mem_cons,
      or_assoc, or_left_comm]
  · rw [hrest.routes, hfirst.namespaces.routes]

/-- The translations of routes are registered route by route. -/
theorem registersPages_forM (pages : ImportPattern) (routes : List Route) {x y : Expansion}
    (h : perform (routes.forM (loadRouteTranslations pages)) s x = (.ok (), y)) :
    RegistersPages s pages (routes.filterMap (·.translations)) x y := by
  induction routes generalizing x with
  | nil =>
      cases h
      exact .refl pages _
  | cons route routes ih =>
      obtain ⟨_, z, hroute, hrest⟩ := exists_of_perform_bind_ok h
      rw [List.filterMap_cons]
      cases htranslations : route.translations with
      | none =>
          rw [loadRouteTranslations, htranslations] at hroute
          cases hroute
          exact ih hrest
      | some row =>
          obtain ⟨loaded, registration, z', hloaded, hrun, hprelude, hloads⟩ :=
            perform_loadRouteTranslations x pages htranslations
          obtain rfl : z' = z := (Prod.mk.inj (hrun.symm.trans hroute)).2
          exact .cons hloaded hprelude hloads (ih hrest)

/-! ## A call -/

/-- The registry has gained what a pages tree has: the route of each page at its directory,
and the namespaces of the pages that have translations. -/
structure GainsPages (root : Page) (r r' : Registry) : Prop where
  routes : ∀ q ∈ root.placed, r'.routes.get? q.2.dir = some q.2.route
  elsewhere : ∀ dir : Path, (∀ q ∈ root.placed, q.2.dir.components ≠ dir.components) →
    r'.routes.entryAt? dir = r.routes.entryAt? dir
  namespaces : ∀ ns, ns ∈ r'.namespaces ↔
    (∃ q ∈ root.placed, q.2.imports.translations.isSome = true ∧ q.2.id = ns) ∨
      ns ∈ r.namespaces

theorem mem_rows {root : Page} {ns : String} :
    ns ∈ (root.placed.filterMap fun q => q.2.imports.translations.map (q.2.id, ·)).map (·.1) ↔
      ∃ q ∈ root.placed, q.2.imports.translations.isSome = true ∧ q.2.id = ns := by
  rw [List.mem_map]
  constructor
  · rintro ⟨row, hrow, rfl⟩
    obtain ⟨q, hq, hmap⟩ := List.mem_filterMap.1 hrow
    obtain ⟨dir, hdir, rfl⟩ := Option.map_eq_some_iff.1 hmap
    exact ⟨q, hq, by rw [hdir]; rfl, rfl⟩
  · rintro ⟨q, hq, hsome, rfl⟩
    obtain ⟨dir, hdir⟩ := Option.isSome_iff_exists.1 hsome
    exact ⟨(q.2.id, dir), List.mem_filterMap.2 ⟨q, hq, by rw [hdir]; rfl⟩, rfl⟩

/-- The routes come from reading the pages, and the namespaces from their translations. -/
theorem gainsPages_of_load {pattern base : String} {pages : PageTree} {r : Registry}
    {y z : Expansion} (hsound : s.tree.Sound)
    (hresult : (PageTree.load s.tree (pageRequest s pattern base)).result = .ok pages)
    (hregistry : y.registry = r.registerAll (pageRegistrations s pattern base))
    {rows : List (String × Path)} (hregisters : RegistersPages s pages.pattern rows y z)
    (hrows : rows.Perm
      (pages.root.placed.filterMap fun q => q.2.imports.translations.map (q.2.id, ·))) :
    GainsPages pages.root r z.registry := by
  obtain ⟨entries, hfind, hreported, -⟩ := PageTree.load_reports hsound hresult
  have hgained := hreported.gained (hsound.find hfind) r
  rw [← pageRegistrations, ← hregistry] at hgained
  have hvisited := PageTree.mem_visited_load hresult
  refine ⟨fun q hq => ?_, fun dir hdir => ?_, fun ns => ?_⟩
  · rw [hregisters.routes]
    exact hgained.routes q.2 ((hvisited q.2).2 ⟨q.1, hq⟩)
  · rw [hregisters.routes]
    refine hgained.elsewhere dir fun p hp => ?_
    obtain ⟨names, hplaced⟩ := (hvisited p).1 hp
    exact hdir _ hplaced
  · rw [hregisters.namespaces, hgained.namespaces, (hrows.map _).mem_iff, mem_rows]

/-- A call that loads routes registers the translations of each page once. Its registrations
are those of the routes with translations, in the order of the route tree, and these are the
pages with translations. The registry gains the pages' namespaces and their routes, and
nothing else. -/
theorem expand_registers_pages {call : MacroCall} {x y : Expansion} {e : Expression}
    (hsound : s.tree.Sound) (hcallee : call.callee = .loadRoutes)
    (hrun : perform (expand call) s x = (.ok e, y)) :
    ∃ pattern base pages registrations, LoadsRoutes s call x.registry pattern base ∧
      (PageTree.load s.tree (pageRequest s pattern base)).result = .ok pages ∧
      y.prelude = x.prelude ++ registrations ∧
      List.Forall₂ (RegistersPage s pages.pattern y.scope)
        ((Route.ofPage pages.root).flatten.filterMap (·.translations)) registrations ∧
      ((Route.ofPage pages.root).flatten.filterMap (·.translations)).Perm
        (pages.root.placed.filterMap fun q => q.2.imports.translations.map (q.2.id, ·)) ∧
      GainsPages pages.root x.registry y.registry := by
  have hexpand : expand call = loadRoutes call := by rw [expand, hcallee]
  rw [hexpand] at hrun
  obtain ⟨pattern, base, pages, z, z', hloads, hpages, htranslations, hroutes⟩ :=
    exists_of_loadRoutes_ok hcallee hrun
  obtain ⟨hresult, hregistry⟩ := perform_loadPages_ok hpages
  obtain ⟨hformed, hkind⟩ := PageTree.formed_of_load hresult
  obtain ⟨hscope, hprelude⟩ := quiet_loadPages (s := s) pattern base x
  rw [hpages] at hscope hprelude
  have hperm := Route.translated_perm hformed
  rw [Route.ofChild_of_root hkind] at hperm
  have hregisters := registersPages_forM pages.pattern _ htranslations
  -- the expression for the routes comes after the registrations, and needs imports of its own
  obtain ⟨hgrown, -⟩ := ((Route.ofPage pages.root).emits s.configuration.pages.wrapper).of_run
    (show _ = (e, y.scope) by cases hroutes; rfl)
  have hlast : y.prelude = z'.prelude ∧ y.registry = z'.registry := by
    cases hroutes
    exact ⟨rfl, rfl⟩
  obtain ⟨registrations, hadded, hrows⟩ := hregisters.registrations
  refine ⟨pattern, base, pages, registrations, hloads, hresult, ?_, ?_, hperm, ?_⟩
  · rw [hlast.1, hadded, hprelude]
  · refine hrows.imp fun row registration h => ?_
    obtain ⟨loaded, hloaded, hid, hregistration⟩ := h
    exact ⟨loaded, hloaded, hid, hregistration.grown hgrown⟩
  · rw [hlast.2]
    exact gainsPages_of_load hsound hresult hregistry hregisters hperm

/-- Pages with an index view beside a fallback, both of them with translations. -/
def fallbackPages : Surroundings where
  tree := .dir [("pages", .dir [("index.tsx", .file ""),
    ("translations", .dir [("en.yaml", .file "")]),
    ("[0]x", .dir [("index.tsx", .file ""), ("meta.ts", .file ""),
      ("translations", .dir [("de.yml", .file "")])])])]
  configuration := {}
  root := ⟨"/"⟩
  file := ⟨"/a.ts"⟩

/-- The tree has three routes, and two of them have translations. -/
theorem expand_registers_pages_fallback :
    fallbackPages.tree.Sound ∧ ∃ e y pages,
      perform (expand (routesOf "./pages")) fallbackPages fresh = (.ok e, y) ∧
      (PageTree.load fallbackPages.tree (pageRequest fallbackPages "./pages" "/")).result =
        .ok pages ∧
      (Route.ofPage pages.root).flatten.map (·.id) = ["pages", "pages|index", "pages|[0]x"] ∧
      List.Forall₂ (RegistersPage fallbackPages pages.pattern y.scope)
        [("pages", ⟨"/pages/translations"⟩), ("pages|[0]x", ⟨"/pages/[0]x/translations"⟩)]
        y.prelude ∧
      GainsPages pages.root {} y.registry := by
  have hsound : fallbackPages.tree.Sound := by decide +kernel
  have hok : (perform (expand (routesOf "./pages")) fallbackPages fresh).1.toOption.isSome =
      true := by
    decide +kernel
  have hrows : (PageTree.load fallbackPages.tree
      (pageRequest fallbackPages "./pages" "/")).result.toOption.map (fun pages =>
        ((Route.ofPage pages.root).flatten.map (·.id),
          (Route.ofPage pages.root).flatten.filterMap (·.translations))) =
      some (["pages", "pages|index", "pages|[0]x"], [("pages", ⟨"/pages/translations"⟩),
        ("pages|[0]x", ⟨"/pages/[0]x/translations"⟩)]) := by
    decide +kernel
  rcases hrun : perform (expand (routesOf "./pages")) fallbackPages fresh with ⟨_ | e, y⟩
  · rw [hrun] at hok
    cases hok
  · obtain ⟨pattern, base, pages, registrations, hloads, hresult, hprelude, hregisters, -,
      hgains⟩ := expand_registers_pages hsound rfl hrun
    obtain rfl : "./pages" = pattern := Except.ok.inj hloads.pattern
    obtain rfl : "/" = base := Except.ok.inj hloads.base
    rw [hresult] at hrows
    obtain ⟨hids, htranslated⟩ := Prod.mk.inj (Option.some.inj hrows)
    rw [htranslated] at hregisters
    have hempty : fresh.prelude = [] := rfl
    rw [hempty, List.nil_append] at hprelude
    rw [← hprelude] at hregisters
    exact ⟨hsound, e, y, pages, rfl, hresult, hids, hregisters, hgains⟩

end Expansion

end SiteMacros
