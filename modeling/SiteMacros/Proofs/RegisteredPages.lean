import SiteMacros.Proofs.Destinations
import SiteMacros.Proofs.PageDirectories
import SiteMacros.Proofs.Repeats

/-!
# Pages that are found

A call that loads routes registers the directory of each page, and the namespaces of
the translations that the pages have. Files in these directories look both up later, by
the paths that they have. What they ask for is registered under the path that the
pattern gave to the directory, and the two paths are compared by their components. So
it depends on the pattern whether a page is found.

Slashes and dots do not count, and `..` at the front of a pattern are resolved before
anything is joined to the module's directory. A pattern that has no others is direct:
it leads to the pages through names, and every page is found (`expand_finds_pages`). A
`..` further on stays in the paths of all the pages. No file has such a path, so the
pages are registered where nobody asks, and the answers are what they would be without
them.

That a page is found has nothing to do with what else is in the registry. Its directory
is its own nearest one, and no namespace around a page is longer than its own. Where two
pages of one tree are concerned, the names that lead to them are different, so one does
not overwrite the route of the other.
-/

namespace SiteMacros

/-! ## Namespaces of directories -/

namespace Path

theorem slashed_components {p : Path} (h : p.isAbsolute = false) :
    slashed p.components =
      slashed (((Text.pieces '/' p.text.toList).map pieces.inner).filterMap (·.2)) := by
  obtain ⟨q, qs, hq⟩ := List.exists_cons_of_ne_nil (Text.pieces_ne_nil '/' p.text.toList)
  rw [components, h, if_neg Bool.false_ne_true, pieces_relative h hq, hq, List.map_cons, first]
  split
  · next hdot =>
      subst hdot
      rfl
  · rfl

/-- Seen from a directory, all spellings of a path have the same names and steps. -/
theorem toSlashed_relativeTo? {p p' : Path} (base : Path) (hp : p.isAbsolute = true)
    (hp' : p'.isAbsolute = true) (h : p.components = p'.components) :
    (p.relativeTo? base).map toSlashed = (p'.relativeTo? base).map toSlashed := by
  have hstarts : p.startsWith base = p'.startsWith base := by rw [startsWith, startsWith, h]
  cases hbelow : p.startsWith base with
  | false =>
      rw [relativeTo?, relativeTo?, ← hstarts, hbelow]
      rfl
  | true =>
      have hsteps : p.pieces.filterMap (·.2) = p'.pieces.filterMap (·.2) := by
        rw [components, components, hp, hp'] at h
        exact (List.cons.inj h).2
      cases hbase : base.components with
      | nil =>
          have hwhole : ∀ q : Path, q.isAbsolute = true → q.startsWith base = true →
              (q.relativeTo? base).map toSlashed = some (slashed q.components) := by
            intro q hq hq'
            rw [relativeTo?, if_pos hq', hbase]
            dsimp only [List.length_nil]
            rw [Option.map_some, toSlashed,
              components_ofPieces (dropEndWhile_isPrefix idle q.pieces), hq, if_pos rfl,
              filterMap_dropEndWhile_idle, components, hq, if_pos rfl]
          rw [hwhole p hp hbelow, hwhole p' hp' (hstarts ▸ hbelow), h]
      | cons c cs =>
          obtain ⟨rest, hrest⟩ := List.isPrefixOf_iff_prefix.1 hbelow
          have hroot : base.isAbsolute = true := by
            cases habs : base.isAbsolute with
            | true => rfl
            | false =>
                rw [hbase, components, hp, if_pos rfl, List.cons_append] at hrest
                have hmem : Component.root ∈ base.components := by
                  rw [hbase, (List.cons.inj hrest).1]
                  exact List.mem_cons_self
                rw [components, habs, if_neg Bool.false_ne_true] at hmem
                obtain ⟨q, hq, hsnd⟩ := List.mem_filterMap.1 hmem
                exact absurd (List.mem_map.2 ⟨q, hq, hsnd⟩) base.root_not_mem_pieces
          have hbelow : p.pieces.filterMap (·.2) = base.pieces.filterMap (·.2) ++ rest := by
            rw [components, components, hroot, hp, if_pos rfl, if_pos rfl] at hrest
            exact (List.cons.inj hrest).2.symm
          obtain ⟨rel, hrel, habs, hcs, -⟩ := relativeTo?_steps hp hroot hbelow
          obtain ⟨rel', hrel', habs', hcs', -⟩ := relativeTo?_steps hp' hroot (hsteps ▸ hbelow)
          rw [hrel, hrel', Option.map_some, Option.map_some, toSlashed, toSlashed,
            slashed_components habs, slashed_components habs', hcs, hcs']

end Path

/-- The namespace of a directory is the same in all spellings of its path. -/
theorem Namespace.ofDirectory_congr {dir dir' : Path} (hdir : dir.isAbsolute = true)
    (hdir' : dir'.isAbsolute = true) (h : dir.components = dir'.components) (root : Path) :
    ofDirectory dir root = ofDirectory dir' root := by
  have hrel := Path.toSlashed_relativeTo? root hdir hdir' h
  have hslashed : ((dir.relativeTo? root).getD dir).toSlashed =
      ((dir'.relativeTo? root).getD dir').toSlashed := by
    cases hfound : dir.relativeTo? root with
    | none =>
        rw [hfound, Option.map_none] at hrel
        rw [Option.map_eq_none_iff.1 hrel.symm, Option.getD_none, Option.getD_none,
          Path.toSlashed, Path.toSlashed, h]
    | some rel =>
        rw [hfound, Option.map_some] at hrel
        obtain ⟨rel', hrel', heq⟩ := Option.map_eq_some_iff.1 hrel.symm
        rw [hrel', Option.getD_some, Option.getD_some, heq]
  rw [ofDirectory, ofDirectory, hslashed]

/-! ## Pages that are visited -/

namespace PageTree

section
variable {req : PageRequest} {pattern : ImportPattern}

theorem gather_visited {vs : List (Visit Page)} {ps : List Page}
    (h : (gather vs).result = .ok ps) : (gather vs).visited = vs.flatMap (·.visited) := by
  induction vs generalizing ps with
  | nil => rfl
  | cons v vs ih =>
      rw [gather] at h ⊢
      cases hv : v.result with
      | error e =>
          rw [hv] at h
          cases h
      | ok p =>
          rw [hv] at h
          dsimp only at h ⊢
          cases hrest : (gather vs).result with
          | error e =>
              rw [hrest] at h
              cases h
          | ok rest => rw [ih hrest, List.flatMap_cons]

/-- The pages below a directory are visited before its own. -/
theorem visited_of_ok {f : Frame} {es : List (String × FileTree)} {page : Page}
    (h : (visit req pattern f (.dir es)).result = .ok page) :
    (visit req pattern f (.dir es)).visited =
      (orderedPages f es).flatMap (fun c => (visit req pattern c.2.1 c.2.2).visited) ++ [page] := by
  rw [visit_dir] at h ⊢
  dsimp only at h ⊢
  split at h
  · cases h
  · next hpresent =>
      rw [if_neg hpresent]
      rw [close] at h ⊢
      split at h
      · next page' hpage =>
          cases h
          obtain ⟨children, hchildren, -⟩ := Expansion.exists_of_bind_eq_ok hpage
          rw [below_eq_gather] at hchildren ⊢
          dsimp only
          rw [gather_visited hchildren, List.flatMap_map]
      · cases h

/-- The visited pages of a complete tree are its pages. -/
theorem mem_visited (node : FileTree) : ∀ (f : Frame) (es : List (String × FileTree)) (page : Page),
    node = .dir es → (visit req pattern f (.dir es)).result = .ok page →
      ∀ p, p ∈ (visit req pattern f (.dir es)).visited ↔ ∃ names, (names, p) ∈ page.placed := by
  induction node using FileTree.inductOn with
  | leaf text => exact fun _ _ _ h => nomatch h
  | node entries ih =>
      intro f es page hes hpage p
      cases hes
      obtain ⟨-, children, hchildren, -, rfl⟩ := visit_eq_ok_iff.1 hpage
      have hbelow : ∀ c ∈ orderedPages f entries, ∀ child,
          (visit req pattern c.2.1 c.2.2).result = .ok child →
            (p ∈ (visit req pattern c.2.1 c.2.2).visited ↔
              ∃ names, (names, p) ∈ child.placed) := by
        intro c hc child hchild
        obtain ⟨inner, hentry, -, hnode⟩ := mem_orderedPages.1 hc
        rw [hnode] at hchild ⊢
        exact ih _ hentry c.2.1 inner child rfl hchild p
      rw [visited_of_ok hpage, List.mem_append, List.mem_singleton, List.mem_flatMap,
        Page.placed_eq]
      constructor
      · rintro (⟨c, hc, hp⟩ | rfl)
        · obtain ⟨child, hchild, hvisit⟩ := exists_page_of_mem hchildren hc
          obtain ⟨names, hnames⟩ := (hbelow c hc child hvisit).1 hp
          have hplaced := mem_placedAll.2 ⟨child, hchild, (names, p), hnames, rfl⟩
          exact ⟨_, List.mem_cons_of_mem _ hplaced⟩
        · exact ⟨[], List.mem_cons_self⟩
      · rintro ⟨names, hnames⟩
        rcases List.mem_cons.1 hnames with hroot | hnames
        · exact .inr (Prod.mk.inj hroot).2
        · obtain ⟨child, hchild, q, hq, heq⟩ := mem_placedAll.1 hnames
          obtain ⟨c, hc, hvisit⟩ := exists_visited_of_mem hchildren hchild
          obtain rfl := (Prod.mk.inj heq).2
          exact .inl ⟨c, hc, (hbelow c hc child hvisit).2 ⟨q.1, hq⟩⟩

theorem mem_childTranslations {ps : List Page} {p : Page} {kind : PageKind} (hp : p ∈ ps)
    (hkind : p.kind = some kind) :
    (kind, (Route.ofPage p).translated) ∈ Route.childTranslations ps := by
  induction ps with
  | nil => exact absurd hp List.not_mem_nil
  | cons first ps ih =>
      rw [Route.childTranslations_cons, List.mem_append]
      rcases List.mem_cons.1 hp with rfl | hp
      · rw [hkind]
        exact .inl List.mem_cons_self
      · exact .inr (ih hp)

theorem own_translated {p : Page} {dir : Path} (h : p.imports.translations = some dir) :
    (p.id, dir) ∈ (Route.ofPage p).translated := by
  rw [Route.translated_ofPage, h]
  exact List.mem_append_left _ List.mem_cons_self

theorem child_translated {p child : Page} {kind : PageKind} (hchild : child ∈ p.children)
    (hkind : child.kind = some kind) {t : String × Path}
    (ht : t ∈ (Route.ofPage child).translated) : t ∈ (Route.ofPage p).translated := by
  rw [Route.translated_ofPage]
  refine List.mem_append_right _
    (List.mem_flatMap.2 ⟨(kind, (Route.ofPage child).translated), ?_, ht⟩)
  exact (sorted_perm _ _).mem_iff.2 (mem_childTranslations hchild hkind)

/-- The routes of a complete tree load the translations of all its pages. -/
theorem mem_translated (node : FileTree) : ∀ (f : Frame) (es : List (String × FileTree))
    (page : Page), node = .dir es → (visit req pattern f (.dir es)).result = .ok page →
      ∀ q ∈ page.placed, ∀ dir, q.2.imports.translations = some dir →
        (q.2.id, dir) ∈ (Route.ofPage page).translated := by
  induction node using FileTree.inductOn with
  | leaf text => exact fun _ _ _ h => nomatch h
  | node entries ih =>
      intro f es page hes hpage q hq dir hdir
      cases hes
      obtain ⟨-, children, hchildren, -, hparts⟩ := visit_eq_ok_iff.1 hpage
      rw [Page.placed_eq, List.mem_cons, mem_placedAll] at hq
      rcases hq with rfl | ⟨child, hchild, r, hr, rfl⟩
      · exact own_translated hdir
      · have hmem : child ∈ children := by rwa [hparts] at hchild
        obtain ⟨c, hc, hvisit⟩ := exists_visited_of_mem hchildren hmem
        obtain ⟨inner, hentry, hframe, hnode⟩ := mem_orderedPages.1 hc
        obtain ⟨parsed, -, hparsed⟩ := child?_eq_some hframe
        have hkind : child.kind = some parsed.kind := by rw [(frame_of_visit hvisit).2, hparsed]
        rw [hnode] at hvisit
        exact child_translated hchild hkind (ih _ hentry c.2.1 inner child rfl hvisit r hr dir hdir)

end

theorem load_eq_ok {tree : FileTree} {req : PageRequest} {pages : PageTree}
    (h : (load tree req).result = .ok pages) :
    ∃ entries, ImportPattern.resolve req.pattern req.importer req.root = .ok pages.pattern ∧
      tree.find pages.pattern.target = .ok (.dir entries) ∧
      (load tree req).visited = (visit req pages.pattern (rootFrame req pages.pattern.target)
        (.dir entries)).visited ∧
      (visit req pages.pattern (rootFrame req pages.pattern.target) (.dir entries)).result =
        .ok pages.root := by
  rw [load] at h ⊢
  split at h
  · cases h
  · next pattern hpattern =>
      split at h
      · next entries hfind =>
          dsimp only at h
          cases hvisit : (visit req pattern (rootFrame req pattern.target) (.dir entries)).result
            with
          | error e =>
              rw [hvisit] at h
              cases h
          | ok root =>
              rw [hvisit] at h
              cases h
              rw [hpattern]
              dsimp only
              rw [hfind]
              exact ⟨entries, rfl, rfl, rfl, hvisit⟩
      · cases h

/-- What a loaded page says of itself. -/
structure IsPage (req : PageRequest) (pages : PageTree) (names : List String) (p : Page) :
    Prop where
  isName : ∀ n ∈ names, Path.IsName n
  dir : p.dir = pages.pattern.target.below names
  id : p.id = Namespace.ofDirectory p.dir req.root
  route : p.route = UrlPath.join req.base ("/".intercalate (segments names))

theorem reaches_isName {es last : List (String × FileTree)} {names : List String}
    (h : Reaches es names last) (hsound : (FileTree.dir es).Sound) : ∀ n ∈ names, Path.IsName n := by
  induction h with
  | here es => exact fun n hn => absurd hn List.not_mem_nil
  | into entry page rest ih =>
      have hname := hsound.names [] _ rfl _ entry
      exact List.forall_mem_cons.2 ⟨hname, ih (hsound.child entry)⟩

/-- The pages of a loaded tree are those below the directory that it was read from. -/
theorem mirrors_of_load {tree : FileTree} (hsound : tree.Sound) {req : PageRequest}
    {pages : PageTree} (h : (load tree req).result = .ok pages) :
    ∃ entries, (FileTree.dir entries).Sound ∧
      Mirrors req pages.pattern (rootFrame req pages.pattern.target) entries pages.root := by
  obtain ⟨entries, -, hfind, -, hvisit⟩ := load_eq_ok h
  have hentries := hsound.find hfind
  exact ⟨entries, hentries, visit_mirrors _ _ entries pages.root rfl hentries hvisit⟩

theorem isPage_of_placed {tree : FileTree} (hsound : tree.Sound) {req : PageRequest}
    {pages : PageTree} (h : (load tree req).result = .ok pages) :
    ∀ q ∈ pages.root.placed, IsPage req pages q.1 q.2 := by
  obtain ⟨entries, hentries, hmirrors⟩ := mirrors_of_load hsound h
  intro q hq
  obtain ⟨es, g, hreaches, hframe, hmade⟩ := hmirrors.made q hq
  have hread := hmade.readFrom hframe
  exact ⟨reaches_isName hreaches hentries, hread.dir, hread.id, hread.route⟩

theorem mem_visited_load {tree : FileTree} {req : PageRequest} {pages : PageTree}
    (h : (load tree req).result = .ok pages) (p : Page) :
    p ∈ (load tree req).visited ↔ ∃ names, (names, p) ∈ pages.root.placed := by
  obtain ⟨entries, -, -, hvisited, hvisit⟩ := load_eq_ok h
  rw [hvisited]
  exact mem_visited _ _ entries pages.root rfl hvisit p

end PageTree

theorem Registry.Grows.routes_eq {es : List Entry} {r r' : Registry} (h : r.Grows es r')
    (hes : ∀ q ∈ es, ∃ id, q = .loaded id) : r'.routes = r.routes := by
  obtain ⟨added, hadded, rfl⟩ := h
  induction added generalizing r with
  | nil => rfl
  | cons e added ih =>
      obtain ⟨he, hadded⟩ := List.forall_mem_cons.1 hadded
      rw [registerAll_cons, ih hadded]
      cases e with
      | route dir route =>
          obtain ⟨id, hid⟩ := hes _ he
          exact nomatch hid
      | loaded id =>
          rw [register, registerNamespace]
          split <;> rfl

namespace Expansion

open Script

/-- What a call that loads routes loads, and below which route. -/
structure LoadsRoutes (s : Surroundings) (call : MacroCall) (r : Registry)
    (pattern base : String) : Prop where
  callee : call.callee = .loadRoutes
  pattern : literal call 0 "a pages directory" = .ok pattern
  /-- The base is given; or it is the route around the module, or else the site's. -/
  base : (literal? call 1).map (·.getD (((r.enclosingRoute? s.dir).map (·.2)).getD "/")) = .ok base

/-- The registrations for the pages of a load. -/
def pageRegistrations (s : Surroundings) (pattern base : String) : List Registration :=
  (PageTree.load s.tree (pageRequest s pattern base)).visited.map fun p => .route p.dir p.route

theorem perform_loadPages_ok {s : Surroundings} {pattern base : String} {x y : Expansion}
    {pages : PageTree} (h : perform (loadPages pattern base) s x = (.ok pages, y)) :
    (PageTree.load s.tree (pageRequest s pattern base)).result = .ok pages ∧
      y.registry = x.registry.registerAll (pageRegistrations s pattern base) := by
  obtain ⟨_, _, hread, h⟩ := exists_of_perform_bind_ok h
  cases hread
  obtain ⟨_, z, hregister, h⟩ := exists_of_perform_bind_ok h
  obtain ⟨tree, htree, h⟩ := exists_of_perform_settle_bind_ok h
  cases hregister
  cases h
  refine ⟨htree, ?_⟩
  rw [pageRegistrations, Registry.registerAll, List.foldl_map]
  rfl

/-- A call that loads routes reads the pages, loads the translations of their routes, and
comes to the expression for the routes. -/
theorem exists_of_loadRoutes_ok {s : Surroundings} {call : MacroCall} {x y : Expansion}
    {e : Expression} (hcallee : call.callee = .loadRoutes)
    (h : perform (loadRoutes call) s x = (.ok e, y)) :
    ∃ pattern base pages z z', LoadsRoutes s call x.registry pattern base ∧
      perform (loadPages pattern base) s x = (.ok pages, z) ∧
      perform ((Route.ofPage pages.root).flatten.forM (loadRouteTranslations pages.pattern)) s z =
        (.ok (), z') ∧
      perform (emitting ((Route.ofPage pages.root).emit s.configuration.pages.wrapper)) s z' =
        (.ok e, y) := by
  have hload : ∀ pattern base, LoadsRoutes s call x.registry pattern base → perform (do
      let tree ← loadPages pattern base
      let route := Route.ofPage tree.root
      route.flatten.forM (loadRouteTranslations tree.pattern)
      emitting (route.emit (← read).configuration.pages.wrapper)) s x = (.ok e, y) →
      ∃ pattern base pages z z', LoadsRoutes s call x.registry pattern base ∧
        perform (loadPages pattern base) s x = (.ok pages, z) ∧
        perform ((Route.ofPage pages.root).flatten.forM
          (loadRouteTranslations pages.pattern)) s z = (.ok (), z') ∧
        perform (emitting ((Route.ofPage pages.root).emit s.configuration.pages.wrapper)) s z' =
          (.ok e, y) := by
    intro pattern base hloads h
    obtain ⟨pages, z, hpages, h⟩ := exists_of_perform_bind_ok h
    obtain ⟨_, z', htranslations, h⟩ := exists_of_perform_bind_ok h
    rw [perform_read_bind] at h
    exact ⟨pattern, base, pages, z, z', hloads, hpages, htranslations, h⟩
  obtain ⟨pattern, hpattern, h⟩ := exists_of_perform_settle_bind_ok h
  obtain ⟨base?, hbase, h⟩ := exists_of_perform_settle_bind_ok h
  cases base? with
  | some base =>
      obtain ⟨_, _, hgiven, h⟩ := exists_of_perform_bind_ok h
      cases hgiven
      exact hload pattern base ⟨hcallee, hpattern, by rw [hbase]; rfl⟩ h
  | none =>
      obtain ⟨_, _, hfound, h⟩ := exists_of_perform_bind_ok h
      obtain ⟨_, _, hdefault, h⟩ := exists_of_perform_bind_ok h
      cases hfound
      cases hdefault
      exact hload pattern _ ⟨hcallee, hpattern, by rw [hbase]; rfl⟩ h

/-- If a call loads routes, its pages are all complete, and the routes in the registry
change by theirs. -/
theorem perform_loadRoutes_ok {s : Surroundings} {call : MacroCall} {x y : Expansion}
    {e : Expression} (hcallee : call.callee = .loadRoutes)
    (h : perform (loadRoutes call) s x = (.ok e, y)) :
    ∃ pattern base pages, LoadsRoutes s call x.registry pattern base ∧
      (PageTree.load s.tree (pageRequest s pattern base)).result = .ok pages ∧
      y.registry.routes = (x.registry.registerAll (pageRegistrations s pattern base)).routes := by
  obtain ⟨pattern, base, pages, z, z', hloads, hpages, htranslations, h⟩ :=
    exists_of_loadRoutes_ok hcallee h
  obtain ⟨hresult, hz⟩ := perform_loadPages_ok hpages
  refine ⟨pattern, base, pages, hloads, hresult, ?_⟩
  have hgrows := (Registers.forM (Route.ofPage pages.root).flatten fun route _ =>
    registers_loadRouteTranslations s pages.pattern route).grows z
  rw [htranslations] at hgrows
  cases h
  rw [← hz]
  refine hgrows.routes_eq fun q hq => ?_
  obtain ⟨route, -, hq⟩ := List.mem_flatMap.1 hq
  obtain ⟨t, -, rfl⟩ := List.mem_map.1 hq
  exact ⟨t.1, rfl⟩

end Expansion

/-! ## Patterns that lead straight to a directory -/

namespace Path

/-- The steps of pieces are names if none of them is `..`. -/
theorem inner_names_iff {qs : List (List Char)} :
    (∃ ns : List String, (qs.map pieces.inner).filterMap (·.2) = ns.map .name) ↔
      ".." ∉ qs.map String.ofList := by
  induction qs with
  | nil => exact iff_of_true ⟨[], rfl⟩ List.not_mem_nil
  | cons q qs ih =>
      rw [List.map_cons, List.map_cons, List.mem_cons, not_or, ← ih]
      by_cases hidle : String.ofList q = "" ∨ String.ofList q = "."
      · have hskip : (pieces.inner q).2 = none := inner_snd_none.2 (by rwa [inner_fst])
        have hne : ¬ ".." = String.ofList q := by
          rintro heq
          rw [← heq] at hidle
          revert hidle
          decide
        rw [List.filterMap_cons_none hskip]
        exact ⟨fun h => ⟨hne, h⟩, fun h => h.2⟩
      · rw [not_or] at hidle
        by_cases hup : String.ofList q = ".."
        · have hparent : (pieces.inner q).2 = some .parent := by
            simp [pieces.inner, hup]
          rw [List.filterMap_cons_some hparent]
          refine iff_of_false ?_ fun h => h.1 hup.symm
          rintro ⟨ns, h⟩
          cases ns <;> cases h
        · have hname : (pieces.inner q).2 = some (.name (String.ofList q)) := by
            simp [pieces.inner, hidle.1, hidle.2, hup]
          rw [List.filterMap_cons_some hname]
          constructor
          · rintro ⟨ns, h⟩
            cases ns with
            | nil => cases h
            | cons n ns => exact ⟨fun heq => hup heq.symm, ns, (List.cons.inj h).2⟩
          · rintro ⟨-, ns, h⟩
            exact ⟨String.ofList q :: ns, by rw [h]; rfl⟩

theorem isAbsolute_join_name {p : Path} (hp : p.isAbsolute = false) {n : String} (hn : IsName n) :
    (p.join n).isAbsolute = false := by
  have hsame : ∀ s : String, p.text ≠ "" → (Path.mk (p.text ++ s)).isAbsolute = false := by
    intro s hne
    rw [Bool.eq_false_iff, ne_eq, isAbsolute_iff]
    rintro ⟨cs, hcs⟩
    rw [String.toList_append] at hcs
    cases htext : p.text.toList with
    | nil => exact hne (String.toList_eq_nil_iff.1 htext)
    | cons c ds =>
        rw [htext] at hcs
        have habs : p.isAbsolute = true :=
          (isAbsolute_iff p).2 ⟨ds, by rw [htext, (List.cons.inj hcs).1]⟩
        rw [hp] at habs
        exact nomatch habs
  rw [join, if_neg (by rw [hn.isAbsolute]; exact Bool.false_ne_true)]
  by_cases hempty : p.text = ""
  · rw [hempty, if_pos (by decide), String.empty_append]
    exact hn.isAbsolute
  · split
    · exact hsame n hempty
    · rw [String.append_assoc]
      exact hsame _ hempty

/-- A path from which names lead to a path through names is one itself. -/
theorem leads_of_below {p : Path} {ms : List String} {names : List String}
    (hnames : ∀ n ∈ names, IsName n) (h : (p.below names).Leads ms) : ∃ ns, p.Leads ns := by
  cases habs : p.isAbsolute with
  | true =>
      have hsteps := (pieces_below habs hnames).2
      rw [h.steps] at hsteps
      obtain ⟨ks, rest, -, hks, -⟩ := List.map_eq_append_iff.1 hsteps
      exact ⟨ks, habs, hks.symm⟩
  | false =>
      have hbelow : ∀ (names : List String) (p : Path), (∀ n ∈ names, IsName n) →
          p.isAbsolute = false → (p.below names).isAbsolute = false := by
        intro names
        induction names with
        | nil => exact fun _ _ hp => hp
        | cons n names ih =>
            intro p hnames hp
            obtain ⟨hn, hnames⟩ := List.forall_mem_cons.1 hnames
            exact ih _ hnames (isAbsolute_join_name hp hn)
      have hrelative := hbelow names p hnames habs
      rw [h.isAbsolute] at hrelative
      exact nomatch hrelative

end Path

namespace ImportPattern

/-- The pattern leads to its directory through names alone. -/
def Direct (p : ImportPattern) : Prop :=
  ∃ ns, p.target.Leads ns

theorem up_leads {p : Path} {ns : List String} (h : p.Leads ns) : (up p).Leads ns.dropLast := by
  rcases List.eq_nil_or_concat ns with rfl | ⟨ms, m, rfl⟩
  · rw [up, h.parent?_nil]
    exact h
  · rw [List.concat_eq_append] at h ⊢
    obtain ⟨q, hq, hleads⟩ := h.parent?_concat
    rw [up, hq, List.dropLast_concat]
    exact hleads

/-- The leading steps of a pattern lead out of as many directories, and stay at the
root. -/
theorem climb_leads {base : Path} {ns : List String} (h : base.Leads ns) (levels : Nat)
    (cs : List Char) : ∃ k, (climb base levels cs).2.1 = levels + k ∧
      (climb base levels cs).1.Leads (ns.take (ns.length - k)) := by
  induction base, levels, cs using climb.induct generalizing ns with
  | case1 base levels cs ih =>
      obtain ⟨k, hk, hleads⟩ := ih (up_leads h)
      rw [climb]
      refine ⟨k + 1, by omega, ?_⟩
      rwa [List.dropLast_eq_take, List.take_take, List.length_take,
        show min (min (ns.length - 1) ns.length - k) (ns.length - 1) = ns.length - (k + 1) by omega]
        at hleads
  | case2 base levels =>
      rw [climb]
      refine ⟨1, rfl, ?_⟩
      rw [← List.dropLast_eq_take]
      exact up_leads h
  | case3 base levels cs hstep hlast =>
      rw [climb]
      · exact ⟨0, rfl, by rwa [Nat.sub_zero, List.take_length]⟩
      · exact hstep
      · exact hlast

theorem base_leads {pattern : String} {importer root : Path} {here top : List String}
    (hdir : importer.Leads here) (hroot : root.Leads top) {p : ImportPattern}
    (h : resolve pattern importer root = .ok p) : ∃ ns, p.base.Leads ns := by
  rw [resolve] at h
  split at h
  · cases h
    exact ⟨top, hroot⟩
  · cases h
    obtain ⟨_, _, hleads⟩ := climb_leads hdir 0 _
    exact ⟨_, hleads⟩
  · cases h

/-- Written in a project at a plain place, a pattern is direct if it has no `..` but at
its front. -/
theorem direct_iff {p : ImportPattern} {ns : List String} (hbase : p.base.Leads ns) :
    p.Direct ↔ ".." ∉ Text.split '/' p.rest := by
  rw [Direct, target]
  by_cases hempty : p.rest.isEmpty = true
  · rw [if_pos hempty, String.isEmpty_iff.1 hempty]
    exact iff_of_true ⟨ns, hbase⟩ (by decide)
  · rw [if_neg hempty, Text.split]
    cases habs : (Path.mk p.rest).isAbsolute with
    | true =>
        obtain ⟨cs, hcs⟩ := (Path.isAbsolute_iff _).1 habs
        have hpieces : Text.pieces '/' p.rest.toList = [] :: Text.pieces '/' cs := by
          rw [show p.rest.toList = '/' :: cs from hcs, Text.pieces, if_pos rfl]
        rw [Path.join, if_pos habs, hpieces, ← Path.inner_names_iff]
        constructor
        · rintro ⟨ms, hms⟩
          have hsteps := hms.steps
          rw [Path.pieces_absolute hcs] at hsteps
          exact ⟨ms, hsteps⟩
        · rintro ⟨ms, hms⟩
          refine ⟨ms, habs, ?_⟩
          rw [Path.pieces_absolute hcs]
          exact hms
    | false =>
        obtain ⟨hjoined, before, hpieces, hbefore⟩ := Path.pieces_join hbase.isAbsolute habs
        rw [← Path.inner_names_iff]
        constructor
        · rintro ⟨ms, hms⟩
          have hsteps := hms.steps
          rw [hpieces, List.filterMap_append] at hsteps
          obtain ⟨ks, rest, -, -, hrest⟩ := List.map_eq_append_iff.1 hsteps.symm
          exact ⟨rest, hrest.symm⟩
        · rintro ⟨ms, hms⟩
          refine ⟨ns ++ ms, hjoined, ?_⟩
          rw [hpieces, List.filterMap_append, hbefore, hbase.steps, hms, List.map_append]

end ImportPattern

/-- A canonical path joined with `.` stays as it is. -/
theorem UrlPath.join_dot (base rel : String) : join (join base rel) "." = join base rel := by
  rw [join_join, join, join, split_append_slash, ← List.append_assoc, resolve, resolve,
    List.foldl_append]
  rfl

namespace Expansion

open Script

/-! ## Pages that are found -/

variable {s : Surroundings} {call : MacroCall} {x y : Expansion} {pattern base : String}
  {pages : PageTree}

/-- A page of a direct pattern is registered at the place of its directory, and no
other page is. -/
theorem get?_of_direct (hsound : s.tree.Sound)
    (hpages : (PageTree.load s.tree (pageRequest s pattern base)).result = .ok pages)
    (hdirect : pages.pattern.Direct) {q : List String × Page} (hq : q ∈ pages.root.placed)
    (r : Registry) {dir : Path} (hdir : dir.components = q.2.dir.components) :
    (r.registerAll (pageRegistrations s pattern base)).routes.get? dir = some q.2.route := by
  obtain ⟨ns, hns⟩ := hdirect
  have hleads : ∀ p ∈ pages.root.placed, p.2.dir.Leads (ns ++ p.1) := fun p hp => by
    have hpage := PageTree.isPage_of_placed hsound hpages p hp
    rw [hpage.dir]
    exact (hns.below hpage.isName).1
  have hmem : .route q.2.dir q.2.route ∈ pageRegistrations s pattern base :=
    List.mem_map.2 ⟨q.2, (PageTree.mem_visited_load hpages q.2).2 ⟨q.1, hq⟩, rfl⟩
  rw [Registry.get?_registerAll, Registry.routeAmong_eq_some hmem hdir.symm, Option.some_or]
  intro page route hroute hsame
  obtain ⟨p, hp, heq⟩ := List.mem_map.1 hroute
  obtain ⟨rfl, rfl⟩ := Registration.route.inj heq
  obtain ⟨names, hplaced⟩ := (PageTree.mem_visited_load hpages p).1 hp
  have hnames : ns ++ names = ns ++ q.1 :=
    (hleads _ hplaced).names_eq (hleads q hq) (hsame.trans hdir)
  rw [(PageTree.isPage_of_placed hsound hpages _ hplaced).route,
    (PageTree.isPage_of_placed hsound hpages q hq).route, List.append_cancel_left hnames]

/-- A registry answers with the route of the directory itself if it has one. -/
theorem enclosingRoute?_of_get? {r : Registry} {dir : Path} {route : String}
    (h : r.routes.get? dir = some route) : ∃ e, r.enclosingRoute? dir = some (e, route) := by
  obtain ⟨e, hentry, hroute⟩ := Option.map_eq_some_iff.1 h
  refine ⟨e.1, ?_⟩
  rw [Registry.enclosingRoute?, Path.ancestors, Path.ancestors.go, List.findSome?_cons, hentry,
    ← hroute]

/-- A loaded namespace is found from itself, whatever else is loaded. -/
theorem resolveNamespace?_self {r : Registry} {id : String} (h : id ∈ r.namespaces) :
    r.resolveNamespace? id = some id :=
  Registry.resolveNamespace?_eq_some_iff.2
    ⟨h, Registry.encloses_self id, fun _ _ hother => Registry.size_le_of_encloses hother⟩

/-- From the file, the page is found: its route, and if it has translations its
namespace. -/
structure FindsPage (r : Registry) (root file : Path) (p : Page) : Prop where
  route : RoutePath.resolve r file "." = .ok ⟨p.route⟩
  own : p.imports.translations.isSome = true → ∀ globals,
    NamespaceRef.resolve r file root globals =
      .ok (if globals.isEmpty then .single p.id
        else .chain (p.id :: globals.filter (· != p.id)))

/-- The entries for the translations of a complete tree are those of its pages. -/
theorem mem_registrable_of_placed (hload : LoadsRoutes s call x.registry pattern base)
    (hpages : (PageTree.load s.tree (pageRequest s pattern base)).result = .ok pages)
    {q : List String × Page} (hq : q ∈ pages.root.placed)
    (htranslations : q.2.imports.translations.isSome = true) :
    .loaded q.2.id ∈ registrable s call := by
  obtain ⟨dir, hdir⟩ := Option.isSome_iff_exists.1 htranslations
  obtain ⟨entries, -, -, -, hvisit⟩ := PageTree.load_eq_ok hpages
  have hmem := PageTree.mem_translated _ _ entries pages.root rfl hvisit q hq dir hdir
  rw [registrable, hload.callee]
  dsimp only
  rw [hload.pattern]
  dsimp only
  rw [← load_translated_entries hpages]
  exact List.mem_append_right _ (List.mem_map.2 ⟨_, hmem, rfl⟩)

theorem findsPage_of_direct (hsound : s.tree.Sound) {e : Expression}
    (hrun : perform (expand call) s x = (.ok e, y))
    (hload : LoadsRoutes s call x.registry pattern base)
    (hpages : (PageTree.load s.tree (pageRequest s pattern base)).result = .ok pages)
    (hroutes : y.registry.routes =
      (x.registry.registerAll (pageRegistrations s pattern base)).routes)
    (hdirect : pages.pattern.Direct) {q : List String × Page} (hq : q ∈ pages.root.placed)
    {file : Path} {name : String} (hfile : file.Leads (q.2.dir.destination ++ [name])) :
    FindsPage y.registry s.root file q.2 := by
  have hpage := PageTree.isPage_of_placed hsound hpages q hq
  obtain ⟨ns, hns⟩ := hdirect
  have hleads : q.2.dir.Leads (ns ++ q.1) := by
    rw [hpage.dir]
    exact (hns.below hpage.isName).1
  rw [hleads.destination_eq] at hfile
  obtain ⟨dir, hparent, hdir⟩ := hfile.parent?_concat
  have hdirectory : RoutePath.directoryOf file = dir := by
    rw [RoutePath.directoryOf, hparent, Option.getD_some]
  have hsame := hdir.components_inj hleads
  constructor
  · have hget := get?_of_direct hsound hpages ⟨ns, hns⟩ hq x.registry hsame
    rw [← hroutes] at hget
    obtain ⟨entry, hentry⟩ := enclosingRoute?_of_get? hget
    rw [RoutePath.resolve, hdirectory, hentry]
    dsimp only
    rw [hpage.route, UrlPath.join_dot]
  · intro htranslations globals
    have hid : Namespace.ofDirectory (RoutePath.directoryOf file) s.root = q.2.id := by
      rw [hdirectory, hpage.id]
      exact Namespace.ofDirectory_congr hdir.isAbsolute hleads.isAbsolute hsame s.root
    have hhas := (registers_expand s call).has hrun _
      (mem_registrable_of_placed hload hpages hq htranslations)
    rw [NamespaceRef.resolve, hid, resolveNamespace?_self (List.contains_iff_mem.1 hhas)]
    dsimp only
    split <;> rfl

/-- The pages of a pattern that is not direct are at no place that a file could be
looked up from. -/
theorem answer_of_not_direct (hsound : s.tree.Sound)
    (hpages : (PageTree.load s.tree (pageRequest s pattern base)).result = .ok pages)
    (hroutes : y.registry.routes =
      (x.registry.registerAll (pageRegistrations s pattern base)).routes)
    (hdirect : ¬ pages.pattern.Direct) {dir : Path} {ns : List String} (hdir : dir.Leads ns) :
    y.registry.answer dir = x.registry.answer dir := by
  refine Registry.answer_congr fun a ha => ?_
  obtain ⟨ms, -, hms⟩ := hdir.ancestors a ha
  have hnone : Registry.routeAmong a (pageRegistrations s pattern base) = none := by
    refine Option.eq_none_iff_forall_ne_some.2 fun route hroute => ?_
    obtain ⟨page, hpage, hsame⟩ := Registry.mem_of_routeAmong hroute
    obtain ⟨p, hp, heq⟩ := List.mem_map.1 hpage
    obtain ⟨names, hplaced⟩ := (PageTree.mem_visited_load hpages p).1 hp
    have hmade := PageTree.isPage_of_placed hsound hpages _ hplaced
    have hleads : p.dir.Leads ms := by
      rw [Path.leads_iff, (Registration.route.inj heq).1, hsame, hms.components_eq]
    rw [hmade.dir] at hleads
    exact hdirect (Path.leads_of_below hmade.isName hleads)
  rw [hroutes, Registry.get?_registerAll, hnone, Option.none_or]

/-- When a call has loaded routes, each page is found from the files in its directory if
the pattern is direct. A pattern with `..` behind its front puts the pages where no file
is: it leaves all answers as they were. -/
theorem expand_finds_pages (hsound : s.tree.Sound) (hcallee : call.callee = .loadRoutes)
    {e : Expression} (hrun : perform (expand call) s x = (.ok e, y)) :
    ∃ pattern base pages, LoadsRoutes s call x.registry pattern base ∧
      (PageTree.load s.tree (pageRequest s pattern base)).result = .ok pages ∧
      (∀ here top, s.dir.Leads here → s.root.Leads top →
        (pages.pattern.Direct ↔ ".." ∉ Text.split '/' pages.pattern.rest)) ∧
      (pages.pattern.Direct → ∀ q ∈ pages.root.placed, ∀ file name,
        file.Leads (q.2.dir.destination ++ [name]) → FindsPage y.registry s.root file q.2) ∧
      (¬ pages.pattern.Direct → ∀ dir ns, dir.Leads ns →
        y.registry.answer dir = x.registry.answer dir) := by
  have hroutes : perform (loadRoutes call) s x = (.ok e, y) := by
    rw [expand, hcallee] at hrun
    exact hrun
  obtain ⟨pattern, base, pages, hload, hpages, hroutes⟩ := perform_loadRoutes_ok hcallee hroutes
  obtain ⟨-, hpattern, -⟩ := PageTree.load_eq_ok hpages
  refine ⟨pattern, base, pages, hload, hpages, fun here top hhere htop => ?_, ?_, ?_⟩
  · obtain ⟨ns, hns⟩ := ImportPattern.base_leads hhere htop hpattern
    exact ImportPattern.direct_iff hns
  · exact fun hdirect q hq file name hfile =>
      findsPage_of_direct hsound hrun hload hpages hroutes hdirect hq hfile
  · exact fun hdirect dir ns hdir => answer_of_not_direct hsound hpages hroutes hdirect hdir

/-- A module beside a pages directory with translations. -/
def besidePages : Surroundings where
  tree := .dir [("src", .dir [("app", .dir []),
    ("pages", .dir [("index.tsx", .file ""), ("translations", .dir [("en.yaml", .file "")])])])]
  configuration := {}
  root := ⟨"/"⟩
  file := ⟨"/src/app/m.ts"⟩

/-- The call that loads the routes of this pattern. -/
def routesOf (pattern : String) : MacroCall :=
  ⟨.loadRoutes, ⟨0, 0⟩, [⟨⟨0, 0⟩, pattern, some pattern⟩]⟩

/-- What loading the routes of a pattern comes to. -/
def loadBeside (pattern : String) : Except MacroError Expression × Expansion :=
  perform (expand (routesOf pattern)) besidePages ⟨{}, ⟨[], [], []⟩, {}, []⟩

/-- The pages beside a module, found from a file among them. -/
theorem expand_finds_pages_beside :
    ∃ pages, (PageTree.load besidePages.tree (pageRequest besidePages "../pages" "/")).result =
        .ok pages ∧
      pages.root.imports.translations.isSome = true ∧
      FindsPage (loadBeside "../pages").2.registry besidePages.root ⟨"/src/pages/index.tsx"⟩ pages.root := by
  have hsound : besidePages.tree.Sound := by decide +kernel
  have hok : (loadBeside "../pages").1.toOption.isSome = true := by decide +kernel
  rcases hresult : (loadBeside "../pages").1 with _ | e
  · rw [hresult] at hok
    exact nomatch hok
  · have hrun : perform (expand (routesOf "../pages")) besidePages ⟨{}, ⟨[], [], []⟩, {}, []⟩ =
        (.ok e, (loadBeside "../pages").2) := by
      rw [← hresult, loadBeside]
    obtain ⟨pattern, base, pages, hload, hpages, -, hfound, -⟩ :=
      expand_finds_pages hsound rfl hrun
    have hgiven : LoadsRoutes besidePages (routesOf "../pages") {} "../pages" "/" :=
      ⟨rfl, by decide +kernel, by decide +kernel⟩
    obtain rfl : "../pages" = pattern := Except.ok.inj (hgiven.pattern.symm.trans hload.pattern)
    obtain rfl : "/" = base := Except.ok.inj (hgiven.base.symm.trans hload.base)
    have hroot := pages.root.placed_self
    obtain ⟨-, hpattern, -⟩ := PageTree.load_eq_ok hpages
    have htarget : pages.pattern = ⟨⟨"/src"⟩, "pages", .up 1⟩ := by
      have hresolved : ImportPattern.resolve "../pages" besidePages.dir besidePages.root =
          .ok ⟨⟨"/src"⟩, "pages", .up 1⟩ := by decide +kernel
      exact Except.ok.inj (hpattern.symm.trans hresolved)
    have hleads : pages.pattern.target.Leads ["src", "pages"] := by
      rw [htarget]
      exact ⟨by decide +kernel, by decide +kernel⟩
    have hdir : pages.root.dir.destination = ["src", "pages"] := by
      rw [(PageTree.isPage_of_placed hsound hpages _ hroot).dir]
      exact hleads.destination_eq
    refine ⟨pages, hpages, ?_, hfound ⟨_, hleads⟩ _ hroot _ "index.tsx" ?_⟩
    · have htranslations : ((PageTree.load besidePages.tree
          (pageRequest besidePages "../pages" "/")).result.toOption.map
            (·.root.imports.translations.isSome)) = some true := by decide +kernel
      rw [hpages] at htranslations
      exact Option.some.inj htranslations
    · rw [hdir]
      exact ⟨by decide +kernel, by decide +kernel⟩

/-- The same pages, loaded by another spelling of the pattern: they are in the same
directory, and from the file they are not found. -/
theorem expand_hides_pages_beside :
    (loadBeside "./../pages").1.toOption.isSome = true ∧
      (PageTree.load besidePages.tree (pageRequest besidePages "./../pages" "/")).result.toOption.map
        (·.root.dir.destination) = some ["src", "pages"] ∧
      RoutePath.resolve (loadBeside "./../pages").2.registry ⟨"/src/pages/index.tsx"⟩ "." =
        .error (.unregisteredCallSite ⟨"/src/pages/index.tsx"⟩) := by
  decide +kernel

end Expansion

end SiteMacros
