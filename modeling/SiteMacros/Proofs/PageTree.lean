import Mathlib.Algebra.Ring.Nat
import SiteMacros.Session.Process

/-!
# What a pages tree has, whatever its base

The base of a pages tree goes into the paths of its pages and into nothing else:
not into which directories are pages, nor into what is wrong with them, nor into
their order. So the same tree asked for with two bases yields the same pages up
to their paths (`load_bare`), and what follows from the rest of a page can be
computed once with any base at all.

The directories visited, and the translations of the routes, are few: there is a
directory in the file tree for each (`length_visited_le`,
`length_translated_le`).
-/

namespace SiteMacros

namespace Page

mutual

/-- The page without its path, and without the paths of the pages below it. -/
def bare : Page → Page
  | ⟨id, rawName, dir, kind, protect, endpoint, _, imports, children⟩ =>
      ⟨id, rawName, dir, kind, protect, endpoint, "", imports, bareAll children⟩

/-- Pages without their paths. -/
def bareAll : List Page → List Page
  | [] => []
  | p :: ps => p.bare :: bareAll ps

end

@[simp] theorem bare_dir (p : Page) : p.bare.dir = p.dir := by
  cases p; rfl

@[simp] theorem bare_kind (p : Page) : p.bare.kind = p.kind := by
  cases p; rfl

theorem bareAll_eq_map (ps : List Page) : bareAll ps = ps.map bare := by
  induction ps with
  | nil => rfl
  | cons p ps ih => rw [bareAll, ih, List.map_cons]

end Page

/-- A visit without the paths of the pages. -/
def Visit.bare (v : Visit Page) : Visit Page :=
  ⟨v.visited.map Page.bare, v.result.map Page.bare⟩

/-- Visits of children without the paths of the pages. -/
def Visit.bareAll (v : Visit (List Page)) : Visit (List Page) :=
  ⟨v.visited.map Page.bare, v.result.map (List.map Page.bare)⟩

namespace PageTree

/-! ## Two bases -/

theorem gather_bare (vs : List (Visit Page)) :
    gather (vs.map Visit.bare) = (gather vs).bareAll := by
  induction vs with
  | nil => rfl
  | cons v vs ih =>
      obtain ⟨visited, result⟩ := v
      cases result with
      | error e => rfl
      | ok p =>
          simp only [List.map_cons, gather, Visit.bare, Except.map, ih, Visit.bareAll,
            List.map_append]
          congr 1
          cases (gather vs).result <;> rfl

theorem check_bare (dir : Path) (imports : PageImports) (ps : List Page) :
    check dir imports (ps.map Page.bare) = check dir imports ps := by
  have hkinds : ((ps.map Page.bare).filter (·.kind == some .fallback)).length =
      (ps.filter (·.kind == some .fallback)).length := by
    rw [List.filter_map, List.length_map]
    congr 2
    funext p
    exact congrArg (· == some PageKind.fallback) p.bare_kind
  simp only [check, hkinds, List.isEmpty_map]

/-- The page that is made of a directory once its children are known. -/
def pageOf (req : PageRequest) (f : Frame) (imports : PageImports) (children : List Page) :
    Except MacroError Page :=
  (check f.dir imports children).map fun _ => {
    id := Namespace.ofDirectory f.dir req.root
    rawName := f.rawName
    dir := f.dir
    kind := f.kind
    protect := f.protect
    endpoint := f.endpoint
    route := f.route
    imports
    children }

/-- The visit of a directory once its children are visited. -/
def close (req : PageRequest) (f : Frame) (imports : PageImports)
    (children : Visit (List Page)) : Visit Page :=
  match children.result.bind (pageOf req f imports) with
  | .ok page => ⟨children.visited ++ [page], .ok page⟩
  | .error e => ⟨children.visited, .error e⟩

/-- The visits of the pages among a directory's entries. -/
def below (req : PageRequest) (pattern : ImportPattern) (f : Frame)
    (entries : List (String × FileTree)) : Visit (List Page) :=
  gather ((sorted (fun a b => decide (a.1 ≤ b.1)) (visitEntries req pattern f entries)).map (·.2))

theorem visit_dir (req : PageRequest) (pattern : ImportPattern) (f : Frame)
    (entries : List (String × FileTree)) :
    visit req pattern f (.dir entries) =
      let imports := importsOf pattern f.dir entries
      if f.kind.isSome && imports.metadata.isNone && !req.allowNoMeta then
        ⟨[], .error (.structural (.noMeta f.dir))⟩
      else close req f imports (below req pattern f entries) := by
  rw [visit]
  rfl

theorem pageOf_bare {req req' : PageRequest} (hroot : req'.root = req.root) (f : Frame)
    (route : String) (imports : PageImports) {ps ps' : List Page}
    (h : ps'.map Page.bare = ps.map Page.bare) :
    (pageOf req' { f with route } imports ps').map Page.bare =
      (pageOf req f imports ps).map Page.bare := by
  have hcheck : check f.dir imports ps' = check f.dir imports ps := by
    rw [← check_bare, h, check_bare]
  simp only [pageOf, hcheck, hroot]
  cases check f.dir imports ps with
  | error e => rfl
  | ok _ => simp only [Except.map, Page.bare, Page.bareAll_eq_map, h]

theorem close_bare {req req' : PageRequest} (hroot : req'.root = req.root) (f : Frame)
    (route : String) (imports : PageImports) {v v' : Visit (List Page)}
    (h : v'.bareAll = v.bareAll) :
    (close req' { f with route } imports v').bare = (close req f imports v).bare := by
  obtain ⟨visited, result⟩ := v
  obtain ⟨visited', result'⟩ := v'
  simp only [Visit.bareAll, Visit.mk.injEq] at h
  obtain ⟨hvisited, hresult⟩ := h
  cases result with
  | error e =>
      cases result' with
      | error e' =>
          cases hresult
          simp only [close, Except.bind, Visit.bare, hvisited, Except.map]
      | ok ps' => exact nomatch hresult
  | ok ps =>
      cases result' with
      | error e' => exact nomatch hresult
      | ok ps' =>
          have hpages := pageOf_bare hroot f route imports (Except.ok.inj hresult)
          simp only [close, Except.bind]
          revert hpages
          cases pageOf req' { f with route } imports ps' <;> cases pageOf req f imports ps <;>
            intro hpages
          · cases hpages
            simp only [Visit.bare, hvisited, Except.map]
          · exact nomatch hpages
          · exact nomatch hpages
          · have hpage := Except.ok.inj hpages
            simp only [Visit.bare, List.map_append, List.map_cons, List.map_nil, hvisited, hpage,
              Except.map]

theorem child?_route (f : Frame) (route name : String) :
    (Frame.child? { f with route } name).isSome = (f.child? name).isSome ∧
      ∀ c, f.child? name = some c →
        ∃ route', Frame.child? { f with route } name = some { c with route := route' } := by
  refine ⟨?_, fun c hc => ?_⟩
  · simp only [Frame.child?, Option.isSome_map]
  · obtain ⟨parsed, hparsed, rfl⟩ := Option.map_eq_some_iff.1 hc
    exact ⟨UrlPath.join route parsed.segment, by rw [Frame.child?, hparsed]; rfl⟩

mutual

theorem visit_bare {req req' : PageRequest} (hroot : req'.root = req.root)
    (hmeta : req'.allowNoMeta = req.allowNoMeta) (pattern : ImportPattern) (f : Frame)
    (route : String) : (node : FileTree) →
    (visit req' pattern { f with route } node).bare = (visit req pattern f node).bare
  | .file _ => rfl
  | .dir entries => by
      rw [visit_dir, visit_dir, hmeta]
      dsimp only
      split
      · rfl
      · refine close_bare hroot f route _ ?_
        rw [below, below, ← gather_bare, ← gather_bare]
        congr 1
        have h := visitEntries_bare hroot hmeta pattern f route entries
        have hsort : ∀ vs : List (String × Visit Page),
            ((sorted (fun a b => decide (a.1 ≤ b.1)) vs).map (·.2)).map Visit.bare =
              (sorted (fun a b => decide (a.1 ≤ b.1)) (vs.map (Prod.map id Visit.bare))).map
                (·.2) := by
          intro vs
          have hmap : sorted (fun a b => decide (a.1 ≤ b.1)) (vs.map (Prod.map id Visit.bare)) =
              (sorted (fun a b => decide (a.1 ≤ b.1)) vs).map (Prod.map id Visit.bare) :=
            sorted_map (fun _ _ => rfl) vs
          rw [hmap, List.map_map, List.map_map]
          rfl
        rw [hsort, hsort, h]

theorem visitEntries_bare {req req' : PageRequest} (hroot : req'.root = req.root)
    (hmeta : req'.allowNoMeta = req.allowNoMeta) (pattern : ImportPattern) (f : Frame)
    (route : String) : (entries : List (String × FileTree)) →
    (visitEntries req' pattern { f with route } entries).map (Prod.map id Visit.bare) =
      (visitEntries req pattern f entries).map (Prod.map id Visit.bare)
  | [] => rfl
  | (name, node) :: rest => by
      have ih := visitEntries_bare hroot hmeta pattern f route rest
      obtain ⟨hsome, hchild⟩ := child?_route f route name
      rw [visitEntries, visitEntries]
      cases hdir : node.isDirectory with
      | false => exact ih
      | true =>
          cases hc : f.child? name with
          | none =>
              rw [hc, Option.isSome_none, Option.isSome_eq_false_iff, Option.isNone_iff_eq_none]
                at hsome
              rw [hsome]
              exact ih
          | some c =>
              obtain ⟨route', hc'⟩ := hchild c hc
              rw [hc']
              have hnode := visit_bare hroot hmeta pattern c route' node
              simp only [List.map_cons, ih, Prod.map, hnode, id]

end

theorem load_bare (tree : FileTree) (req req' : PageRequest) (hpattern : req'.pattern = req.pattern)
    (hroot : req'.root = req.root) (himporter : req'.importer = req.importer)
    (hmeta : req'.allowNoMeta = req.allowNoMeta) :
    (load tree req').visited.map Page.bare = (load tree req).visited.map Page.bare ∧
      (load tree req').result.map (·.root.bare) = (load tree req).result.map (·.root.bare) := by
  rw [load, load, hpattern, himporter, hroot]
  cases ImportPattern.resolve req.pattern req.importer req.root with
  | error e => exact ⟨rfl, rfl⟩
  | ok pattern =>
      dsimp only
      split
      · next entries hfind =>
          have h := visit_bare hroot hmeta pattern (rootFrame req pattern.target)
            (UrlPath.normalize req'.base) (.dir entries)
          have hframe : rootFrame req' pattern.target =
              { rootFrame req pattern.target with route := UrlPath.normalize req'.base } := rfl
          rw [← hframe, Visit.bare, Visit.bare, Visit.mk.injEq] at h
          refine ⟨h.1, ?_⟩
          have hmap : ∀ v : Except MacroError Page,
              (v.map fun root => (⟨root, pattern⟩ : PageTree)).map (·.root.bare) =
                v.map Page.bare := by
            intro v
            cases v <;> rfl
          rw [hmap, hmap]
          exact h.2
      · exact ⟨rfl, rfl⟩

/-! ## How many pages -/

theorem visited_gather_length (vs : List (Visit Page)) :
    (gather vs).visited.length ≤ (vs.map fun v => v.visited.length).sum := by
  induction vs with
  | nil => exact Nat.le_refl _
  | cons v vs ih =>
      rw [gather, List.map_cons, List.sum_cons]
      split
      · dsimp only
        omega
      · rw [List.length_append]
        omega

theorem visited_close_length (req : PageRequest) (f : Frame) (imports : PageImports)
    (v : Visit (List Page)) : (close req f imports v).visited.length ≤ v.visited.length + 1 := by
  rw [close]
  split
  · rw [List.length_append]
    exact Nat.le_refl _
  · exact Nat.le_succ _

mutual

/-- Each page visited is a directory of its own. -/
theorem length_visited_le (req : PageRequest) (pattern : ImportPattern) (f : Frame) :
    (node : FileTree) → (visit req pattern f node).visited.length ≤ node.nodeCount
  | .file _ => Nat.zero_le _
  | .dir entries => by
      rw [visit_dir, FileTree.nodeCount]
      dsimp only
      split
      · exact Nat.zero_le _
      · have hclose := visited_close_length req f (importsOf pattern f.dir entries)
          (below req pattern f entries)
        have hbelow := visited_gather_length ((sorted (fun a b => decide (a.1 ≤ b.1))
          (visitEntries req pattern f entries)).map (·.2))
        have hperm := ((sorted_perm (fun a b : String × Visit Page => decide (a.1 ≤ b.1))
          (visitEntries req pattern f entries)).map fun v => v.2.visited.length).sum_nat
        have hentries := sum_visitEntries_le req pattern f entries
        rw [List.map_map] at hbelow
        refine Nat.le_trans hclose ?_
        rw [Nat.add_comm]
        have hall := Nat.le_trans hbelow (Nat.le_trans (Nat.le_of_eq hperm) hentries)
        exact Nat.add_le_add_left hall 1

theorem sum_visitEntries_le (req : PageRequest) (pattern : ImportPattern) (f : Frame) :
    (entries : List (String × FileTree)) →
    ((visitEntries req pattern f entries).map fun v => v.2.visited.length).sum ≤
      FileTree.entryCount entries
  | [] => Nat.le_refl _
  | (name, node) :: rest => by
      have ih := sum_visitEntries_le req pattern f rest
      rw [visitEntries, FileTree.entryCount]
      split
      · next c _ _ =>
          have hnode := length_visited_le req pattern c node
          rw [List.map_cons, List.sum_cons]
          dsimp only
          omega
      · omega

end

end PageTree

/-! ## Translations of routes -/

/-- The translations of a route and of all below it, each before those below. -/
def Route.translated (r : Route) : List (String × Path) :=
  r.flatten.filterMap (·.translations)

namespace Route

theorem flattenAll_translated (rs : List Route) :
    (flattenAll rs).filterMap (·.translations) = rs.flatMap translated := by
  induction rs with
  | nil => rfl
  | cons r rs ih =>
      rw [flattenAll, List.filterMap_append, ih, List.flatMap_cons]
      rfl

theorem translated_eq (r : Route) :
    r.translated = r.translations.toList ++ r.children.flatMap translated := by
  cases r with
  | mk id name path exact isMenuItem sync component metadata translations children =>
      rw [translated, flatten, List.filterMap_cons, flattenAll_translated]
      cases translations <;> rfl

theorem translated_ofKind (kind : PageKind) (r : Route) :
    (ofKind kind r).translated = r.translated := by
  rw [translated_eq, translated_eq]
  cases kind <;> rfl

/-- The translations of children, each list with its kind. -/
def childTranslations (ps : List Page) : List (PageKind × List (String × Path)) :=
  (ofChildren ps).map fun c => (c.1, c.2.translated)

theorem translated_ofPage (p : Page) :
    (ofPage p).translated = (p.imports.translations.map (p.id, ·)).toList ++
      (PageKind.ordered (childTranslations p.children)).flatMap (·.2) := by
  have hindex : p.indexRoute?.toList.flatMap translated = [] := by
    rw [Page.indexRoute?]
    split
    · rfl
    · cases p.imports.index <;> rfl
  have hordered : PageKind.ordered (childTranslations p.children) =
      (PageKind.ordered (ofChildren p.children)).map fun c => (c.1, c.2.translated) :=
    sorted_map (fun _ _ => rfl) _
  have hpage : ofPage p = p.routeWith false
      ((PageKind.ordered (ofChildren p.children)).map (·.2)) := by
    cases p
    rw [ofPage]
  rw [hpage, translated_eq, Page.routeWith]
  dsimp only
  rw [List.flatMap_append, hindex, List.nil_append, hordered, List.flatMap_map, List.flatMap_map]

theorem childTranslations_cons (p : Page) (ps : List Page) :
    childTranslations (p :: ps) =
      (p.kind.map fun kind => (kind, (ofPage p).translated)).toList ++ childTranslations ps := by
  rw [childTranslations, ofChildren]
  cases p.kind with
  | none => rfl
  | some kind =>
      rw [List.map_cons, translated_ofKind]
      rfl

mutual

/-- Which translations the routes of a page load does not depend on its path. -/
theorem translated_bare : (p : Page) → (ofPage p.bare).translated = (ofPage p).translated
  | ⟨id, rawName, dir, kind, protect, endpoint, route, imports, children⟩ => by
      rw [translated_ofPage, translated_ofPage, Page.bare, Page.bareAll_eq_map,
        childTranslations_bare children]

theorem childTranslations_bare : (ps : List Page) →
    childTranslations (ps.map Page.bare) = childTranslations ps
  | [] => rfl
  | p :: ps => by
      rw [List.map_cons, childTranslations_cons, childTranslations_cons, p.bare_kind,
        translated_bare p, childTranslations_bare ps]

end

theorem sum_childTranslations_le (ps : List Page) :
    ((childTranslations ps).map fun c => c.2.length).sum ≤
      (ps.map fun p => (ofPage p).translated.length).sum := by
  induction ps with
  | nil => exact Nat.le_refl _
  | cons p ps ih =>
      rw [childTranslations_cons, List.map_append, List.sum_append, List.map_cons, List.sum_cons]
      refine Nat.add_le_add ?_ ih
      cases p.kind with
      | none => exact Nat.zero_le _
      | some kind => exact Nat.le_refl _

/-- A page has one directory of translations at most. -/
theorem length_translated_ofPage (p : Page) :
    (ofPage p).translated.length ≤
      (p.children.map fun c => (ofPage c).translated.length).sum + 1 := by
  rw [translated_ofPage, List.length_append, List.length_flatMap]
  have hown : (p.imports.translations.map (p.id, ·)).toList.length ≤ 1 := by
    cases p.imports.translations
    · exact Nat.zero_le 1
    · exact Nat.le_refl 1
  have hperm := ((sorted_perm (fun a b : PageKind × List (String × Path) => a.1.le b.1)
    (childTranslations p.children)).map fun c => c.2.length).sum_nat
  have hchildren := sum_childTranslations_le p.children
  rw [PageKind.ordered, hperm]
  omega

end Route

namespace PageTree

theorem sum_translated_gather {vs : List (Visit Page)} {ps : List Page}
    (hvs : ∀ v ∈ vs, ∀ p, v.result = .ok p →
      (Route.ofPage p).translated.length ≤ v.visited.length)
    (h : (gather vs).result = .ok ps) :
    (ps.map fun p => (Route.ofPage p).translated.length).sum ≤ (gather vs).visited.length := by
  induction vs generalizing ps with
  | nil =>
      cases h
      exact Nat.le_refl _
  | cons v vs ih =>
      rw [gather] at h ⊢
      cases hv : v.result with
      | error e =>
          rw [hv] at h
          exact nomatch h
      | ok p =>
          rw [hv] at h
          dsimp only at h ⊢
          cases hrest : (gather vs).result with
          | error e =>
              rw [hrest] at h
              exact nomatch h
          | ok rest =>
              rw [hrest] at h
              cases h
              have hp := hvs v List.mem_cons_self p hv
              have hps := ih (fun w hw => hvs w (List.mem_cons_of_mem v hw)) hrest
              rw [List.map_cons, List.sum_cons, List.length_append]
              omega

theorem translated_close {req : PageRequest} {f : Frame} {imports : PageImports}
    {v : Visit (List Page)} {page : Page}
    (hv : ∀ ps, v.result = .ok ps →
      (ps.map fun p => (Route.ofPage p).translated.length).sum ≤ v.visited.length)
    (h : (close req f imports v).result = .ok page) :
    (Route.ofPage page).translated.length ≤ (close req f imports v).visited.length := by
  rw [close] at h ⊢
  cases hres : v.result with
  | error e =>
      rw [hres] at h
      exact nomatch h
  | ok ps =>
      rw [hres] at h
      simp only [Except.bind] at h ⊢
      cases hpage : pageOf req f imports ps with
      | error e =>
          rw [hpage] at h
          exact nomatch h
      | ok made =>
          rw [hpage] at h
          cases h
          have hchildren : page.children = ps := by
            rw [pageOf] at hpage
            cases hc : check f.dir imports ps with
            | error e =>
                rw [hc] at hpage
                exact nomatch hpage
            | ok _ =>
                rw [hc] at hpage
                cases hpage
                rfl
          have hlen := Route.length_translated_ofPage page
          have hps := hv ps hres
          rw [hchildren] at hlen
          dsimp only
          rw [List.length_append, List.length_singleton]
          omega

mutual

/-- The routes of a complete tree have no more translations than the tree has
pages. -/
theorem length_translated_le (req : PageRequest) (pattern : ImportPattern) (f : Frame) :
    (node : FileTree) → ∀ page, (visit req pattern f node).result = .ok page →
      (Route.ofPage page).translated.length ≤ (visit req pattern f node).visited.length
  | .file _ => fun _ h => nomatch h
  | .dir entries => by
      intro page h
      rw [visit_dir] at h ⊢
      dsimp only at h ⊢
      split at h
      · exact nomatch h
      · next hmeta =>
          rw [if_neg hmeta]
          refine translated_close (fun ps hps => ?_) h
          refine sum_translated_gather (fun v hv p hp => ?_) hps
          obtain ⟨⟨name, w⟩, hw, rfl⟩ := List.mem_map.1 hv
          rw [(sorted_perm _ _).mem_iff] at hw
          exact translated_visitEntries_le req pattern f entries _ hw p hp

theorem translated_visitEntries_le (req : PageRequest) (pattern : ImportPattern) (f : Frame) :
    (entries : List (String × FileTree)) → ∀ v ∈ visitEntries req pattern f entries, ∀ page,
      v.2.result = .ok page → (Route.ofPage page).translated.length ≤ v.2.visited.length
  | [] => fun _ h => absurd h List.not_mem_nil
  | (name, node) :: rest => by
      intro v hv
      rw [visitEntries] at hv
      split at hv
      · next c _ _ =>
          rcases List.mem_cons.1 hv with rfl | hv
          · exact length_translated_le req pattern c node
          · exact translated_visitEntries_le req pattern f rest v hv
      · exact translated_visitEntries_le req pattern f rest v hv

end

end PageTree

end SiteMacros
