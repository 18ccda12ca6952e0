import Mathlib.Data.List.Perm.Basic
import SiteMacros.Proofs.Menus
import SiteMacros.Proofs.RegisteredPages

/-!
# The route tree is the page tree

A route stands for a page (`Route.StandsFor`) if it says what the page says, and if
the routes below it stand, one for one, for the pages below the page. Besides those
there is one route more at a page that has both pages below it and an index view: the
route of that view, which stands for no page and is the first. Taking these routes out
of a route tree therefore leaves the page tree, with every page once and the children
of each page put in order.

The order is the one of `Page.Ahead`, which says of two pages of one directory which
comes first. Siblings come sorted by their names from the reading of the tree, and are
sorted again by their kinds alone; that names decide between equal kinds is the
stability of the second sort (`sorted_stable`).

Two facts about the routes are not the routes' own doing. A page without children shows
its index view and never the placeholder, and nothing comes after the fallback, because
a pages tree with a page that has neither children nor an index view, or with two
fallback pages in one directory, is not read at all (`Page.Formed`).
-/

namespace SiteMacros

namespace Page

/-- Of two pages in one directory, the first has its route before the second: pages of
the menu by their numbers, then hidden pages by theirs, pages of one number by name,
and then the fallback. -/
inductive Ahead (a b : Page) : Prop
  | menu {m n : Nat} (ha : a.kind = some (.menuItem m)) (hb : b.kind = some (.menuItem n))
      (h : m < n ∨ m = n ∧ a.rawName ≤ b.rawName)
  | menuHidden {m n : Nat} (ha : a.kind = some (.menuItem m)) (hb : b.kind = some (.hidden n))
  | hidden {m n : Nat} (ha : a.kind = some (.hidden m)) (hb : b.kind = some (.hidden n))
      (h : m < n ∨ m = n ∧ a.rawName ≤ b.rawName)
  | fallback {k : PageKind} (ha : a.kind = some k) (hk : k ≠ .fallback)
      (hb : b.kind = some .fallback)

/-- What reading a pages tree sees to at each page and all below it. -/
inductive Formed : Page → Prop
  | page {p : Page} (kinds : ∀ c ∈ p.children, ∃ kind, c.kind = some kind)
      (names : p.children.Pairwise fun a b => a.rawName ≤ b.rawName)
      (fallbacks : p.children.countP (·.kind == some .fallback) ≤ 1)
      (view : p.children ≠ [] ∨ p.imports.index.isSome = true)
      (below : ∀ c ∈ p.children, Formed c) : Formed p

end Page

/-! ## Reading a tree -/

namespace PageTree

theorem formed_of_visit {req : PageRequest} {pattern : ImportPattern} (node : FileTree) :
    ∀ (f : Frame) (page : Page), (visit req pattern f node).result = .ok page →
      page.Formed := by
  induction node using FileTree.inductOn with
  | leaf text => exact fun _ _ h => nomatch h
  | node entries ih =>
      intro f page hpage
      obtain ⟨-, children, hchildren, hcheck, rfl⟩ := visit_eq_ok_iff.1 hpage
      obtain ⟨hfallbacks, hview⟩ := check_eq_ok_iff.1 hcheck
      have hframe : ∀ c ∈ orderedPages f entries, ∀ p,
          (visit req pattern c.2.1 c.2.2).result = .ok p →
            p.rawName = c.1 ∧ p.kind.isSome = true := by
        intro c hc p hp
        obtain ⟨inner, -, hchild, -⟩ := mem_orderedPages.1 hc
        obtain ⟨parsed, -, hframe⟩ := child?_eq_some hchild
        obtain ⟨hname, hkind⟩ := frame_of_visit hp
        exact ⟨by rw [hname, hframe], by rw [hkind, hframe]; rfl⟩
      refine .page (fun p hp => ?kinds) ?names hfallbacks hview fun p hp => ?below
      case kinds =>
        obtain ⟨c, hc, hvisit⟩ := exists_visited_of_mem hchildren hp
        exact Option.isSome_iff_exists.1 (hframe c hc p hvisit).2
      case names =>
        have hnames : (children.map (·.rawName)).Pairwise (· ≤ ·) := by
          rw [map_eq_of_visited hchildren fun c hc p hp => (hframe c hc p hp).1]
          exact orderedPages_names_le f entries
        exact List.pairwise_map.1 hnames
      case below =>
        obtain ⟨c, hc, hvisit⟩ := exists_visited_of_mem hchildren hp
        obtain ⟨inner, hentry, -, hnode⟩ := mem_orderedPages.1 hc
        rw [hnode] at hvisit
        exact ih _ hentry c.2.1 p hvisit

theorem formed_of_load {tree : FileTree} {req : PageRequest} {pages : PageTree}
    (h : (load tree req).result = .ok pages) : pages.root.Formed ∧ pages.root.kind = none := by
  obtain ⟨entries, -, -, -, hvisit⟩ := load_eq_ok h
  exact ⟨formed_of_visit _ _ _ hvisit, (frame_of_visit hvisit).2⟩

end PageTree

/-! ## The order of siblings -/

theorem pairwise_of_countP_le_one {α : Type} {p : α → Bool} {as : List α} (h : as.countP p ≤ 1) :
    as.Pairwise fun a b => p a = true → p b = false := by
  induction as with
  | nil => exact .nil
  | cons a as ih =>
      rw [List.countP_cons] at h
      refine List.pairwise_cons.2 ⟨fun b hb ha => ?_, ih (by omega)⟩
      rw [if_pos ha] at h
      have hnone : as.countP p = 0 := by omega
      exact Bool.eq_false_iff.2 (List.countP_eq_zero.1 hnone b hb)

namespace Page

/-- Kinds decide, then names; two fallback pages are in no order. -/
theorem ahead_of_kinds {a b : Page} {k l : PageKind} (ha : a.kind = some k) (hb : b.kind = some l)
    (hle : k.le l = true) (hnames : l.le k = true → a.rawName ≤ b.rawName)
    (hone : k = .fallback → l ≠ .fallback) : a.Ahead b := by
  simp only [PageKind.le, Bool.or_eq_true, Bool.and_eq_true, decide_eq_true_eq, beq_iff_eq]
    at hle hnames
  have htie : k.rank = l.rank → a.rawName ≤ b.rawName := fun h => hnames (by rw [h]; omega)
  cases k with
  | menuItem m =>
      cases l with
      | menuItem n =>
          have hmn : m ≤ n := by simpa [PageKind.rank] using hle
          refine .menu ha hb ((Nat.lt_or_eq_of_le hmn).imp_right fun h => ⟨h, htie ?_⟩)
          rw [h]
      | hidden n => exact .menuHidden ha hb
      | fallback => exact .fallback ha (fun h => by cases h) hb
  | hidden m =>
      cases l with
      | menuItem n => simp [PageKind.rank] at hle
      | hidden n =>
          have hmn : m ≤ n := by simpa [PageKind.rank] using hle
          refine .hidden ha hb ((Nat.lt_or_eq_of_le hmn).imp_right fun h => ⟨h, htie ?_⟩)
          rw [h]
      | fallback => exact .fallback ha (fun h => by cases h) hb
  | fallback =>
      cases l with
      | menuItem n => simp [PageKind.rank] at hle
      | hidden n => simp [PageKind.rank] at hle
      | fallback => exact absurd rfl (hone rfl)

theorem Formed.children_perm {p : Page} (h : p.Formed) : p.orderedChildren.Perm p.children := by
  obtain ⟨hkinds, -, -, -, -⟩ := h
  have hall : (withKinds p.children).map (·.2) = p.children := by
    rw [withKinds, List.map_filterMap]
    refine (List.filterMap_congr fun c hc => ?_).trans List.filterMap_some
    obtain ⟨kind, hkind⟩ := hkinds c hc
    rw [hkind]
    rfl
  have hperm := (sorted_perm (fun a b : PageKind × Page => a.1.le b.1) (withKinds p.children)).map
    Prod.snd
  rwa [hall] at hperm

theorem Formed.children_ahead {p : Page} (h : p.Formed) : p.orderedChildren.Pairwise Ahead := by
  have hperm := h.children_perm
  obtain ⟨-, hnames, hfallbacks, -, -⟩ := h
  have hone := pairwise_of_countP_le_one (hperm.countP_eq _ ▸ hfallbacks)
  have hbyName : (withKinds p.children).Pairwise fun a b => a.2.rawName ≤ b.2.rawName := by
    refine hnames.filterMap _ fun a b hab a' ha' b' hb' => ?_
    obtain ⟨k, -, rfl⟩ := Option.map_eq_some_iff.1 ha'
    obtain ⟨l, -, rfl⟩ := Option.map_eq_some_iff.1 hb'
    exact hab
  have hstable := @sorted_stable (PageKind × Page) (fun a b => a.1.le b.1)
    (fun a b => PageKind.le_total a.1 b.1) (fun a b c => PageKind.le_trans a.1 b.1 c.1) _ _ hbyName
  rw [orderedChildren_eq, List.pairwise_map] at hone ⊢
  refine List.Pairwise.imp_of_mem (fun {a b} ha hb hab => ?_) (hone.and hstable)
  obtain ⟨hnot, hle, htie⟩ := hab
  have hkind : ∀ c ∈ PageKind.ordered (withKinds p.children), c.2.kind = some c.1 := fun c hc =>
    (mem_withKinds.1 ((sorted_perm _ _).mem_iff.1 hc)).2
  refine ahead_of_kinds (hkind a ha) (hkind b hb) hle htie fun hk hl => ?_
  have hfalse := hnot (by rw [hkind a ha, hk]; rfl)
  rw [hkind b hb, hl] at hfalse
  exact nomatch hfalse

end Page

/-! ## Routes and the pages they stand for -/

namespace Route

/-- The route of a page's own index view, ahead of the routes of its children. -/
structure IsIndexOf (r : Route) (p : Page) (index : ModuleRef) : Prop where
  id : r.id = p.id ++ "|index"
  name : r.name = p.displayName
  path : r.path = p.route
  exact : r.exact = true
  isMenuItem : r.isMenuItem = false
  component : r.component = .module index
  sync : r.sync = index.sync
  metadata : r.metadata = p.imports.metadata
  translations : r.translations = none
  children : r.children = []

/-- A route says what its page says. -/
structure Tells (r : Route) (p : Page) : Prop where
  id : r.id = p.id
  name : r.name = p.displayName
  path : r.path = if p.kind = some .fallback then UrlPath.wildcard p.route else p.route
  exact : r.exact = true ↔ p.children = [] ∧ p.kind ≠ some .fallback
  isMenuItem : r.isMenuItem = true ↔ ∃ n, p.kind = some (.menuItem n)
  leaf : p.children = [] → ∃ index, p.imports.index = some index ∧ r.component = .module index
  branch : p.children ≠ [] → r.component = p.imports.layout.elim .passThrough .module
  shows : r.component ≠ .notImplemented
  sync : r.sync = r.component.sync
  metadata : r.metadata = p.imports.metadata
  translations : r.translations = p.imports.translations.map (p.id, ·)

/-- The route tells its page. The routes below it are that of the page's index view,
just if the page has both that and children, and then routes that stand for the page's
children, for each one, in order. -/
inductive StandsFor : Route → Page → Prop
  | intro {r : Route} {p : Page} {synthetic routes : List Route} {pages : List Page}
      (tells : r.Tells p) (children : r.children = synthetic ++ routes)
      (index : ∀ index, p.children ≠ [] → p.imports.index = some index →
        ∃ s, synthetic = [s] ∧ s.IsIndexOf p index)
      (noIndex : p.children = [] ∨ p.imports.index = none → synthetic = [])
      (all : pages.Perm p.children) (order : pages.Pairwise Page.Ahead)
      (below : List.Forall₂ StandsFor routes pages) : StandsFor r p

theorem isLeaf_iff {p : Page} : p.isLeaf = true ↔ p.children = [] :=
  List.isEmpty_iff

theorem component_of_leaf {p : Page} (h : p.Formed) (hleaf : p.children = []) :
    ∃ index, p.imports.index = some index ∧ p.component = .module index := by
  obtain ⟨-, -, -, hview, -⟩ := h
  obtain ⟨index, hindex⟩ := Option.isSome_iff_exists.1 (hview.resolve_left (absurd hleaf))
  exact ⟨index, hindex, by rw [Page.component, if_pos (isLeaf_iff.2 hleaf), hindex]; rfl⟩

theorem component_of_branch {p : Page} (hbranch : p.children ≠ []) :
    p.component = p.imports.layout.elim .passThrough .module := by
  rw [Page.component, if_neg fun hleaf => hbranch (isLeaf_iff.1 hleaf)]

theorem component_ne_notImplemented {p : Page} (h : p.Formed) :
    p.component ≠ .notImplemented := by
  rcases Decidable.em (p.children = []) with hleaf | hbranch
  · obtain ⟨index, -, hcomponent⟩ := component_of_leaf h hleaf
    rw [hcomponent]
    exact nofun
  · rw [component_of_branch hbranch]
    cases p.imports.layout with
    | none => exact nofun
    | some layout => exact nofun

theorem tells_ofChild {p : Page} (h : p.Formed) : (ofChild p).Tells p := by
  have hleaf := component_of_leaf h
  have hbranch := @component_of_branch p
  have hshows := component_ne_notImplemented h
  rw [ofChild, ofPage_eq]
  rcases hkind : p.kind with _ | (n | n | _)
  · exact ⟨rfl, rfl, by rw [hkind]; rfl, by simp [Page.routeWith, hkind, isLeaf_iff],
      by simp [Page.routeWith, hkind], hleaf, hbranch, hshows, rfl, rfl, rfl⟩
  · exact ⟨rfl, rfl, by rw [hkind]; rfl, by simp [ofKind, Page.routeWith, hkind, isLeaf_iff],
      by simp [ofKind, hkind], hleaf, hbranch, hshows, rfl, rfl, rfl⟩
  · exact ⟨rfl, rfl, by rw [hkind]; rfl, by simp [ofKind, Page.routeWith, hkind, isLeaf_iff],
      by simp [ofKind, Page.routeWith, hkind], hleaf, hbranch, hshows, rfl, rfl, rfl⟩
  · exact ⟨rfl, rfl, by rw [hkind]; rfl, by simp [ofKind, hkind],
      by simp [ofKind, Page.routeWith, hkind], hleaf, hbranch, hshows, rfl, rfl, rfl⟩

theorem standsFor_ofChild {p : Page} (h : p.Formed) : (ofChild p).StandsFor p := by
  induction p using Page.inductOn with
  | step p ih =>
      have hperm := h.children_perm
      have hbelow : ∀ c ∈ p.orderedChildren, (ofChild c).StandsFor c := by
        obtain ⟨-, -, -, -, hbelow⟩ := h
        intro c hc
        exact ih c (hperm.mem_iff.1 hc) (hbelow c (hperm.mem_iff.1 hc))
      have hchildren : (ofChild p).children =
          p.indexRoute?.toList ++ p.orderedChildren.map ofChild := by
        rw [children_ofChild, children_ofPage]
      refine .intro (tells_ofChild h) hchildren (fun index hbranch hindex => ?_)
        (fun hnone => ?_) hperm h.children_ahead ?_
      · rw [Page.indexRoute?, if_neg fun hleaf => hbranch (isLeaf_iff.1 hleaf), hindex]
        exact ⟨_, rfl, rfl, rfl, rfl, rfl, rfl, rfl, rfl, rfl, rfl, rfl⟩
      · rw [Page.indexRoute?]
        rcases hnone with hleaf | hnone
        · rw [if_pos (isLeaf_iff.2 hleaf)]
          rfl
        · rw [hnone]
          split <;> rfl
      · rw [List.forall₂_map_left_iff]
        exact List.forall₂_same.2 hbelow

/-! ## All routes of a tree -/

theorem flattenAll_eq_flatMap (rs : List Route) : flattenAll rs = rs.flatMap flatten := by
  induction rs with
  | nil => rfl
  | cons r rs ih => rw [flattenAll, ih, List.flatMap_cons]

theorem isIndexOf_of_indexRoute {p : Page} {r : Route} (h : p.indexRoute? = some r) :
    ∃ index, r.IsIndexOf p index := by
  rw [Page.indexRoute?] at h
  split at h
  · cases h
  · obtain ⟨index, -, rfl⟩ := Option.map_eq_some_iff.1 h
    exact ⟨index, rfl, rfl, rfl, rfl, rfl, rfl, rfl, rfl, rfl, rfl⟩

theorem flatten_indexRoute (p : Page) :
    p.indexRoute?.toList.flatMap flatten = p.indexRoute?.toList := by
  cases h : p.indexRoute? with
  | none => rfl
  | some r =>
      obtain ⟨index, hindex⟩ := isIndexOf_of_indexRoute h
      rw [Option.toList_some, List.flatMap_singleton, flatten_eq, hindex.children]
      rfl

/-- Among the routes of a tree each page has one, and each index view beside pages another. -/
theorem flatten_ofChild_perm {p : Page} (h : p.Formed) :
    (ofChild p).flatten.Perm
      (p.placed.flatMap fun q => ofChild q.2 :: q.2.indexRoute?.toList) := by
  induction p using Page.inductOn with
  | step p ih =>
      have hperm := h.children_perm
      have hbelow : (p.children.flatMap fun c => (ofChild c).flatten).Perm
          ((Page.placedAll p.children).flatMap
            fun q => ofChild q.2 :: q.2.indexRoute?.toList) := by
        obtain ⟨-, -, -, -, hformed⟩ := h
        rw [Page.placedAll_eq_flatMap, List.flatMap_assoc]
        refine .flatMap_left _ fun c hc => ?_
        rw [List.flatMap_map]
        exact ih c hc (hformed c hc)
      rw [flatten_eq, children_ofChild, children_ofPage, flattenAll_eq_flatMap,
        List.flatMap_append, flatten_indexRoute, List.flatMap_map, Page.placed_eq,
        List.flatMap_cons, List.cons_append]
      exact (((hperm.flatMap_right _).trans hbelow).append_left _).cons _

theorem ofChild_of_root {p : Page} (h : p.kind = none) : ofChild p = ofPage p := by
  rw [ofChild, h]
  rfl

/-- The routes of a pages tree are the tree: the root's route stands for the root. -/
theorem ofPage_standsFor_root {tree : FileTree} {req : PageRequest} {pages : PageTree}
    (h : (PageTree.load tree req).result = .ok pages) :
    (ofPage pages.root).StandsFor pages.root := by
  obtain ⟨hformed, hkind⟩ := PageTree.formed_of_load h
  have hroot : ofChild pages.root = ofPage pages.root := by
    rw [ofChild, hkind]
    rfl
  rw [← hroot]
  exact standsFor_ofChild hformed

/-- An index view beside pages of every kind, two of them with one number. -/
def siblings : List (String × FileTree) :=
  [("[0]rest", page), ("[-2]old", page), ("[1]b", page), ("[1]a", page), ("[-1]new", page),
    ("index.tsx", .file "")]
where
  page : FileTree := .dir [("index.sync.tsx", .file ""), ("meta.ts", .file "")]

theorem ofPage_standsFor_siblings :
    ∃ pages, (PageTree.load (PageTree.inProject "pages" siblings)
        (PageTree.requestOf "./pages" "/x")).result = .ok pages ∧
      (ofPage pages.root).StandsFor pages.root ∧
      (ofPage pages.root).children.map (fun r => (r.path, r.exact, r.isMenuItem)) =
        [("/x", true, false), ("/x/a", true, true), ("/x/b", true, true), ("/x/new", true, false),
          ("/x/old", true, false), ("/x/*", false, false)] := by
  have hroutes : (PageTree.load (PageTree.inProject "pages" siblings)
      (PageTree.requestOf "./pages" "/x")).result.map (fun pages =>
        (ofPage pages.root).children.map fun r => (r.path, r.exact, r.isMenuItem)) =
      .ok [("/x", true, false), ("/x/a", true, true), ("/x/b", true, true),
        ("/x/new", true, false), ("/x/old", true, false), ("/x/*", false, false)] := by
    decide +kernel
  cases hload : (PageTree.load (PageTree.inProject "pages" siblings)
      (PageTree.requestOf "./pages" "/x")).result with
  | error e =>
      rw [hload] at hroutes
      exact nomatch hroutes
  | ok pages =>
      rw [hload] at hroutes
      exact ⟨pages, rfl, ofPage_standsFor_root hload, Except.ok.inj hroutes⟩

end Route

end SiteMacros
