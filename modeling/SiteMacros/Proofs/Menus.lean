import Mathlib.Data.List.Forall2
import SiteMacros.Menu

/-!
# Menus are what is visible of the routes

A page's routes and its menu come from two recursions over the pages. The one
keeps every child that has a kind, rewrites the path of the fallback and puts a
route for the page's own index view ahead of the children; the other keeps the
children that belong to the menu and stops below a protected page. Here the menu
is read off the routes (`visibleBelow`): of the routes below a page those stay
that are marked for the menu, in their order, and below a protected page none.

A route does not say whether its page is protected, and ids need not tell pages
apart, so the routes are read side by side with the pages that they stand for
(`Page.routedPages`, `routed_children`). The route of an index view stands for no
page; it is not marked, and nothing is below it.

Both recursions list the same children in the same order, since leaving out
children and sorting them by kind go together (`ofPage_eq_filter`). That is the
whole of the induction step.
-/

namespace SiteMacros

namespace PageKind

theorem le_total (a b : PageKind) : a.le b = true ∨ b.le a = true := by
  simp only [le, Bool.or_eq_true, Bool.and_eq_true, decide_eq_true_eq, beq_iff_eq]
  omega

theorem le_trans (a b c : PageKind) (hab : a.le b = true) (hbc : b.le c = true) :
    a.le c = true := by
  simp only [le, Bool.or_eq_true, Bool.and_eq_true, decide_eq_true_eq, beq_iff_eq] at hab hbc ⊢
  omega

end PageKind

namespace Page

/-- Pages that have a kind, each with it. -/
def withKinds (ps : List Page) : List (PageKind × Page) :=
  ps.filterMap fun c => c.kind.map (·, c)

theorem mem_withKinds {ps : List Page} {kind : PageKind} {c : Page} :
    (kind, c) ∈ withKinds ps ↔ c ∈ ps ∧ c.kind = some kind := by
  rw [withKinds, List.mem_filterMap]
  constructor
  · rintro ⟨d, hd, hkind⟩
    obtain ⟨k, hk, heq⟩ := Option.map_eq_some_iff.1 hkind
    obtain ⟨rfl, rfl⟩ := Prod.mk.inj heq
    exact ⟨hd, hk⟩
  · rintro ⟨hc, hkind⟩
    exact ⟨c, hc, by rw [hkind]; rfl⟩

theorem orderedChildren_eq (p : Page) :
    p.orderedChildren = (PageKind.ordered (withKinds p.children)).map (·.2) :=
  rfl

theorem mem_orderedChildren {p c : Page} :
    c ∈ p.orderedChildren ↔ c ∈ p.children ∧ ∃ kind, c.kind = some kind := by
  have hperm := sorted_perm (fun a b : PageKind × Page => a.1.le b.1) (withKinds p.children)
  rw [orderedChildren_eq, PageKind.ordered, List.mem_map]
  constructor
  · rintro ⟨⟨kind, d⟩, hd, rfl⟩
    obtain ⟨hmem, hkind⟩ := mem_withKinds.1 (hperm.mem_iff.1 hd)
    exact ⟨hmem, kind, hkind⟩
  · rintro ⟨hmem, kind, hkind⟩
    exact ⟨(kind, c), hperm.mem_iff.2 (mem_withKinds.2 ⟨hmem, hkind⟩), rfl⟩

/-- Is it a page of the menu? -/
def isMenuItem (p : Page) : Bool :=
  p.kind.any PageKind.isMenuItem

theorem isMenuItem_iff {p : Page} : p.isMenuItem = true ↔ ∃ n, p.kind = some (.menuItem n) := by
  rw [isMenuItem]
  rcases p.kind with _ | (n | n | _) <;> simp [PageKind.isMenuItem]

mutual

theorem inductOn {motive : Page → Prop}
    (step : ∀ p : Page, (∀ c ∈ p.children, motive c) → motive p) :
    ∀ p, motive p
  | ⟨_, _, _, _, _, _, _, _, children⟩ => step _ (inductOnAll step children)

theorem inductOnAll {motive : Page → Prop}
    (step : ∀ p : Page, (∀ c ∈ p.children, motive c) → motive p) :
    ∀ ps : List Page, ∀ c ∈ ps, motive c
  | [], _, h => absurd h List.not_mem_nil
  | p :: ps, _, h => (List.mem_cons.1 h).elim (· ▸ inductOn step p) (inductOnAll step ps _)

end

end Page

/-! ## Routes by their pages -/

namespace Route

/-- The route of a child, as its kind has it. -/
def ofChild (c : Page) : Route :=
  c.kind.elim (ofPage c) fun kind => ofKind kind (ofPage c)

theorem ofChildren_eq (ps : List Page) :
    ofChildren ps = (Page.withKinds ps).map fun c => (c.1, ofKind c.1 (ofPage c.2)) := by
  induction ps with
  | nil => rfl
  | cons p ps ih =>
      rw [ofChildren, ih, Page.withKinds, Page.withKinds, List.filterMap_cons]
      cases p.kind <;> rfl

theorem ofPage_eq (p : Page) : ofPage p = p.routeWith false (p.orderedChildren.map ofChild) := by
  have hroutes : (PageKind.ordered (ofChildren p.children)).map (·.2) =
      p.orderedChildren.map ofChild := by
    have hordered : PageKind.ordered (ofChildren p.children) =
        (PageKind.ordered (Page.withKinds p.children)).map
          fun c => (c.1, ofKind c.1 (ofPage c.2)) := by
      rw [ofChildren_eq]
      exact sorted_map (fun _ _ => rfl) _
    rw [hordered, Page.orderedChildren_eq, List.map_map, List.map_map]
    refine List.map_congr_left fun c hc => ?_
    have hkind := (Page.mem_withKinds.1 ((sorted_perm _ _).mem_iff.1 hc)).2
    rw [Function.comp_apply, Function.comp_apply, ofChild, hkind]
    rfl
  rw [← hroutes]
  cases p
  rw [ofPage]

theorem children_ofPage (p : Page) :
    (ofPage p).children = p.indexRoute?.toList ++ p.orderedChildren.map ofChild := by
  rw [ofPage_eq]
  rfl

theorem children_ofChild (c : Page) : (ofChild c).children = (ofPage c).children := by
  rw [ofChild]
  rcases c.kind with _ | (n | n | _) <;> rfl

/-- A page's route is marked for the menu exactly if the page is in it. -/
theorem isMenuItem_ofChild (c : Page) : (ofChild c).isMenuItem = c.isMenuItem := by
  have hunmarked : (ofPage c).isMenuItem = false := by
    rw [ofPage_eq]
    rfl
  rw [ofChild, Page.isMenuItem]
  rcases c.kind with _ | (n | n | _)
  · exact hunmarked
  · rfl
  · exact hunmarked
  · exact hunmarked

theorem isMenuItem_indexRoute {p : Page} {r : Route} (h : p.indexRoute? = some r) :
    r.isMenuItem = false := by
  rw [Page.indexRoute?] at h
  split at h
  · exact nomatch h
  · obtain ⟨index, -, rfl⟩ := Option.map_eq_some_iff.1 h
    rfl

theorem flatten_eq (r : Route) : r.flatten = r :: flattenAll r.children := by
  cases r
  rw [flatten]

theorem mem_flattenAll {q : Route} {rs : List Route} :
    q ∈ flattenAll rs ↔ ∃ r ∈ rs, q ∈ r.flatten := by
  induction rs with
  | nil => simp [flattenAll]
  | cons r rs ih => simp [flattenAll, ih]

end Route

namespace Page

/-- The pages that the routes below the page's route stand for, in the order of
the routes. The route of an index view stands for none. -/
def routedPages (p : Page) : List (Option Page) :=
  p.indexRoute?.toList.map (fun _ => none) ++ p.orderedChildren.map some

/-- Does this route, right below the route of `p`, stand for this page? -/
def Routes (p : Page) : Option Page → Route → Prop
  | none, r => p.indexRoute? = some r
  | some c, r =>
      c ∈ p.children ∧ ∃ kind, c.kind = some kind ∧ r = Route.ofKind kind (Route.ofPage c)

theorem routes_ofChild {p c : Page} (h : c ∈ p.orderedChildren) :
    p.Routes (some c) (Route.ofChild c) := by
  obtain ⟨hc, kind, hkind⟩ := mem_orderedChildren.1 h
  exact ⟨hc, kind, hkind, by rw [Route.ofChild, hkind]; rfl⟩

theorem routed_children (p : Page) :
    List.Forall₂ p.Routes p.routedPages (Route.ofPage p).children := by
  rw [routedPages, Route.children_ofPage]
  refine List.rel_append ?_ ?_
  · cases hindex : p.indexRoute? with
    | none => exact .nil
    | some r => exact .cons hindex .nil
  · rw [List.forall₂_map_left_iff, List.forall₂_map_right_iff]
    exact List.forall₂_same.2 fun c hc => routes_ofChild hc

/-- Does the menu of `p` get as far as this page? It shows the pages of the menu
among the children, and what their menus show, unless `p` is protected. -/
inductive Shows : Page → Page → Prop where
  | child {p c : Page} {n : Nat} (hopen : p.protect = false) (hc : c ∈ p.children)
      (hkind : c.kind = some (.menuItem n)) : Shows p c
  | deeper {p c q : Page} {n : Nat} (hopen : p.protect = false) (hc : c ∈ p.children)
      (hkind : c.kind = some (.menuItem n)) (hbelow : Shows c q) : Shows p q

theorem shows_iff {p q : Page} : p.Shows q ↔ p.protect = false ∧
    ∃ c ∈ p.orderedChildren, c.isMenuItem = true ∧ (q = c ∨ c.Shows q) := by
  constructor
  · rintro (⟨hopen, hc, hkind⟩ | ⟨hopen, hc, hkind, hbelow⟩)
    · exact ⟨hopen, q, mem_orderedChildren.2 ⟨hc, _, hkind⟩, isMenuItem_iff.2 ⟨_, hkind⟩, .inl rfl⟩
    · exact ⟨hopen, _, mem_orderedChildren.2 ⟨hc, _, hkind⟩, isMenuItem_iff.2 ⟨_, hkind⟩,
        .inr hbelow⟩
  · rintro ⟨hopen, c, hc, hitem, hq⟩
    obtain ⟨n, hkind⟩ := isMenuItem_iff.1 hitem
    rcases hq with rfl | hbelow
    · exact .child hopen (mem_orderedChildren.1 hc).1 hkind
    · exact .deeper hopen (mem_orderedChildren.1 hc).1 hkind hbelow

/-- The route of a page of the menu. -/
def menuRoute (p : Page) : Route :=
  { Route.ofPage p with isMenuItem := true }

/-- The pages that a menu shows have their routes below the route of its page. -/
theorem Shows.menuRoute_mem {p q : Page} (h : p.Shows q) :
    q.menuRoute ∈ Route.flattenAll (Route.ofPage p).children := by
  have hchild : ∀ {p c : Page} {n : Nat}, c ∈ p.children → c.kind = some (.menuItem n) →
      c.menuRoute ∈ (Route.ofPage p).children := by
    intro p c n hc hkind
    rw [Route.children_ofPage]
    refine List.mem_append_right _ (List.mem_map.2 ⟨c, mem_orderedChildren.2 ⟨hc, _, hkind⟩, ?_⟩)
    rw [Route.ofChild, hkind]
    rfl
  induction h with
  | child _ hc hkind =>
      refine Route.mem_flattenAll.2 ⟨_, hchild hc hkind, ?_⟩
      rw [Route.flatten_eq]
      exact List.mem_cons_self
  | deeper _ hc hkind _ ih =>
      refine Route.mem_flattenAll.2 ⟨_, hchild hc hkind, ?_⟩
      rw [Route.flatten_eq]
      exact List.mem_cons_of_mem _ ih

end Page

/-! ## What is visible of routes -/

namespace Menu

/-- A menu's entry for a route: what it shows is left out. -/
def ofRoute (r : Route) (children : List Menu) : Menu where
  id := r.id
  name := r.name
  path := r.path
  metadata := r.metadata
  children := children

mutual

/-- What is visible below a route that stands for this page, if for any. -/
def visibleBelow : Option Page → Route → List Menu
  | page?, ⟨_, _, _, _, _, _, _, _, _, children⟩ =>
      if page?.any (·.protect) then []
      else visibleAmong (page?.elim [] (·.routedPages)) children

/-- The entries of the routes that are marked for the menu, which stand for these
pages one by one. -/
def visibleAmong : List (Option Page) → List Route → List Menu
  | page? :: pages, r :: rs =>
      if r.isMenuItem then ofRoute r (visibleBelow page? r) :: visibleAmong pages rs
      else visibleAmong pages rs
  | _, _ => []

end

mutual

/-- The entry and all below it, each before those below. -/
def flatten : Menu → List Menu
  | ⟨id, name, path, metadata, children⟩ =>
      ⟨id, name, path, metadata, children⟩ :: flattenAll children

def flattenAll : List Menu → List Menu
  | [] => []
  | m :: ms => flatten m ++ flattenAll ms

end

theorem flatten_eq (m : Menu) : m.flatten = m :: flattenAll m.children := by
  cases m
  rw [flatten]

theorem mem_flattenAll {e : Menu} {ms : List Menu} :
    e ∈ flattenAll ms ↔ ∃ m ∈ ms, e ∈ m.flatten := by
  induction ms with
  | nil => simp [flattenAll]
  | cons m ms ih => simp [flattenAll, ih]

theorem visibleBelow_eq (page? : Option Page) (r : Route) :
    visibleBelow page? r = if page?.any (·.protect) then []
      else visibleAmong (page?.elim [] (·.routedPages)) r.children := by
  cases r
  rw [visibleBelow]

/-- A page's entry in a menu, with the page's menu below it. -/
def entry (p : Page) : Menu :=
  ofRoute (Route.ofPage p) (ofPage p)

theorem ofChildren_eq (ps : List Page) :
    ofChildren ps =
      ((Page.withKinds ps).filter (·.1.isMenuItem)).map fun c => (c.1, entry c.2) := by
  have hentry : ∀ c : Page,
      entry c = ⟨c.id, c.displayName, c.route, c.imports.metadata, ofPage c⟩ := by
    intro c
    rw [entry, ofRoute, Route.ofPage_eq]
    rfl
  induction ps with
  | nil => rfl
  | cons p ps ih =>
      rw [ofChildren, ih, Page.withKinds, Page.withKinds, List.filterMap_cons]
      rcases p.kind with _ | (n | n | _)
      · rfl
      · rw [← hentry]
        rfl
      · rfl
      · rfl

/-- The menu has the page's children in the order of their routes, as far as they
are in the menu. -/
theorem ofPage_eq_filter (p : Page) :
    ofPage p = if p.protect then [] else (p.orderedChildren.filter (·.isMenuItem)).map entry := by
  have hentries : (PageKind.ordered (ofChildren p.children)).map (·.2) =
      (p.orderedChildren.filter (·.isMenuItem)).map entry := by
    have hordered : PageKind.ordered (ofChildren p.children) =
        ((PageKind.ordered (Page.withKinds p.children)).filter (·.1.isMenuItem)).map
          fun c => (c.1, entry c.2) := by
      rw [ofChildren_eq, PageKind.ordered, PageKind.ordered,
        ← sorted_filter (fun a b => PageKind.le_total a.1 b.1)
          (fun a b c => PageKind.le_trans a.1 b.1 c.1)]
      exact sorted_map (fun _ _ => rfl) _
    have hkinds : (PageKind.ordered (Page.withKinds p.children)).filter (·.1.isMenuItem) =
        (PageKind.ordered (Page.withKinds p.children)).filter (·.2.isMenuItem) := by
      refine List.filter_congr fun c hc => ?_
      have hkind := (Page.mem_withKinds.1 ((sorted_perm _ _).mem_iff.1 hc)).2
      rw [Page.isMenuItem, hkind]
      rfl
    rw [hordered, hkinds, Page.orderedChildren_eq, List.filter_map, List.map_map, List.map_map]
    rfl
  rw [← hentries]
  cases p
  rw [ofPage]

/-! ## The menu read off the routes -/

theorem visibleAmong_cons (page? : Option Page) (pages : List (Option Page)) (r : Route)
    (rs : List Route) : visibleAmong (page? :: pages) (r :: rs) =
      if r.isMenuItem then ofRoute r (visibleBelow page? r) :: visibleAmong pages rs
      else visibleAmong pages rs := by
  rw [visibleAmong]

/-- The route of an index view is not visible. -/
theorem visibleAmong_indexRoute {p : Page} (pages : List (Option Page)) (rs : List Route) :
    visibleAmong (p.indexRoute?.toList.map (fun _ => none) ++ pages) (p.indexRoute?.toList ++ rs) =
      visibleAmong pages rs := by
  cases hindex : p.indexRoute? with
  | none => rfl
  | some r =>
      rw [Option.toList_some, List.map_singleton, List.singleton_append, List.singleton_append,
        visibleAmong_cons, Route.isMenuItem_indexRoute hindex]
      rfl

/-- Below a page's route the same is visible, whatever its kind has made of it. -/
theorem visibleBelow_ofChild (c : Page) :
    visibleBelow (some c) (Route.ofChild c) = visibleBelow (some c) (Route.ofPage c) := by
  rw [visibleBelow_eq, visibleBelow_eq, Route.children_ofChild]

theorem ofRoute_ofChild {c : Page} (h : c.isMenuItem = true) (children : List Menu) :
    ofRoute (Route.ofChild c) children = ofRoute (Route.ofPage c) children := by
  obtain ⟨n, hkind⟩ := Page.isMenuItem_iff.1 h
  rw [Route.ofChild, hkind]
  rfl

theorem visibleAmong_children {cs : List Page}
    (h : ∀ c ∈ cs, ofPage c = visibleBelow (some c) (Route.ofPage c)) :
    visibleAmong (cs.map some) (cs.map Route.ofChild) =
      (cs.filter (·.isMenuItem)).map entry := by
  induction cs with
  | nil => rfl
  | cons c cs ih =>
      have hrest := ih fun d hd => h d (List.mem_cons_of_mem c hd)
      rw [List.map_cons, List.map_cons, visibleAmong_cons, Route.isMenuItem_ofChild, hrest,
        List.filter_cons]
      split
      · next hitem =>
          rw [List.map_cons, visibleBelow_ofChild, ← h c List.mem_cons_self,
            ofRoute_ofChild hitem, entry]
      · rfl

theorem ofPage_eq_visibleBelow (p : Page) :
    ofPage p = visibleBelow (some p) (Route.ofPage p) := by
  induction p using Page.inductOn with
  | step p ih =>
      have hordered : ∀ c ∈ p.orderedChildren, ofPage c = visibleBelow (some c) (Route.ofPage c) :=
        fun c hc => ih c (Page.mem_orderedChildren.1 hc).1
      rw [ofPage_eq_filter, visibleBelow_eq, Route.children_ofPage, Option.any_some,
        Option.elim_some, Page.routedPages, visibleAmong_indexRoute,
        visibleAmong_children hordered]

/-- The entries of a menu are those of the pages it shows. -/
theorem mem_flattenAll_ofPage {p : Page} {e : Menu} :
    e ∈ flattenAll (ofPage p) ↔ ∃ q, p.Shows q ∧ e = entry q := by
  induction p using Page.inductOn generalizing e with
  | step p ih =>
      have hentry : ∀ c ∈ p.children, ∀ e, e ∈ (entry c).flatten ↔
          ∃ q, (q = c ∨ c.Shows q) ∧ e = entry q := by
        intro c hc e
        rw [flatten_eq, List.mem_cons, show (entry c).children = ofPage c from rfl, ih c hc]
        constructor
        · rintro (rfl | ⟨q, hq, rfl⟩)
          · exact ⟨c, .inl rfl, rfl⟩
          · exact ⟨q, .inr hq, rfl⟩
        · rintro ⟨q, rfl | hq, rfl⟩
          · exact .inl rfl
          · exact .inr ⟨q, hq, rfl⟩
      rw [mem_flattenAll, ofPage_eq_filter]
      cases hprotect : p.protect with
      | true =>
          constructor
          · rintro ⟨m, hm, -⟩
            exact absurd hm List.not_mem_nil
          · rintro ⟨q, hq, -⟩
            exact absurd (hprotect.symm.trans (Page.shows_iff.1 hq).1) Bool.noConfusion
      | false =>
          constructor
          · rintro ⟨m, hm, he⟩
            obtain ⟨c, hc, rfl⟩ := List.mem_map.1 hm
            obtain ⟨hc, hitem⟩ := List.mem_filter.1 hc
            obtain ⟨q, hq, rfl⟩ := (hentry c (Page.mem_orderedChildren.1 hc).1 e).1 he
            exact ⟨q, Page.shows_iff.2 ⟨hprotect, c, hc, hitem, hq⟩, rfl⟩
          · rintro ⟨q, hq, rfl⟩
            obtain ⟨-, c, hc, hitem, hq⟩ := Page.shows_iff.1 hq
            exact ⟨entry c, List.mem_map.2 ⟨c, List.mem_filter.2 ⟨hc, hitem⟩, rfl⟩,
              (hentry c (Page.mem_orderedChildren.1 hc).1 _).2 ⟨q, hq, rfl⟩⟩

/-- The menu of a page is what is visible of the routes below it: of each level
the routes marked for the menu, in their order, without what they show and with
nothing below a protected page. So its entries are, one for one, those of the
pages that it shows, none of which is below a protected, a hidden or a fallback
page, and each has the id, the name, the path and the metadata of a route of the
same tree. The pages that the routes are read with are the ones that they were
made of. -/
theorem ofPage_visible (root : Page) :
    ofPage root = visibleBelow (some root) (Route.ofPage root) ∧
      (∀ p : Page, List.Forall₂ p.Routes p.routedPages (Route.ofPage p).children) ∧
      ∀ e, e ∈ flattenAll (ofPage root) ↔ ∃ q, root.Shows q ∧
        q.menuRoute ∈ Route.flattenAll (Route.ofPage root).children ∧
        e = ofRoute q.menuRoute (ofPage q) := by
  refine ⟨ofPage_eq_visibleBelow root, Page.routed_children, fun e => ?_⟩
  rw [mem_flattenAll_ofPage]
  constructor
  · rintro ⟨q, hq, rfl⟩
    exact ⟨q, hq, hq.menuRoute_mem, rfl⟩
  · rintro ⟨q, hq, -, rfl⟩
    exact ⟨q, hq, rfl⟩

end Menu

end SiteMacros
