import SiteMacros.Proofs.RegisteredPages

/-!
# The order of visits

A page is visited when all pages below it have been, and pages of one directory are
visited in the order of their names. So the visits of a complete tree are its pages in
post-order. A visit that fails stops in one directory that has a fault. Had it gone on, it
would have come to the pages that stand later in the post-order; the pages reported are those
that stand earlier. Both are said of what a visit leaves behind (`Trace`).

To say so without a tree (there is none if the visit fails) the post-order is put as an
order on the names that lead to the pages (`Earlier`): what is further down comes earlier,
and otherwise the first names that differ decide. A fault is seen before the pages in its
directory are looked at or after all of them, and that makes the one exception: pages below
a directory without metadata would come earlier, but they are not looked at.

The induction is on the file tree, and in each directory on the pages in it. For both there
is one invariant. It is said of the names that lead to pages from a directory (`Place`) or
from a list of pages (`PlaceAmong`). The first page of a list adds its name to all names
below it, and its trace goes before that of the others (`trace_of_first_ok`); the page of a
directory comes behind those in it (`trace_of_page`).
-/

namespace SiteMacros

namespace Page

mutual

/-- The pages below the page and then the page, each with the names that lead to it. -/
def postorder : Page → List (List String × Page)
  | ⟨id, rawName, dir, kind, protect, endpoint, route, imports, children⟩ =>
      postorderAll children ++
        [([], ⟨id, rawName, dir, kind, protect, endpoint, route, imports, children⟩)]

def postorderAll : List Page → List (List String × Page)
  | [] => []
  | p :: ps => p.postorder.map (fun q => (p.rawName :: q.1, q.2)) ++ postorderAll ps

end

theorem postorder_eq (p : Page) : p.postorder = postorderAll p.children ++ [([], p)] := by
  cases p
  rw [postorder]

mutual

/-- The post-order has each page of the tree once. -/
theorem postorder_perm : (p : Page) → p.postorder.Perm p.placed
  | ⟨id, rawName, dir, kind, protect, endpoint, route, imports, children⟩ => by
      rw [postorder, placed]
      exact (List.perm_append_singleton _ _).trans ((postorderAll_perm children).cons _)

theorem postorderAll_perm : (ps : List Page) → (postorderAll ps).Perm (placedAll ps)
  | [] => .refl _
  | p :: ps => by
      rw [postorderAll, placedAll]
      exact ((postorder_perm p).map _).append (postorderAll_perm ps)

end

end Page

namespace PageTree

/-! ## The order -/

/-- Are the first names those of a page that is visited before the page of the others? -/
def Earlier : List String → List String → Prop
  | [], _ => False
  | _ :: _, [] => True
  | m :: ms, n :: ns => m < n ∨ m = n ∧ Earlier ms ns

theorem earlier_nil_iff {ms : List String} : Earlier ms [] ↔ ms ≠ [] := by
  cases ms with
  | nil => exact iff_of_false id fun h => h rfl
  | cons m ms => exact iff_of_true trivial (List.cons_ne_nil m ms)

theorem earlier_cons_iff {n : String} {ms ns : List String} :
    Earlier (n :: ms) (n :: ns) ↔ Earlier ms ns := by
  rw [Earlier]
  exact ⟨fun h => h.elim (fun hlt => absurd hlt (String.lt_irrefl n)) And.right,
    fun h => .inr ⟨rfl, h⟩⟩

/-- The names lead to a directory with entries `last`, which is read with the frame `g`. -/
structure Place (f : Frame) (es : List (String × FileTree)) (ns : List String) (g : Frame)
    (last : List (String × FileTree)) : Prop where
  reaches : Reaches es ns last
  frame : frameAt f ns = some g

/-- The first name is that of one of the pages, and the others lead on from there. -/
def PlaceAmong (cs : List (String × Frame × FileTree)) (ns : List String) (g : Frame)
    (last : List (String × FileTree)) : Prop :=
  ∃ c ∈ cs, ∃ ms inner, ns = c.1 :: ms ∧ c.2.2 = .dir inner ∧ Place c.2.1 inner ms g last

theorem place_iff {f g : Frame} {es last : List (String × FileTree)} {ns : List String} :
    Place f es ns g last ↔
      (ns = [] ∧ g = f ∧ last = es) ∨ PlaceAmong (orderedPages f es) ns g last := by
  constructor
  · rintro ⟨hreaches, hframe⟩
    cases hreaches with
    | here =>
        cases hframe
        exact .inl ⟨rfl, rfl, rfl⟩
    | @into _ inner _ name names hentry hname hrest =>
        obtain ⟨child, hchild, hnext⟩ := Option.bind_eq_some_iff.1 hframe
        exact .inr ⟨_, orderedPages_of_child hentry hchild, names, inner, rfl, rfl, hrest, hnext⟩
  · rintro (⟨rfl, rfl, rfl⟩ | ⟨c, hc, ms, inner, rfl, hnode, hreaches, hframe⟩)
    · exact ⟨.here last, rfl⟩
    · obtain ⟨inner', hentry, hchild, hnode'⟩ := mem_orderedPages.1 hc
      rw [hnode] at hnode'
      cases hnode'
      refine ⟨.into hentry (isSome_parse?_of_child? hchild) hreaches, ?_⟩
      rw [frameAt, hchild, Option.bind_some, hframe]

/-- Whatever is reached has a place. -/
theorem Reaches.place {es last : List (String × FileTree)} {ns : List String}
    (h : Reaches es ns last) (f : Frame) : ∃ g, Place f es ns g last := by
  induction h generalizing f with
  | here es => exact ⟨f, .here es, rfl⟩
  | into entry page rest ih =>
      obtain ⟨child, hchild⟩ := exists_child (f := f) page
      obtain ⟨g, hg⟩ := ih child
      refine ⟨g, .into entry page hg.reaches, ?_⟩
      rw [frameAt, hchild, Option.bind_some, hg.frame]

/-! ## Faults -/

/-- What is wrong with a directory, as its error tells it; `named` says that it has the
name of a page. A fault is early if it is seen before the pages in the directory are looked
at. -/
inductive Fault (req : PageRequest) (dir : Path) (named : Prop) (es : List (String × FileTree)) :
    (early : Bool) → MacroError → Prop
  | noMeta (hnamed : named) (hneeded : req.allowNoMeta = false) (hmissing : ¬ HasMetadata es) :
      Fault req dir named es true (.structural (.noMeta dir))
  | fallbacks (hmany : 1 < es.countP isFallback) :
      Fault req dir named es false (.structural (.fallbacks dir (es.countP isFallback)))
  | noIndex (hleaf : ¬ ∃ name, HasDirectory es name ∧ (PageName.parse? name).isSome = true)
      (hmissing : ¬ ∃ n ∈ PageImports.indexFiles, HasFile es n.1) :
      Fault req dir named es false (.structural (.noIndex dir))

variable {req : PageRequest} {pattern : ImportPattern} {f : Frame}
  {es : List (String × FileTree)}

theorem check_eq_error {dir : Path} {imports : PageImports} {children : List Page} {e : MacroError}
    (h : check dir imports children = .error e) :
    (1 < children.countP (·.kind == some .fallback) ∧
        e = .structural (.fallbacks dir (children.countP (·.kind == some .fallback)))) ∨
      (children = [] ∧ imports.index = none ∧ e = .structural (.noIndex dir)) := by
  rw [check, ← List.countP_eq_length_filter] at h
  split at h
  · next hmany =>
      cases h
      exact .inl ⟨hmany, rfl⟩
  · split at h
    · next hleaf =>
        cases h
        rw [Bool.and_eq_true, List.isEmpty_iff, Option.isNone_iff_eq_none] at hleaf
        exact .inr ⟨hleaf.1, hleaf.2, rfl⟩
    · cases h

/-- What the check reports once the children are known is wrong with the directory. -/
theorem fault_of_check {children : List Page} {e : MacroError} {named : Prop}
    (hchildren : (orderedPages f es).map (fun c => (visit req pattern c.2.1 c.2.2).result) =
      children.map .ok)
    (h : check f.dir (importsOf pattern f.dir es) children = .error e) :
    Fault req f.dir named es false e := by
  rcases check_eq_error h with ⟨hmany, rfl⟩ | ⟨hnil, hindex, rfl⟩
  · rw [countP_children hchildren] at hmany ⊢
    exact .fallbacks hmany
  · refine .noIndex (fun hpages => (children_ne_nil_iff hchildren).2 hpages hnil) fun hfile => ?_
    have hsome : (importsOf pattern f.dir es).index.isSome = true := isSome_locate.2 hfile
    rw [hindex] at hsome
    cases hsome

/-! ## What is reported -/

/-- The reported pages, with the names that lead to them, are complete pages in their
order. If nothing failed they are all there are and make up the `whole`. If something
failed, it was a directory with a fault, and they are what comes before it. -/
structure Trace (req : PageRequest) (pattern : ImportPattern)
    (place : List String → Frame → List (String × FileTree) → Prop) (visited : List Page)
    (whole : Except MacroError (List (List String × Page)))
    (reported : List (List String × Page)) : Prop where
  pages : visited = reported.map Prod.snd
  inOrder : (reported.map Prod.fst).Pairwise Earlier
  complete : ∀ q ∈ reported, ∃ g last, place q.1 g last ∧
    (visit req pattern g (.dir last)).result = .ok q.2
  finished : ∀ ps, whole = .ok ps →
    reported = ps ∧ ∀ ms g last, place ms g last → ms ∈ reported.map Prod.fst
  stopped : ∀ e, whole = .error e → ∃ ns g last early, place ns g last ∧
    Fault req g.dir (g.kind.isSome = true) last early e ∧
    ∀ ms, ms ∈ reported.map Prod.fst ↔
      (∃ h inner, place ms h inner) ∧ Earlier ms ns ∧ (early = true → ¬ ns <+: ms)

namespace Trace

variable {place place' : List String → Frame → List (String × FileTree) → Prop}
  {visited : List Page} {whole : Except MacroError (List (List String × Page))}
  {reported : List (List String × Page)}

theorem mem_names {ns : List String} (h : ns ∈ reported.map Prod.fst) :
    ∃ p, (ns, p) ∈ reported := by
  obtain ⟨q, hq, rfl⟩ := List.mem_map.1 h
  exact ⟨q.2, hq⟩

/-- The reported names are names of places. -/
theorem place_of_mem (h : Trace req pattern place visited whole reported) {ns : List String}
    (hns : ns ∈ reported.map Prod.fst) : ∃ g last, place ns g last := by
  obtain ⟨p, hp⟩ := mem_names hns
  obtain ⟨g, last, hplace, -⟩ := h.complete _ hp
  exact ⟨g, last, hplace⟩

end Trace

/-- Names below a page, as names from the list that the page is in. -/
def into (name : String) (q : List String × Page) : List String × Page :=
  (name :: q.1, q.2)

theorem map_fst_into (name : String) (qs : List (List String × Page)) :
    (qs.map (into name)).map Prod.fst = (qs.map Prod.fst).map (name :: ·) := by
  rw [List.map_map, List.map_map]
  rfl

theorem map_snd_into (name : String) (qs : List (List String × Page)) :
    (qs.map (into name)).map Prod.snd = qs.map Prod.snd := by
  rw [List.map_map]
  rfl

section

variable {c : String × Frame × FileTree} {cs : List (String × Frame × FileTree)}
  {inner : List (String × FileTree)} {v : Visit Page} {reported later : List (List String × Page)}

/-- A place in a list is a place below its first page or a place in the rest. -/
theorem placeAmong_cons_iff (hnode : c.2.2 = .dir inner) {ns : List String} {g : Frame}
    {last : List (String × FileTree)} :
    PlaceAmong (c :: cs) ns g last ↔
      (∃ ms, ns = c.1 :: ms ∧ Place c.2.1 inner ms g last) ∨ PlaceAmong cs ns g last := by
  constructor
  · rintro ⟨c', hc', ms, inner', rfl, hnode', hplace⟩
    rcases List.mem_cons.1 hc' with rfl | hc'
    · rw [hnode] at hnode'
      cases hnode'
      exact .inl ⟨ms, rfl, hplace⟩
    · exact .inr ⟨c', hc', ms, inner', rfl, hnode', hplace⟩
  · rintro (⟨ms, rfl, hplace⟩ | ⟨c', hc', hrest⟩)
    · exact ⟨c, List.mem_cons_self, ms, inner, rfl, hnode, hplace⟩
    · exact ⟨c', List.mem_cons_of_mem c hc', hrest⟩

/-- If the first of some pages fails, the later ones are not looked at. -/
theorem trace_of_first_error (hlater : ∀ c' ∈ cs, c.1 < c'.1) (hnode : c.2.2 = .dir inner)
    {e : MacroError} (hv : v.result = .error e)
    (h : Trace req pattern (Place c.2.1 inner) v.visited (v.result.map Page.postorder) reported) :
    Trace req pattern (PlaceAmong (c :: cs)) v.visited (.error e) (reported.map (into c.1)) where
  pages := by rw [map_snd_into, h.pages]
  inOrder := by
    rw [map_fst_into]
    exact h.inOrder.map _ fun _ _ => earlier_cons_iff.2
  complete := by
    rintro _ hmem
    obtain ⟨q, hq, rfl⟩ := List.mem_map.1 hmem
    obtain ⟨g, last, hplace, hresult⟩ := h.complete q hq
    exact ⟨g, last, (placeAmong_cons_iff hnode).2 (.inl ⟨q.1, rfl, hplace⟩), hresult⟩
  finished ps hps := nomatch hps
  stopped := by
    rintro _ ⟨⟩
    obtain ⟨ns, g, last, early, hplace, hfault, hmem⟩ := h.stopped e (by rw [hv]; rfl)
    refine ⟨c.1 :: ns, g, last, early, (placeAmong_cons_iff hnode).2 (.inl ⟨ns, rfl, hplace⟩),
      hfault, fun ms => ?_⟩
    rw [map_fst_into, List.mem_map]
    constructor
    · rintro ⟨ms, hms, rfl⟩
      obtain ⟨⟨g, last, hplace⟩, hearlier, hearly⟩ := (hmem ms).1 hms
      refine ⟨⟨g, last, (placeAmong_cons_iff hnode).2 (.inl ⟨ms, rfl, hplace⟩)⟩,
        earlier_cons_iff.2 hearlier, fun h hprefix => hearly h ?_⟩
      exact (List.cons_prefix_cons.1 hprefix).2
    · rintro ⟨⟨g, last, hamong⟩, hearlier, hearly⟩
      rcases (placeAmong_cons_iff hnode).1 hamong with ⟨ms, rfl, hplace⟩ | hplace
      · refine ⟨ms, (hmem ms).2 ⟨⟨g, last, hplace⟩, earlier_cons_iff.1 hearlier, ?_⟩, rfl⟩
        exact fun h hprefix => hearly h (List.cons_prefix_cons.2 ⟨rfl, hprefix⟩)
      · obtain ⟨c', hc', ms, inner', rfl, -, -⟩ := hplace
        rcases hearlier with hlt | ⟨heq, -⟩
        · exact absurd (String.lt_trans hlt (hlater c' hc')) (String.lt_irrefl _)
        · exact absurd (hlater c' hc') (heq ▸ String.lt_irrefl _)

/-- If the first of some pages is complete, what is reported of it comes before what is
reported of the others. -/
theorem trace_of_first_ok (hlater : ∀ c' ∈ cs, c.1 < c'.1) (hnode : c.2.2 = .dir inner)
    {page : Page} (hv : v.result = .ok page) (hname : page.rawName = c.1)
    {rest : Visit (List Page)}
    (h : Trace req pattern (Place c.2.1 inner) v.visited (v.result.map Page.postorder) reported)
    (hrest : Trace req pattern (PlaceAmong cs) rest.visited (rest.result.map Page.postorderAll)
      later) :
    Trace req pattern (PlaceAmong (c :: cs)) (v.visited ++ rest.visited)
      ((rest.result.map (page :: ·)).map Page.postorderAll) (reported.map (into c.1) ++ later) := by
  obtain ⟨hwhole, hall⟩ := h.finished page.postorder (by rw [hv]; rfl)
  have hnames : ∀ ms, ms ∈ (reported.map (into c.1) ++ later).map Prod.fst ↔
      (∃ ks, ms = c.1 :: ks ∧ ∃ g last, Place c.2.1 inner ks g last) ∨
        ms ∈ later.map Prod.fst := by
    intro ms
    rw [List.map_append, List.mem_append, map_fst_into, List.mem_map]
    refine or_congr_left ⟨?_, ?_⟩
    · rintro ⟨ks, hks, rfl⟩
      exact ⟨ks, rfl, h.place_of_mem hks⟩
    · rintro ⟨ks, rfl, g, last, hplace⟩
      exact ⟨ks, hall ks g last hplace, rfl⟩
  refine ⟨?pages, ?inOrder, ?complete, ?finished, ?stopped⟩
  case pages => rw [List.map_append, map_snd_into, h.pages, hrest.pages]
  case inOrder =>
    rw [List.map_append, map_fst_into]
    refine List.pairwise_append.2 ⟨h.inOrder.map _ fun _ _ => earlier_cons_iff.2, hrest.inOrder,
      fun ms hms ns hns => ?_⟩
    obtain ⟨ks, -, rfl⟩ := List.mem_map.1 hms
    obtain ⟨g, last, hplace⟩ := hrest.place_of_mem hns
    obtain ⟨c', hc', ls, inner', rfl, -, -⟩ := hplace
    exact .inl (hlater c' hc')
  case complete =>
    intro q hmem
    rcases List.mem_append.1 hmem with hmem | hq
    · obtain ⟨q, hq, rfl⟩ := List.mem_map.1 hmem
      obtain ⟨g, last, hplace, hresult⟩ := h.complete q hq
      exact ⟨g, last, (placeAmong_cons_iff hnode).2 (.inl ⟨q.1, rfl, hplace⟩), hresult⟩
    · obtain ⟨g, last, hplace, hresult⟩ := hrest.complete q hq
      exact ⟨g, last, (placeAmong_cons_iff hnode).2 (.inr hplace), hresult⟩
  case finished =>
    intro ps hps
    cases hresult : rest.result with
    | error e =>
        rw [hresult] at hps
        cases hps
    | ok pages =>
        rw [hresult] at hps
        cases hps
        obtain ⟨hlast, hothers⟩ := hrest.finished (Page.postorderAll pages) (by rw [hresult]; rfl)
        constructor
        · rw [hwhole, hlast, Page.postorderAll, hname]
          rfl
        · intro ms g last hamong
          rw [hnames]
          rcases (placeAmong_cons_iff hnode).1 hamong with ⟨ks, rfl, hplace⟩ | hplace
          · exact .inl ⟨ks, rfl, g, last, hplace⟩
          · exact .inr (hothers ms g last hplace)
  case stopped =>
    intro e he
    have herror : rest.result.map Page.postorderAll = .error e := by
      cases hresult : rest.result with
      | error e' =>
          rw [hresult] at he
          cases he
          rfl
      | ok pages =>
          rw [hresult] at he
          cases he
    obtain ⟨ns, g, last, early, hplace, hfault, hmem⟩ := hrest.stopped e herror
    refine ⟨ns, g, last, early, (placeAmong_cons_iff hnode).2 (.inr hplace), hfault, fun ms => ?_⟩
    rw [hnames, hmem]
    obtain ⟨c', hc', ls, inner', rfl, -, -⟩ := hplace
    constructor
    · rintro (⟨ks, rfl, g, last, hplace⟩ | ⟨⟨g, last, hplace⟩, hearlier⟩)
      · refine ⟨⟨g, last, (placeAmong_cons_iff hnode).2 (.inl ⟨ks, rfl, hplace⟩)⟩,
          .inl (hlater c' hc'), fun _ hprefix => ?_⟩
        have hsame := (List.cons_prefix_cons.1 hprefix).1
        exact absurd (hlater c' hc') (hsame ▸ String.lt_irrefl _)
      · exact ⟨⟨g, last, (placeAmong_cons_iff hnode).2 (.inr hplace)⟩, hearlier⟩
    · rintro ⟨⟨g, last, hamong⟩, hearlier⟩
      rcases (placeAmong_cons_iff hnode).1 hamong with ⟨ks, rfl, hplace⟩ | hplace
      · exact .inl ⟨ks, rfl, g, last, hplace⟩
      · exact .inr ⟨⟨g, last, hplace⟩, hearlier⟩

end

/-- The pages of a directory are visited one after another. -/
theorem trace_gather {cs : List (String × Frame × FileTree)}
    (hordered : (cs.map Prod.fst).Pairwise (· < ·))
    (hcs : ∀ c ∈ cs, ∃ inner, c.2.2 = .dir inner ∧
      (∀ p, (visit req pattern c.2.1 c.2.2).result = .ok p → p.rawName = c.1) ∧
      ∃ reported, Trace req pattern (Place c.2.1 inner) (visit req pattern c.2.1 c.2.2).visited
        ((visit req pattern c.2.1 c.2.2).result.map Page.postorder) reported) :
    ∃ reported, Trace req pattern (PlaceAmong cs)
      (gather (cs.map fun c => visit req pattern c.2.1 c.2.2)).visited
      ((gather (cs.map fun c => visit req pattern c.2.1 c.2.2)).result.map Page.postorderAll)
      reported := by
  induction cs with
  | nil =>
      refine ⟨[], rfl, .nil, fun q hq => absurd hq List.not_mem_nil, fun ps hps => ?_,
        fun e he => nomatch he⟩
      cases hps
      exact ⟨rfl, fun ms g last ⟨c, hc, _⟩ => absurd hc List.not_mem_nil⟩
  | cons c cs ih =>
      rw [List.map_cons, List.pairwise_cons] at hordered
      obtain ⟨⟨inner, hnode, hname, reported, htrace⟩, hcs⟩ := List.forall_mem_cons.1 hcs
      have hlater : ∀ c' ∈ cs, c.1 < c'.1 := fun c' hc' =>
        hordered.1 _ (List.mem_map_of_mem hc')
      rw [List.map_cons, gather]
      cases hv : (visit req pattern c.2.1 c.2.2).result with
      | error e => exact ⟨_, trace_of_first_error hlater hnode hv htrace⟩
      | ok page =>
          obtain ⟨later, hrest⟩ := ih hordered.2 hcs
          exact ⟨_, trace_of_first_ok hlater hnode hv (hname page hv) htrace hrest⟩

/-! ## A directory and the pages in it -/

section

variable {reported : List (List String × Page)}

/-- A directory without its metadata is left at once. -/
theorem trace_of_noMeta (hnamed : f.kind.isSome = true) (hneeded : req.allowNoMeta = false)
    (hmissing : ¬ HasMetadata es) :
    Trace req pattern (Place f es) [] (.error (.structural (.noMeta f.dir))) [] where
  pages := rfl
  inOrder := .nil
  complete q hq := absurd hq List.not_mem_nil
  finished ps hps := nomatch hps
  stopped := by
    rintro _ ⟨⟩
    refine ⟨[], f, es, true, ⟨.here es, rfl⟩, .noMeta hnamed hneeded hmissing, fun ms => ?_⟩
    exact iff_of_false List.not_mem_nil fun h => h.2.2 rfl List.nil_prefix

/-- A fault below a directory is the fault that its visit stops at. -/
theorem trace_of_error_below {visited : List Page} {e : MacroError}
    (h : Trace req pattern (PlaceAmong (orderedPages f es)) visited (.error e) reported) :
    Trace req pattern (Place f es) visited (.error e) reported where
  pages := h.pages
  inOrder := h.inOrder
  complete q hq := by
    obtain ⟨g, last, hplace, hresult⟩ := h.complete q hq
    exact ⟨g, last, place_iff.2 (.inr hplace), hresult⟩
  finished ps hps := nomatch hps
  stopped := by
    rintro _ ⟨⟩
    obtain ⟨ns, g, last, early, hplace, hfault, hmem⟩ := h.stopped e rfl
    refine ⟨ns, g, last, early, place_iff.2 (.inr hplace), hfault, fun ms => ?_⟩
    rw [hmem]
    constructor
    · rintro ⟨⟨g, last, hplace⟩, hearlier⟩
      exact ⟨⟨g, last, place_iff.2 (.inr hplace)⟩, hearlier⟩
    · rintro ⟨⟨g, last, hplace⟩, hearlier, hearly⟩
      rcases place_iff.1 hplace with ⟨rfl, -, -⟩ | hplace
      · exact nomatch hearlier
      · exact ⟨⟨g, last, hplace⟩, hearlier, hearly⟩

/-- If all pages in a directory are complete, its own check decides. -/
theorem trace_of_check {children : List Page}
    (hchildren : (orderedPages f es).map (fun c => (visit req pattern c.2.1 c.2.2).result) =
      children.map .ok) {visited : List Page} {e : MacroError}
    (hcheck : check f.dir (importsOf pattern f.dir es) children = .error e)
    (h : Trace req pattern (PlaceAmong (orderedPages f es)) visited
      (.ok (Page.postorderAll children)) reported) :
    Trace req pattern (Place f es) visited (.error e) reported where
  pages := h.pages
  inOrder := h.inOrder
  complete q hq := by
    obtain ⟨g, last, hplace, hresult⟩ := h.complete q hq
    exact ⟨g, last, place_iff.2 (.inr hplace), hresult⟩
  finished ps hps := nomatch hps
  stopped := by
    rintro _ ⟨⟩
    refine ⟨[], f, es, false, ⟨.here es, rfl⟩, fault_of_check hchildren hcheck, fun ms => ?_⟩
    rw [earlier_nil_iff]
    constructor
    · intro hms
      obtain ⟨g, last, hplace⟩ := h.place_of_mem hms
      refine ⟨⟨g, last, place_iff.2 (.inr hplace)⟩, ?_, fun hearly => nomatch hearly⟩
      obtain ⟨c, -, ms, inner, rfl, -, -⟩ := hplace
      exact List.cons_ne_nil _ _
    · rintro ⟨⟨g, last, hplace⟩, hne, -⟩
      rcases place_iff.1 hplace with ⟨rfl, -, -⟩ | hplace
      · exact absurd rfl hne
      · exact (h.finished _ rfl).2 ms g last hplace

/-- A complete page is reported after all below it. -/
theorem trace_of_page {children : List Page} {visited : List Page} {page : Page}
    (hpage : (visit req pattern f (.dir es)).result = .ok page) (hparts : page.children = children)
    (h : Trace req pattern (PlaceAmong (orderedPages f es)) visited
      (.ok (Page.postorderAll children)) reported) :
    Trace req pattern (Place f es) (visited ++ [page]) (.ok page.postorder)
      (reported ++ [([], page)]) where
  pages := by rw [List.map_append, h.pages]; rfl
  inOrder := by
    rw [List.map_append]
    refine List.pairwise_append.2 ⟨h.inOrder, List.pairwise_singleton _ _, fun ms hms ns hns => ?_⟩
    rw [List.mem_singleton.1 hns, earlier_nil_iff]
    obtain ⟨g, last, c, -, ks, inner, rfl, -, -⟩ := h.place_of_mem hms
    exact List.cons_ne_nil _ _
  complete q hq := by
    rcases List.mem_append.1 hq with hq | hq
    · obtain ⟨g, last, hplace, hresult⟩ := h.complete q hq
      exact ⟨g, last, place_iff.2 (.inr hplace), hresult⟩
    · rw [List.mem_singleton.1 hq]
      exact ⟨f, es, ⟨.here es, rfl⟩, hpage⟩
  finished := by
    rintro _ ⟨⟩
    obtain ⟨hwhole, hall⟩ := h.finished _ rfl
    refine ⟨by rw [hwhole, Page.postorder_eq, hparts], fun ms g last hplace => ?_⟩
    rw [List.map_append, List.mem_append]
    rcases place_iff.1 hplace with ⟨rfl, -, -⟩ | hplace
    · exact .inr List.mem_cons_self
    · exact .inl (hall ms g last hplace)
  stopped e he := nomatch he

end

/-- Each visit leaves a trace: what it reports, it reports in post-order up to its end or
to a fault. -/
theorem trace_visit (req : PageRequest) (pattern : ImportPattern) (node : FileTree) :
    ∀ (f : Frame) (es : List (String × FileTree)), node = .dir es → node.Sound →
      ∃ reported, Trace req pattern (Place f es) (visit req pattern f (.dir es)).visited
        ((visit req pattern f (.dir es)).result.map Page.postorder) reported := by
  induction node using FileTree.inductOn with
  | leaf text => exact fun _ _ h => nomatch h
  | node entries ih =>
      intro f es hes hsound
      cases hes
      have hpages : ∀ c ∈ orderedPages f entries, ∃ inner, c.2.2 = .dir inner ∧
          (∀ p, (visit req pattern c.2.1 c.2.2).result = .ok p → p.rawName = c.1) ∧
          ∃ reported, Trace req pattern (Place c.2.1 inner) (visit req pattern c.2.1 c.2.2).visited
            ((visit req pattern c.2.1 c.2.2).result.map Page.postorder) reported := by
        intro c hc
        obtain ⟨inner, hentry, hchild, hnode⟩ := mem_orderedPages.1 hc
        refine ⟨inner, hnode, fun p hp => ?_, ?_⟩
        · obtain ⟨parsed, -, hframe⟩ := child?_eq_some hchild
          rw [(frame_of_visit hp).1, hframe]
        · rw [hnode]
          exact ih _ hentry c.2.1 inner rfl (hsound.child hentry)
      obtain ⟨reported, hbelow⟩ := trace_gather
        (orderedPages_names_pairwise f (hsound.distinct [] entries rfl)) hpages
      rw [← below_eq_gather] at hbelow
      cases hresult : (visit req pattern f (.dir entries)).result with
      | ok page =>
          obtain ⟨-, children, hchildren, -, hparts⟩ := visit_eq_ok_iff.1 hresult
          have hgathered : (below req pattern f entries).result = .ok children := by
            rw [below_eq_gather, gather_eq_ok_iff, List.map_map]
            exact hchildren
          have hvisited : (visit req pattern f (.dir entries)).visited =
              (below req pattern f entries).visited ++ [page] := by
            rw [visited_of_ok hresult, below_eq_gather, gather_visited (by
              rw [← below_eq_gather]; exact hgathered), List.flatMap_map]
          rw [hgathered] at hbelow
          rw [hvisited]
          exact ⟨_, trace_of_page hresult (by rw [hparts]) hbelow⟩
      | error e =>
          rw [visit_dir] at hresult ⊢
          dsimp only at hresult ⊢
          split at hresult
          · next hmissing =>
              cases hresult
              rw [if_pos hmissing]
              simp only [Bool.and_eq_true, Option.isNone_iff_eq_none, Bool.not_eq_true'] at hmissing
              refine ⟨[], trace_of_noMeta hmissing.1.1 hmissing.2 fun hmetadata => ?_⟩
              have hsome : (importsOf pattern f.dir entries).metadata.isSome = true :=
                isSome_locate.2 hmetadata
              rw [hmissing.1.2] at hsome
              cases hsome
          · next hpresent =>
              rw [if_neg hpresent]
              rw [close] at hresult ⊢
              cases hgathered : (below req pattern f entries).result with
              | error e' =>
                  rw [hgathered] at hresult hbelow
                  cases hresult
                  exact ⟨_, trace_of_error_below hbelow⟩
              | ok children =>
                  rw [hgathered] at hresult hbelow
                  simp only [Except.bind, pageOf] at hresult ⊢
                  cases hcheck : check f.dir (importsOf pattern f.dir entries) children with
                  | ok _ =>
                      rw [hcheck] at hresult
                      cases hresult
                  | error e' =>
                      rw [hcheck] at hresult
                      cases hresult
                      rw [below_eq_gather, gather_eq_ok_iff, List.map_map] at hgathered
                      exact ⟨_, trace_of_check hgathered hcheck hbelow⟩

end PageTree

end SiteMacros
