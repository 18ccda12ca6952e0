import Mathlib.Data.List.Nodup
import Mathlib.Data.List.Flatten
import SiteMacros.Proofs.PageTree
import SiteMacros.Proofs.Sources
import SiteMacros.Proofs.UrlPaths

/-!
# Which pages trees there are, and what is in them

A pages tree is read off the directories that can be reached from its root by names
of pages (`Reaches`). Reading succeeds if none of them has a fault, and a fault of one
directory is seen in that directory alone: it has two fallback pages, or no page and
no index view in it, or no metadata (`Complete`). The checks are made on the way down
and on the way back up, between the visits of other directories, but success does not
depend on the order: it is all directories being complete.

If the reading succeeds, each directory reached is one page of the tree, and what the
page says is found in its directory and in the names that lead to it (`ReadFrom`). The
root is the exception: whatever its name looks like, it has no kind and is not
protected, and its endpoint is the name without its tokens
(`load_root_ignores_tokens`).

Both halves are inductions on the file tree. A directory's visit comes apart into the
visits of the pages in it, in the order of their names (`visit_eq_ok_iff`).
-/

namespace SiteMacros

namespace Page

mutual

/-- The page and the pages below it, each with the names that lead to it. -/
def placed : Page → List (List String × Page)
  | ⟨id, rawName, dir, kind, protect, endpoint, route, imports, children⟩ =>
      ([], ⟨id, rawName, dir, kind, protect, endpoint, route, imports, children⟩) ::
        placedAll children

def placedAll : List Page → List (List String × Page)
  | [] => []
  | p :: ps => p.placed.map (fun q => (p.rawName :: q.1, q.2)) ++ placedAll ps

end

theorem placedAll_eq_flatMap (ps : List Page) :
    placedAll ps = ps.flatMap fun p => p.placed.map fun q => (p.rawName :: q.1, q.2) := by
  induction ps with
  | nil => rfl
  | cons p ps ih => rw [placedAll, ih, List.flatMap_cons]

theorem placed_eq (p : Page) : p.placed = ([], p) :: placedAll p.children := by
  cases p
  rw [placed]

theorem placed_self (p : Page) : ([], p) ∈ p.placed := by
  rw [placed_eq]
  exact List.mem_cons_self

end Page

namespace PageTree

/-! ## Directories of pages -/

/-- The names lead from a directory with entries `es` to one with entries `last`, and
each is the name of a page. -/
inductive Reaches : (es : List (String × FileTree)) → (names : List String) →
    (last : List (String × FileTree)) → Prop
  | here (es : List (String × FileTree)) : Reaches es [] es
  | into {es inner last : List (String × FileTree)} {name : String} {names : List String}
      (entry : (name, .dir inner) ∈ es) (page : (PageName.parse? name).isSome = true)
      (rest : Reaches inner names last) : Reaches es (name :: names) last

/-- The entry is a directory with the name of a fallback page. -/
def isFallback (e : String × FileTree) : Bool :=
  e.2.isDirectory && (PageName.parse? e.1).map (·.kind) == some .fallback

def HasFile (es : List (String × FileTree)) (name : String) : Prop :=
  ∃ text, (name, .file text) ∈ es

def HasDirectory (es : List (String × FileTree)) (name : String) : Prop :=
  ∃ inner, (name, .dir inner) ∈ es

/-- A page directory without faults, but for its metadata. -/
structure Complete (es : List (String × FileTree)) : Prop where
  fallbacks : es.countP isFallback ≤ 1
  view : (∃ name, HasDirectory es name ∧ (PageName.parse? name).isSome = true) ∨
    ∃ n ∈ PageImports.indexFiles, HasFile es n.1

def HasMetadata (es : List (String × FileTree)) : Prop :=
  ∃ n ∈ PageImports.metadataFiles, HasFile es n.1

/-! ## One directory -/

/-- What a search for the first of some names comes to. -/
def IsFirst {α : Type} (p : α → Prop) (names : List α) : Option α → Prop
  | some a => ∃ before after, names = before ++ a :: after ∧ p a ∧ ∀ b ∈ before, ¬ p b
  | none => ∀ a ∈ names, ¬ p a

theorem isFirst_find? {α : Type} {p : α → Prop} {q : α → Bool} (h : ∀ a, q a = true ↔ p a)
    (names : List α) : IsFirst p names (names.find? q) := by
  cases hfind : names.find? q with
  | none =>
      intro a ha hp
      exact List.find?_eq_none.1 hfind a ha ((h a).2 hp)
  | some a =>
      obtain ⟨hq, before, after, hsplit, hbefore⟩ := List.find?_eq_some_iff_append.1 hfind
      refine ⟨before, after, hsplit, (h a).1 hq, fun b hb hp => ?_⟩
      have hnot := hbefore b hb
      rw [(h b).2 hp] at hnot
      exact nomatch hnot

theorem hasFile_iff {es : List (String × FileTree)} {name : String} :
    (es.any fun e => e.1 == name && !e.2.isDirectory) = true ↔ HasFile es name := by
  rw [List.any_eq_true]
  constructor
  · rintro ⟨⟨n, node⟩, hmem, h⟩
    rw [Bool.and_eq_true, beq_iff_eq] at h
    obtain ⟨rfl, hfile⟩ := h
    cases node with
    | file text => exact ⟨text, hmem⟩
    | dir inner => exact nomatch hfile
  · rintro ⟨text, hmem⟩
    exact ⟨_, hmem, by simp [FileTree.isDirectory]⟩

theorem hasDirectory_iff {es : List (String × FileTree)} {name : String} :
    (es.any fun e => e.1 == name && e.2.isDirectory) = true ↔ HasDirectory es name := by
  rw [List.any_eq_true]
  constructor
  · rintro ⟨⟨n, node⟩, hmem, h⟩
    rw [Bool.and_eq_true, beq_iff_eq] at h
    obtain ⟨rfl, hdir⟩ := h
    cases node with
    | file text => exact nomatch hdir
    | dir inner => exact ⟨inner, hmem⟩
  · rintro ⟨inner, hmem⟩
    exact ⟨_, hmem, by simp [FileTree.isDirectory]⟩

theorem isSome_locate {pattern : ImportPattern} {dir : Path} {es : List (String × FileTree)}
    {names : List (String × Bool)} :
    (importsOf.locate pattern dir es names).isSome = true ↔ ∃ n ∈ names, HasFile es n.1 := by
  simp only [importsOf.locate, Option.isSome_map, List.find?_isSome, hasFile_iff]

/-- The pages in a directory: the name of each, its frame and its node. -/
def pagesIn (f : Frame) (es : List (String × FileTree)) : List (String × Frame × FileTree) :=
  es.filterMap fun e => if e.2.isDirectory then (f.child? e.1).map (e.1, ·, e.2) else none

def orderedPages (f : Frame) (es : List (String × FileTree)) : List (String × Frame × FileTree) :=
  sorted (fun a b => decide (a.1 ≤ b.1)) (pagesIn f es)

theorem visitEntries_eq_map (req : PageRequest) (pattern : ImportPattern) (f : Frame)
    (es : List (String × FileTree)) :
    visitEntries req pattern f es =
      (pagesIn f es).map fun c => (c.1, visit req pattern c.2.1 c.2.2) := by
  induction es with
  | nil => rw [visitEntries]; rfl
  | cons e es ih =>
      obtain ⟨name, node⟩ := e
      rw [visitEntries, ih, pagesIn, pagesIn, List.filterMap_cons]
      cases hdir : node.isDirectory with
      | false => rfl
      | true => cases hc : f.child? name <;> rfl

theorem below_eq_gather (req : PageRequest) (pattern : ImportPattern) (f : Frame)
    (es : List (String × FileTree)) :
    below req pattern f es =
      gather ((orderedPages f es).map fun c => visit req pattern c.2.1 c.2.2) := by
  have hsorted : sorted (fun a b => decide (a.1 ≤ b.1)) (visitEntries req pattern f es) =
      (orderedPages f es).map fun c => (c.1, visit req pattern c.2.1 c.2.2) := by
    rw [visitEntries_eq_map]
    exact sorted_map (fun _ _ => rfl) _
  rw [below, hsorted, List.map_map]
  rfl

theorem mem_pagesIn {f : Frame} {es : List (String × FileTree)}
    {c : String × Frame × FileTree} :
    c ∈ pagesIn f es ↔
      ∃ inner, (c.1, .dir inner) ∈ es ∧ f.child? c.1 = some c.2.1 ∧ c.2.2 = .dir inner := by
  obtain ⟨name, child, node⟩ := c
  rw [pagesIn, List.mem_filterMap]
  constructor
  · rintro ⟨⟨n, node'⟩, hmem, h⟩
    cases node' with
    | file text => exact nomatch h
    | dir inner =>
        obtain ⟨child', hchild, heq⟩ := Option.map_eq_some_iff.1 h
        cases heq
        exact ⟨inner, hmem, hchild, rfl⟩
  · rintro ⟨inner, hmem, hchild, hnode⟩
    dsimp only at hmem hchild hnode
    refine ⟨(name, .dir inner), hmem, ?_⟩
    simp [FileTree.isDirectory, hchild, hnode]

theorem mem_orderedPages {f : Frame} {es : List (String × FileTree)}
    {c : String × Frame × FileTree} :
    c ∈ orderedPages f es ↔
      ∃ inner, (c.1, .dir inner) ∈ es ∧ f.child? c.1 = some c.2.1 ∧ c.2.2 = .dir inner := by
  rw [orderedPages, (sorted_perm _ _).mem_iff, mem_pagesIn]

theorem orderedPages_of_child {f child : Frame} {es inner : List (String × FileTree)}
    {name : String} (hentry : (name, .dir inner) ∈ es) (hchild : f.child? name = some child) :
    (name, child, .dir inner) ∈ orderedPages f es :=
  mem_orderedPages.2 ⟨inner, hentry, hchild, rfl⟩

theorem exists_child {f : Frame} {name : String} (h : (PageName.parse? name).isSome = true) :
    ∃ child, f.child? name = some child := by
  obtain ⟨parsed, hparsed⟩ := Option.isSome_iff_exists.1 h
  rw [Frame.child?, hparsed]
  exact ⟨_, rfl⟩

theorem gather_eq_ok_iff {vs : List (Visit Page)} {ps : List Page} :
    (gather vs).result = .ok ps ↔ vs.map (·.result) = ps.map .ok := by
  induction vs generalizing ps with
  | nil =>
      cases ps with
      | nil => exact iff_of_true rfl rfl
      | cons p ps => exact iff_of_false (fun h => by cases h) fun h => by cases h
  | cons v vs ih =>
      rw [gather, List.map_cons]
      cases hv : v.result with
      | error e =>
          refine iff_of_false (fun h => by cases h) fun h => ?_
          cases ps with
          | nil => cases h
          | cons p ps => cases (List.cons.inj h).1
      | ok p =>
          dsimp only
          cases ps with
          | nil =>
              refine iff_of_false (fun h => ?_) fun h => by cases h
              cases hrest : (gather vs).result with
              | error e =>
                  rw [hrest] at h
                  cases h
              | ok rest =>
                  rw [hrest] at h
                  cases h
          | cons p' ps =>
              rw [List.map_cons, List.cons.injEq, ← ih]
              cases hrest : (gather vs).result with
              | error e => exact iff_of_false (fun h => by cases h) fun h => by cases h.2
              | ok rest =>
                  simp only [Except.map, Except.ok.injEq, List.cons.injEq]

theorem check_eq_ok_iff {dir : Path} {imports : PageImports} {children : List Page} :
    check dir imports children = .ok () ↔
      children.countP (·.kind == some .fallback) ≤ 1 ∧
        (children ≠ [] ∨ imports.index.isSome = true) := by
  rw [check, ← List.countP_eq_length_filter]
  split
  · next hmany => exact iff_of_false (fun h => by cases h) fun h => absurd h.1 (by omega)
  · next hfew =>
      split
      · next hleaf =>
          refine iff_of_false (fun h => by cases h) fun h => ?_
          simp only [Bool.and_eq_true, List.isEmpty_iff, Option.isNone_iff_eq_none] at hleaf
          obtain ⟨hnil, hnone⟩ := hleaf
          simp [hnil, hnone] at h
      · next hview =>
          refine iff_of_true rfl ⟨by omega, ?_⟩
          simp only [Bool.and_eq_true, List.isEmpty_iff, not_and] at hview
          rcases Decidable.em (children = []) with hnil | hne
          · right
            exact Option.isSome_iff_ne_none.2 (by simpa using hview hnil)
          · exact .inl hne

/-- The page of a directory is made of what is in it and of the pages below it. -/
theorem visit_eq_ok_iff {req : PageRequest} {pattern : ImportPattern} {f : Frame}
    {es : List (String × FileTree)} {page : Page} :
    (visit req pattern f (.dir es)).result = .ok page ↔
      (f.kind.isSome = true → req.allowNoMeta = true ∨ HasMetadata es) ∧
      ∃ children, (orderedPages f es).map (fun c => (visit req pattern c.2.1 c.2.2).result) =
          children.map .ok ∧
        check f.dir (importsOf pattern f.dir es) children = .ok () ∧
        page = {
          id := Namespace.ofDirectory f.dir req.root, rawName := f.rawName, dir := f.dir
          kind := f.kind, protect := f.protect, endpoint := f.endpoint, route := f.route
          imports := importsOf pattern f.dir es, children } := by
  have hmetadata : (importsOf pattern f.dir es).metadata.isSome = true ↔ HasMetadata es :=
    isSome_locate
  have hclosed : (close req f (importsOf pattern f.dir es) (below req pattern f es)).result =
      (below req pattern f es).result.bind (pageOf req f (importsOf pattern f.dir es)) := by
    rw [close]
    split
    · next h => exact h.symm
    · next h => exact h.symm
  have hbelow : ∀ children, (below req pattern f es).result = .ok children ↔
      (orderedPages f es).map (fun c => (visit req pattern c.2.1 c.2.2).result) =
        children.map .ok := by
    intro children
    rw [below_eq_gather, gather_eq_ok_iff, List.map_map]
    rfl
  rw [visit_dir, ← hmetadata]
  dsimp only
  split
  · next hmissing =>
      simp only [Bool.and_eq_true, Option.isNone_iff_eq_none, Bool.not_eq_true'] at hmissing
      refine iff_of_false (fun h => by cases h) fun h => ?_
      rcases h.1 hmissing.1.1 with hallow | hsome
      · rw [hmissing.2] at hallow
        cases hallow
      · rw [hmissing.1.2] at hsome
        cases hsome
  · next hpresent =>
      rw [hclosed]
      have hneeded : f.kind.isSome = true →
          req.allowNoMeta = true ∨ (importsOf pattern f.dir es).metadata.isSome = true := by
        intro hkind
        rw [hkind, Bool.true_and, Bool.and_eq_true, not_and, Bool.not_eq_true',
          Bool.not_eq_false] at hpresent
        rcases Option.eq_none_or_eq_some (importsOf pattern f.dir es).metadata with h | ⟨m, h⟩
        · exact .inl (hpresent (by rw [h]; rfl))
        · exact .inr (by rw [h]; rfl)
      constructor
      · intro h
        refine ⟨hneeded, ?_⟩
        obtain ⟨children, hchildren, hpage⟩ := Expansion.exists_of_bind_eq_ok h
        refine ⟨children, (hbelow children).1 hchildren, ?_⟩
        rw [pageOf] at hpage
        cases hcheck : check f.dir (importsOf pattern f.dir es) children with
        | error e =>
            rw [hcheck] at hpage
            cases hpage
        | ok _ =>
            rw [hcheck] at hpage
            cases hpage
            exact ⟨rfl, rfl⟩
      · rintro ⟨-, children, hchildren, hcheck, rfl⟩
        rw [(hbelow children).2 hchildren]
        simp only [Except.bind, pageOf, hcheck, Except.map]

/-! ## Results of visits -/

section

variable {α β : Type} {xs : List α} {visited : α → Except MacroError Page} {ps : List Page}

theorem exists_pages (h : ∀ x ∈ xs, ∃ p, visited x = .ok p) :
    ∃ ps : List Page, xs.map visited = ps.map .ok := by
  induction xs with
  | nil => exact ⟨[], rfl⟩
  | cons x xs ih =>
      obtain ⟨p, hp⟩ := h x List.mem_cons_self
      obtain ⟨ps, hps⟩ := ih fun y hy => h y (List.mem_cons_of_mem x hy)
      exact ⟨p :: ps, by rw [List.map_cons, List.map_cons, hp, hps]⟩

theorem map_eq_of_visited (h : xs.map visited = ps.map .ok) {k : α → β} {k' : Page → β}
    (hk : ∀ x ∈ xs, ∀ p, visited x = .ok p → k' p = k x) : ps.map k' = xs.map k := by
  induction xs generalizing ps with
  | nil =>
      cases ps with
      | nil => rfl
      | cons p ps => exact nomatch h
  | cons x xs ih =>
      cases ps with
      | nil => exact nomatch h
      | cons p ps =>
          obtain ⟨hx, hxs⟩ := List.cons.inj h
          rw [List.map_cons, List.map_cons, hk x List.mem_cons_self p hx,
            ih hxs fun y hy => hk y (List.mem_cons_of_mem x hy)]

theorem exists_visited_of_mem (h : xs.map visited = ps.map .ok) {p : Page} (hp : p ∈ ps) :
    ∃ x ∈ xs, visited x = .ok p := by
  have hmem : Except.ok p ∈ xs.map visited := by
    rw [h]
    exact List.mem_map_of_mem hp
  exact List.mem_map.1 hmem

theorem exists_page_of_mem (h : xs.map visited = ps.map .ok) {x : α} (hx : x ∈ xs) :
    ∃ p ∈ ps, visited x = .ok p := by
  have hmem : visited x ∈ ps.map .ok := by
    rw [← h]
    exact List.mem_map_of_mem hx
  obtain ⟨p, hp, heq⟩ := List.mem_map.1 hmem
  exact ⟨p, hp, heq.symm⟩

end

section

variable {req : PageRequest} {pattern : ImportPattern} {f : Frame}
  {es : List (String × FileTree)}

theorem frame_of_visit {node : FileTree} {page : Page}
    (h : (visit req pattern f node).result = .ok page) :
    page.rawName = f.rawName ∧ page.kind = f.kind := by
  cases node with
  | file text => exact nomatch h
  | dir es =>
      obtain ⟨-, children, -, -, rfl⟩ := visit_eq_ok_iff.1 h
      exact ⟨rfl, rfl⟩

theorem child?_eq_some {name : String} {c : Frame} (h : f.child? name = some c) :
    ∃ parsed, PageName.parse? name = some parsed ∧ c = {
      dir := f.dir.join name, rawName := name, kind := some parsed.kind
      protect := parsed.protect, endpoint := parsed.endpoint
      route := UrlPath.join f.route parsed.segment } := by
  obtain ⟨parsed, hparsed, rfl⟩ := Option.map_eq_some_iff.1 h
  exact ⟨parsed, hparsed, rfl⟩

theorem countP_pagesIn (f : Frame) (es : List (String × FileTree)) :
    (pagesIn f es).countP (·.2.1.kind == some .fallback) = es.countP isFallback := by
  induction es with
  | nil => rfl
  | cons e es ih =>
      obtain ⟨name, node⟩ := e
      rw [pagesIn, List.filterMap_cons, List.countP_cons, ← ih, pagesIn]
      cases node with
      | file text => rfl
      | dir inner =>
          rw [Frame.child?]
          cases hparsed : PageName.parse? name with
          | none => simp [FileTree.isDirectory, isFallback, hparsed]
          | some parsed =>
              simp only [FileTree.isDirectory, if_true, Option.map_some, List.countP_cons,
                isFallback, Bool.true_and, hparsed]

section

variable {children : List Page}
  (h : (orderedPages f es).map (fun c => (visit req pattern c.2.1 c.2.2).result) =
    children.map .ok)

include h

theorem countP_children :
    children.countP (·.kind == some .fallback) = es.countP isFallback := by
  have hkinds : children.map Page.kind = (orderedPages f es).map (·.2.1.kind) :=
    map_eq_of_visited h fun c _ p hp => (frame_of_visit hp).2
  have hmap : ∀ ps : List Page, ps.countP (·.kind == some .fallback) =
      (ps.map Page.kind).countP (· == some .fallback) := by
    intro ps
    rw [List.countP_map]
    rfl
  rw [hmap, hkinds, List.countP_map, ← countP_pagesIn f es]
  exact (sorted_perm _ _).countP_eq _

theorem children_ne_nil_iff :
    children ≠ [] ↔ ∃ name, HasDirectory es name ∧ (PageName.parse? name).isSome = true := by
  have hlength : children.length = (orderedPages f es).length := by
    have hlength := congrArg List.length h
    rw [List.length_map, List.length_map] at hlength
    exact hlength.symm
  have hne : children ≠ [] ↔ orderedPages f es ≠ [] := by
    rw [ne_eq, ne_eq, ← List.length_eq_zero_iff, ← List.length_eq_zero_iff, hlength]
  rw [hne]
  constructor
  · intro hpages
    obtain ⟨c, hc⟩ := List.exists_mem_of_ne_nil _ hpages
    obtain ⟨inner, hmem, hchild, -⟩ := mem_orderedPages.1 hc
    obtain ⟨parsed, hparsed, -⟩ := child?_eq_some hchild
    exact ⟨c.1, ⟨inner, hmem⟩, by rw [hparsed]; rfl⟩
  · rintro ⟨name, ⟨inner, hmem⟩, hpage⟩
    obtain ⟨child, hchild⟩ := exists_child hpage
    exact List.ne_nil_of_mem (orderedPages_of_child hmem hchild)

/-- What is checked once the children are known is what a directory has to be. -/
theorem check_eq_ok_iff_complete :
    check f.dir (importsOf pattern f.dir es) children = .ok () ↔ Complete es := by
  have hindex : (importsOf pattern f.dir es).index.isSome = true ↔
      ∃ n ∈ PageImports.indexFiles, HasFile es n.1 := isSome_locate
  rw [check_eq_ok_iff, countP_children h, children_ne_nil_iff h, hindex]
  exact ⟨fun ⟨hfew, hview⟩ => ⟨hfew, hview⟩, fun h => ⟨h.fallbacks, h.view⟩⟩

end

end

/-- Reading succeeds if and only if no directory reached has a fault. -/
theorem exists_visit_iff {req : PageRequest} {pattern : ImportPattern} (node : FileTree) :
    ∀ (f : Frame) (es : List (String × FileTree)), node = .dir es →
      ((∃ page, (visit req pattern f (.dir es)).result = .ok page) ↔
        ∀ names last, Reaches es names last → Complete last ∧
          (names ≠ [] ∨ f.kind.isSome = true → req.allowNoMeta = true ∨ HasMetadata last)) := by
  induction node using FileTree.inductOn with
  | leaf text => exact fun _ _ h => nomatch h
  | node entries ih =>
      intro f es hes
      cases hes
      constructor
      · rintro ⟨page, hpage⟩ names last hreaches
        obtain ⟨hmetadata, children, hchildren, hcheck, -⟩ := visit_eq_ok_iff.1 hpage
        cases hreaches with
        | here =>
            exact ⟨(check_eq_ok_iff_complete hchildren).1 hcheck,
              fun h => hmetadata (h.resolve_left fun hne => hne rfl)⟩
        | @into _ inner _ name names hentry hname hrest =>
            obtain ⟨child, hchild⟩ := exists_child hname
            obtain ⟨p, -, hp⟩ :=
              exists_page_of_mem hchildren (orderedPages_of_child hentry hchild)
            obtain ⟨hcomplete, hneeds⟩ := (ih _ hentry child inner rfl).1 ⟨p, hp⟩ names last hrest
            obtain ⟨parsed, -, rfl⟩ := child?_eq_some hchild
            exact ⟨hcomplete, fun _ => hneeds (.inr rfl)⟩
      · intro hall
        obtain ⟨hcomplete, hneeds⟩ := hall [] entries (.here entries)
        have hvisits : ∀ c ∈ orderedPages f entries,
            ∃ p, (visit req pattern c.2.1 c.2.2).result = .ok p := by
          intro c hc
          obtain ⟨inner, hentry, hchild, hnode⟩ := mem_orderedPages.1 hc
          obtain ⟨parsed, hparsed, -⟩ := child?_eq_some hchild
          rw [hnode]
          refine (ih _ hentry c.2.1 inner rfl).2 fun names last hrest => ?_
          have hbelow := hall (c.1 :: names) last (.into hentry (by rw [hparsed]; rfl) hrest)
          exact ⟨hbelow.1, fun _ => hbelow.2 (.inl (List.cons_ne_nil _ _))⟩
        obtain ⟨children, hchildren⟩ := exists_pages hvisits
        exact ⟨_, visit_eq_ok_iff.2 ⟨fun h => hneeds (.inr h), children, hchildren,
          (check_eq_ok_iff_complete hchildren).2 hcomplete, rfl⟩⟩

/-! ## The pages of a tree -/

/-- The frame that names of pages lead to. -/
def frameAt (f : Frame) : List String → Option Frame
  | [] => some f
  | name :: names => (f.child? name).bind (frameAt · names)

theorem frameAt_append {f g : Frame} {names : List String} (h : frameAt f names = some g)
    (rest : List String) : frameAt f (names ++ rest) = frameAt g rest := by
  induction names generalizing f with
  | nil =>
      cases h
      rfl
  | cons name names ih =>
      obtain ⟨child, hchild, hnext⟩ := Option.bind_eq_some_iff.1 h
      rw [List.cons_append, frameAt, hchild, Option.bind_some, ih hnext]

/-- The page is made of a frame and of a directory with entries `es`. -/
structure MadeOf (req : PageRequest) (pattern : ImportPattern) (f : Frame)
    (es : List (String × FileTree)) (p : Page) : Prop where
  parts : p = {
    id := Namespace.ofDirectory f.dir req.root, rawName := f.rawName, dir := f.dir
    kind := f.kind, protect := f.protect, endpoint := f.endpoint, route := f.route
    imports := importsOf pattern f.dir es, children := p.children }
  ordered : (p.children.map (·.rawName)).Pairwise (· < ·)

theorem pagesIn_names_sublist (f : Frame) (es : List (String × FileTree)) :
    ((pagesIn f es).map (·.1)).Sublist (es.map (·.1)) := by
  induction es with
  | nil => exact List.Sublist.refl _
  | cons e es ih =>
      rw [pagesIn, List.filterMap_cons, List.map_cons]
      split
      · exact ih.cons _
      · next c hc =>
          have hname : c.1 = e.1 := by
            split at hc
            · obtain ⟨child, -, rfl⟩ := Option.map_eq_some_iff.1 hc
              rfl
            · exact nomatch hc
          rw [List.map_cons, hname]
          exact ih.cons_cons _

theorem orderedPages_names_le (f : Frame) (es : List (String × FileTree)) :
    ((orderedPages f es).map (·.1)).Pairwise (· ≤ ·) := by
  rw [List.pairwise_map]
  refine (sorted_pairwise (fun a b => ?_) (fun a b c hab hbc => ?_) _).imp of_decide_eq_true
  · simpa using String.le_total a.1 b.1
  · rw [decide_eq_true_eq] at hab hbc ⊢
    exact String.le_trans hab hbc

/-- The pages of a directory come in the order of their names, no two with the same
name. -/
theorem orderedPages_names_pairwise (f : Frame) {es : List (String × FileTree)}
    (hes : (es.map (·.1)).Nodup) : ((orderedPages f es).map (·.1)).Pairwise (· < ·) := by
  have hdistinct : ((orderedPages f es).map (·.1)).Nodup :=
    ((sorted_perm _ _).map _).nodup_iff.2 (hes.sublist (pagesIn_names_sublist f es))
  exact ((orderedPages_names_le f es).and hdistinct).imp fun hab =>
    String.not_le.1 fun hba => hab.2 (String.le_antisymm hab.1 hba)

/-- The page and the pages below it are the directories reached from one with entries
`es`, each once and made of its own frame and entries. -/
structure Mirrors (req : PageRequest) (pattern : ImportPattern) (f : Frame)
    (es : List (String × FileTree)) (page : Page) : Prop where
  distinct : (page.placed.map Prod.fst).Nodup
  reached : ∀ names, names ∈ page.placed.map Prod.fst ↔ ∃ last, Reaches es names last
  made : ∀ q ∈ page.placed, ∃ last g, Reaches es q.1 last ∧ frameAt f q.1 = some g ∧
    MadeOf req pattern g last q.2

/-- What is known of a page below another: the entry that it is made of. -/
def MadeOfEntry (req : PageRequest) (pattern : ImportPattern) (f : Frame)
    (es : List (String × FileTree)) (p : Page) : Prop :=
  ∃ inner child, (p.rawName, .dir inner) ∈ es ∧ f.child? p.rawName = some child ∧
    Mirrors req pattern child inner p

section

variable {req : PageRequest} {pattern : ImportPattern} {f : Frame}
  {es : List (String × FileTree)} {page : Page}

theorem mem_placedAll {ps : List Page} {q : List String × Page} :
    q ∈ Page.placedAll ps ↔ ∃ p ∈ ps, ∃ r ∈ p.placed, (p.rawName :: r.1, r.2) = q := by
  simp only [Page.placedAll_eq_flatMap, List.mem_flatMap, List.mem_map]

theorem isSome_parse?_of_child? {name : String} {child : Frame} (h : f.child? name = some child) :
    (PageName.parse? name).isSome = true := by
  obtain ⟨parsed, hparsed, -⟩ := child?_eq_some h
  rw [hparsed]
  rfl

theorem placed_nodup (hordered : (page.children.map (·.rawName)).Pairwise (· < ·))
    (hchildren : ∀ p ∈ page.children, (p.placed.map Prod.fst).Nodup) :
    (page.placed.map Prod.fst).Nodup := by
  rw [Page.placed_eq, List.map_cons, List.nodup_cons]
  constructor
  · intro hnil
    obtain ⟨q, hq, heq⟩ := List.mem_map.1 hnil
    obtain ⟨p, -, r, -, rfl⟩ := mem_placedAll.1 hq
    exact nomatch heq
  · rw [Page.placedAll_eq_flatMap, List.map_flatMap, List.nodup_flatMap]
    refine ⟨fun p hp => ?_, ?_⟩
    · have hmap : (p.placed.map fun q => (p.rawName :: q.1, q.2)).map Prod.fst =
          (p.placed.map Prod.fst).map (p.rawName :: ·) := by
        rw [List.map_map, List.map_map]
        rfl
      rw [hmap]
      exact (hchildren p hp).map fun _ _ heq => (List.cons.inj heq).2
    · refine (List.pairwise_map.1 hordered).imp fun hlt => ?_
      intro names hnames hnames'
      simp only [List.mem_map] at hnames hnames'
      obtain ⟨_, ⟨r, -, rfl⟩, rfl⟩ := hnames
      obtain ⟨_, ⟨r', -, rfl⟩, heq⟩ := hnames'
      have hsame := (List.cons.inj heq).1
      rw [hsame] at hlt
      exact String.lt_irrefl _ hlt

theorem placed_reached (hsound : (FileTree.dir es).Sound)
    (hentries : ∀ name inner, (name, .dir inner) ∈ es → (PageName.parse? name).isSome = true →
      ∃ p ∈ page.children, p.rawName = name)
    (hchildren : ∀ p ∈ page.children, MadeOfEntry req pattern f es p) (names : List String) :
    names ∈ page.placed.map Prod.fst ↔ ∃ last, Reaches es names last := by
  rw [Page.placed_eq, List.map_cons, List.mem_cons]
  constructor
  · rintro (rfl | hmem)
    · exact ⟨es, .here es⟩
    · obtain ⟨q, hq, rfl⟩ := List.mem_map.1 hmem
      obtain ⟨p, hp, r, hr, rfl⟩ := mem_placedAll.1 hq
      obtain ⟨inner, child, hentry, hchild, hmirrors⟩ := hchildren p hp
      obtain ⟨last, hlast⟩ := (hmirrors.reached r.1).1 (List.mem_map_of_mem hr)
      exact ⟨last, .into hentry (isSome_parse?_of_child? hchild) hlast⟩
  · rintro ⟨last, hreaches⟩
    cases hreaches with
    | here => exact .inl rfl
    | @into _ inner _ name names hentry hname hrest =>
        right
        obtain ⟨p, hp, rfl⟩ := hentries name inner hentry hname
        obtain ⟨inner', child, hentry', hchild, hmirrors⟩ := hchildren p hp
        have hinner : FileTree.dir inner = .dir inner' := by
          have hlookup := FileTree.lookup_of_mem (hsound.distinct [] es rfl) hentry
          rw [FileTree.lookup_of_mem (hsound.distinct [] es rfl) hentry'] at hlookup
          exact (Option.some.inj hlookup).symm
        cases hinner
        obtain ⟨r, hr, rfl⟩ := List.mem_map.1 ((hmirrors.reached names).2 ⟨last, hrest⟩)
        exact List.mem_map.2 ⟨_, mem_placedAll.2 ⟨p, hp, r, hr, rfl⟩, rfl⟩

theorem placed_made (hpage : MadeOf req pattern f es page)
    (hchildren : ∀ p ∈ page.children, MadeOfEntry req pattern f es p) :
    ∀ q ∈ page.placed, ∃ last g, Reaches es q.1 last ∧ frameAt f q.1 = some g ∧
      MadeOf req pattern g last q.2 := by
  intro q hq
  rw [Page.placed_eq, List.mem_cons] at hq
  rcases hq with rfl | hq
  · exact ⟨es, f, .here es, rfl, hpage⟩
  · obtain ⟨p, hp, r, hr, rfl⟩ := mem_placedAll.1 hq
    obtain ⟨inner, child, hentry, hchild, hmirrors⟩ := hchildren p hp
    obtain ⟨last, g, hlast, hframe, hmade⟩ := hmirrors.made r hr
    refine ⟨last, g, .into hentry (isSome_parse?_of_child? hchild) hlast, ?_, hmade⟩
    rw [frameAt, hchild, Option.bind_some, hframe]

end

/-- The pages of a tree are the directories reached, each once. -/
theorem visit_mirrors {req : PageRequest} {pattern : ImportPattern} (node : FileTree) :
    ∀ (f : Frame) (es : List (String × FileTree)) (page : Page), node = .dir es → node.Sound →
      (visit req pattern f (.dir es)).result = .ok page → Mirrors req pattern f es page := by
  induction node using FileTree.inductOn with
  | leaf text => exact fun _ _ _ h => nomatch h
  | node entries ih =>
      intro f es page hes hsound hpage
      cases hes
      obtain ⟨-, children, hchildren, -, rfl⟩ := visit_eq_ok_iff.1 hpage
      have hname : ∀ c ∈ orderedPages f entries, ∀ p,
          (visit req pattern c.2.1 c.2.2).result = .ok p → p.rawName = c.1 := by
        intro c hc p hp
        obtain ⟨inner, -, hchild, -⟩ := mem_orderedPages.1 hc
        obtain ⟨parsed, -, hframe⟩ := child?_eq_some hchild
        rw [(frame_of_visit hp).1, hframe]
      have hordered : (children.map (·.rawName)).Pairwise (· < ·) := by
        rw [map_eq_of_visited hchildren hname]
        exact orderedPages_names_pairwise f (hsound.distinct [] entries rfl)
      have hentries : ∀ name inner, (name, .dir inner) ∈ entries →
          (PageName.parse? name).isSome = true → ∃ p ∈ children, p.rawName = name := by
        intro name inner hentry hpage
        obtain ⟨child, hchild⟩ := exists_child hpage
        have hmem := orderedPages_of_child hentry hchild
        obtain ⟨p, hp, hvisit⟩ := exists_page_of_mem hchildren hmem
        exact ⟨p, hp, hname _ hmem p hvisit⟩
      have hbelow : ∀ p ∈ children, MadeOfEntry req pattern f entries p := by
        intro p hp
        obtain ⟨c, hc, hvisit⟩ := exists_visited_of_mem hchildren hp
        rw [MadeOfEntry, hname c hc p hvisit]
        obtain ⟨inner, hentry, hchild, hnode⟩ := mem_orderedPages.1 hc
        rw [hnode] at hvisit
        exact ⟨inner, c.2.1, hentry, hchild,
          ih _ hentry c.2.1 inner p rfl (hsound.child hentry) hvisit⟩
      refine ⟨placed_nodup hordered fun p hp => ?_, placed_reached hsound hentries hbelow,
        placed_made ⟨rfl, hordered⟩ hbelow⟩
      obtain ⟨inner, child, -, -, hmirrors⟩ := hbelow p hp
      exact hmirrors.distinct

/-! ## What a page says -/

/-- The parts of the path that names of pages stand for. -/
def segments (names : List String) : List String :=
  names.filterMap fun name => (PageName.parse? name).map (·.segment)

/-- What a page says is found in the names that lead to its directory and in the
directory's entries. -/
structure ReadFrom (req : PageRequest) (pattern : ImportPattern) (names : List String)
    (es : List (String × FileTree)) (p : Page) : Prop where
  dir : p.dir = names.foldl Path.join pattern.target
  id : p.id = Namespace.ofDirectory p.dir req.root
  route : p.route = UrlPath.join req.base ("/".intercalate (segments names))
  root : names = [] → p.rawName = pattern.target.fileName?.getD "" ∧ p.kind = none ∧
    p.protect = false ∧ p.endpoint = PageName.clean p.rawName
  named : ∀ name, names.getLast? = some name → p.rawName = name ∧
    ∃ parsed, PageName.parse? name = some parsed ∧ p.kind = some parsed.kind ∧
      p.protect = parsed.protect ∧ p.endpoint = parsed.endpoint
  ordered : (p.children.map (·.rawName)).Pairwise (· < ·)
  metadata : ∃ n, IsFirst (HasFile es ·.1) PageImports.metadataFiles n ∧
    p.imports.metadata = n.map fun n => moduleRef pattern (p.dir.join n.1) n.2
  index : ∃ n, IsFirst (HasFile es ·.1) PageImports.indexFiles n ∧
    p.imports.index = n.map fun n => moduleRef pattern (p.dir.join n.1) n.2
  layout : ∃ n, IsFirst (HasFile es ·.1) PageImports.layoutFiles n ∧
    p.imports.layout = n.map fun n => moduleRef pattern (p.dir.join n.1) n.2
  translations : ∃ n, IsFirst (HasDirectory es) PageImports.translationDirs n ∧
    p.imports.translations = n.map p.dir.join

theorem frameAt_path {f g : Frame} {names : List String} (h : frameAt f names = some g) :
    g.dir = names.foldl Path.join f.dir ∧
      g.route = (segments names).foldl UrlPath.join f.route := by
  induction names generalizing f with
  | nil =>
      cases h
      exact ⟨rfl, rfl⟩
  | cons name names ih =>
      obtain ⟨child, hchild, hrest⟩ := Option.bind_eq_some_iff.1 h
      obtain ⟨parsed, hparsed, rfl⟩ := child?_eq_some hchild
      obtain ⟨hdir, hroute⟩ := ih hrest
      refine ⟨hdir, ?_⟩
      rw [hroute, segments, segments, List.filterMap_cons, hparsed]
      rfl

theorem frameAt_name {f g : Frame} {names : List String} {name : String}
    (h : frameAt f names = some g) (hlast : names.getLast? = some name) :
    g.rawName = name ∧ ∃ parsed, PageName.parse? name = some parsed ∧ g.kind = some parsed.kind ∧
      g.protect = parsed.protect ∧ g.endpoint = parsed.endpoint := by
  induction names generalizing f with
  | nil => exact nomatch hlast
  | cons first names ih =>
      obtain ⟨child, hchild, hrest⟩ := Option.bind_eq_some_iff.1 h
      cases names with
      | nil =>
          cases hrest
          cases hlast
          obtain ⟨parsed, hparsed, rfl⟩ := child?_eq_some hchild
          exact ⟨rfl, parsed, hparsed, rfl, rfl, rfl⟩
      | cons second names => exact ih hrest (by rwa [List.getLast?_cons_cons] at hlast)

theorem locate_isFirst (pattern : ImportPattern) (dir : Path) (es : List (String × FileTree))
    (names : List (String × Bool)) :
    ∃ n, IsFirst (HasFile es ·.1) names n ∧
      importsOf.locate pattern dir es names =
        n.map fun n => moduleRef pattern (dir.join n.1) n.2 :=
  ⟨_, isFirst_find? (fun _ => hasFile_iff) names, rfl⟩

theorem translations_isFirst (pattern : ImportPattern) (dir : Path)
    (es : List (String × FileTree)) :
    ∃ n, IsFirst (HasDirectory es) PageImports.translationDirs n ∧
      (importsOf pattern dir es).translations = n.map dir.join :=
  ⟨_, isFirst_find? (fun _ => hasDirectory_iff) _, rfl⟩

theorem MadeOf.readFrom {req : PageRequest} {pattern : ImportPattern} {g : Frame}
    {names : List String} {es : List (String × FileTree)} {p : Page}
    (hframe : frameAt (rootFrame req pattern.target) names = some g)
    (h : MadeOf req pattern g es p) : ReadFrom req pattern names es p := by
  obtain ⟨hdir, hroute⟩ := frameAt_path hframe
  obtain ⟨hparts, hordered⟩ := h
  have himports : p.imports = importsOf pattern p.dir es := by rw [hparts]
  refine ⟨?dir, ?id, ?route, ?root, ?named, hordered, ?_, ?_, ?_, ?_⟩
  case dir =>
    rw [hparts]
    exact hdir
  case id => rw [hparts]
  case route =>
    rw [hparts, ← UrlPath.foldl_join]
    exact hroute
  case root =>
    rintro rfl
    cases hframe
    rw [hparts]
    exact ⟨rfl, rfl, rfl, rfl⟩
  case named =>
    intro name hlast
    rw [hparts]
    exact frameAt_name hframe hlast
  all_goals rw [himports]
  · exact locate_isFirst pattern p.dir es PageImports.metadataFiles
  · exact locate_isFirst pattern p.dir es PageImports.indexFiles
  · exact locate_isFirst pattern p.dir es PageImports.layoutFiles
  · exact translations_isFirst pattern p.dir es

/-- A pages tree is accepted if and only if no directory in it has a fault. Its pages
are the directories reached from its root, each once, and each page is read from its
directory and its names. -/
theorem load_mirrors_directories {tree : FileTree} (hsound : tree.Sound) {req : PageRequest}
    {pattern : ImportPattern}
    (hpattern : ImportPattern.resolve req.pattern req.importer req.root = .ok pattern)
    {entries : List (String × FileTree)} (hroot : tree.find pattern.target = .ok (.dir entries)) :
    ((∃ pages, (load tree req).result = .ok pages) ↔
      ∀ names es, Reaches entries names es →
        Complete es ∧ (names ≠ [] → req.allowNoMeta = true ∨ HasMetadata es)) ∧
    ∀ pages, (load tree req).result = .ok pages →
      (pages.root.placed.map Prod.fst).Nodup ∧
      (∀ names, names ∈ pages.root.placed.map Prod.fst ↔ ∃ es, Reaches entries names es) ∧
      ∀ q ∈ pages.root.placed, ∃ es, Reaches entries q.1 es ∧ ReadFrom req pattern q.1 es q.2 := by
  have hload : (load tree req).result =
      (visit req pattern (rootFrame req pattern.target) (.dir entries)).result.map
        fun root => ⟨root, pattern⟩ := by
    rw [load, hpattern]
    dsimp only
    rw [hroot]
  have hentries := hsound.find hroot
  have hvisit : ∀ pages, (load tree req).result = .ok pages →
      (visit req pattern (rootFrame req pattern.target) (.dir entries)).result =
        .ok pages.root := by
    intro pages h
    rw [hload] at h
    cases hresult : (visit req pattern (rootFrame req pattern.target) (.dir entries)).result with
    | error e =>
        rw [hresult] at h
        cases h
    | ok page =>
        rw [hresult] at h
        cases h
        rfl
  constructor
  · have hiff := @exists_visit_iff req pattern (.dir entries)
      (rootFrame req pattern.target) entries rfl
    simp only [rootFrame, Option.isSome_none, Bool.false_eq_true, or_false] at hiff
    rw [← hiff]
    constructor
    · rintro ⟨pages, h⟩
      exact ⟨pages.root, hvisit pages h⟩
    · rintro ⟨page, h⟩
      refine ⟨⟨page, pattern⟩, ?_⟩
      rw [hload, rootFrame, h]
      rfl
  · intro pages h
    obtain ⟨hdistinct, hreached, hmade⟩ :=
      visit_mirrors _ (rootFrame req pattern.target) entries pages.root rfl hentries
        (hvisit pages h)
    refine ⟨hdistinct, hreached, fun q hq => ?_⟩
    obtain ⟨es, g, hes, hframe, hpage⟩ := hmade q hq
    exact ⟨es, hes, hpage.readFrom hframe⟩

def idEntries : List (String × FileTree) :=
  [("meta.ts", .file ""), ("index.tsx", .file ""), ("index.sync.tsx", .file ""),
    ("translations", .dir [])]

/-- Pages within pages, a fallback page, a directory that is none, and two index views
in one directory. -/
def shopEntries : List (String × FileTree) :=
  [("[1]shop", .dir [("[2]_id", .dir idEntries), ("meta.tsx", .file "")]),
    ("[0]rest", .dir [("index.tsx", .file ""), ("meta.tsx", .file "")]),
    ("notes", .dir [("todo.md", .file "")])]

def inProject (pages : String) (entries : List (String × FileTree)) : FileTree :=
  .dir [("p", .dir [(pages, .dir entries)])]

def requestOf (pattern base : String) : PageRequest :=
  { pattern, base, root := ⟨"/p"⟩, importer := ⟨"/p"⟩, allowNoMeta := false }

theorem load_mirrors_shop :
    ∃ pages, (load (inProject "pages" shopEntries) (requestOf "./pages" "x//")).result = .ok pages ∧
      ["[1]shop", "[2]_id"] ∈ pages.root.placed.map Prod.fst ∧
      ∀ q ∈ pages.root.placed, q.1 = ["[1]shop", "[2]_id"] →
        q.2.route = "/x/shop/:id" ∧ q.2.kind = some (.menuItem 2) := by
  obtain ⟨-, hpages⟩ := @load_mirrors_directories (inProject "pages" shopEntries)
    (by decide +kernel) (requestOf "./pages" "x//") ⟨⟨"/p"⟩, "pages", .here⟩ (by decide +kernel)
    shopEntries (by decide +kernel)
  have hreaches : Reaches shopEntries ["[1]shop", "[2]_id"] idEntries :=
    .into List.mem_cons_self (by decide +kernel)
      (.into List.mem_cons_self (by decide +kernel) (.here _))
  have hsome :
      (load (inProject "pages" shopEntries) (requestOf "./pages" "x//")).result.isOk = true := by
    decide +kernel
  cases hload : (load (inProject "pages" shopEntries) (requestOf "./pages" "x//")).result with
  | error e =>
      rw [hload] at hsome
      exact nomatch hsome
  | ok pages =>
      obtain ⟨-, hreached, hread⟩ := hpages pages hload
      refine ⟨pages, rfl, (hreached _).2 ⟨_, hreaches⟩, fun q hq hnames => ?_⟩
      obtain ⟨es, -, hfrom⟩ := hread q hq
      rw [hnames] at hfrom
      obtain ⟨-, parsed, hparsed, hkind, -⟩ := hfrom.named "[2]_id" rfl
      have hid : PageName.parse? "[2]_id" = some ⟨.menuItem 2, false, ":id", "id"⟩ := by
        decide +kernel
      rw [hid] at hparsed
      cases hparsed
      exact ⟨hfrom.route.trans (by decide +kernel), hkind⟩

/-- The root of a pages tree is not a page of the name that its directory happens to
have: not every page has the kind, the protection and the endpoint of its own name. -/
theorem load_root_ignores_tokens :
    ¬ ∀ (tree : FileTree) (req : PageRequest) (pattern : ImportPattern)
        (entries : List (String × FileTree)) (pages : PageTree), tree.Sound →
        ImportPattern.resolve req.pattern req.importer req.root = .ok pattern →
        tree.find pattern.target = .ok (.dir entries) → (load tree req).result = .ok pages →
        ∀ q ∈ pages.root.placed, ∀ parsed, PageName.parse? q.2.rawName = some parsed →
          q.2.kind = some parsed.kind ∧ q.2.protect = parsed.protect ∧
            q.2.endpoint = parsed.endpoint := by
  intro hall
  have hroot : (load (inProject "[1]_pages[protect]" [("index.tsx", .file "")])
      (requestOf "./[1]_pages[protect]" "/")).result.map (fun t => (t.root.rawName, t.root.kind)) =
        .ok ("[1]_pages[protect]", none) := by
    decide +kernel
  cases hload : (load (inProject "[1]_pages[protect]" [("index.tsx", .file "")])
      (requestOf "./[1]_pages[protect]" "/")).result with
  | error e =>
      rw [hload] at hroot
      exact nomatch hroot
  | ok pages =>
      rw [hload] at hroot
      obtain ⟨hname, hkind⟩ := Prod.mk.inj (Except.ok.inj hroot)
      have hparsed : PageName.parse? pages.root.rawName =
          some ⟨.menuItem 1, true, ":pages", "pages"⟩ := by
        rw [hname]
        decide +kernel
      have hclaimed := hall _ _ ⟨⟨"/p"⟩, "[1]_pages[protect]", .here⟩ [("index.tsx", .file "")] pages
        (by decide +kernel) (by decide +kernel) (by decide +kernel) hload _ pages.root.placed_self _
        hparsed
      rw [hkind] at hclaimed
      exact nomatch hclaimed.1

end PageTree

end SiteMacros
