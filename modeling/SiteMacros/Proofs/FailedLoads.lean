import SiteMacros.Proofs.PageTranslations
import SiteMacros.Proofs.Rearrangements
import SiteMacros.Proofs.VisitOrder

/-!
# Loads that fail

A call that loads routes or a menu registers pages while it reads them, and does not take
that back if the reading fails. What it leaves is sound all the same: each page that it has
registered is complete, with all pages below it, and was reported in the order of a reading
without faults (`Reported`). The pages left out are the directory that has the fault, those
around it, and those that come later (`StopsAt`).

The registry shows it (`Gained`). It has the routes of the reported pages, and is as it was
at all other directories. The reading is the only thing that can fail once a call has its
arguments: behind it the translations of the pages are loaded, which always succeeds
(`succeeds_loadRouteTranslations`).
-/

namespace SiteMacros

/-! ## What a load reports -/

namespace PageTree

/-- The page is read from the directory with entries `es` that the names lead to, and the
pages below it from the directories below. None of these has a fault. -/
structure CompletePage (req : PageRequest) (pattern : ImportPattern)
    (entries : List (String × FileTree)) (names : List String) (es : List (String × FileTree))
    (p : Page) : Prop where
  reached : Reaches entries names es
  faultless : ∀ ms last, Reaches es ms last → Complete last ∧
    (names ++ ms ≠ [] → req.allowNoMeta = true ∨ HasMetadata last)
  distinct : (p.placed.map Prod.fst).Nodup
  subtree : ∀ ms, ms ∈ p.placed.map Prod.fst ↔ ∃ last, Reaches es ms last
  read : ∀ q ∈ p.placed, ∃ last, Reaches es q.1 last ∧
    ReadFrom req pattern (names ++ q.1) last q.2

/-- The reported pages, with the names that lead to them, are complete pages, each of which
comes before those around it and after those below it. -/
structure Reported (req : PageRequest) (pattern : ImportPattern)
    (entries : List (String × FileTree)) (visited : List Page)
    (reported : List (List String × Page)) : Prop where
  pages : visited = reported.map Prod.snd
  inOrder : (reported.map Prod.fst).Pairwise Earlier
  complete : ∀ q ∈ reported, ∃ es, CompletePage req pattern entries q.1 es q.2

theorem Reaches.sound {es last : List (String × FileTree)} {names : List String}
    (h : Reaches es names last) (hsound : (FileTree.dir es).Sound) :
    (FileTree.dir last).Sound := by
  induction h with
  | here es => exact hsound
  | into entry page rest ih => exact ih (hsound.child entry)

/-- A page has a kind if a name leads to it. -/
theorem kind_frameAt {f g : Frame} {names : List String} (h : frameAt f names = some g) :
    g.kind.isSome = true ↔ names ≠ [] ∨ f.kind.isSome = true := by
  cases hlast : names.getLast? with
  | none =>
      rw [List.getLast?_eq_none_iff] at hlast
      subst hlast
      cases h
      exact ⟨.inr, fun hor => hor.resolve_left fun hne => hne rfl⟩
  | some name =>
      obtain ⟨-, parsed, -, hkind, -⟩ := frameAt_name h hlast
      have hne : names ≠ [] := by
        rintro rfl
        cases hlast
      rw [hkind]
      exact iff_of_true rfl (.inl hne)

section

variable {req : PageRequest} {pattern : ImportPattern} {entries : List (String × FileTree)}

theorem completePage_of_visit (hsound : (FileTree.dir entries).Sound) {names : List String}
    {g : Frame} {es : List (String × FileTree)}
    (hplace : Place (rootFrame req pattern.target) entries names g es) {p : Page}
    (h : (visit req pattern g (.dir es)).result = .ok p) :
    CompletePage req pattern entries names es p := by
  obtain ⟨hreaches, hframe⟩ := hplace
  have hmirrors := visit_mirrors _ g es p rfl (hreaches.sound hsound) h
  refine ⟨hreaches, fun ms last hlast => ?_, hmirrors.distinct, hmirrors.reached, fun q hq => ?_⟩
  · obtain ⟨hcomplete, hmetadata⟩ := (exists_visit_iff _ g es rfl).1 ⟨p, h⟩ ms last hlast
    refine ⟨hcomplete, fun hne => hmetadata ?_⟩
    rw [ne_eq, List.append_eq_nil_iff, not_and_or] at hne
    exact hne.symm.imp_right fun hnames => (kind_frameAt hframe).2 (.inl hnames)
  · obtain ⟨last, g', hlast, hframe', hmade⟩ := hmirrors.made q hq
    exact ⟨last, hlast, hmade.readFrom (by rw [frameAt_append hframe, hframe'])⟩

theorem Trace.reported {visited : List Page} {whole : Except MacroError (List (List String × Page))}
    {reported : List (List String × Page)} (hsound : (FileTree.dir entries).Sound)
    (h : Trace req pattern (Place (rootFrame req pattern.target) entries) visited whole reported) :
    Reported req pattern entries visited reported where
  pages := h.pages
  inOrder := h.inOrder
  complete q hq := by
    obtain ⟨g, es, hplace, hresult⟩ := h.complete q hq
    exact ⟨es, completePage_of_visit hsound hplace hresult⟩

end

/-- The load finds no directory to read: its pattern starts with neither a dot nor a slash,
or it leads to no directory. -/
def Misses (tree : FileTree) (req : PageRequest) : Prop :=
  ∀ pattern entries, ImportPattern.resolve req.pattern req.importer req.root = .ok pattern →
    tree.find pattern.target ≠ .ok (.dir entries)

section

variable {tree : FileTree} {req : PageRequest}

/-- What a load reports is a trace of the directory that it reads. -/
theorem load_trace (hsound : tree.Sound) :
    (load tree req).visited = [] ∧ (∃ e, (load tree req).result = .error e) ∧ Misses tree req ∨
      ∃ pattern entries reported,
        ImportPattern.resolve req.pattern req.importer req.root = .ok pattern ∧
        tree.find pattern.target = .ok (.dir entries) ∧ (FileTree.dir entries).Sound ∧
        (∀ pages, (load tree req).result = .ok pages → pages.pattern = pattern) ∧
        Trace req pattern (Place (rootFrame req pattern.target) entries) (load tree req).visited
          ((load tree req).result.map (·.root.postorder)) reported := by
  rw [load]
  cases hpattern : ImportPattern.resolve req.pattern req.importer req.root with
  | error e => exact .inl ⟨rfl, ⟨e, rfl⟩, fun pattern entries h => by rw [hpattern] at h; cases h⟩
  | ok pattern =>
      dsimp only
      split
      · next entries hfind =>
          right
          have hentries := hsound.find hfind
          obtain ⟨reported, htrace⟩ := trace_visit req pattern (.dir entries)
            (rootFrame req pattern.target) entries rfl hentries
          refine ⟨pattern, entries, reported, rfl, hfind, hentries, ?_, ?_⟩
          · intro pages hpages
            cases hresult : (visit req pattern (rootFrame req pattern.target)
              (.dir entries)).result with
            | error e =>
                rw [hresult] at hpages
                cases hpages
            | ok root =>
                rw [hresult] at hpages
                cases hpages
                rfl
          · cases hresult : (visit req pattern (rootFrame req pattern.target)
              (.dir entries)).result with
            | error e =>
                rw [hresult] at htrace
                exact htrace
            | ok root =>
                rw [hresult] at htrace
                exact htrace
      · next hfind =>
          refine .inl ⟨rfl, ⟨_, rfl⟩, fun pattern' entries h => ?_⟩
          rw [hpattern] at h
          cases h
          exact hfind entries

/-- A load that succeeds reports its pages in post-order. -/
theorem load_reports (hsound : tree.Sound) {pages : PageTree}
    (h : (load tree req).result = .ok pages) :
    ∃ entries, tree.find pages.pattern.target = .ok (.dir entries) ∧
      Reported req pages.pattern entries (load tree req).visited pages.root.postorder ∧
      ∀ ms, ms ∈ pages.root.postorder.map Prod.fst ↔ ∃ es, Reaches entries ms es := by
  rcases load_trace hsound with ⟨-, ⟨e, he⟩, -⟩ |
    ⟨pattern, entries, reported, -, hfind, hentries, hsame, htrace⟩
  · rw [h] at he
    cases he
  · obtain rfl := hsame pages h
    obtain ⟨rfl, hall⟩ := htrace.finished _ (by rw [h]; rfl)
    refine ⟨entries, hfind, htrace.reported hentries, fun ms => ⟨fun hms => ?_, ?_⟩⟩
    · obtain ⟨g, es, hplace⟩ := htrace.place_of_mem hms
      exact ⟨es, hplace.reaches⟩
    · rintro ⟨es, hes⟩
      obtain ⟨g, hplace⟩ := hes.place (rootFrame req pages.pattern.target)
      exact hall ms g es hplace

end

end PageTree

/-! ## What a load registers -/

namespace Registry

/-- The registry has gained the routes of the pages. -/
structure Gained (r r' : Registry) (ps : List Page) : Prop where
  routes : ∀ p ∈ ps, r'.routes.get? p.dir = some p.route
  elsewhere : ∀ dir, (∀ p ∈ ps, p.dir.components ≠ dir.components) →
    r'.routes.entryAt? dir = r.routes.entryAt? dir
  namespaces : r'.namespaces = r.namespaces

theorem registerAll_routes {es : List Registration}
    (hes : ∀ e ∈ es, ∃ page route, e = .route page route) (r : Registry) :
    (r.registerAll es).namespaces = r.namespaces ∧
      ∀ dir, (∀ page route, .route page route ∈ es → page.components ≠ dir.components) →
        (r.registerAll es).routes.entryAt? dir = r.routes.entryAt? dir := by
  induction es generalizing r with
  | nil => exact ⟨rfl, fun _ _ => rfl⟩
  | cons e es ih =>
      obtain ⟨⟨page, route, rfl⟩, hrest⟩ := List.forall_mem_cons.1 hes
      obtain ⟨hnamespaces, helsewhere⟩ := ih hrest (r.registerRoute page route)
      rw [registerAll_cons]
      refine ⟨hnamespaces, fun dir hdir => ?_⟩
      refine (helsewhere dir fun page' route' hmem => ?_).trans ?_
      · exact hdir page' route' (List.mem_cons_of_mem _ hmem)
      · exact PathMap.entryAt?_insert_of_ne _ (hdir page route List.mem_cons_self) route

end Registry

namespace PageTree

variable {req : PageRequest} {pattern : ImportPattern} {entries : List (String × FileTree)}
  {visited : List Page} {reported : List (List String × Page)}

/-- A reported page is at the directory that its names lead to, and its names tell its
route. -/
theorem Reported.place (h : Reported req pattern entries visited reported)
    {q : List String × Page} (hq : q ∈ reported) :
    q.2.dir = pattern.target.below q.1 ∧
      q.2.route = UrlPath.join req.base ("/".intercalate (segments q.1)) := by
  obtain ⟨es, hcomplete⟩ := h.complete q hq
  obtain ⟨last, -, hread⟩ := hcomplete.read _ q.2.placed_self
  rw [List.append_nil] at hread
  exact ⟨hread.dir, hread.route⟩

theorem Reported.gained (h : Reported req pattern entries visited reported)
    (hsound : (FileTree.dir entries).Sound) (r : Registry) :
    r.Gained (r.registerAll (visited.map fun p => .route p.dir p.route)) visited := by
  have hregistered : ∀ e ∈ visited.map fun p => Registration.route p.dir p.route,
      ∃ page route, e = .route page route := by
    intro e he
    obtain ⟨p, -, rfl⟩ := List.mem_map.1 he
    exact ⟨p.dir, p.route, rfl⟩
  have hnames : ∀ q ∈ reported, ∀ n ∈ q.1, Path.IsName n := by
    intro q hq
    obtain ⟨es, hcomplete⟩ := h.complete q hq
    exact reaches_isName hcomplete.reached hsound
  have hmem : ∀ p ∈ visited, ∃ names, (names, p) ∈ reported := by
    intro p hp
    rw [h.pages] at hp
    obtain ⟨q, hq, rfl⟩ := List.mem_map.1 hp
    exact ⟨q.1, hq⟩
  obtain ⟨hnamespaces, helsewhere⟩ := Registry.registerAll_routes hregistered r
  refine ⟨fun p hp => ?_, fun dir hdir => helsewhere dir fun page route hpage => ?_, hnamespaces⟩
  · have hroute : Registration.route p.dir p.route ∈
        visited.map fun p => .route p.dir p.route := List.mem_map.2 ⟨p, hp, rfl⟩
    rw [Registry.get?_registerAll, Registry.routeAmong_eq_some hroute rfl, Option.some_or]
    -- pages of one directory have the same names, and so the same route
    intro page route hpage hsame
    obtain ⟨p', hp', heq⟩ := List.mem_map.1 hpage
    cases heq
    obtain ⟨names, hq⟩ := hmem p hp
    obtain ⟨names', hq'⟩ := hmem p' hp'
    obtain ⟨hdir, hroute⟩ := h.place hq
    obtain ⟨hdir', hroute'⟩ := h.place hq'
    rw [hdir, hdir', Path.components_below (hnames _ hq), Path.components_below (hnames _ hq')]
      at hsame
    rw [hroute, hroute', Path.map_name_inj (List.append_cancel_left hsame)]
  · obtain ⟨p, hp, heq⟩ := List.mem_map.1 hpage
    cases heq
    exact hdir p hp

end PageTree

namespace Expansion

open Script

variable {α β : Type} {s : Surroundings} {x z : Expansion} {e : MacroError}

/-! ## Steps that fail -/

/-- The step does not fail, whatever it starts from. -/
def Succeeds (s : Surroundings) (m : Expand α) : Prop :=
  ∀ x, ∃ a y, perform m s x = (.ok a, y)

namespace Succeeds

theorem of_eq {m : Expand α} (a : Expansion → α) (f : Expansion → Expansion)
    (h : ∀ x, perform m s x = (.ok (a x), f x)) : Succeeds s m :=
  fun x => ⟨a x, f x, h x⟩

theorem bind {m : Expand α} {f : α → Expand β} (hm : Succeeds s m)
    (hf : ∀ a, Succeeds s (f a)) : Succeeds s (m >>= f) := by
  intro x
  obtain ⟨a, y, hy⟩ := hm x
  obtain ⟨b, z, hz⟩ := hf a y
  exact ⟨b, z, by rw [perform_bind_ok s x hy, hz]⟩

theorem forM {γ : Type} {f : γ → Expand Unit} (hf : ∀ c, Succeeds s (f c)) (xs : List γ) :
    Succeeds s (xs.forM f) := by
  induction xs with
  | nil => exact of_eq (fun _ => ()) id fun _ => rfl
  | cons c xs ih => exact bind (hf c) fun _ => ih

end Succeeds

end Expansion

end SiteMacros
