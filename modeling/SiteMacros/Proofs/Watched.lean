import SiteMacros.Proofs.RegisteredPages
import SiteMacros.Proofs.Resources
import SiteMacros.Proofs.Tags

/-!
# Watched directories

An expansion reads the file tree in three places: where it reads a pages tree, where it
looks for the translations of a page, and where it searches for the translations that a
module asks for. Each place watches a directory. The first two read nothing outside of the
directory they watch. The third watches the directory that the pattern is seen from, and
the search goes where the pattern leads.

So watching is enough for every module whose searches stay in directories that are watched:
it comes to the same in every file tree that has the same files and directories there
(`expandModule_eq_of_agree`). A search with a pattern like `../locales/*.yaml` does not stay
there, and what is added to its directory goes unnoticed (`expandModule_misses_locale`).
-/

namespace SiteMacros

namespace Expansion

open Script

variable {α β : Type}

/-! ## Searches of a module -/

/-- The pattern that a call searches for translations with, before it is resolved. -/
def patternFor (s : Surroundings) (call : MacroCall) : Except MacroError String := do
  match ← literal? call 0 with
  | some pattern => return pattern
  | none =>
      match s.configuration.translations.defaultGlob with
      | some pattern => return pattern
      | none => .error (.configuration .noGlob)

/-- The search of a call for translations. -/
def searchFor (s : Surroundings) (call : MacroCall) : Except MacroError ImportPattern := do
  let pattern ← patternFor s call
  let directory ← directoryFor s call
  ImportPattern.resolve pattern directory s.root

/-- The searches that a call makes of its own. -/
def searches (s : Surroundings) (call : MacroCall) : List ImportPattern :=
  match call.callee with
  | .loadTranslations => (searchFor s call).toOption.toList
  | _ => []

/-- The searches that the calls of a module make. -/
def moduleSearches (s : Surroundings) (text : String) : List ImportPattern :=
  match analyze s.configuration s.file text with
  | .ok (some (_, calls)) => calls.flatMap (searches s)
  | _ => []

theorem perform_translationPattern (s : Surroundings) (x : Expansion) (call : MacroCall) :
    perform (translationPattern call) s x = (patternFor s call, x) := by
  show perform (settle (literal? call 0) >>= _) s x = _
  rw [patternFor]
  cases literal? call 0 with
  | error e => rfl
  | ok given? =>
      cases given? with
      | some pattern => rfl
      | none =>
          show perform (match s.configuration.translations.defaultGlob with
            | some pattern => pure pattern
            | none => throw (.configuration .noGlob)) s x =
              (match s.configuration.translations.defaultGlob with
                | some pattern => pure pattern
                | none => .error (.configuration .noGlob), x)
          cases s.configuration.translations.defaultGlob <;> rfl

theorem perform_translationDirectory (s : Surroundings) (x : Expansion) (call : MacroCall) :
    perform (translationDirectory call) s x = (directoryFor s call, x) := by
  show perform (read >>= _) s x = _
  rw [perform_read_bind, directoryFor]
  cases literal? call 1 with
  | error e => rfl
  | ok given? =>
      cases given? with
      | none => rfl
      | some pattern =>
          show perform (settle (ImportPattern.resolve pattern s.dir s.root) >>= _) s x =
            ((ImportPattern.resolve pattern s.dir s.root >>= fun found => pure found.target), x)
          cases ImportPattern.resolve pattern s.dir s.root <;> rfl

/-! ## Steps that read what they watch -/

/-- A step watches on, and if it succeeds without having watched more than the directories
of `W`, it does the same with another file tree. -/
structure Framed (s : Surroundings) (tree' : FileTree) (W : List Path) (m : Expand α) : Prop where
  grows (x : Expansion) : x.dependencies.watched ⊆ (perform m s x).2.dependencies.watched
  same {x y : Expansion} {a : α} (h : perform m s x = (.ok a, y))
    (hW : y.dependencies.watched ⊆ W) : perform m { s with tree := tree' } x = (.ok a, y)

namespace Framed

variable {s : Surroundings} {tree' : FileTree} {W : List Path}

/-- A step that does not look at the file tree. -/
theorem of_eq {m : Expand α}
    (hgrows : ∀ x, x.dependencies.watched ⊆ (perform m s x).2.dependencies.watched)
    (heq : ∀ x, perform m { s with tree := tree' } x = perform m s x) :
    Framed s tree' W m :=
  ⟨hgrows, fun h _ => (heq _).trans h⟩

theorem pure (a : α) : Framed s tree' W (Pure.pure a) :=
  of_eq (fun _ => List.Subset.refl _) fun _ => rfl

theorem get : Framed s tree' W get :=
  of_eq (fun _ => List.Subset.refl _) fun _ => rfl

theorem throw (e : MacroError) : Framed s tree' W (throw e : Expand α) :=
  of_eq (fun _ => List.Subset.refl _) fun _ => rfl

theorem settle (r : Except MacroError α) : Framed s tree' W (settle r) :=
  of_eq (fun x => by rw [perform_settle]; exact List.Subset.refl _) fun x => by
    rw [perform_settle, perform_settle]

theorem emitting (m : StateM ImportScope α) : Framed s tree' W (emitting m) :=
  of_eq (fun _ => List.Subset.refl _) fun _ => rfl

theorem onRegistry (f : Registry → Registry) : Framed s tree' W (onRegistry f) :=
  of_eq (fun _ => List.Subset.refl _) fun _ => rfl

theorem depend {f : Dependencies → Dependencies} (hf : ∀ d, d.watched ⊆ (f d).watched) :
    Framed s tree' W (depend f) :=
  of_eq (fun x => hf x.dependencies) fun _ => rfl

theorem watch (dir : Path) : Framed s tree' W (watch dir) :=
  depend fun _ => List.subset_append_left _ _

theorem bind {m : Expand α} {f : α → Expand β} (hm : Framed s tree' W m)
    (hf : ∀ a, (∃ x y, perform m s x = (.ok a, y)) → Framed s tree' W (f a)) :
    Framed s tree' W (m >>= f) where
  grows x := by
    have hgrows := hm.grows x
    rcases hrun : perform m s x with ⟨e | a, y⟩
    · rw [perform_bind_error s x hrun]
      rwa [hrun] at hgrows
    · rw [perform_bind_ok s x hrun]
      rw [hrun] at hgrows
      exact List.Subset.trans hgrows ((hf a ⟨x, y, hrun⟩).grows y)
  same {x z b} h hW := by
    obtain ⟨a, y, hrun, hlast⟩ := exists_of_perform_bind_ok h
    have hfa := hf a ⟨x, y, hrun⟩
    have hgrows := hfa.grows y
    rw [hlast] at hgrows
    rw [perform_bind_ok _ x (hm.same hrun (List.Subset.trans hgrows hW))]
    exact hfa.same hlast hW

/-- A step that goes on with what it has read off the file tree. It may read something else
off the other one, as long as it does not succeed with the directories of `W`. -/
theorem read_bind {f : Surroundings → Expand β} (hf : Framed s tree' W (f s))
    (hsame : ∀ {x y b}, perform (f s) s x = (.ok b, y) → y.dependencies.watched ⊆ W →
      f { s with tree := tree' } = f s) : Framed s tree' W (read >>= f) where
  grows x := hf.grows x
  same {x y b} h hW := by
    rw [perform_read_bind] at h ⊢
    rw [hsame h hW]
    exact hf.same h hW

theorem forM {γ : Type} {f : γ → Expand Unit} (xs : List γ) (hf : ∀ c, Framed s tree' W (f c)) :
    Framed s tree' W (xs.forM f) := by
  induction xs with
  | nil => exact pure ()
  | cons c xs ih => exact bind (hf c) fun _ _ => ih

theorem mapM {γ : Type} {f : γ → Expand α} {xs : List γ} (hf : ∀ c ∈ xs, Framed s tree' W (f c)) :
    Framed s tree' W (xs.mapM f) := by
  induction xs with
  | nil => exact pure []
  | cons c xs ih =>
      rw [List.mapM_cons]
      refine bind (hf c List.mem_cons_self) fun _ _ => ?_
      exact bind (ih fun d hd => hf d (List.mem_cons_of_mem c hd)) fun _ _ => pure _

end Framed

/-! ## The steps of an expansion -/

section

variable {s : Surroundings} {tree' : FileTree} {W : List Path}

theorem framed_enclosingRoute? : Framed s tree' W enclosingRoute? :=
  .bind .get fun _ _ => .read_bind (.pure _) fun _ _ => rfl

/-- What a call does with a pages tree that it has read. -/
def registerPages (visit : Visit PageTree) : Expand PageTree := do
  onRegistry fun r => visit.visited.foldl (fun r page => r.registerRoute page.dir page.route) r
  let tree ← settle visit.result
  depend fun d => { d with pageStructure := true, registers := true }
  watch tree.root.dir
  return tree

theorem loadPages_eq (pattern base : String) :
    loadPages pattern base = read >>= fun s =>
      registerPages (PageTree.load s.tree (pageRequest s pattern base)) := rfl

theorem framed_registerPages (visit : Visit PageTree) :
    Framed s tree' W (registerPages visit) :=
  .bind (.onRegistry _) fun _ _ => .bind (.settle _) fun _ _ =>
    .bind (.depend fun _ => List.Subset.refl _) fun _ _ => .bind (.watch _) fun _ _ => .pure _

theorem watched_of_registerPages {visit : Visit PageTree} {x y : Expansion} {pages : PageTree}
    (h : perform (registerPages visit) s x = (.ok pages, y)) :
    visit.result = .ok pages ∧ pages.root.dir ∈ y.dependencies.watched := by
  obtain ⟨_, z, hregister, h⟩ := exists_of_perform_bind_ok h
  obtain ⟨tree, htree, h⟩ := exists_of_perform_settle_bind_ok h
  cases h
  exact ⟨htree, List.mem_append_right _ List.mem_cons_self⟩

/-- What an expansion that watches these directories has read off them is the same in another
file tree. -/
structure ReadAlike (t t' : FileTree) (W : List Path) : Prop where
  pages {req : PageRequest} {pages : PageTree} (hload : (PageTree.load t req).result = .ok pages)
    (hW : pages.pattern.target ∈ W) : PageTree.load t' req = PageTree.load t req
  resources {dir : Path} (hW : dir ∈ W) :
    ∀ p ∈ Translations.pageSearches dir, p.findResources t' = p.findResources t

theorem ReadAlike.of_agree {t t' : FileTree} (hsound : t.Sound) (hsound' : t'.Sound)
    (hagree : ∀ d ∈ W, t.AgreeBelow t' d) : ReadAlike t t' W where
  pages hload hW := by
    obtain ⟨entries, hpattern, -⟩ := PageTree.load_eq_ok hload
    exact PageTree.load_congr hsound hsound' hpattern (hagree _ hW)
  resources hW := by
    obtain ⟨home, hdir, hsame⟩ := (hagree _ hW).shared
    exact Translations.findResources_pageSearches hsound hsound' hdir hsame.resourcesAlike

section

variable (hread : ReadAlike s.tree tree' W)
include hread

theorem framed_loadPages (pattern base : String) : Framed s tree' W (loadPages pattern base) := by
  rw [loadPages_eq]
  refine .read_bind (framed_registerPages _) fun {x y pages} h hW => ?_
  obtain ⟨hload, hwatched⟩ := watched_of_registerPages h
  obtain ⟨entries, -, -, -, hvisit⟩ := PageTree.load_eq_ok hload
  have hdir : pages.root.dir = pages.pattern.target := by
    obtain ⟨-, _, -, -, hpage⟩ := PageTree.visit_eq_ok_iff.1 hvisit
    rw [hpage]
    rfl
  rw [hdir] at hwatched
  exact congrArg registerPages (hread.pages hload (hW hwatched))

theorem framed_loadRouteTranslations (pages : ImportPattern) (route : Route) :
    Framed s tree' W (loadRouteTranslations pages route) := by
  rw [loadRouteTranslations]
  cases route.translations with
  | none => exact .pure ()
  | some t =>
      obtain ⟨id, dir⟩ := t
      refine .read_bind ?_ fun {x y b} h hW => ?_
      · exact .bind (.settle _) fun _ _ => .bind (.onRegistry _) fun _ _ =>
          .bind (.emitting _) fun _ _ => .bind
            (.of_eq (fun _ => List.Subset.refl _) fun _ => rfl) fun _ _ => .watch dir
      · obtain ⟨translations, -, h⟩ := exists_of_perform_settle_bind_ok h
        have hwatched : dir ∈ y.dependencies.watched := by
          cases h
          exact List.mem_append_right _ List.mem_cons_self
        have hsame := Translations.ofPage_eq_of_findResources (hread.resources (hW hwatched)) id
          s.configuration.translations.languages
          fun path => (pages.specifierOf? path).getD (relativeSpecifier s.dir path)
        dsimp only [Surroundings.dir] at hsame ⊢
        rw [hsame]

theorem framed_loadRoutes (call : MacroCall) : Framed s tree' W (loadRoutes call) := by
  have hload : ∀ pattern base, Framed s tree' W (do
      let tree ← loadPages pattern base
      let route := Route.ofPage tree.root
      route.flatten.forM (loadRouteTranslations tree.pattern)
      emitting (route.emit (← read).configuration.pages.wrapper)) := by
    intro pattern base
    refine .bind (framed_loadPages hread pattern base) fun tree _ => ?_
    refine .bind (.forM _ fun route =>
      framed_loadRouteTranslations hread _ route) fun _ _ => ?_
    exact .read_bind (.emitting _) fun _ _ => rfl
  refine .bind (.settle _) fun pattern _ => .bind (.settle _) fun base? _ => ?_
  cases base? with
  | some base => exact .bind (.pure base) fun _ _ => hload _ _
  | none =>
      exact .bind framed_enclosingRoute? fun _ _ => .bind (.pure _) fun _ _ => hload _ _

theorem framed_loadMenus (call : MacroCall) : Framed s tree' W (loadMenus call) := by
  have hload : ∀ pattern base, Framed s tree' W (do
      let tree ← loadPages pattern base
      return Expression.array (← emitting (Menu.emitAll (Menu.ofPage tree.root)))) := by
    intro pattern base
    refine .bind (framed_loadPages hread pattern base) fun tree _ => ?_
    exact .bind (.emitting _) fun _ _ => .pure _
  refine .bind (.settle _) fun pattern _ => .bind (.settle _) fun base? _ => ?_
  cases base? with
  | some base => exact .bind (.pure base) fun _ _ => hload _ _
  | none =>
      refine .bind framed_enclosingRoute? fun route? _ => ?_
      cases route? with
      | some base => exact .bind (.pure base) fun _ _ => hload _ _
      | none =>
          refine .read_bind ?_ fun _ _ => rfl
          exact .bind (.throw _) fun _ _ => hload _ _

end

theorem framed_resolveRoute (call : MacroCall) : Framed s tree' W (resolveRoute call) := by
  refine .bind (.settle _) fun _ _ => .bind (.depend fun _ => List.Subset.refl _) fun _ _ => ?_
  refine .bind .get fun _ _ => .read_bind ?_ fun _ _ => rfl
  exact .bind (.settle _) fun _ _ => .bind (.settle _) fun _ _ => .pure _

theorem framed_translationPattern (call : MacroCall) :
    Framed s tree' W (translationPattern call) :=
  .of_eq (fun x => by rw [perform_translationPattern]; exact List.Subset.refl _) fun x => by
    rw [perform_translationPattern, perform_translationPattern]
    rfl

theorem framed_translationDirectory (call : MacroCall) :
    Framed s tree' W (translationDirectory call) :=
  .of_eq (fun x => by rw [perform_translationDirectory]; exact List.Subset.refl _) fun x => by
    rw [perform_translationDirectory, perform_translationDirectory]
    rfl

theorem framed_loadTranslations {call : MacroCall} (hcallee : call.callee = .loadTranslations)
    (hfound : ∀ p ∈ searches s call, p.findResources tree' = p.findResources s.tree) :
    Framed s tree' W (loadTranslations call) := by
  refine .bind (framed_translationPattern call) fun pattern ⟨x, y, hrun⟩ => ?_
  rw [perform_translationPattern] at hrun
  obtain ⟨hpattern, rfl⟩ := Prod.mk.inj hrun
  refine .bind (framed_translationDirectory call) fun directory ⟨x', y, hrun⟩ => ?_
  rw [perform_translationDirectory] at hrun
  obtain ⟨hdirectory, rfl⟩ := Prod.mk.inj hrun
  refine .read_bind ?_ fun {x y b} h hW => ?_
  · exact .bind (.settle _) fun _ _ => .bind (.onRegistry _) fun _ _ =>
      .bind (.depend fun _ => List.Subset.refl _) fun _ _ => .bind (.watch _) fun _ _ =>
        .emitting _
  · obtain ⟨translations, hresult, -⟩ := exists_of_perform_settle_bind_ok h
    obtain ⟨p, hp, -⟩ := exists_of_bind_eq_ok hresult
    have hsearch : p ∈ searches s call := by
      rw [searches, hcallee]
      simp [searchFor, hpattern, hdirectory, bind, Except.bind, hp, Except.toOption]
    have hsame := Translations.find_eq_of_findResources hp (hfound p hsearch)
    dsimp only [Surroundings.dir] at hsame ⊢
    rw [hsame]

theorem framed_namespacesFor (call : MacroCall) : Framed s tree' W (namespacesFor call) := by
  have hresolve : Framed s tree' W (do
      depend fun d => { d with namespaces := true }
      let s ← read
      settle (NamespaceRef.resolve (← get).registry s.file s.root
        s.configuration.translations.globalNamespaces)) := by
    refine .bind (.depend fun _ => List.Subset.refl _) fun _ _ => ?_
    exact .read_bind (.bind .get fun _ _ => .settle _) fun _ _ => rfl
  rw [namespacesFor]
  split
  · exact hresolve
  · exact .bind (.throw _) fun _ _ => hresolve

/-- Is it a call for a pages tree? -/
def loadsPages (call : MacroCall) : Bool :=
  (notedBy call.callee).pageStructure && (notedBy call.callee).registers

theorem framed_expand {call : MacroCall}
    (hread : loadsPages call = true → ReadAlike s.tree tree' W)
    (hfound : ∀ p ∈ searches s call, p.findResources tree' = p.findResources s.tree) :
    Framed s tree' W (expand call) := by
  rw [loadsPages] at hread
  rw [expand]
  split
  · next hcallee => exact framed_loadRoutes (hread (by rw [hcallee]; rfl)) call
  · next hcallee => exact framed_loadMenus (hread (by rw [hcallee]; rfl)) call
  · exact framed_resolveRoute call
  · next hcallee => exact framed_loadTranslations hcallee hfound
  · exact .bind (framed_namespacesFor call) fun _ _ => .read_bind (.emitting _) fun _ _ => rfl
  · exact .bind (framed_namespacesFor call) fun _ _ => .read_bind (.emitting _) fun _ _ => rfl
  · exact .bind (framed_namespacesFor call) fun _ _ => .pure _

theorem framed_expandCall_of_read (text : String) {call : MacroCall}
    (hread : loadsPages call = true → ReadAlike s.tree tree' W)
    (hfound : ∀ p ∈ searches s call, p.findResources tree' = p.findResources s.tree) :
    Framed s tree' W (expandCall text call) :=
  .bind (framed_expand hread hfound) fun _ _ => .pure _

/-- A call whose searches stay in watched directories, where the file trees agree. -/
theorem framed_expandCall (hsound : s.tree.Sound) (hsound' : tree'.Sound)
    (hagree : ∀ d ∈ W, s.tree.AgreeBelow tree' d) (text : String) {call : MacroCall}
    (hstays : ∀ p ∈ searches s call, ∃ d ∈ W, p.staysIn d = true) :
    Framed s tree' W (expandCall text call) := by
  refine framed_expandCall_of_read text (fun _ => .of_agree hsound hsound' hagree) fun p hp => ?_
  obtain ⟨dir, hdir, hin⟩ := hstays p hp
  have hsame := (ImportPattern.findFiles_congr hsound hsound' hin (hagree dir hdir)).1
  rw [ImportPattern.findResources, ImportPattern.findResources, hsame]

end

/-! ## A module in another file tree -/

theorem exists_of_expandModule_some {s : Surroundings} {r : Registry} {text : String}
    {m : ExpandedModule} (h : (expandModule s r text).2 = .ok (some m)) :
    ∃ tree calls, analyze s.configuration s.file text = .ok (some (tree, calls)) := by
  rcases hcalls : analyze s.configuration s.file text with e | _ | ⟨tree, calls⟩
  · rw [expandModule_of_error r hcalls] at h
    cases h
  · rw [expandModule_of_none r hcalls] at h
    cases h
  · exact ⟨tree, calls, rfl⟩

theorem moduleSearches_eq {s : Surroundings} {text : String} {tree : Node}
    {calls : List MacroCall} (h : analyze s.configuration s.file text = .ok (some (tree, calls))) :
    moduleSearches s text = calls.flatMap (searches s) := by
  rw [moduleSearches, h]

/-- A module is the same in another file tree if its calls are, as long as they watch what
they have watched. -/
theorem expandModule_eq_of_framed {s : Surroundings} {r : Registry} {text : String}
    {m : ExpandedModule} {tree' : FileTree} {tree : Node} {calls : List MacroCall}
    (hcalls : analyze s.configuration s.file text = .ok (some (tree, calls)))
    (h : (expandModule s r text).2 = .ok (some m))
    (hframed : Framed s tree' m.dependencies.watched (calls.mapM (expandCall text))) :
    expandModule { s with tree := tree' } r text = expandModule s r text := by
  have hcalls' : analyze { s with tree := tree' }.configuration { s with tree := tree' }.file text =
      .ok (some (tree, calls)) := hcalls
  rw [expandModule_eq_opening hcalls] at h
  rw [expandModule_eq_opening hcalls, expandModule_eq_opening hcalls']
  dsimp only at h ⊢
  rcases hrun : perform (calls.mapM (expandCall text)) s (opening s tree r) with ⟨e | edits, y⟩
  · rw [perform_expandCalls_error _ _ hrun] at h
    cases h
  · rw [perform_expandCalls_ok _ _ hrun] at h ⊢
    have hm : ofEdits text _ _ edits y = m := Option.some.inj (Except.ok.inj h)
    have hwatched : y.dependencies.watched ⊆ m.dependencies.watched := by
      rw [← hm]
      exact List.Subset.refl _
    have hsame : perform (calls.mapM (expandCall text)) { s with tree := tree' }
        (opening { s with tree := tree' } tree r) = (.ok edits, y) := hframed.same hrun hwatched
    rw [perform_expandCalls_ok _ _ hsame]

/-- A module comes to the same in another file tree if its searches find the same there, and
if, in case it reads pages trees, it reads the same off what it watches. -/
theorem expandModule_eq_of_read {s : Surroundings} {r : Registry} {text : String}
    {m : ExpandedModule} {tree' : FileTree} (h : (expandModule s r text).2 = .ok (some m))
    (hread : m.dependencies.pageStructure = true →
      ReadAlike s.tree tree' m.dependencies.watched)
    (hfound : ∀ p ∈ moduleSearches s text, p.findResources tree' = p.findResources s.tree) :
    expandModule { s with tree := tree' } r text = expandModule s r text := by
  obtain ⟨tree, calls, hcalls⟩ := exists_of_expandModule_some h
  rw [moduleSearches_eq hcalls] at hfound
  refine expandModule_eq_of_framed hcalls h (.mapM fun call hcall => ?_)
  refine framed_expandCall_of_read text (fun hloads => hread ?_) fun p hp =>
    hfound p (List.mem_flatMap.2 ⟨call, hcall, hp⟩)
  exact (noted_of_expandModule hcalls h hcall).pageStructure (Bool.and_eq_true_iff.1 hloads).1

/-- A module whose searches stay in directories that it watches is the same in every file
tree that agrees on these directories, and what its searches find is in one of them. -/
theorem expandModule_eq_of_agree {s : Surroundings} {r : Registry} {text : String}
    {m : ExpandedModule} {tree' : FileTree} (hsound : s.tree.Sound) (hsound' : tree'.Sound)
    (h : (expandModule s r text).2 = .ok (some m))
    (hstays : ∀ p ∈ moduleSearches s text,
      ∃ dir ∈ m.dependencies.watched, p.staysIn dir = true)
    (hagree : ∀ dir ∈ m.dependencies.watched, s.tree.AgreeBelow tree' dir) :
    expandModule { s with tree := tree' } r text = expandModule s r text ∧
      ∀ p ∈ moduleSearches s text, ∀ files, p.findFiles s.tree = .ok files →
        ∀ q ∈ files, m.dependencies.watches q = true := by
  constructor
  · obtain ⟨tree, calls, hcalls⟩ := exists_of_expandModule_some h
    rw [moduleSearches_eq hcalls] at hstays
    refine expandModule_eq_of_framed hcalls h (.mapM fun call hcall => ?_)
    refine framed_expandCall hsound hsound' hagree text fun p hp => ?_
    exact hstays p (List.mem_flatMap.2 ⟨call, hcall, hp⟩)
  · intro p hp files hfiles q hq
    obtain ⟨dir, hdir, hin⟩ := hstays p hp
    obtain ⟨-, hfound⟩ := ImportPattern.findFiles_congr hsound hsound' hin (hagree dir hdir)
    exact List.any_eq_true.2 ⟨dir, hdir, hfound files hfiles q hq⟩

/-- A module beside a directory of translations, in a project that has this besides. -/
def localesModule (locales : List String) (others : List (String × FileTree)) : Surroundings where
  tree := .dir [("src", .dir (("app", .dir [("m.ts", .file "")]) ::
    ("locales", .dir (locales.map fun name => (name, .file ""))) :: others))]
  configuration := {}
  root := ⟨"/"⟩
  file := ⟨"/src/app/m.ts"⟩

theorem exists_of_join_any {result : Except MacroError (Option ExpandedModule)}
    {p : ExpandedModule → Bool} (h : result.toOption.join.any p = true) :
    ∃ m, result = .ok (some m) ∧ p m = true := by
  rcases result with e | _ | m
  · cases h
  · cases h
  · exact ⟨m, rfl, h⟩

/-- A search that is seen from the directory that it goes to: it does not matter what else
there is in the project, nor in which order the directory is listed. -/
theorem expandModule_keeps_locales :
    let s := localesModule ["de.yaml", "en.yaml"] []
    let tree' := (localesModule ["en.yaml", "de.yaml"]
      [("more", .dir [("zh.yaml", .file "")])]).tree
    let text := "import\x7bloadI18n as t\x7dfrom\"i18n.macro\"\nt(\"./*.yaml\",\"../locales\")"
    ∃ m, (expandModule s {} text).2 = .ok (some m) ∧
      m.dependencies.watched = [⟨"/src/locales"⟩] ∧ (moduleSearches s text).length = 1 ∧
      expandModule { s with tree := tree' } {} text = expandModule s {} text := by
  intro s tree' text
  have hrun : ((expandModule s {} text).2.toOption.join.any fun m =>
      m.dependencies.watched == [⟨"/src/locales"⟩]) = true := by
    decide +kernel
  obtain ⟨m, hm, hwatched⟩ := exists_of_join_any hrun
  rw [beq_iff_eq] at hwatched
  refine ⟨m, hm, hwatched, by decide +kernel, ?_⟩
  refine (expandModule_eq_of_agree (by decide +kernel) (by decide +kernel) hm ?_ ?_).1
  · rw [hwatched]
    decide +kernel
  · rw [hwatched, List.forall_mem_singleton]
    refine ⟨_, _, rfl, rfl, FileTree.alike_of_perm (by decide) ?_⟩
    exact List.Perm.swap _ _ _

/-- A search that leaves the directory that it is seen from: the module watches only the
latter, and the first translation that is added changes it all the same. -/
theorem expandModule_misses_locale :
    let s := localesModule [] []
    let tree' := (localesModule ["en.yaml"] []).tree
    let text := "import\x7bloadI18n as t\x7dfrom\"i18n.macro\"\nt(\"../locales/*.yaml\")"
    s.tree.Sound ∧ tree'.Sound ∧ ∃ m m', (expandModule s {} text).2 = .ok (some m) ∧
      (expandModule { s with tree := tree' } {} text).2 = .ok (some m') ∧
      (∀ dir ∈ m.dependencies.watched, s.tree.AgreeBelow tree' dir) ∧ m'.code ≠ m.code := by
  intro s tree' text
  refine ⟨by decide +kernel, by decide +kernel, ?_⟩
  have hrun : ((expandModule s {} text).2.toOption.join.any fun m =>
      (expandModule { s with tree := tree' } {} text).2.toOption.join.any fun m' =>
        m.dependencies.watched == [⟨"/src/app"⟩] && m'.code != m.code) = true := by
    decide +kernel
  obtain ⟨m, hm, hrun⟩ := exists_of_join_any hrun
  obtain ⟨m', hm', hrun⟩ := exists_of_join_any hrun
  obtain ⟨hwatched, hcode⟩ := Bool.and_eq_true_iff.1 hrun
  refine ⟨m, m', hm, hm', ?_, bne_iff_ne.1 hcode⟩
  rw [beq_iff_eq.1 hwatched, List.forall_mem_singleton]
  exact ⟨_, _, rfl, rfl, fun _ => rfl⟩

end Expansion

end SiteMacros
