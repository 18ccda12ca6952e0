import SiteMacros.Proofs.PageTree
import SiteMacros.Proofs.Perform

/-!
# What a call can register

The entries that a call registers are settled by the call and the file tree
alone: the directories of the pages it loads, the namespaces of their
translations, or the one namespace of a directory. The registry has no part in
it. A route that is found there becomes the base of a pages tree, and no entry
depends on a base.

So each call has a list of entries (`registrable`). It registers no others, and
all of them if it succeeds (`registers_expand`); and the list is short, since a
directory of the file tree accounts for two entries at most
(`length_registrable_le`).
-/

namespace SiteMacros.Expansion

open Script

/-- How a module asks for a pages tree. -/
def pageRequest (s : Surroundings) (pattern base : String) : PageRequest where
  pattern := pattern
  base := base
  root := s.root
  importer := s.dir
  allowNoMeta := s.configuration.pages.allowNoMeta

/-- The entries for the directories of a pages tree. -/
def pageEntries (s : Surroundings) (pattern : String) : List Entry :=
  (PageTree.load s.tree (pageRequest s pattern "")).visited.map fun p => .route p.dir.components

/-- The entries for the translations of a pages tree, if it is complete. -/
def translationEntries (s : Surroundings) (pattern : String) : List Entry :=
  match (PageTree.load s.tree (pageRequest s pattern "")).result with
  | .ok tree => (Route.ofPage tree.root).translated.map fun t => .loaded t.1
  | .error _ => []

/-- The directory that a call's translations are in. -/
def directoryFor (s : Surroundings) (call : MacroCall) : Except MacroError Path := do
  match ← literal? call 1 with
  | some pattern => return (← ImportPattern.resolve pattern s.dir s.root).target
  | none => return s.dir

/-- The entries that a call registers if it succeeds. -/
def registrable (s : Surroundings) (call : MacroCall) : List Entry :=
  match call.callee with
  | .loadRoutes =>
      match literal call 0 "a pages directory" with
      | .ok pattern => pageEntries s pattern ++ translationEntries s pattern
      | .error _ => []
  | .loadMenus =>
      match literal call 0 "a pages directory" with
      | .ok pattern => pageEntries s pattern
      | .error _ => []
  | .loadTranslations =>
      match directoryFor s call with
      | .ok dir => [.loaded (Namespace.ofDirectory dir s.root)]
      | .error _ => []
  | _ => []

/-! ## Pages -/

theorem load_visited_entries (s : Surroundings) (pattern base : String) :
    ((PageTree.load s.tree (pageRequest s pattern base)).visited.map fun p =>
      Entry.route p.dir.components) = pageEntries s pattern := by
  have h := (PageTree.load_bare s.tree (pageRequest s pattern "")
    (pageRequest s pattern base) rfl rfl rfl rfl).1
  have hbare : ∀ ps : List Page, (ps.map fun p => Entry.route p.dir.components) =
      (ps.map Page.bare).map fun p => Entry.route p.dir.components := by
    intro ps
    rw [List.map_map]
    refine List.map_congr_left fun p _ => ?_
    exact (congrArg (fun d : Path => Entry.route d.components) p.bare_dir).symm
  rw [pageEntries, hbare, h, ← hbare]

theorem load_translated_entries {s : Surroundings} {pattern base : String} {tree : PageTree}
    (h : (PageTree.load s.tree (pageRequest s pattern base)).result = .ok tree) :
    ((Route.ofPage tree.root).translated.map fun t => Entry.loaded t.1) =
      translationEntries s pattern := by
  have hload := (PageTree.load_bare s.tree (pageRequest s pattern "")
    (pageRequest s pattern base) rfl rfl rfl rfl).2
  rw [h] at hload
  rw [translationEntries]
  cases hres : (PageTree.load s.tree (pageRequest s pattern "")).result with
  | error e =>
      rw [hres] at hload
      exact nomatch hload
  | ok tree' =>
      rw [hres] at hload
      have hroot : tree.root.bare = tree'.root.bare := Except.ok.inj hload
      rw [← Route.translated_bare, hroot, Route.translated_bare]

theorem registers_loadPages (s : Surroundings) (pattern base : String) :
    Registers s (pageEntries s pattern)
      (fun tree => (PageTree.load s.tree (pageRequest s pattern base)).result = .ok tree)
      (loadPages pattern base) := by
  refine .still_bind .read fun _ hs => ?_
  subst hs
  have hregister : ∀ r : Registry,
      (PageTree.load s.tree (pageRequest s pattern base)).visited.foldl
        (fun r page => r.registerRoute page.dir page.route) r =
      r.registerAll ((PageTree.load s.tree (pageRequest s pattern base)).visited.map
        fun page => .route page.dir page.route) := by
    intro r
    rw [Registry.registerAll, List.foldl_map]
    rfl
  have hentries := load_visited_entries s pattern base
  refine .bind_still (P := fun _ => True) ?_ fun _ _ => ?_
  · rw [← hentries]
    have h := Registers.onRegistry (s := s) _ hregister
    rwa [List.map_map] at h
  · refine .still_bind (.settle _) fun tree htree => ?_
    refine .still_bind (.depend _) fun _ _ => ?_
    exact .still_bind (.watch _) fun _ _ => .pure htree

/-- The namespace of a page's translations is the page's id, whatever is in the
directory. -/
theorem id_of_ofPage {tree : FileTree} {id : String} {dir : Path} {languages : Option (List String)}
    {specifierOf : Path → String} {t : Translations}
    (h : Translations.ofPage tree id dir languages specifierOf = .ok t) : t.id = id := by
  obtain ⟨found, -, h⟩ := exists_of_bind_eq_ok h
  rw [← Except.ok.inj h]

theorem registers_loadRouteTranslations (s : Surroundings) (pages : ImportPattern)
    (route : Route) :
    Registers s (route.translations.toList.map fun t => .loaded t.1) (fun _ => True)
      (loadRouteTranslations pages route) := by
  rw [loadRouteTranslations]
  cases route.translations with
  | none => exact .pure trivial
  | some t =>
      obtain ⟨id, dir⟩ := t
      refine .still_bind .read fun _ hs => ?_
      subst hs
      refine .still_bind (.settle _) fun translations htranslations => ?_
      have hid := id_of_ofPage htranslations
      refine .bind_still (P := fun _ => True) ?_ fun _ _ => ?_
      · rw [← hid]
        exact .onRegistry [.loaded translations.id] fun _ => rfl
      · refine .still_bind (.emitting _) fun registration _ => ?_
        exact .still_bind (.of_still (fun _ => rfl) fun _ _ _ _ => trivial) fun _ _ => .watch _

theorem flatMap_translations (routes : List Route) :
    (routes.flatMap fun r => r.translations.toList.map fun t => Entry.loaded t.1) =
      (routes.filterMap (·.translations)).map fun t => .loaded t.1 := by
  induction routes with
  | nil => rfl
  | cons r routes ih =>
      rw [List.flatMap_cons, ih, List.filterMap_cons]
      cases r.translations <;> rfl

/-! ## Calls -/

theorem registers_enclosingRoute? (s : Surroundings) :
    Registers s [] (fun _ => True) enclosingRoute? :=
  .still_bind .get fun _ _ => .still_bind .read fun _ _ => .pure trivial

theorem registers_loadRoutes (s : Surroundings) {call : MacroCall}
    (hcallee : call.callee = .loadRoutes) :
    Registers s (registrable s call) (fun _ => True) (loadRoutes call) := by
  refine .still_bind (.settle _) fun pattern hpattern => ?_
  rw [registrable, hcallee]
  dsimp only
  rw [hpattern]
  dsimp only
  refine .still_bind (.settle _) fun base? _ => ?_
  -- the base is given, found or the root's; the entries are the same
  have hload : ∀ base, Registers s (pageEntries s pattern ++ translationEntries s pattern)
      (fun _ => True) (do
        let tree ← loadPages pattern base
        let route := Route.ofPage tree.root
        route.flatten.forM (loadRouteTranslations tree.pattern)
        emitting (route.emit (← read).configuration.pages.wrapper)) := by
    intro base
    refine .bind (registers_loadPages s pattern base) fun tree htree => ?_
    refine .bind_still (P := fun _ => True) ?_ fun _ _ => ?_
    · rw [← load_translated_entries htree, Route.translated, ← flatMap_translations]
      exact .forM _ fun route _ => registers_loadRouteTranslations s tree.pattern route
    · exact .still_bind .read fun _ _ => .emitting _
  cases base? with
  | some base => exact .still_bind (.pure (P := fun _ => True) trivial) fun _ _ => hload _
  | none =>
      refine .still_bind (registers_enclosingRoute? s) fun _ _ => ?_
      exact .still_bind (.pure (P := fun _ => True) trivial) fun _ _ => hload _

theorem registers_loadMenus (s : Surroundings) {call : MacroCall}
    (hcallee : call.callee = .loadMenus) :
    Registers s (registrable s call) (fun _ => True) (loadMenus call) := by
  refine .still_bind (.settle _) fun pattern hpattern => ?_
  rw [registrable, hcallee]
  dsimp only
  rw [hpattern]
  dsimp only
  refine .still_bind (.settle _) fun base? _ => ?_
  have hload : ∀ base, Registers s (pageEntries s pattern) (fun _ => True) (do
      let tree ← loadPages pattern base
      return Expression.array (← emitting (Menu.emitAll (Menu.ofPage tree.root)))) := by
    intro base
    refine .bind_still (registers_loadPages s pattern base) fun tree _ => ?_
    exact .still_bind (.emitting _) fun _ _ => .pure trivial
  cases base? with
  | some base => exact .still_bind (.pure (P := fun _ => True) trivial) fun _ _ => hload _
  | none =>
      refine .still_bind (registers_enclosingRoute? s) fun route? _ => ?_
      cases route? with
      | some base => exact .still_bind (.pure (P := fun _ => True) trivial) fun _ _ => hload _
      | none =>
          refine .still_bind .read fun _ _ => ?_
          exact .still_bind (.throw (P := fun _ => True) _) fun _ _ => hload _

theorem registers_resolveRoute (s : Surroundings) (call : MacroCall) :
    Registers s [] (fun _ => True) (resolveRoute call) := by
  refine .still_bind (.settle _) fun _ _ => ?_
  refine .still_bind (.depend _) fun _ _ => ?_
  refine .still_bind .get fun _ _ => .still_bind .read fun _ _ => ?_
  refine .still_bind (.settle _) fun _ _ => .still_bind (.settle _) fun _ _ => ?_
  exact .pure trivial

theorem registers_translationPattern (s : Surroundings) (call : MacroCall) :
    Registers s [] (fun _ => True) (translationPattern call) := by
  refine .still_bind (.settle _) fun given? _ => ?_
  cases given? with
  | some pattern => exact .pure trivial
  | none =>
      refine .still_bind .read fun s' _ => ?_
      cases s'.configuration.translations.defaultGlob with
      | some pattern => exact .pure trivial
      | none => exact .throw _

theorem registers_translationDirectory (s : Surroundings) (call : MacroCall) :
    Registers s [] (fun dir => directoryFor s call = .ok dir) (translationDirectory call) := by
  refine .still_bind .read fun _ hs => ?_
  subst hs
  refine .still_bind (.settle _) fun given? hgiven => ?_
  rw [directoryFor, hgiven]
  cases given? with
  | some pattern =>
      refine .still_bind (.settle _) fun found hfound => .pure ?_
      change (ImportPattern.resolve pattern s.dir s.root >>= fun found => pure found.target) = _
      rw [hfound]
      rfl
  | none => exact .pure rfl

theorem find_id {tree : FileTree} {req : Translations.Request} {t : Translations}
    (h : Translations.find tree req = .ok t) :
    t.id = Namespace.ofDirectory req.directory req.root := by
  obtain ⟨pattern, -, h⟩ := exists_of_bind_eq_ok h
  obtain ⟨files, -, h⟩ := exists_of_bind_eq_ok h
  rw [← Except.ok.inj h]

theorem registers_loadTranslations (s : Surroundings) {call : MacroCall}
    (hcallee : call.callee = .loadTranslations) :
    Registers s (registrable s call) (fun _ => True) (loadTranslations call) := by
  refine .still_bind (registers_translationPattern s call) fun pattern _ => ?_
  refine .still_bind (registers_translationDirectory s call) fun dir hdir => ?_
  rw [registrable, hcallee]
  dsimp only
  rw [hdir]
  dsimp only
  refine .still_bind .read fun _ hs => ?_
  subst hs
  refine .still_bind (.settle _) fun translations htranslations => ?_
  have hid := find_id htranslations
  dsimp only at hid
  refine .bind_still (P := fun _ => True) ?_ fun _ _ => ?_
  · rw [← hid]
    exact .onRegistry [.loaded translations.id] fun _ => rfl
  · refine .still_bind (.depend _) fun _ _ => ?_
    exact .still_bind (.watch _) fun _ _ => .emitting _

theorem registers_namespacesFor (s : Surroundings) (call : MacroCall) :
    Registers s [] (fun _ => True) (namespacesFor call) := by
  have hresolve : Registers s [] (fun _ => True) (do
      depend fun d => { d with namespaces := true }
      let s ← read
      settle (NamespaceRef.resolve (← get).registry s.file s.root
        s.configuration.translations.globalNamespaces)) := by
    refine .still_bind (.depend _) fun _ _ => .still_bind .read fun _ _ => ?_
    refine .still_bind .get fun _ _ => ?_
    exact .mono (.settle _) (fun _ => Iff.rfl) fun _ _ => trivial
  rw [namespacesFor]
  dsimp only
  split
  · exact hresolve
  · exact .still_bind (.throw (P := fun _ => True) _) fun _ _ => hresolve

/-- A call registers what it can register if it succeeds, and nothing else in any
case. -/
theorem registers_expand (s : Surroundings) (call : MacroCall) :
    Registers s (registrable s call) (fun _ => True) (expand call) := by
  rw [expand]
  cases hcallee : call.callee with
  | loadRoutes => exact registers_loadRoutes s hcallee
  | loadMenus => exact registers_loadMenus s hcallee
  | loadTranslations => exact registers_loadTranslations s hcallee
  | resolveRoute =>
      rw [registrable, hcallee]
      exact registers_resolveRoute s call
  | useTranslations =>
      rw [registrable, hcallee]
      refine .still_bind (registers_namespacesFor s call) fun _ _ => ?_
      exact .still_bind .read fun _ _ => .emitting _
  | getTranslations =>
      rw [registrable, hcallee]
      refine .still_bind (registers_namespacesFor s call) fun _ _ => ?_
      exact .still_bind .read fun _ _ => .emitting _
  | resolveNamespace =>
      rw [registrable, hcallee]
      exact .still_bind (registers_namespacesFor s call) fun _ _ => .pure trivial

/-! ## How much a call can register -/

theorem child?_nodeCount_le {t c : FileTree} {name : String} (h : t.child? name = some c) :
    c.nodeCount ≤ t.nodeCount := by
  have hlookup : ∀ es : List (String × FileTree), es.lookup name = some c →
      c.nodeCount ≤ FileTree.entryCount es := by
    intro es
    induction es with
    | nil => exact fun h => nomatch h
    | cons e es ih =>
        obtain ⟨n, node⟩ := e
        intro h
        rw [FileTree.entryCount]
        rw [List.lookup_cons] at h
        split at h
        · cases h
          omega
        · have hrest := ih h
          omega
  cases t with
  | file text => exact nomatch h
  | dir es =>
      have hentry := hlookup es h
      rw [FileTree.nodeCount]
      omega

theorem get?_nodeCount_le {t c : FileTree} {address : List String} (h : t.get? address = some c) :
    c.nodeCount ≤ t.nodeCount := by
  induction address generalizing t with
  | nil =>
      cases h
      exact Nat.le_refl _
  | cons n ns ih =>
      rw [FileTree.get?] at h
      split at h
      · next child hchild =>
          have hbelow := ih h
          have hnode := child?_nodeCount_le hchild
          omega
      · cases h

theorem find_nodeCount_le {t c : FileTree} {p : Path} (h : t.find p = .ok c) :
    c.nodeCount ≤ t.nodeCount := by
  obtain ⟨address, -, h⟩ := exists_of_bind_eq_ok h
  split at h
  · next node hnode =>
      cases h
      exact get?_nodeCount_le hnode
  · exact nomatch h

/-- A pages tree takes up a part of the file tree. -/
theorem length_load_le (tree : FileTree) (req : PageRequest) :
    (PageTree.load tree req).visited.length ≤ tree.nodeCount ∧
      ∀ pages, (PageTree.load tree req).result = .ok pages →
        (Route.ofPage pages.root).translated.length ≤ tree.nodeCount := by
  rw [PageTree.load]
  split
  · exact ⟨Nat.zero_le _, fun _ h => by cases h⟩
  · next pattern _ =>
      split
      · next entries hfind =>
          have hpart := find_nodeCount_le hfind
          have hvisited := PageTree.length_visited_le req pattern
            (PageTree.rootFrame req pattern.target) (.dir entries)
          dsimp only
          refine ⟨by omega, fun pages h => ?_⟩
          cases hroot : (PageTree.visit req pattern (PageTree.rootFrame req pattern.target)
              (.dir entries)).result with
          | error e =>
              rw [hroot] at h
              cases h
          | ok root =>
              rw [hroot] at h
              cases h
              have htranslated := PageTree.length_translated_le req pattern
                (PageTree.rootFrame req pattern.target) (.dir entries) root hroot
              dsimp only
              omega
      · exact ⟨Nat.zero_le _, fun _ h => by cases h⟩

theorem length_pageEntries_le (s : Surroundings) (pattern : String) :
    (pageEntries s pattern).length ≤ s.tree.nodeCount := by
  rw [pageEntries, List.length_map]
  exact (length_load_le s.tree _).1

theorem length_translationEntries_le (s : Surroundings) (pattern : String) :
    (translationEntries s pattern).length ≤ s.tree.nodeCount := by
  rw [translationEntries]
  split
  · next tree htree =>
      rw [List.length_map]
      exact (length_load_le s.tree _).2 tree htree
  · exact Nat.zero_le _

theorem length_registrable_le (s : Surroundings) (call : MacroCall) :
    (registrable s call).length ≤ 2 * s.tree.nodeCount + 1 := by
  rw [registrable]
  split
  · split
    · next pattern _ =>
        have hpages := length_pageEntries_le s pattern
        have htranslations := length_translationEntries_le s pattern
        rw [List.length_append]
        omega
    · exact Nat.zero_le _
  · split
    · next pattern _ =>
        have hpages := length_pageEntries_le s pattern
        omega
    · exact Nat.zero_le _
  · split
    · exact Nat.le_add_left _ _
    · exact Nat.zero_le _
  · exact Nat.zero_le _

/-! ## Modules -/

/-- The entries that a module registers if it is expanded. -/
def moduleEntries (s : Surroundings) (text : String) : List Entry :=
  match analyze s.configuration s.file text with
  | .ok (some (_, calls)) => calls.flatMap (registrable s)
  | _ => []

theorem registers_expandCall (s : Surroundings) (text : String) (call : MacroCall) :
    Registers s (registrable s call) (fun _ => True) (expandCall text call) :=
  .bind_still (registers_expand s call) fun _ _ => .pure trivial

theorem registers_mapM_expandCall (s : Surroundings) (text : String) (calls : List MacroCall) :
    Registers s (calls.flatMap (registrable s)) (fun _ => True)
      (calls.mapM (expandCall text)) := by
  induction calls with
  | nil => exact .pure trivial
  | cons call calls ih =>
      rw [List.mapM_cons, List.flatMap_cons]
      refine .bind (registers_expandCall s text call) fun _ _ => ?_
      exact .bind_still ih fun _ _ => .pure trivial

theorem registers_expandCalls (s : Surroundings) (text : String)
    (ds macroImports : List ImportDeclaration) (calls : List MacroCall) :
    Registers s (calls.flatMap (registrable s)) (fun _ => True)
      (expandCalls text ds macroImports calls) :=
  .bind_still (registers_mapM_expandCall s text calls) fun _ _ =>
    .still_bind .get fun _ _ => .pure trivial

/-- The module that comes of the edits of its calls. -/
def ofEdits (text : String) (ds macroImports : List ImportDeclaration) (edits : List Edit)
    (y : Expansion) : ExpandedModule where
  code := Edit.applyAll text
    (edits ++ macroImports.map (removal text) ++ insertion text ds y.header)
  dependencies := y.dependencies

theorem perform_expandCalls_ok {s : Surroundings} {text : String}
    (ds macroImports : List ImportDeclaration) {calls : List MacroCall} {x y : Expansion}
    {edits : List Edit} (h : perform (calls.mapM (expandCall text)) s x = (.ok edits, y)) :
    perform (expandCalls text ds macroImports calls) s x =
      (.ok (ofEdits text ds macroImports edits y), y) := by
  show perform (calls.mapM (expandCall text) >>= _) s x = _
  rw [perform_bind_ok s x h, perform_get_bind]
  rfl

theorem perform_expandCalls_error {s : Surroundings} {text : String}
    (ds macroImports : List ImportDeclaration) {calls : List MacroCall} {x y : Expansion}
    {e : MacroError} (h : perform (calls.mapM (expandCall text)) s x = (.error e, y)) :
    perform (expandCalls text ds macroImports calls) s x = (.error e, y) := by
  show perform (calls.mapM (expandCall text) >>= _) s x = _
  rw [perform_bind_error s x h]

theorem expandModule_of_error {s : Surroundings} {text : String} {e : MacroError} (r : Registry)
    (h : analyze s.configuration s.file text = .error e) :
    expandModule s r text = (r, .error e) := by
  unfold expandModule
  rw [h]

theorem expandModule_of_none {s : Surroundings} {text : String} (r : Registry)
    (h : analyze s.configuration s.file text = .ok none) :
    expandModule s r text = (r, .ok none) := by
  unfold expandModule
  rw [h]

/-- A module with calls is expanded call by call. -/
theorem expandModule_eq {s : Surroundings} {text : String} {tree : Node} {calls : List MacroCall}
    (h : analyze s.configuration s.file text = .ok (some (tree, calls))) (r : Registry) :
    expandModule s r text =
      let ds := imports tree
      let macroImports := ds.filter s.configuration.macroSources.isMacroImport
      let kept := ds.filter (!s.configuration.macroSources.isMacroImport ·)
      let run := perform (expandCalls text ds macroImports calls) s
        { registry := r, scope := .ofModule (identifiers tree) kept }
      (run.2.registry, run.1.map some) := by
  unfold expandModule
  rw [h]
  dsimp only
  rw [List.partition_eq_filter_filter]
  rfl

theorem expandModule_of_calls {s : Surroundings} {text : String} {tree : Node}
    {calls : List MacroCall}
    (h : analyze s.configuration s.file text = .ok (some (tree, calls))) :
    ∃ ds macroImports scope, ∀ r,
      expandModule s r text =
        let run := perform (expandCalls text ds macroImports calls) s { registry := r, scope }
        (run.2.registry, run.1.map some) :=
  ⟨_, _, _, expandModule_eq h⟩

theorem expandModule_grows (s : Surroundings) (r : Registry) (text : String) :
    r.Grows (moduleEntries s text) (expandModule s r text).1 := by
  rw [moduleEntries]
  rcases hcalls : analyze s.configuration s.file text with e | _ | ⟨tree, calls⟩
  · rw [expandModule_of_error r hcalls]
    exact .refl _ _
  · rw [expandModule_of_none r hcalls]
    exact .refl _ _
  · obtain ⟨ds, macroImports, scope, hrun⟩ := expandModule_of_calls hcalls
    rw [hrun]
    exact (registers_expandCalls s text ds macroImports calls).grows _

theorem length_flatMap_registrable_le (s : Surroundings) (calls : List MacroCall) :
    (calls.flatMap (registrable s)).length ≤ calls.length * (2 * s.tree.nodeCount + 1) := by
  induction calls with
  | nil => exact Nat.zero_le _
  | cons call calls ih =>
      have hcall := length_registrable_le s call
      rw [List.flatMap_cons, List.length_append, List.length_cons, Nat.succ_mul]
      omega

end SiteMacros.Expansion
