import SiteMacros.Proofs.Registrable

/-!
# Why a module waits

Two errors say that something is not registered yet, and they arise in one place
each: where a call asks for the route around it, and where it asks for its
namespace. No other fault of a call is one of these (`neverWaits_…`), so a call
that fails with one of them has asked in vain.

Whether a question is answered depends on the entries of the registry alone. A
call that waits therefore fails again with any registry that has the same entries
(`failsAlike_expand`), whatever the values of these entries are by then. For a
whole module one more thing is needed: its earlier calls must not have registered
anything that the registry did not have (`failsAlike_expandModule`).
-/

namespace SiteMacros.Expansion

open Script

variable {α β : Type}

/-! ## Errors that no registration mends -/

/-- A result whose error, if it is one, does not wait for a registration. -/
def Steady (r : Except MacroError α) : Prop :=
  ∀ e, r = .error e → e.awaitsRegistration = false

namespace Steady

theorem ok (a : α) : Steady (.ok a) := fun _ h => nomatch h

theorem error {e : MacroError} (h : e.awaitsRegistration = false) :
    Steady (.error e : Except MacroError α) := by
  intro e' he
  cases he
  exact h

theorem bind {r : Except MacroError α} {f : α → Except MacroError β} (hr : Steady r)
    (hf : ∀ a, r = .ok a → Steady (f a)) : Steady (r >>= f) := by
  cases r with
  | error e => exact error (hr e rfl)
  | ok a => exact hf a rfl

theorem map {r : Except MacroError α} {f : α → β} (hr : Steady r) : Steady (r.map f) := by
  cases r with
  | error e => exact error (hr e rfl)
  | ok a => exact ok _

theorem mapM {γ : Type} {f : γ → Except MacroError α} (xs : List γ)
    (hf : ∀ c ∈ xs, Steady (f c)) : Steady (xs.mapM f) := by
  induction xs with
  | nil => exact ok _
  | cons c xs ih =>
      rw [List.mapM_cons]
      refine bind (hf c List.mem_cons_self) fun _ _ => ?_
      refine bind (ih fun d hd => hf d (List.mem_cons_of_mem c hd)) fun _ _ => ?_
      exact ok _

end Steady

theorem steady_literal? (call : MacroCall) (place : Nat) : Steady (literal? call place) := by
  rw [literal?]
  split
  · exact .ok _
  · split
    · exact .ok _
    · exact .error rfl

theorem steady_literal (call : MacroCall) (place : Nat) (what : String) :
    Steady (literal call place what) := by
  refine .bind (steady_literal? call place) fun value? _ => ?_
  cases value? with
  | some value => exact .ok _
  | none => exact .error rfl

theorem steady_importPattern (pattern : String) (importer root : Path) :
    Steady (ImportPattern.resolve pattern importer root) := by
  rw [ImportPattern.resolve]
  split
  · exact .ok _
  · exact .ok _
  · exact .error rfl

theorem steady_findFiles (pattern : ImportPattern) (tree : FileTree) :
    Steady (pattern.findFiles tree) := by
  rw [ImportPattern.findFiles]
  split
  · exact .error rfl
  · exact .ok _

theorem steady_translations_find (tree : FileTree) (req : Translations.Request) :
    Steady (Translations.find tree req) := by
  refine .bind (steady_importPattern _ _ _) fun pattern _ => ?_
  exact .bind (steady_findFiles pattern tree) fun _ _ => .ok _

theorem steady_translations_ofPage (tree : FileTree) (id : String) (dir : Path)
    (languages : Option (List String)) (specifierOf : Path → String) :
    Steady (Translations.ofPage tree id dir languages specifierOf) := by
  refine .bind (.mapM _ fun text _ => ?_) fun _ _ => .ok _
  exact .bind (steady_importPattern text dir dir) fun pattern _ => steady_findFiles pattern tree

theorem steady_routePath_bind (path : RoutePath) (args : List RouteArg) :
    Steady (path.bind args) := by
  rw [RoutePath.bind]
  split
  · exact .ok _
  · split
    · exact .error rfl
    · exact .ok _

theorem steady_gather {vs : List (Visit Page)} (hvs : ∀ v ∈ vs, Steady v.result) :
    Steady (PageTree.gather vs).result := by
  induction vs with
  | nil => exact .ok _
  | cons v vs ih =>
      have hv := hvs v List.mem_cons_self
      have hrest := ih fun w hw => hvs w (List.mem_cons_of_mem v hw)
      rw [PageTree.gather]
      split
      · next e he => exact .error (hv e he)
      · exact hrest.map

theorem steady_close (req : PageRequest) (f : PageTree.Frame) (imports : PageImports)
    {v : Visit (List Page)} (hv : Steady v.result) :
    Steady (PageTree.close req f imports v).result := by
  have hpage : Steady (v.result.bind (PageTree.pageOf req f imports)) := by
    refine .bind hv fun ps _ => ?_
    rw [PageTree.pageOf]
    refine Steady.map ?_
    rw [PageTree.check]
    split
    · exact .error rfl
    · split
      · exact .error rfl
      · exact .ok _
  rw [PageTree.close]
  split
  · exact .ok _
  · next e he => exact .error (hpage e he)

mutual

theorem steady_visit (req : PageRequest) (pattern : ImportPattern) (f : PageTree.Frame) :
    (node : FileTree) → Steady (PageTree.visit req pattern f node).result
  | .file _ => .error rfl
  | .dir entries => by
      rw [PageTree.visit_dir]
      dsimp only
      split
      · exact .error rfl
      · refine steady_close req f _ (steady_gather fun v hv => ?_)
        obtain ⟨⟨name, w⟩, hw, rfl⟩ := List.mem_map.1 hv
        rw [(sorted_perm _ _).mem_iff] at hw
        exact steady_visitEntries req pattern f entries _ hw

theorem steady_visitEntries (req : PageRequest) (pattern : ImportPattern) (f : PageTree.Frame) :
    (entries : List (String × FileTree)) →
    ∀ v ∈ PageTree.visitEntries req pattern f entries, Steady v.2.result
  | [] => fun _ h => absurd h List.not_mem_nil
  | (name, node) :: rest => by
      intro v hv
      rw [PageTree.visitEntries] at hv
      split at hv
      · next c _ _ =>
          rcases List.mem_cons.1 hv with rfl | hv
          · exact steady_visit req pattern c node
          · exact steady_visitEntries req pattern f rest v hv
      · exact steady_visitEntries req pattern f rest v hv

end

theorem steady_load (tree : FileTree) (req : PageRequest) :
    Steady (PageTree.load tree req).result := by
  have hpattern := steady_importPattern req.pattern req.importer req.root
  rw [PageTree.load]
  split
  · next e he => exact .error (hpattern e he)
  · split
    · exact (steady_visit req _ _ _).map
    · exact .error rfl

/-! ## Steps that never wait -/

/-- A step that does not fail for want of a registration. -/
def NeverWaits (s : Surroundings) (m : Expand α) : Prop :=
  ∀ x, Steady (perform m s x).1

namespace NeverWaits

variable {s : Surroundings}

theorem pure (a : α) : NeverWaits s (Pure.pure a) := fun _ => .ok a

theorem settle {r : Except MacroError α} (h : Steady r) : NeverWaits s (settle r) := by
  intro x
  rw [perform_settle]
  exact h

theorem bind {m : Expand α} {f : α → Expand β} (hm : NeverWaits s m)
    (hf : ∀ a, NeverWaits s (f a)) : NeverWaits s (m >>= f) := by
  intro x
  have hx := hm x
  rcases hrun : perform m s x with ⟨e | a, y⟩
  · rw [hrun] at hx
    rw [perform_bind_error s x hrun]
    exact .error (hx e rfl)
  · rw [perform_bind_ok s x hrun]
    exact hf a y

theorem read_bind {f : Surroundings → Expand β} (hf : NeverWaits s (f s)) :
    NeverWaits s (read >>= f) := hf

theorem get : NeverWaits s get := fun _ => .ok _

theorem onRegistry (f : Registry → Registry) : NeverWaits s (onRegistry f) := fun _ => .ok _

theorem modify (f : Expansion → Expansion) : NeverWaits s (modify f) := fun _ => .ok _

theorem depend (f : Dependencies → Dependencies) : NeverWaits s (depend f) := fun _ => .ok _

theorem watch (dir : Path) : NeverWaits s (watch dir) := fun _ => .ok _

theorem emitting (m : StateM ImportScope α) : NeverWaits s (emitting m) := fun _ => .ok _

theorem forM {γ : Type} {f : γ → Expand Unit} (xs : List γ) (hf : ∀ c, NeverWaits s (f c)) :
    NeverWaits s (xs.forM f) := by
  induction xs with
  | nil => exact pure ()
  | cons c xs ih => exact bind (hf c) fun _ => ih

end NeverWaits

theorem neverWaits_enclosingRoute? (s : Surroundings) : NeverWaits s enclosingRoute? :=
  .bind .get fun _ => .read_bind (.pure _)

theorem neverWaits_loadPages (s : Surroundings) (pattern base : String) :
    NeverWaits s (loadPages pattern base) := by
  refine .read_bind (.bind (.onRegistry _) fun _ => ?_)
  refine .bind (.settle (steady_load _ _)) fun tree => ?_
  exact .bind (.depend _) fun _ => .bind (.watch _) fun _ => .pure tree

theorem neverWaits_loadRouteTranslations (s : Surroundings) (pages : ImportPattern)
    (route : Route) : NeverWaits s (loadRouteTranslations pages route) := by
  rw [loadRouteTranslations]
  split
  · exact .pure ()
  · refine .read_bind (.bind (.settle (steady_translations_ofPage _ _ _ _ _)) fun _ => ?_)
    refine .bind (.onRegistry _) fun _ => .bind (.emitting _) fun _ => ?_
    exact .bind (.modify _) fun _ => .watch _

theorem neverWaits_loadRoutes (s : Surroundings) (call : MacroCall) :
    NeverWaits s (loadRoutes call) := by
  refine .bind (.settle (steady_literal _ _ _)) fun pattern => ?_
  refine .bind (.settle (steady_literal? _ _)) fun base? => ?_
  have hload : ∀ base, NeverWaits s (do
      let tree ← loadPages pattern base
      let route := Route.ofPage tree.root
      route.flatten.forM (loadRouteTranslations tree.pattern)
      emitting (route.emit (← read).configuration.pages.wrapper)) := by
    intro base
    refine .bind (neverWaits_loadPages s pattern base) fun tree => ?_
    refine .bind (.forM _ fun route => neverWaits_loadRouteTranslations s tree.pattern route) ?_
    exact fun _ => .read_bind (.emitting _)
  cases base? with
  | some base => exact .bind (.pure base) hload
  | none =>
      exact .bind (neverWaits_enclosingRoute? s) fun base? => .bind (.pure _) hload

theorem neverWaits_translationPattern (s : Surroundings) (call : MacroCall) :
    NeverWaits s (translationPattern call) := by
  refine .bind (.settle (steady_literal? _ _)) fun given? => ?_
  cases given? with
  | some pattern => exact .pure _
  | none =>
      refine .read_bind ?_
      cases s.configuration.translations.defaultGlob with
      | some pattern => exact .pure _
      | none => exact fun _ => .error rfl

theorem neverWaits_translationDirectory (s : Surroundings) (call : MacroCall) :
    NeverWaits s (translationDirectory call) := by
  refine .read_bind (.bind (.settle (steady_literal? _ _)) fun given? => ?_)
  cases given? with
  | some pattern => exact .bind (.settle (steady_importPattern _ _ _)) fun _ => .pure _
  | none => exact .pure _

theorem neverWaits_loadTranslations (s : Surroundings) (call : MacroCall) :
    NeverWaits s (loadTranslations call) := by
  refine .bind (neverWaits_translationPattern s call) fun pattern => ?_
  refine .bind (neverWaits_translationDirectory s call) fun dir => .read_bind ?_
  refine .bind (.settle (steady_translations_find _ _)) fun translations => ?_
  refine .bind (.onRegistry _) fun _ => .bind (.depend _) fun _ => ?_
  exact .bind (.watch _) fun _ => .emitting _

/-! ## Asking in vain -/

/-- Registries with the same entries. -/
def SameEntries (r r' : Registry) : Prop :=
  ∀ q, r'.has q = r.has q

/-- What lies between registries with the same entries has them too. -/
theorem SameEntries.between {es fs : List Entry} {r r' r'' : Registry} (h : SameEntries r r'')
    (hgrows : r.Grows es r') (hgrows' : r'.Grows fs r'') : SameEntries r r' := by
  intro q
  rw [Bool.eq_iff_iff]
  exact ⟨fun hq => h q ▸ hgrows'.has_of_has hq, hgrows.has_of_has⟩

/-- A step that fails for want of a registration fails with every registry that
has the same entries. -/
def FailsAlike (s : Surroundings) (m : Expand α) : Prop :=
  ∀ x x', SameEntries x.registry x'.registry → ¬ Steady (perform m s x).1 →
    ∃ e, (perform m s x').1 = .error e

namespace FailsAlike

variable {s : Surroundings}

theorem of_neverWaits {m : Expand α} (h : NeverWaits s m) : FailsAlike s m :=
  fun x _ _ hwaits => absurd (h x) hwaits

theorem read_bind {f : Surroundings → Expand β} (hf : FailsAlike s (f s)) :
    FailsAlike s (read >>= f) := hf

theorem depend_bind {g : Dependencies → Dependencies} {f : Unit → Expand β}
    (hf : FailsAlike s (f ())) : FailsAlike s (depend g >>= f) :=
  fun x x' hsame hwaits => hf { x with dependencies := g x.dependencies }
    { x' with dependencies := g x'.dependencies } hsame hwaits

theorem settle_bind {r : Except MacroError α} {f : α → Expand β} (hr : Steady r)
    (hf : ∀ a, r = .ok a → FailsAlike s (f a)) : FailsAlike s (settle r >>= f) := by
  cases r with
  | error e => exact fun x x' _ hwaits => absurd (.error (hr e rfl)) hwaits
  | ok a => exact hf a rfl

/-- A question to the registry, and then steps that never wait. -/
theorem ask_bind {g : Expansion → Expand β} (answer : Registry → Except MacroError α)
    (f : α → Expand β)
    (hg : ∀ x z, perform (g x) s z = perform (settle (answer x.registry) >>= f) s z)
    (hanswer : ∀ r r', SameEntries r r' → ∀ e, answer r = .error e → ∃ e', answer r' = .error e')
    (hf : ∀ a, NeverWaits s (f a)) : FailsAlike s (get >>= g) := by
  intro x x' hsame hwaits
  rw [perform_get_bind, hg] at hwaits ⊢
  cases hr : answer x.registry with
  | error e =>
      obtain ⟨e', he'⟩ := hanswer _ _ hsame e hr
      exact ⟨e', by rw [he']; rfl⟩
  | ok a =>
      rw [hr] at hwaits
      exact absurd (hf a x) hwaits

theorem bind_neverWaits {m : Expand α} {f : α → Expand β} (hm : FailsAlike s m)
    (hf : ∀ a, NeverWaits s (f a)) : FailsAlike s (m >>= f) := by
  intro x x' hsame hwaits
  rcases hrun : perform m s x with ⟨e | a, y⟩
  · rw [perform_bind_error s x hrun] at hwaits
    have hfirst : ¬ Steady (perform m s x).1 := by
      rw [hrun]
      exact fun h => hwaits (.error (h e rfl))
    obtain ⟨e', he'⟩ := hm x x' hsame hfirst
    rcases hrun' : perform m s x' with ⟨e'' | a', y'⟩
    · exact ⟨e'', by rw [perform_bind_error s x' hrun']⟩
    · rw [hrun'] at he'
      exact nomatch he'
  · rw [perform_bind_ok s x hrun] at hwaits
    exact absurd (hf a y) hwaits

end FailsAlike

theorem resolve_error_of_sameEntries {r r' : Registry} (hsame : SameEntries r r') (file : Path)
    (relative : String) {e : MacroError} (h : RoutePath.resolve r file relative = .error e) :
    ∃ e', RoutePath.resolve r' file relative = .error e' := by
  have hiff := Registry.enclosingRoute?_isSome_congr hsame (RoutePath.directoryOf file)
  rw [RoutePath.resolve] at h ⊢
  split at h
  · exact nomatch h
  · next hnone =>
      rw [hnone, Option.isSome_none, Option.isSome_eq_false_iff, Option.isNone_iff_eq_none] at hiff
      exact ⟨.unregisteredCallSite file, by rw [hiff]⟩

theorem namespaceRef_error_of_sameEntries {r r' : Registry} (hsame : SameEntries r r')
    (file root : Path) (globals : List String) {e : MacroError}
    (h : NamespaceRef.resolve r file root globals = .error e) :
    ∃ e', NamespaceRef.resolve r' file root globals = .error e' := by
  have hiff := Registry.resolveNamespace?_isSome_congr hsame
    (Namespace.ofDirectory (RoutePath.directoryOf file) root)
  rw [NamespaceRef.resolve] at h ⊢
  split at h
  · next hnone =>
      rw [hnone, Option.isSome_none, Option.isSome_eq_false_iff, Option.isNone_iff_eq_none] at hiff
      exact ⟨.namespaceNotLoaded _, by rw [hiff]⟩
  · split at h
    · exact nomatch h
    · exact nomatch h

theorem failsAlike_resolveRoute (s : Surroundings) (call : MacroCall) :
    FailsAlike s (resolveRoute call) := by
  refine .settle_bind (steady_literal? _ _) fun relative? _ => ?_
  refine .depend_bind ?_
  refine .ask_bind (fun r => RoutePath.resolve r s.file (relative?.getD "."))
    (fun path => do return .ofPieces (← settle (path.bind ((call.args.drop 1).map routeArg))))
    (fun _ _ => ?_) (fun r r' hsame e => ?_) fun path => ?_
  · rw [perform_read_bind]
  · exact resolve_error_of_sameEntries hsame s.file _
  · exact .bind (.settle (steady_routePath_bind _ _)) fun _ => .pure _

theorem failsAlike_namespacesFor (s : Surroundings) (call : MacroCall) :
    FailsAlike s (namespacesFor call) := by
  have hask : FailsAlike s (do
      depend fun d => { d with namespaces := true }
      let s ← read
      settle (NamespaceRef.resolve (← get).registry s.file s.root
        s.configuration.translations.globalNamespaces)) := by
    refine .depend_bind ?_
    refine .read_bind ?_
    refine .ask_bind (fun r => NamespaceRef.resolve r s.file s.root
      s.configuration.translations.globalNamespaces) pure (fun _ _ => ?_) (fun r r' hsame e => ?_)
      fun ns => ?_
    · rw [bind_pure]
    · exact namespaceRef_error_of_sameEntries hsame s.file s.root _
    · exact .pure ns
  rw [namespacesFor]
  dsimp only
  split
  · exact hask
  · exact fun _ _ _ _ => ⟨_, rfl⟩

theorem failsAlike_loadMenus (s : Surroundings) (call : MacroCall) :
    FailsAlike s (loadMenus call) := by
  refine .settle_bind (steady_literal _ _ _) fun pattern _ => ?_
  refine .settle_bind (steady_literal? _ _) fun base? _ => ?_
  have hload : ∀ base, NeverWaits s (do
      let tree ← loadPages pattern base
      return Expression.array (← emitting (Menu.emitAll (Menu.ofPage tree.root)))) := fun base =>
    .bind (neverWaits_loadPages s pattern base) fun _ => .bind (.emitting _) fun _ => .pure _
  have hbase := fun base => NeverWaits.bind (NeverWaits.pure (s := s) base) hload
  cases base? with
  | some base => exact .of_neverWaits (hbase base)
  | none =>
      intro x x' hsame hwaits
      have hiff := Registry.enclosingRoute?_isSome_congr hsame s.dir
      rw [perform_enclosingRoute?_bind] at hwaits ⊢
      -- the question comes first: the run goes on from its answer, or fails at once
      cases hx : x.registry.enclosingRoute? s.dir with
      | some found =>
          rw [hx] at hwaits
          exact absurd (hbase found.2 x) hwaits
      | none =>
          rw [hx, Option.isSome_none, Option.isSome_eq_false_iff, Option.isNone_iff_eq_none] at hiff
          rw [hiff]
          exact ⟨_, rfl⟩

theorem failsAlike_expand (s : Surroundings) (call : MacroCall) : FailsAlike s (expand call) := by
  rw [expand]
  cases call.callee with
  | loadRoutes => exact .of_neverWaits (neverWaits_loadRoutes s call)
  | loadMenus => exact failsAlike_loadMenus s call
  | resolveRoute => exact failsAlike_resolveRoute s call
  | loadTranslations => exact .of_neverWaits (neverWaits_loadTranslations s call)
  | useTranslations =>
      exact .bind_neverWaits (failsAlike_namespacesFor s call) fun ns => .read_bind (.emitting _)
  | getTranslations =>
      exact .bind_neverWaits (failsAlike_namespacesFor s call) fun ns => .read_bind (.emitting _)
  | resolveNamespace => exact .bind_neverWaits (failsAlike_namespacesFor s call) fun ns => .pure _

/-! ## Modules -/

/-- Expanding a call whose entries are there already adds nothing. -/
theorem sameEntries_of_expandCall {s : Surroundings} {text : String} {call : MacroCall}
    {x y : Expansion} {r : Registry} {edit : Edit} (hsame : SameEntries r x.registry)
    (hhas : ∀ q ∈ registrable s call, r.has q = true)
    (hrun : perform (expandCall text call) s x = (.ok edit, y)) : SameEntries r y.registry := by
  have hgrows := (registers_expandCall s text call).grows x
  rw [hrun] at hgrows
  intro q
  by_cases hx : x.registry.has q = true
  · rw [hgrows.has_of_has hx, ← hsame q, hx]
  · have hr : r.has q = false := by
      rw [← hsame q]
      exact Bool.eq_false_iff.2 hx
    rw [hr, Bool.eq_false_iff]
    intro hy
    have hq := hgrows.mem_of_has (Bool.eq_false_iff.2 hx) hy
    rw [hhas q hq] at hr
    exact nomatch hr

/-- Calls that fail for want of a registration, and have registered nothing new
until then, fail again with the same entries. The calls before the one that fails
add nothing in either run. -/
theorem fails_mapM_expandCall (s : Surroundings) (text : String) (calls : List MacroCall)
    {x x' : Expansion} (hsame : SameEntries x.registry x'.registry)
    (hstill : SameEntries x.registry (perform (calls.mapM (expandCall text)) s x).2.registry)
    (hwaits : ¬ Steady (perform (calls.mapM (expandCall text)) s x).1) :
    ∃ e, (perform (calls.mapM (expandCall text)) s x').1 = .error e := by
  induction calls generalizing x x' with
  | nil => exact absurd (.ok _) hwaits
  | cons call calls ih =>
      rw [List.mapM_cons] at hstill hwaits ⊢
      have hcall : FailsAlike s (expandCall text call) :=
        .bind_neverWaits (failsAlike_expand s call) fun _ => .pure _
      rcases hrun : perform (expandCall text call) s x with ⟨e | edit, y⟩
      · rw [perform_bind_error s x hrun] at hwaits
        have hfirst : ¬ Steady (perform (expandCall text call) s x).1 := by
          rw [hrun]
          exact fun h => hwaits (.error (h e rfl))
        obtain ⟨e', he'⟩ := hcall x x' hsame hfirst
        rcases hrun' : perform (expandCall text call) s x' with ⟨e'' | edit', y'⟩
        · exact ⟨e'', by rw [perform_bind_error s x' hrun']⟩
        · rw [hrun'] at he'
          exact nomatch he'
      · rcases hrun' : perform (expandCall text call) s x' with ⟨e' | edit', y'⟩
        · exact ⟨e', by rw [perform_bind_error s x' hrun']⟩
        · rw [perform_bind_ok s x hrun] at hstill hwaits
          rw [perform_bind_ok s x' hrun', perform_bind_pure]
          rw [perform_bind_pure] at hstill hwaits
          have hx := (registers_expandCall s text call).grows x
          rw [hrun] at hx
          have hy : SameEntries x.registry y.registry :=
            hstill.between hx ((registers_mapM_expandCall s text calls).grows y)
          have hhas : ∀ q ∈ registrable s call, x.registry.has q = true := fun q hq =>
            hy q ▸ (registers_expandCall s text call).has hrun q hq
          have hy' : SameEntries x.registry y'.registry :=
            sameEntries_of_expandCall hsame hhas hrun'
          obtain ⟨e, he⟩ := ih (x := y) (fun q => (hy' q).trans (hy q).symm)
            (fun q => (hstill q).trans (hy q).symm) fun h => hwaits h.map
          exact ⟨e, by rw [he]; rfl⟩

theorem perform_expandCalls (s : Surroundings) (text : String)
    (ds macroImports : List ImportDeclaration) (calls : List MacroCall) (x : Expansion) :
    ∃ f : List Edit → ExpandedModule, perform (expandCalls text ds macroImports calls) s x =
      ((perform (calls.mapM (expandCall text)) s x).1.map f,
        (perform (calls.mapM (expandCall text)) s x).2) := by
  rcases hrun : perform (calls.mapM (expandCall text)) s x with ⟨e | edits, y⟩
  · exact ⟨fun _ => ⟨"", {}⟩, perform_expandCalls_error ds macroImports hrun⟩
  · exact ⟨fun edits => ofEdits text ds macroImports edits y,
      perform_expandCalls_ok ds macroImports hrun⟩

/-- A module that waits, and has registered nothing new, fails again with every
registry that has the same entries. -/
theorem expandModule_fails_again (s : Surroundings) (text : String) {r r' : Registry}
    {e : MacroError} (hsame : SameEntries r r') (hstill : SameEntries r (expandModule s r text).1)
    (h : (expandModule s r text).2 = .error e) (hwaits : e.awaitsRegistration = true) :
    ∃ e', (expandModule s r' text).2 = .error e' := by
  rcases hcalls : analyze s.configuration s.file text with e' | _ | ⟨tree, calls⟩
  · exact ⟨e', by rw [expandModule_of_error r' hcalls]⟩
  · rw [expandModule_of_none r hcalls] at h
    exact nomatch h
  · obtain ⟨ds, macroImports, scope, hmodule⟩ := expandModule_of_calls hcalls
    obtain ⟨f, hrun⟩ := perform_expandCalls s text ds macroImports calls ⟨r, scope, {}, []⟩
    obtain ⟨f', hrun'⟩ := perform_expandCalls s text ds macroImports calls ⟨r', scope, {}, []⟩
    rw [hmodule, hrun] at h hstill
    rw [hmodule, hrun']
    have hfirst : ¬ Steady (perform (calls.mapM (expandCall text)) s ⟨r, scope, {}, []⟩).1 := by
      intro hsteady
      have hnot := (hsteady.map (f := f)).map (f := some) e h
      rw [hwaits] at hnot
      exact nomatch hnot
    have hstart : SameEntries (Expansion.mk r scope {} []).registry
        (Expansion.mk r' scope {} []).registry := hsame
    obtain ⟨e', he'⟩ := fails_mapM_expandCall s text calls hstart hstill hfirst
    exact ⟨e', by rw [he']; rfl⟩

end SiteMacros.Expansion
