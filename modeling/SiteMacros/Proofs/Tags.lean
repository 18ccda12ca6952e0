import SiteMacros.Proofs.Lockstep

/-!
# The tags of a module

An expanded module is tagged with the parts of the registry that it depends on: the
routes, or the namespaces. A later change of a part is a reason to expand the module
again only if the module has the part's tag. That is enough: without a tag, the
expansion comes to the same with every registry that differs in this part
(`expandModule_eq_of_tags`).

A rule sets its tag on the way to its result, and no rule takes a tag away. So after
a run that has succeeded each call has left its tag (`notes_mapM_expandCall`), and
there is one for every question that the module asks. The rest is two expansions in
lockstep. That a module also registers what its own later calls ask for makes no
difference to the argument, since both expansions register the same.
-/

namespace SiteMacros

/-- All that `d` says `d'` says too. -/
structure Dependencies.Within (d d' : Dependencies) : Prop where
  pageStructure : d.pageStructure = true → d'.pageStructure = true
  namespaces : d.namespaces = true → d'.namespaces = true
  registers : d.registers = true → d'.registers = true
  watched : d.watched ⊆ d'.watched

namespace Dependencies.Within

variable {d d' d'' : Dependencies}

theorem refl (d : Dependencies) : d.Within d :=
  ⟨id, id, id, List.Subset.refl _⟩

theorem trans (h : d.Within d') (h' : d'.Within d'') : d.Within d'' :=
  ⟨h'.pageStructure ∘ h.pageStructure, h'.namespaces ∘ h.namespaces,
    h'.registers ∘ h.registers, fun _ hdir => h'.watched (h.watched hdir)⟩

theorem nothing (d : Dependencies) : Within {} d := by
  constructor <;> simp

end Dependencies.Within

namespace Expansion

open Script

variable {α β : Type}

/-! ## What a step notes -/

/-- The step takes no dependency away, and if it succeeds those of `d` are there. -/
structure Notes (s : Surroundings) (d : Dependencies) (m : Expand α) : Prop where
  grows (x : Expansion) : x.dependencies.Within (perform m s x).2.dependencies
  noted {x y : Expansion} {a : α} (h : perform m s x = (.ok a, y)) : d.Within y.dependencies

namespace Notes

variable {s : Surroundings} {d : Dependencies}

/-- A step that leaves the dependencies alone. -/
theorem of_still {m : Expand α} (h : ∀ x, (perform m s x).2.dependencies = x.dependencies) :
    Notes s {} m where
  grows x := by
    rw [h]
    exact .refl _
  noted _ := .nothing _

theorem pure (a : α) : Notes s {} (Pure.pure a) := of_still fun _ => rfl

theorem read : Notes s {} read := of_still fun _ => rfl

theorem get : Notes s {} get := of_still fun _ => rfl

theorem emitting (m : StateM ImportScope α) : Notes s {} (emitting m) := of_still fun _ => rfl

theorem onRegistry (f : Registry → Registry) : Notes s {} (onRegistry f) := of_still fun _ => rfl

theorem settle (r : Except MacroError α) : Notes s {} (settle r) :=
  of_still fun x => by rw [perform_settle]

/-- A failing step may be said to note anything. -/
theorem throw (e : MacroError) : Notes s d (throw e : Expand α) where
  grows _ := .refl _
  noted h := nomatch h

theorem depend {f : Dependencies → Dependencies}
    (hgrows : ∀ d' : Dependencies, d'.Within (f d')) (hnoted : ∀ d', d.Within (f d')) :
    Notes s d (depend f) where
  grows x := hgrows x.dependencies
  noted {x _ _} h := by
    cases h
    exact hnoted x.dependencies

theorem watch (dir : Path) : Notes s { watched := [dir] } (watch dir) :=
  depend (fun d' => by constructor <;> simp) fun d' => by constructor <;> simp

theorem mono {d' : Dependencies} {m : Expand α} (hm : Notes s d m) (h : d'.Within d) :
    Notes s d' m :=
  ⟨hm.grows, fun hrun => h.trans (hm.noted hrun)⟩

theorem bind_grows {m : Expand α} {f : α → Expand β} (hm : Notes s d m)
    {d' : Dependencies} (hf : ∀ a, Notes s d' (f a)) (x : Expansion) :
    x.dependencies.Within (perform (m >>= f) s x).2.dependencies := by
  have hgrows := hm.grows x
  rcases hrun : perform m s x with ⟨e | a, y⟩
  · rw [perform_bind_error s x hrun]
    rwa [hrun] at hgrows
  · rw [perform_bind_ok s x hrun]
    rw [hrun] at hgrows
    exact hgrows.trans ((hf a).grows y)

/-- What is noted stays noted. -/
theorem bind {m : Expand α} {f : α → Expand β} (hm : Notes s d m)
    (hf : ∀ a, Notes s {} (f a)) : Notes s d (m >>= f) where
  grows := hm.bind_grows hf
  noted {x z b} h := by
    rcases hrun : perform m s x with ⟨e | a, y⟩
    · rw [perform_bind_error s x hrun] at h
      exact nomatch h
    · rw [perform_bind_ok s x hrun] at h
      have hgrows := (hf a).grows y
      rw [h] at hgrows
      exact (hm.noted hrun).trans hgrows

/-- What is noted later. -/
theorem later {m : Expand α} {f : α → Expand β} (hm : Notes s {} m)
    (hf : ∀ a, Notes s d (f a)) : Notes s d (m >>= f) where
  grows := hm.bind_grows hf
  noted {x z b} h := by
    rcases hrun : perform m s x with ⟨e | a, y⟩
    · rw [perform_bind_error s x hrun] at h
      exact nomatch h
    · rw [perform_bind_ok s x hrun] at h
      exact (hf a).noted h

theorem forM {γ : Type} {f : γ → Expand Unit} (xs : List γ) (hf : ∀ c, Notes s {} (f c)) :
    Notes s {} (xs.forM f) := by
  induction xs with
  | nil => exact pure ()
  | cons c xs ih => exact bind (hf c) fun _ => ih

/-- Of steps in a row each has noted its own in the end. -/
theorem mapM {γ : Type} {f : γ → Expand α} {noted : γ → Dependencies} {xs : List γ}
    (hf : ∀ c, Notes s (noted c) (f c)) : ∀ c ∈ xs, Notes s (noted c) (xs.mapM f) := by
  have hquiet : ∀ (c : γ), Notes s {} (f c) := fun c => (hf c).mono (.nothing _)
  have hrest : ∀ (ys : List γ), Notes s {} (ys.mapM f) := by
    intro ys
    induction ys with
    | nil => exact pure []
    | cons c ys ih =>
        rw [List.mapM_cons]
        exact bind (hquiet c) fun _ => bind ih fun _ => pure _
  induction xs with
  | nil => exact fun _ h => absurd h List.not_mem_nil
  | cons c xs ih =>
      intro c' hc'
      rw [List.mapM_cons]
      rcases List.mem_cons.1 hc' with rfl | hc'
      · exact bind (hf c') fun _ => bind (hrest xs) fun _ => pure _
      · exact later (hquiet c) fun _ => bind (ih c' hc') fun _ => pure _

end Notes

/-! ## What a call notes -/

/-- What every expanded call of a macro depends on. -/
def notedBy : MacroName → Dependencies
  | .loadRoutes | .loadMenus => { pageStructure := true, registers := true }
  | .resolveRoute => { pageStructure := true }
  | .loadTranslations => { registers := true }
  | .useTranslations | .getTranslations | .resolveNamespace => { namespaces := true }

section
variable {s : Surroundings}

theorem notes_enclosingRoute? : Notes s {} enclosingRoute? :=
  .bind .get fun _ => .bind .read fun _ => .pure _

theorem notes_loadPages (pattern base : String) :
    Notes s { pageStructure := true, registers := true } (loadPages pattern base) := by
  refine .later .read fun s' => .later (.onRegistry _) fun _ => .later (.settle _) fun tree => ?_
  refine .bind (.depend (fun d => by constructor <;> simp)
    fun d => by constructor <;> simp) fun _ => ?_
  exact .bind ((Notes.watch _).mono (.nothing _)) fun _ => .pure tree

theorem notes_loadRouteTranslations (pages : ImportPattern) (route : Route) :
    Notes s {} (loadRouteTranslations pages route) := by
  rw [loadRouteTranslations]
  split
  · exact .pure ()
  · refine .bind .read fun s' => .bind (.settle _) fun translations => ?_
    refine .bind (.onRegistry _) fun _ => .bind (.emitting _) fun registration => ?_
    exact .bind (.of_still fun _ => rfl) fun _ => (Notes.watch _).mono (.nothing _)

theorem notes_loadRoutes (call : MacroCall) :
    Notes s { pageStructure := true, registers := true } (loadRoutes call) := by
  have hload : ∀ pattern base,
      Notes s { pageStructure := true, registers := true } (do
        let tree ← loadPages pattern base
        let route := Route.ofPage tree.root
        route.flatten.forM (loadRouteTranslations tree.pattern)
        emitting (route.emit (← read).configuration.pages.wrapper)) := by
    intro pattern base
    refine .bind (notes_loadPages pattern base) fun tree => ?_
    refine .bind (.forM _ fun route => notes_loadRouteTranslations tree.pattern route) ?_
    exact fun _ => .bind .read fun _ => .emitting _
  refine .later (.settle _) fun pattern => .later (.settle _) fun base? => ?_
  cases base? with
  | some base => exact .later (.pure base) fun _ => hload pattern _
  | none =>
      exact .later notes_enclosingRoute? fun _ => .later (.pure _) fun _ => hload pattern _

theorem notes_loadMenus (call : MacroCall) :
    Notes s { pageStructure := true, registers := true } (loadMenus call) := by
  have hload : ∀ pattern base,
      Notes s { pageStructure := true, registers := true } (do
        let tree ← loadPages pattern base
        return Expression.array (← emitting (Menu.emitAll (Menu.ofPage tree.root)))) :=
    fun pattern base =>
      .bind (notes_loadPages pattern base) fun _ => .bind (.emitting _) fun _ => .pure _
  refine .later (.settle _) fun pattern => .later (.settle _) fun base? => ?_
  cases base? with
  | some base => exact .later (.pure base) fun _ => hload pattern _
  | none =>
      refine .later notes_enclosingRoute? fun found? => ?_
      cases found? with
      | some base => exact .later (.pure base) fun _ => hload pattern _
      | none => exact .later .read fun _ => .later (.throw _) fun _ => hload pattern _

theorem notes_resolveRoute (call : MacroCall) :
    Notes s { pageStructure := true } (resolveRoute call) := by
  refine .later (.settle _) fun relative? => ?_
  refine .bind (.depend (fun d => by constructor <;> simp)
    fun d => by constructor <;> simp) fun _ => ?_
  refine .bind .get fun _ => .bind .read fun _ => ?_
  exact .bind (.settle _) fun _ => .bind (.settle _) fun _ => .pure _

theorem notes_loadTranslations (call : MacroCall) :
    Notes s { registers := true } (loadTranslations call) := by
  have hpattern : Notes s {} (translationPattern call) := by
    refine .later (.settle _) fun given? => ?_
    cases given? with
    | some pattern => exact .pure _
    | none =>
        refine .later .read fun s' => ?_
        cases s'.configuration.translations.defaultGlob with
        | some pattern => exact .pure _
        | none => exact .throw _
  have hdirectory : Notes s {} (translationDirectory call) := by
    refine .later .read fun s' => .later (.settle _) fun given? => ?_
    cases given? with
    | some pattern => exact .bind (.settle _) fun _ => .pure _
    | none => exact .pure _
  refine .later hpattern fun pattern => .later hdirectory fun directory => .later .read fun s' => ?_
  refine .later (.settle _) fun translations => .later (.onRegistry _) fun _ => ?_
  refine .bind (.depend (fun d => by constructor <;> simp)
    fun d => by constructor <;> simp) fun _ => ?_
  exact .bind ((Notes.watch _).mono (.nothing _)) fun _ => .emitting _

theorem notes_namespacesFor (call : MacroCall) :
    Notes s { namespaces := true } (namespacesFor call) := by
  have hresolve : Notes s { namespaces := true } (do
      depend fun d => { d with namespaces := true }
      let s ← read
      settle (NamespaceRef.resolve (← get).registry s.file s.root
        s.configuration.translations.globalNamespaces)) := by
    refine .bind (.depend (fun d => by constructor <;> simp)
      fun d => by constructor <;> simp) fun _ => ?_
    exact .bind .read fun _ => .bind .get fun _ => .settle _
  rw [namespacesFor]
  dsimp only
  split
  · exact hresolve
  · exact .later (.throw _) fun _ => hresolve

theorem notes_expand (call : MacroCall) : Notes s (notedBy call.callee) (expand call) := by
  rw [expand]
  cases call.callee with
  | loadRoutes => exact notes_loadRoutes call
  | loadMenus => exact notes_loadMenus call
  | resolveRoute => exact notes_resolveRoute call
  | loadTranslations => exact notes_loadTranslations call
  | useTranslations => exact .bind (notes_namespacesFor call) fun _ => .bind .read fun _ => .emitting _
  | getTranslations => exact .bind (notes_namespacesFor call) fun _ => .bind .read fun _ => .emitting _
  | resolveNamespace => exact .bind (notes_namespacesFor call) fun _ => .pure _

theorem notes_mapM_expandCall (text : String) {calls : List MacroCall} :
    ∀ call ∈ calls, Notes s (notedBy call.callee) (calls.mapM (expandCall text)) :=
  .mapM fun call => .bind (notes_expand call) fun _ => .pure _

end

/-! ## Tags and questions -/

/-- Is there a tag for the question? -/
def Question.taggedIn (d : Dependencies) : Question → Bool
  | .route _ => d.pageStructure
  | .loaded _ => d.namespaces

theorem Question.taggedIn_mono {d d' : Dependencies} (h : d.Within d') {q : Question}
    (hq : q.taggedIn d = true) : q.taggedIn d' = true := by
  cases q with
  | route dir => exact h.pageStructure hq
  | loaded caller => exact h.namespaces hq

theorem taggedIn_notedBy {s : Surroundings} {call : MacroCall} {q : Question}
    (h : q ∈ questions s call) : q.taggedIn (notedBy call.callee) = true := by
  rw [questions] at h
  cases hcallee : call.callee <;> rw [hcallee] at h <;> dsimp only at h <;>
    (try split at h) <;> simp_all [Question.taggedIn, notedBy]

/-- An expanded module depends on what its calls do. -/
theorem noted_of_expandModule {s : Surroundings} {r : Registry} {text : String}
    {m : ExpandedModule} {tree : Node} {calls : List MacroCall}
    (hcalls : analyze s.configuration s.file text = .ok (some (tree, calls)))
    (h : (expandModule s r text).2 = .ok (some m)) {call : MacroCall} (hcall : call ∈ calls) :
    (notedBy call.callee).Within m.dependencies := by
  obtain ⟨ds, macroImports, scope, hmodule⟩ := expandModule_of_calls hcalls
  rw [hmodule] at h
  dsimp only at h
  rcases hrun : perform (calls.mapM (expandCall text)) s ⟨r, scope, {}, []⟩ with ⟨e | edits, y⟩
  · rw [perform_expandCalls_error ds macroImports hrun] at h
    cases h
  · rw [perform_expandCalls_ok ds macroImports hrun] at h
    cases h
    exact (notes_mapM_expandCall text call hcall).noted hrun

/-- An expanded module has a tag for every question that it asks. -/
theorem moduleQuestions_tagged {s : Surroundings} {r : Registry} {text : String}
    {m : ExpandedModule} (h : (expandModule s r text).2 = .ok (some m)) {q : Question}
    (hq : q ∈ moduleQuestions s text) : q.taggedIn m.dependencies = true := by
  rcases hcalls : analyze s.configuration s.file text with e | _ | ⟨tree, calls⟩
  · rw [expandModule_of_error r hcalls] at h
    cases h
  · rw [expandModule_of_none r hcalls] at h
    cases h
  · rw [moduleQuestions, hcalls] at hq
    obtain ⟨call, hcall, hq⟩ := List.mem_flatMap.1 hq
    exact Question.taggedIn_mono (noted_of_expandModule hcalls h hcall) (taggedIn_notedBy hq)

/-! ## Registries that differ in one part -/

/-- A registry answers the questions that have a tag as another one does, if the two
agree on the parts that the tags are for. -/
theorem answersAlike_of_tagged {qs : List Question} {d : Dependencies} {r r' : Registry}
    (htagged : ∀ q ∈ qs, q.taggedIn d = true)
    (hroutes : d.pageStructure = true → ∀ dir, r'.routes.get? dir = r.routes.get? dir)
    (hnamespaces : d.namespaces = true → ∀ id, id ∈ r'.namespaces ↔ id ∈ r.namespaces) :
    AnswersAlike qs r r' := by
  intro q hq
  cases q with
  | route dir => exact (Registry.answer_congr fun a _ => hroutes (htagged _ hq) a).symm
  | loaded caller =>
      exact (Registry.resolveNamespace?_congr (hnamespaces (htagged _ hq)) caller).symm

/-- An expanded module comes to the same with every registry that agrees with the
first one on the parts the module is tagged with. -/
theorem expandModule_eq_of_tags {s : Surroundings} {r r' : Registry} {text : String}
    {m : ExpandedModule} (h : (expandModule s r text).2 = .ok (some m))
    (hroutes : m.dependencies.pageStructure = true →
      ∀ dir, r'.routes.get? dir = r.routes.get? dir)
    (hnamespaces : m.dependencies.namespaces = true →
      ∀ id, id ∈ r'.namespaces ↔ id ∈ r.namespaces) :
    (expandModule s r' text).2 = .ok (some m) := by
  have htagged : ∀ q ∈ moduleQuestions s text, q.taggedIn m.dependencies = true :=
    fun _ => moduleQuestions_tagged h
  exact (expandModule_eq_of_alike s text
    (answersAlike_of_tagged htagged hroutes hnamespaces)).trans h

/-- A module that asks for its route alone, before and after a namespace is
registered. -/
theorem expandModule_keeps_route :
    let s : Surroundings := {
      tree := .dir [], configuration := {}, root := ⟨"/p"⟩
      file := ⟨"/p/src/pages/index.tsx"⟩ }
    let r : Registry := { routes := PathMap.insert {} ⟨"/p/src/pages"⟩ "/a" }
    let text := "import { resolveRoute } from \"pages.macro\";\nresolveRoute();\n"
    let m : ExpandedModule := {
      code := "\"/a\";\n", dependencies := { pageStructure := true } }
    (expandModule s r text).2 = .ok (some m) ∧
      (expandModule s (r.registerNamespace "src.pages") text).2 = .ok (some m) := by
  intro s r text m
  have hrun : (expandModule s r text).2 = .ok (some m) := by decide +kernel
  exact ⟨hrun, expandModule_eq_of_tags hrun (fun _ _ => rfl) nofun⟩

end Expansion

end SiteMacros
