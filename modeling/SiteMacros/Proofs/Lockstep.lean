import SiteMacros.Proofs.Answers
import SiteMacros.Proofs.Registrable

/-!
# Two expansions in lockstep

A module looks at the registry through the questions of its calls only: the route
around it, and its namespace. Expanded with two registries that answer its
questions alike, it comes to one result (`expandModule_eq_of_alike`).

The two expansions are kept in step call by call. What a call *hears* is all that
it takes from a registry; if it hears the same from two, it comes to the same and
registers the same things with both (`sameStep_expand`). So the registries go on
answering alike, also the questions of later calls to what the earlier ones have
registered.
-/

namespace SiteMacros.Expansion

open Script

variable {α β : Type}

/-- A question to a registry. -/
inductive Question where
  /-- The nearest directory around this one that has a route. -/
  | route (dir : Path)
  /-- The longest loaded namespace around this one. -/
  | loaded (caller : String)
  deriving DecidableEq, Repr

/-- The answer of a registry, as far as it goes into an expansion or into the
answers of registries that grow out of it. -/
def Question.alike (r r' : Registry) : Question → Prop
  | .route dir => r.answer dir = r'.answer dir
  | .loaded caller => r.resolveNamespace? caller = r'.resolveNamespace? caller

/-- The questions that a call asks. -/
def questions (s : Surroundings) (call : MacroCall) : List Question :=
  match call.callee with
  | .loadRoutes | .loadMenus =>
      match literal call 0 "a pages directory", literal? call 1 with
      | .ok _, .ok none => [.route s.dir]
      | _, _ => []
  | .resolveRoute =>
      match literal? call 0 with
      | .ok _ => [.route (RoutePath.directoryOf s.file)]
      | .error _ => []
  | .useTranslations | .getTranslations | .resolveNamespace =>
      if call.args.isEmpty then
        [.loaded (Namespace.ofDirectory (RoutePath.directoryOf s.file) s.root)]
      else []
  | .loadTranslations => []

/-- The questions that a module asks. -/
def moduleQuestions (s : Surroundings) (text : String) : List Question :=
  match analyze s.configuration s.file text with
  | .ok (some (_, calls)) => calls.flatMap (questions s)
  | _ => []

/-- Two registries answer questions alike. -/
def AnswersAlike (qs : List Question) (r r' : Registry) : Prop :=
  ∀ q ∈ qs, q.alike r r'

namespace AnswersAlike

variable {qs : List Question} {r r' : Registry}

theorem register (h : AnswersAlike qs r r') (e : Registration) :
    AnswersAlike qs (r.register e) (r'.register e) := by
  intro q hq
  have hq := h q hq
  cases q with
  | route dir =>
      cases e with
      | route page route => exact Registry.answer_registerRoute_congr hq page route
      | loaded id =>
          exact (r.answer_registerNamespace id dir).trans
            (hq.trans (r'.answer_registerNamespace id dir).symm)
  | loaded caller =>
      cases e with
      | route page route => exact hq
      | loaded id =>
          have heq : r.resolveNamespace? caller = r'.resolveNamespace? caller := hq
          change (r.registerNamespace id).resolveNamespace? caller =
            (r'.registerNamespace id).resolveNamespace? caller
          rw [Registry.resolveNamespace?_registerNamespace,
            Registry.resolveNamespace?_registerNamespace, heq]

theorem registerAll (h : AnswersAlike qs r r') (es : List Registration) :
    AnswersAlike qs (r.registerAll es) (r'.registerAll es) := by
  induction es generalizing r r' with
  | nil => exact h
  | cons e es ih => exact ih (h.register e)

end AnswersAlike

/-! ## What a call hears -/

/-- The answer of a registry, as far as it goes into an expansion. -/
def Question.answeredBy (r : Registry) : Question → Option String
  | .route dir => (r.enclosingRoute? dir).map (·.2)
  | .loaded caller => r.resolveNamespace? caller

/-- What a call makes of the answers to its questions. To the routes of a pages
tree, no answer is as good as the route of the site. -/
def heard (s : Surroundings) (call : MacroCall) (r : Registry) : List (Option String) :=
  (questions s call).map fun q =>
    match call.callee with
    | .loadRoutes => some ((q.answeredBy r).getD "/")
    | _ => q.answeredBy r

theorem Question.answeredBy_congr {r r' : Registry} {q : Question} (h : q.alike r r') :
    q.answeredBy r' = q.answeredBy r := by
  cases q with
  | route dir =>
      have h : r.answer dir = r'.answer dir := h
      rw [answeredBy, answeredBy, ← Registry.snd_answer, ← Registry.snd_answer, h]
  | loaded caller => exact Eq.symm h

/-- Registries that answer alike are heard alike. -/
theorem heard_congr {s : Surroundings} {call : MacroCall} {r r' : Registry}
    (h : AnswersAlike (questions s call) r r') : heard s call r' = heard s call r := by
  refine List.map_congr_left fun q hq => ?_
  rw [Question.answeredBy_congr (h q hq)]

/-! ## Steps in lockstep -/

/-- The step comes to the same with both registries: it has one result, registers
the same, and leaves the rest of the expansion the same. -/
def SameStep (s : Surroundings) (m : Expand α) (r r' : Registry) : Prop :=
  ∀ x : Expansion, ∃ (result : Except MacroError α) (y : Expansion) (added : List Registration),
    perform m s { x with registry := r } = (result, { y with registry := r.registerAll added }) ∧
    perform m s { x with registry := r' } = (result, { y with registry := r'.registerAll added })

/-- The step asks nothing: it comes to the same with any two registries. -/
def Blind (s : Surroundings) (m : Expand α) : Prop :=
  ∀ r r', SameStep s m r r'

namespace SameStep

variable {s : Surroundings} {r r' : Registry}

theorem bind {m : Expand α} {f : α → Expand β} (hm : SameStep s m r r')
    (hf : ∀ a added, SameStep s (f a) (r.registerAll added) (r'.registerAll added)) :
    SameStep s (m >>= f) r r' := by
  intro x
  obtain ⟨result, y, added, h, h'⟩ := hm x
  cases result with
  | error e => exact ⟨.error e, y, added, perform_bind_error s _ h, perform_bind_error s _ h'⟩
  | ok a =>
      obtain ⟨last, z, more, hlast, hlast'⟩ := hf a added y
      refine ⟨last, z, added ++ more, ?_, ?_⟩
      · rw [perform_bind_ok s _ h, hlast, Registry.registerAll_append]
      · rw [perform_bind_ok s _ h', hlast', Registry.registerAll_append]

theorem throw (e : MacroError) : SameStep s (throw e : Expand α) r r' :=
  fun x => ⟨.error e, x, [], rfl, rfl⟩

theorem read_bind {f : Surroundings → Expand β} (hf : SameStep s (f s) r r') :
    SameStep s (read >>= f) r r' := hf

theorem settle_bind {result : Except MacroError α} {f : α → Expand β}
    (hf : ∀ a, result = .ok a → SameStep s (f a) r r') : SameStep s (settle result >>= f) r r' := by
  cases result with
  | error e => exact throw e
  | ok a => exact hf a rfl

theorem depend_bind {g : Dependencies → Dependencies} {f : Unit → Expand β}
    (hf : SameStep s (f ()) r r') : SameStep s (depend g >>= f) r r' :=
  fun x => hf { x with dependencies := g x.dependencies }

/-- A step that is another one once its question to the registry is answered. -/
theorem ask {m m' : Expand α}
    (h : ∀ x : Expansion, x.registry = r ∨ x.registry = r' → perform m s x = perform m' s x)
    (hm : SameStep s m' r r') : SameStep s m r r' := by
  intro x
  obtain ⟨result, y, added, hrun, hrun'⟩ := hm x
  exact ⟨result, y, added, (h _ (.inl rfl)).trans hrun, (h _ (.inr rfl)).trans hrun'⟩

/-- Steps in a row, each of which comes to the same whatever has been registered
before it. -/
theorem mapM {γ : Type} {f : γ → Expand α} {xs : List γ}
    (hf : ∀ c ∈ xs, ∀ added, SameStep s (f c) (r.registerAll added) (r'.registerAll added)) :
    SameStep s (xs.mapM f) r r' := by
  induction xs generalizing r r' with
  | nil => exact fun x => ⟨.ok [], x, [], rfl, rfl⟩
  | cons c xs ih =>
      rw [List.mapM_cons]
      refine bind (hf c List.mem_cons_self []) fun a added => bind (ih fun d hd more => ?_) ?_
      · rw [← Registry.registerAll_append, ← Registry.registerAll_append]
        exact hf d (List.mem_cons_of_mem c hd) _
      · exact fun as more x => ⟨.ok (a :: as), x, [], rfl, rfl⟩

end SameStep

namespace Blind

variable {s : Surroundings}

theorem pure (a : α) : Blind s (Pure.pure a) := fun _ _ x => ⟨.ok a, x, [], rfl, rfl⟩

theorem read : Blind s read := fun _ _ x => ⟨.ok s, x, [], rfl, rfl⟩

theorem throw (e : MacroError) : Blind s (throw e : Expand α) := fun _ _ => .throw e

theorem settle (result : Except MacroError α) : Blind s (settle result) := by
  cases result with
  | error e => exact throw e
  | ok a => exact pure a

theorem depend (f : Dependencies → Dependencies) : Blind s (depend f) :=
  fun _ _ x => ⟨.ok (), { x with dependencies := f x.dependencies }, [], rfl, rfl⟩

theorem watch (dir : Path) : Blind s (watch dir) := depend _

theorem emitting (m : StateM ImportScope α) : Blind s (emitting m) :=
  fun _ _ x => ⟨.ok (m.run x.scope).1, { x with scope := (m.run x.scope).2 }, [], rfl, rfl⟩

theorem append_prelude (e : Expression) :
    Blind s (modify fun x => { x with prelude := x.prelude ++ [e] }) :=
  fun _ _ x => ⟨.ok (), { x with prelude := x.prelude ++ [e] }, [], rfl, rfl⟩

theorem onRegistry {f : Registry → Registry} (added : List Registration)
    (hf : ∀ r, f r = r.registerAll added) : Blind s (onRegistry f) := by
  intro r r' x
  refine ⟨.ok (), x, added, ?_, ?_⟩
  · rw [← hf]
    rfl
  · rw [← hf]
    rfl

theorem bind {m : Expand α} {f : α → Expand β} (hm : Blind s m) (hf : ∀ a, Blind s (f a)) :
    Blind s (m >>= f) :=
  fun r r' => (hm r r').bind fun a _ => hf a _ _

theorem read_bind {f : Surroundings → Expand β} (hf : Blind s (f s)) :
    Blind s (MonadReader.read >>= f) := hf

theorem forM {γ : Type} {f : γ → Expand Unit} (xs : List γ) (hf : ∀ c, Blind s (f c)) :
    Blind s (xs.forM f) := by
  induction xs with
  | nil => exact pure ()
  | cons c xs ih => exact bind (hf c) fun _ => ih

end Blind

/-! ## Calls in lockstep -/

variable {s : Surroundings}

theorem blind_loadPages (pattern base : String) : Blind s (loadPages pattern base) := by
  refine .read_bind (.bind (.onRegistry ((PageTree.load s.tree
    (pageRequest s pattern base)).visited.map fun page => .route page.dir page.route) ?_) ?_)
  · intro r
    rw [Registry.registerAll, List.foldl_map]
    rfl
  · refine fun _ => .bind (.settle _) fun tree => .bind (.depend _) fun _ => ?_
    exact .bind (.watch _) fun _ => .pure tree

theorem blind_loadRouteTranslations (pages : ImportPattern) (route : Route) :
    Blind s (loadRouteTranslations pages route) := by
  rw [loadRouteTranslations]
  split
  · exact .pure ()
  · refine .read_bind (.bind (.settle _) fun translations => ?_)
    refine .bind (.onRegistry [.loaded translations.id] fun _ => rfl) fun _ => ?_
    refine .bind (.emitting _) fun registration => ?_
    exact .bind (.append_prelude registration) fun _ => .watch _

theorem blind_loadTranslations (call : MacroCall) : Blind s (loadTranslations call) := by
  have hpattern : Blind s (translationPattern call) := by
    refine .bind (.settle _) fun given? => ?_
    cases given? with
    | some pattern => exact .pure _
    | none =>
        refine .read_bind ?_
        cases s.configuration.translations.defaultGlob with
        | some pattern => exact .pure _
        | none => exact .throw _
  have hdirectory : Blind s (translationDirectory call) := by
    refine .read_bind (.bind (.settle _) fun given? => ?_)
    cases given? with
    | some pattern => exact .bind (.settle _) fun _ => .pure _
    | none => exact .pure _
  refine .bind hpattern fun pattern => .bind hdirectory fun directory => .read_bind ?_
  refine .bind (.settle _) fun translations => ?_
  refine .bind (.onRegistry [.loaded translations.id] fun _ => rfl) fun _ => ?_
  exact .bind (.depend _) fun _ => .bind (.watch _) fun _ => .emitting _

variable {call : MacroCall} {r r' : Registry}

theorem sameStep_enclosingRoute?_bind {f : Option String → Expand α}
    (h : (r'.enclosingRoute? s.dir).map (·.2) = (r.enclosingRoute? s.dir).map (·.2))
    (hf : ∀ found?, Blind s (f found?)) : SameStep s (enclosingRoute? >>= f) r r' := by
  refine .ask (fun x hx => ?_) (hf ((r.enclosingRoute? s.dir).map (·.2)) r r')
  rw [perform_enclosingRoute?_bind]
  rcases hx with hx | hx <;> rw [hx]
  rw [h]

/-- No route around the module is as good as the route of the site. -/
theorem sameStep_enclosingRoute?_getD_bind {f : String → Expand α}
    (h : ((r'.enclosingRoute? s.dir).map (·.2)).getD "/" =
      ((r.enclosingRoute? s.dir).map (·.2)).getD "/")
    (hf : ∀ base, Blind s (f base)) :
    SameStep s (enclosingRoute? >>= fun found? => pure (found?.getD "/") >>= f) r r' := by
  refine .ask (fun x hx => ?_) (hf (((r.enclosingRoute? s.dir).map (·.2)).getD "/") r r')
  rw [perform_enclosingRoute?_bind, pure_bind]
  rcases hx with hx | hx <;> rw [hx]
  rw [h]

theorem sameStep_loadRoutes (hcallee : call.callee = .loadRoutes)
    (h : heard s call r' = heard s call r) : SameStep s (loadRoutes call) r r' := by
  have hload : ∀ pattern base, Blind s (do
      let tree ← loadPages pattern base
      let route := Route.ofPage tree.root
      route.flatten.forM (loadRouteTranslations tree.pattern)
      emitting (route.emit (← read).configuration.pages.wrapper)) := by
    intro pattern base
    refine .bind (blind_loadPages pattern base) fun tree => ?_
    refine .bind (.forM _ fun route => blind_loadRouteTranslations tree.pattern route) ?_
    exact fun _ => .read_bind (.emitting _)
  refine .settle_bind fun pattern hpattern => .settle_bind fun base? hbase => ?_
  cases base? with
  | some base => exact Blind.bind (.pure base) (hload pattern) r r'
  | none =>
      rw [heard, heard, questions, hcallee] at h
      dsimp only at h
      rw [hpattern, hbase] at h
      have hsame : ((r'.enclosingRoute? s.dir).map (·.2)).getD "/" =
          ((r.enclosingRoute? s.dir).map (·.2)).getD "/" :=
        Option.some.inj (List.cons.inj h).1
      exact sameStep_enclosingRoute?_getD_bind hsame (hload pattern)

theorem sameStep_loadMenus (hcallee : call.callee = .loadMenus)
    (h : heard s call r' = heard s call r) : SameStep s (loadMenus call) r r' := by
  have hload : ∀ pattern base, Blind s (do
      let tree ← loadPages pattern base
      return Expression.array (← emitting (Menu.emitAll (Menu.ofPage tree.root)))) :=
    fun pattern base =>
      .bind (blind_loadPages pattern base) fun _ => .bind (.emitting _) fun _ => .pure _
  refine .settle_bind fun pattern hpattern => .settle_bind fun base? hbase => ?_
  cases base? with
  | some base => exact Blind.bind (.pure base) (hload pattern) r r'
  | none =>
      rw [heard, heard, questions, hcallee] at h
      dsimp only at h
      rw [hpattern, hbase] at h
      have hsame : (r'.enclosingRoute? s.dir).map (·.2) = (r.enclosingRoute? s.dir).map (·.2) :=
        (List.cons.inj h).1
      refine sameStep_enclosingRoute?_bind hsame fun found? => ?_
      cases found? with
      | some base => exact Blind.bind (.pure base) (hload pattern)
      | none => exact .read_bind (.bind (.throw _) (hload pattern))

theorem resolve_congr {r r' : Registry} {file : Path}
    (h : (r.enclosingRoute? (RoutePath.directoryOf file)).map (·.2) =
      (r'.enclosingRoute? (RoutePath.directoryOf file)).map (·.2)) (relative : String) :
    RoutePath.resolve r file relative = RoutePath.resolve r' file relative := by
  rw [RoutePath.resolve, RoutePath.resolve]
  cases hr : r.enclosingRoute? (RoutePath.directoryOf file) with
  | none =>
      cases hr' : r'.enclosingRoute? (RoutePath.directoryOf file) with
      | none => rfl
      | some found' =>
          rw [hr, hr'] at h
          exact nomatch h
  | some found =>
      cases hr' : r'.enclosingRoute? (RoutePath.directoryOf file) with
      | none =>
          rw [hr, hr'] at h
          exact nomatch h
      | some found' =>
          rw [hr, hr'] at h
          have hroute : found.2 = found'.2 := Option.some.inj h
          dsimp only
          rw [hroute]

theorem sameStep_resolveRoute (hcallee : call.callee = .resolveRoute)
    (h : heard s call r' = heard s call r) : SameStep s (resolveRoute call) r r' := by
  refine .settle_bind fun relative? hrelative => .depend_bind ?_
  rw [heard, heard, questions, hcallee] at h
  dsimp only at h
  rw [hrelative] at h
  have hsame := resolve_congr (List.cons.inj h).1 (relative?.getD ".")
  have hbind : ∀ path : RoutePath, Blind s (do
      return Expression.ofPieces
        (← settle (path.bind ((call.args.drop 1).map routeArg)))) := fun path =>
    .bind (.settle _) fun _ => .pure _
  refine .ask (fun x hx => ?_) (Blind.bind
    (.settle (RoutePath.resolve r s.file (relative?.getD "."))) hbind r r')
  have hx : RoutePath.resolve x.registry s.file (relative?.getD ".") =
      RoutePath.resolve r s.file (relative?.getD ".") := by
    rcases hx with hx | hx <;> rw [hx]
    exact hsame
  rw [perform_get_bind, perform_read_bind, hx]

theorem sameStep_namespacesFor
    (h : call.args.isEmpty = true →
      r'.resolveNamespace? (Namespace.ofDirectory (RoutePath.directoryOf s.file) s.root) =
        r.resolveNamespace? (Namespace.ofDirectory (RoutePath.directoryOf s.file) s.root)) :
    SameStep s (namespacesFor call) r r' := by
  rw [namespacesFor]
  dsimp only
  split
  · next hargs =>
      refine .depend_bind (.read_bind (.ask (fun x hx => ?_) (Blind.settle
        (NamespaceRef.resolve r s.file s.root
          s.configuration.translations.globalNamespaces) r r')))
      rw [perform_get_bind]
      rcases hx with hx | hx <;> rw [hx]
      rw [NamespaceRef.resolve, NamespaceRef.resolve, h hargs]
  · exact .throw _

/-- A call that hears the same from two registries comes to the same with both. -/
theorem sameStep_expand (call : MacroCall) (h : heard s call r' = heard s call r) :
    SameStep s (expand call) r r' := by
  have hns : call.callee = .useTranslations ∨ call.callee = .getTranslations ∨
      call.callee = .resolveNamespace → SameStep s (namespacesFor call) r r' := by
    intro hcallee
    refine sameStep_namespacesFor fun hargs => ?_
    rcases hcallee with hcallee | hcallee | hcallee <;>
      · rw [heard, heard, questions, hcallee] at h
        dsimp only at h
        rw [if_pos hargs] at h
        exact (List.cons.inj h).1
  rw [expand]
  cases hcallee : call.callee with
  | loadRoutes => exact sameStep_loadRoutes hcallee h
  | loadMenus => exact sameStep_loadMenus hcallee h
  | resolveRoute => exact sameStep_resolveRoute hcallee h
  | loadTranslations => exact blind_loadTranslations call r r'
  | useTranslations =>
      exact .bind (hns (.inl hcallee)) fun _ _ => Blind.read_bind (.emitting _) _ _
  | getTranslations =>
      exact .bind (hns (.inr (.inl hcallee))) fun _ _ => Blind.read_bind (.emitting _) _ _
  | resolveNamespace =>
      exact .bind (hns (.inr (.inr hcallee))) fun _ _ => Blind.pure _ _ _

theorem sameStep_expandCall (text : String) (call : MacroCall)
    (h : heard s call r' = heard s call r) : SameStep s (expandCall text call) r r' :=
  .bind (sameStep_expand call h) fun _ _ => Blind.pure _ _ _

/-! ## Modules in lockstep -/

/-- A module comes to the same with two registries that answer its questions
alike. -/
theorem expandModule_eq_of_alike (s : Surroundings) (text : String) {r r' : Registry}
    (h : AnswersAlike (moduleQuestions s text) r r') :
    (expandModule s r' text).2 = (expandModule s r text).2 := by
  rcases hcalls : analyze s.configuration s.file text with e | _ | ⟨tree, calls⟩
  · rw [expandModule_of_error r hcalls, expandModule_of_error r' hcalls]
  · rw [expandModule_of_none r hcalls, expandModule_of_none r' hcalls]
  · rw [moduleQuestions, hcalls] at h
    obtain ⟨ds, macroImports, scope, hmodule⟩ := expandModule_of_calls hcalls
    have hcall : ∀ call ∈ calls, ∀ added,
        SameStep s (expandCall text call) (r.registerAll added) (r'.registerAll added) := by
      intro call hmem added
      have halike : AnswersAlike (questions s call) r r' := fun q hq =>
        h q (List.mem_flatMap.2 ⟨call, hmem, hq⟩)
      exact sameStep_expandCall text call (heard_congr (halike.registerAll added))
    obtain ⟨result, y, added, hrun, hrun'⟩ := SameStep.mapM hcall ⟨r, scope, {}, []⟩
    rw [hmodule, hmodule]
    cases result with
    | error e =>
        rw [perform_expandCalls_error ds macroImports hrun,
          perform_expandCalls_error ds macroImports hrun']
    | ok edits =>
        rw [perform_expandCalls_ok ds macroImports hrun, perform_expandCalls_ok ds macroImports hrun']
        rfl

end SiteMacros.Expansion
