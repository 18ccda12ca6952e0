import SiteMacros.Proofs.Guards
import SiteMacros.Proofs.Mentions

/-!
# What a module emits

The expansion of a module does many things, and few of them show in its code. What
shows is emitted: one expression for each call, and ahead of the expression for a tree
of routes the registrations of its translations, which go below the imports. These are
put down as a list of emissions, one for each call, and the code is what comes out when
they are run one after the other in the module's scope (`expandModule_yields`).

So the names of the emitted code are those of the emissions, and what each is meant for
is known (`emitAll_spelled`).
-/

namespace SiteMacros

/-- What takes the place of a call. -/
inductive Subject where
  | routes (route : Route)
  | menu (entries : List Menu)
  | path (pieces : List Piece)
  | registration (translations : Translations)
  | reader (ns : NamespaceRef)
  | fixedReader (ns : NamespaceRef)
  | namespaces (ns : NamespaceRef)

namespace Subject

/-- The macro whose calls come to this. -/
def macroName : Subject → MacroName
  | .routes _ => .loadRoutes
  | .menu _ => .loadMenus
  | .path _ => .resolveRoute
  | .registration _ => .loadTranslations
  | .reader _ => .useTranslations
  | .fixedReader _ => .getTranslations
  | .namespaces _ => .resolveNamespace

def emit (c : Configuration) : Subject → StateM ImportScope Expression
  | .routes route => route.emit c.pages.wrapper
  | .menu entries => do return .array (← Menu.emitAll entries)
  | .path pieces => return .ofPieces pieces
  | .registration t => t.emit c.translations.runtime
  | .reader ns => ns.emitUse c.translations.runtime
  | .fixedReader ns => ns.emitGet c.translations.runtime
  | .namespaces ns => return ns.value

def mentions (c : Configuration) : Subject → List Mention
  | .routes route => route.mentions c.pages.wrapper
  | .menu entries => Menu.mentionsAll entries
  | .registration t => t.mentions c.translations.runtime
  | .reader _ => [⟨.imported c.translations.runtime.reader, []⟩]
  | .fixedReader _ => [⟨.imported c.translations.runtime.holder, []⟩]
  | .path _ | .namespaces _ => []

end Subject

/-- What is emitted for a call. -/
structure Emission where
  /-- The translations whose registrations go below the imports. -/
  registrations : List Translations
  subject : Subject

namespace Emission

/-- The registrations, and the expression in the place of the call. -/
def emit (c : Configuration) (em : Emission) : StateM ImportScope (List Expression × Expression) :=
  do
    let registrations ← em.registrations.mapM (Translations.emit c.translations.runtime)
    let e ← em.subject.emit c
    return (registrations, e)

def registrationMentions (c : Configuration) (em : Emission) : List Mention :=
  em.registrations.flatMap (Translations.mentions c.translations.runtime)

end Emission

/-! ## The names of emissions -/

section

open Expression

theorem names_ofPieces (pieces : List Piece) : (Expression.ofPieces pieces).names [] = [] := by
  rw [Expression.ofPieces.eq_def]
  split
  · rfl
  · next hpieces =>
    clear hpieces
    rw [names]
    induction pieces with
    | nil => rfl
    | cons p ps ih => cases p <;> simpa [namesOfParts, names] using ih

theorem names_value (ns : NamespaceRef) : ns.value.names [] = [] := by
  cases ns with
  | single id => rfl
  | chain ids =>
      rw [NamespaceRef.value, names]
      induction ids with
      | nil => rfl
      | cons id ids ih => simpa [namesAll, names] using ih

variable (c : Configuration)

theorem Subject.emits (subject : Subject) :
    Emits (subject.emit c) fun later e => Spelled later (subject.mentions c) (e.names []) := by
  cases subject with
  | routes route => exact route.emits _
  | menu entries => exact .bind (Menu.emitsAll entries) fun _ => .pure fun _ h => h
  | path pieces =>
      refine .pure fun _ => ?_
      rw [names_ofPieces]
      exact .nil
  | registration t => exact t.emits _
  | reader ns =>
      refine .bind (.requestNamed _ _) fun name => .pure fun _ h => ?_
      simp only [names, namesAll, names_value, List.append_nil]
      exact spelled_import h
  | fixedReader ns =>
      refine .bind (.requestDefault _ _) fun name => .pure fun _ h => ?_
      simp only [names, namesAll, names_value, List.append_nil]
      exact spelled_import h
  | namespaces ns =>
      refine .pure fun _ => ?_
      rw [names_value]
      exact .nil

theorem registrations_emit (ts : List Translations) :
    Emits (ts.mapM (Translations.emit c.translations.runtime)) fun later es =>
      Spelled later (ts.flatMap (Translations.mentions c.translations.runtime))
        (namesAll [] es) := by
  induction ts with
  | nil => exact .pure fun _ => .nil
  | cons t ts ih =>
      rw [List.mapM_cons]
      refine .bind (t.emits _) fun e => .bind ih fun es => ?_
      exact .pure fun _ hrest hfirst => hfirst.append hrest

/-- The names that an emission has come to are those that the scope has for its
mentions. -/
structure Emission.Spelled (scope : ImportScope) (em : Emission)
    (result : List Expression × Expression) : Prop where
  subject : SiteMacros.Spelled scope (em.subject.mentions c) (result.2.names [])
  registrations :
    SiteMacros.Spelled scope (em.registrationMentions c) (namesAll [] result.1)

theorem Emission.emits (em : Emission) :
    Emits (em.emit c) fun later result => em.Spelled c later result := by
  refine .bind (registrations_emit c em.registrations) fun es => ?_
  refine .bind (em.subject.emits c) fun e => ?_
  exact .pure fun _ hsubject hregistrations => ⟨hsubject, hregistrations⟩

/-- After a run of emissions, all names are those that the last scope has for the
mentions. -/
theorem emitAll_spelled (ems : List Emission) :
    Emits (ems.mapM (Emission.emit c)) fun later results =>
      List.Forall₂ (Emission.Spelled c later) ems results :=
  .mapM (Emission.emits c) ems

end

namespace Expansion

open Script

variable {α β : Type} {s : Surroundings}

/-! ## Steps that emit nothing -/

/-- The step emits nothing: it leaves the imports and the statements below them. -/
def Quiet (s : Surroundings) (m : Expand α) : Prop :=
  ∀ x, (perform m s x).2.scope = x.scope ∧ (perform m s x).2.prelude = x.prelude

namespace Quiet

theorem pure (a : α) : Quiet s (Pure.pure a) := fun _ => ⟨rfl, rfl⟩

theorem read : Quiet s read := fun _ => ⟨rfl, rfl⟩

theorem get : Quiet s get := fun _ => ⟨rfl, rfl⟩

theorem throw (e : MacroError) : Quiet s (throw e : Expand α) := fun _ => ⟨rfl, rfl⟩

theorem depend (f : Dependencies → Dependencies) : Quiet s (depend f) := fun _ => ⟨rfl, rfl⟩

theorem watch (dir : Path) : Quiet s (watch dir) := depend _

theorem onRegistry (f : Registry → Registry) : Quiet s (onRegistry f) := fun _ => ⟨rfl, rfl⟩

theorem settle (r : Except MacroError α) : Quiet s (settle r) := by
  intro x
  rw [perform_settle]
  exact ⟨rfl, rfl⟩

theorem bind {m : Expand α} {f : α → Expand β} (hm : Quiet s m) (hf : ∀ a, Quiet s (f a)) :
    Quiet s (m >>= f) := by
  intro x
  have hfirst := hm x
  rcases hrun : perform m s x with ⟨e | a, y⟩
  · rw [hrun] at hfirst
    rw [perform_bind_error s x hrun]
    exact hfirst
  · rw [hrun] at hfirst
    rw [perform_bind_ok s x hrun]
    exact ⟨(hf a y).1.trans hfirst.1, (hf a y).2.trans hfirst.2⟩

end Quiet

theorem quiet_enclosingRoute? : Quiet s enclosingRoute? :=
  .bind .get fun _ => .bind .read fun _ => .pure _

theorem quiet_loadPages (pattern base : String) : Quiet s (loadPages pattern base) := by
  refine .bind .read fun _ => .bind (.onRegistry _) fun _ => .bind (.settle _) fun _ => ?_
  exact .bind (.depend _) fun _ => .bind (.watch _) fun _ => .pure _

theorem quiet_translationPattern (call : MacroCall) : Quiet s (translationPattern call) := by
  refine .bind (.settle _) fun given? => ?_
  cases given? with
  | some pattern => exact .pure _
  | none =>
      refine .bind .read fun s' => ?_
      cases s'.configuration.translations.defaultGlob with
      | some pattern => exact .pure _
      | none => exact .throw _

theorem quiet_translationDirectory (call : MacroCall) : Quiet s (translationDirectory call) := by
  refine .bind .read fun _ => .bind (.settle _) fun given? => ?_
  cases given? with
  | some pattern => exact .bind (.settle _) fun _ => .pure _
  | none => exact .pure _

theorem quiet_namespacesFor (call : MacroCall) : Quiet s (namespacesFor call) := by
  have hresolve : Quiet s (do
      depend fun d => { d with namespaces := true }
      let s ← read
      settle (NamespaceRef.resolve (← get).registry s.file s.root
        s.configuration.translations.globalNamespaces)) :=
    .bind (.depend _) fun _ => .bind .read fun _ => .bind .get fun _ => .settle _
  rw [namespacesFor]
  dsimp only
  split
  · exact hresolve
  · exact .bind (.throw _) fun _ => hresolve

/-! ## Steps that emit -/

/-- A registration, and then the emission without it. -/
theorem run_emission_cons {γ : Type} {f : γ → StateM ImportScope Expression} {m : StateM ImportScope β}
    {t : γ} {ts : List γ} {e : Expression} {es : List Expression} {b : β}
    {scope scope' scope'' : ImportScope} (hfirst : (f t).run scope = (e, scope'))
    (hrest : (do
        let es ← ts.mapM f
        let b ← m
        return (es, b) : StateM ImportScope _).run scope' = ((es, b), scope'')) :
    (do
        let es ← (t :: ts).mapM f
        let b ← m
        return (es, b) : StateM ImportScope _).run scope = ((e :: es, b), scope'') := by
  rw [List.mapM_cons]
  simp only [bind_assoc, pure_bind]
  rw [StateT.run_bind, hfirst]
  cases hrest
  rfl

/-- If the step succeeds, what it has emitted is one emission, with a subject for which
`ok` holds. -/
def Yields (s : Surroundings) (ok : Subject → Prop) (m : Expand Expression) : Prop :=
  ∀ x y e, perform m s x = (.ok e, y) →
    ∃ (em : Emission) (registrations : List Expression), ok em.subject ∧
      (em.emit s.configuration).run x.scope = ((registrations, e), y.scope) ∧
      y.prelude = x.prelude ++ registrations

namespace Yields

variable {ok : Subject → Prop}

/-- The expression of a subject, and nothing below the imports. -/
theorem emitting (subject : Subject) (h : ok subject) :
    Yields s ok (emitting (subject.emit s.configuration)) := by
  intro x y e hrun
  cases hrun
  exact ⟨⟨[], subject⟩, [], h, rfl, (List.append_nil _).symm⟩

theorem throw (e : MacroError) : Yields s ok (throw e) :=
  fun _ _ _ h => nomatch congrArg Prod.fst h

theorem read_bind {f : Surroundings → Expand Expression} (h : Yields s ok (f s)) :
    Yields s ok (read >>= f) :=
  h

theorem quiet_bind {m : Expand α} {f : α → Expand Expression} (hm : Quiet s m)
    (hf : ∀ a, Yields s ok (f a)) : Yields s ok (m >>= f) := by
  intro x z e h
  obtain ⟨a, y, hfirst, h⟩ := exists_of_perform_bind_ok h
  obtain ⟨hscope, hprelude⟩ := hm x
  rw [hfirst] at hscope hprelude
  rw [← hscope, ← hprelude]
  exact hf a y z e h

/-- One registration more below the imports. -/
theorem registering (t : Translations) {m : Expand Expression} (hm : Yields s ok m) :
    Yields s ok (do
      let registration ← Expansion.emitting (t.emit s.configuration.translations.runtime)
      modify fun x => { x with prelude := x.prelude ++ [registration] }
      m) := by
  intro x z e h
  rcases hfirst : (t.emit s.configuration.translations.runtime).run x.scope with ⟨first, scope⟩
  have hemitted : perform (Expansion.emitting (t.emit s.configuration.translations.runtime)) s x =
      (.ok first, { x with scope }) := by
    rw [perform_emitting, hfirst]
  rw [perform_bind_ok s x hemitted, perform_bind_ok s _ (perform_modify s _ _)] at h
  obtain ⟨em, registrations, hok, hrun, hprelude⟩ := hm _ _ _ h
  refine ⟨⟨t :: em.registrations, em.subject⟩, first :: registrations, hok, ?_, ?_⟩
  · exact run_emission_cons hfirst hrun
  · rw [hprelude, List.append_assoc]
    rfl

/-- The translations of a page's route, if it has any, are registered below the
imports. -/
theorem afterTranslations (pages : ImportPattern) (route : Route) {m : Expand Expression}
    (hm : Yields s ok m) : Yields s ok (loadRouteTranslations pages route >>= fun _ => m) := by
  rw [loadRouteTranslations]
  cases route.translations with
  | none => exact quiet_bind (.pure ()) fun _ => hm
  | some found =>
      simp only [bind_assoc]
      refine read_bind (quiet_bind (.settle _) fun t => quiet_bind (.onRegistry _) fun _ => ?_)
      exact registering t (quiet_bind (.watch _) fun _ => hm)

theorem afterAllTranslations (pages : ImportPattern) (routes : List Route)
    {m : Expand Expression} (hm : Yields s ok m) :
    Yields s ok (routes.forM (loadRouteTranslations pages) >>= fun _ => m) := by
  induction routes with
  | nil => exact hm
  | cons route routes ih =>
      rw [List.forM, bind_assoc]
      exact afterTranslations pages route ih

end Yields

/-- The subject is what calls of the macro come to. -/
def comesFrom (call : MacroCall) (subject : Subject) : Prop :=
  subject.macroName = call.callee

theorem yields_loadRoutes {call : MacroCall} (hcallee : call.callee = .loadRoutes) :
    Yields s (comesFrom call) (loadRoutes call) := by
  refine .quiet_bind (.settle _) fun pattern => .quiet_bind (.settle _) fun base? => ?_
  have hload : ∀ base, Yields s (comesFrom call) (do
      let tree ← loadPages pattern base
      let route := Route.ofPage tree.root
      route.flatten.forM (loadRouteTranslations tree.pattern)
      emitting (route.emit (← read).configuration.pages.wrapper)) := by
    intro base
    refine .quiet_bind (quiet_loadPages pattern base) fun tree => ?_
    refine .afterAllTranslations tree.pattern _ (.read_bind ?_)
    exact .emitting (.routes (Route.ofPage tree.root)) hcallee.symm
  cases base? with
  | some base => exact .quiet_bind (.pure _) fun _ => hload _
  | none =>
      exact .quiet_bind quiet_enclosingRoute? fun _ => .quiet_bind (.pure _) fun _ => hload _

theorem yields_loadMenus {call : MacroCall} (hcallee : call.callee = .loadMenus) :
    Yields s (comesFrom call) (loadMenus call) := by
  refine .quiet_bind (.settle _) fun pattern => .quiet_bind (.settle _) fun base? => ?_
  have hload : ∀ base, Yields s (comesFrom call) (do
      let tree ← loadPages pattern base
      return Expression.array (← emitting (Menu.emitAll (Menu.ofPage tree.root)))) := fun base =>
    .quiet_bind (quiet_loadPages pattern base) fun tree =>
      .emitting (.menu (Menu.ofPage tree.root)) hcallee.symm
  cases base? with
  | some base => exact .quiet_bind (.pure _) fun _ => hload _
  | none =>
      refine .quiet_bind quiet_enclosingRoute? fun route? => ?_
      cases route? with
      | some base => exact .quiet_bind (.pure _) fun _ => hload _
      | none =>
          refine .quiet_bind .read fun _ => ?_
          exact .quiet_bind (.throw _) fun _ => hload _

/-- What a call emits is something that its macro stands for. -/
theorem yields_expand (call : MacroCall) : Yields s (comesFrom call) (expand call) := by
  rw [expand]
  cases hcallee : call.callee with
  | loadRoutes => exact yields_loadRoutes hcallee
  | loadMenus => exact yields_loadMenus hcallee
  | resolveRoute =>
      refine .quiet_bind (.settle _) fun _ => .quiet_bind (.depend _) fun _ => ?_
      refine .quiet_bind .get fun _ => .quiet_bind .read fun _ => ?_
      refine .quiet_bind (.settle _) fun _ => .quiet_bind (.settle _) fun pieces => ?_
      exact .emitting (.path pieces) hcallee.symm
  | loadTranslations =>
      refine .quiet_bind (quiet_translationPattern call) fun _ => ?_
      refine .quiet_bind (quiet_translationDirectory call) fun _ => .read_bind ?_
      refine .quiet_bind (.settle _) fun t => .quiet_bind (.onRegistry _) fun _ => ?_
      refine .quiet_bind (.depend _) fun _ => .quiet_bind (.watch _) fun _ => ?_
      exact .emitting (.registration t) hcallee.symm
  | useTranslations =>
      refine .quiet_bind (quiet_namespacesFor call) fun ns => .read_bind ?_
      exact .emitting (.reader ns) hcallee.symm
  | getTranslations =>
      refine .quiet_bind (quiet_namespacesFor call) fun ns => .read_bind ?_
      exact .emitting (.fixedReader ns) hcallee.symm
  | resolveNamespace =>
      refine .quiet_bind (quiet_namespacesFor call) fun ns => ?_
      exact .emitting (.namespaces ns) hcallee.symm

/-- Calls that are all expanded have an emission each, and what holds of the subjects of
single calls holds of theirs. -/
theorem perform_mapM_expand {ok : MacroCall → Subject → Prop}
    (hok : ∀ call, Yields s (ok call) (expand call)) {calls : List MacroCall} {x y : Expansion}
    {es : List Expression} (h : perform (calls.mapM expand) s x = (.ok es, y)) :
    ∃ ems : List Emission, ∃ results,
      List.Forall₂ (fun em call => ok call em.subject) ems calls ∧
      (ems.mapM (Emission.emit s.configuration)).run x.scope = (results, y.scope) ∧
      es = results.map (·.2) ∧ y.prelude = x.prelude ++ results.flatMap (·.1) := by
  induction calls generalizing x es with
  | nil =>
      cases h
      exact ⟨[], [], .nil, rfl, rfl, (List.append_nil _).symm⟩
  | cons call calls ih =>
      rw [List.mapM_cons] at h
      obtain ⟨e, z, hfirst, h⟩ := exists_of_perform_bind_ok h
      obtain ⟨rest, y', hrest, h⟩ := exists_of_perform_bind_ok h
      cases h
      obtain ⟨em, registrations, hcall, hem, hfirst⟩ := hok call x z e hfirst
      obtain ⟨ems, results, hcalls, hems, rfl, hprelude⟩ := ih hrest
      refine ⟨em :: ems, (registrations, e) :: results, .cons hcall hcalls, ?_, rfl, ?_⟩
      · rw [List.mapM_cons, StateT.run_bind, hem]
        show ((ems.mapM (Emission.emit s.configuration)) >>= fun results =>
          pure ((registrations, e) :: results)).run z.scope = _
        rw [StateT.run_bind, hems]
        rfl
      · rw [hprelude, hfirst, List.flatMap_cons, List.append_assoc]

/-- The text of a module with expressions in the place of its calls, guarded where they
have to be, without its imports of macros, and with a header below the last import. -/
def assembled (text : String) (ds macroImports : List ImportDeclaration)
    (calls : List (MacroCall × Expression)) (header : String) : String :=
  Edit.applyAll text
    (calls.map (fun c => Edit.guarded (replacement text c.1 c.2, isGuarded text c.1 c.2)) ++
      macroImports.map (removal text) ++ insertion text ds header)

/-- The calls of an expanded module have been expanded one after the other, and its code is
its text with their expressions in their places. -/
theorem expandModule_performs {r r' : Registry} {text : String} {m : ExpandedModule}
    (h : expandModule s r text = (r', .ok (some m))) :
    ∃ tree calls es, ∃ x : Expansion,
      analyze s.configuration s.file text = .ok (some (tree, calls)) ∧
      let ds := imports tree
      let macroImports := ds.filter s.configuration.macroSources.isMacroImport
      let kept := ds.filter (!s.configuration.macroSources.isMacroImport ·)
      perform (calls.mapM expand) s
        { registry := r, scope := .ofModule (identifiers tree) kept } = (.ok es, x) ∧
      es.length = calls.length ∧
      m.code = assembled text ds macroImports (calls.zip es) x.header := by
  rcases hcalls : analyze s.configuration s.file text with e | _ | ⟨tree, calls⟩
  · rw [expandModule_of_error r hcalls] at h
    cases congrArg Prod.snd h
  · rw [expandModule_of_none r hcalls] at h
    cases congrArg Prod.snd h
  · rw [expandModule_eq hcalls] at h
    dsimp only at h
    generalize hx : ({ registry := r, scope := _ } : Expansion) = x at h
    rcases hedits : perform (calls.mapM (expandCall text)) s x with ⟨e | edits, y⟩
    · rw [expandCalls, perform_bind_error s x hedits] at h
      cases congrArg Prod.snd h
    · rw [expandCalls, perform_bind_ok s x hedits, perform_get_bind] at h
      obtain ⟨es, hes, hlength, rfl⟩ := perform_mapM_expandCall hedits
      cases h
      subst hx
      exact ⟨tree, calls, es, y, rfl, hes, hlength, rfl⟩

/-- The code of an expanded module is its text with what the emissions have come to: an
expression in the place of each call, and the imports and the registrations below the
last import. What holds of the subjects of single calls holds of the emissions. -/
theorem expandModule_yields {ok : MacroCall → Subject → Prop}
    (hok : ∀ call, Yields s (ok call) (expand call)) {r r' : Registry} {text : String}
    {m : ExpandedModule} (h : expandModule s r text = (r', .ok (some m))) :
    ∃ tree calls, ∃ ems : List Emission, ∃ results, ∃ x : Expansion,
      analyze s.configuration s.file text = .ok (some (tree, calls)) ∧
      let ds := imports tree
      let macroImports := ds.filter s.configuration.macroSources.isMacroImport
      let kept := ds.filter (!s.configuration.macroSources.isMacroImport ·)
      List.Forall₂ (fun em call => ok call em.subject) ems calls ∧
      (ems.mapM (Emission.emit s.configuration)).run (.ofModule (identifiers tree) kept) =
        (results, x.scope) ∧
      x.prelude = results.flatMap (·.1) ∧
      m.code = assembled text ds macroImports (calls.zip (results.map (·.2))) x.header := by
  obtain ⟨tree, calls, es, x, hcalls, hes, -, hcode⟩ := expandModule_performs h
  obtain ⟨ems, results, hsubjects, hrun, rfl, hprelude⟩ := perform_mapM_expand hok hes
  exact ⟨tree, calls, ems, results, x, hcalls, hsubjects, hrun, hprelude, hcode⟩

/-- Each emission of an expanded module is for a macro that is called. -/
theorem expandModule_emissions {r r' : Registry} {text : String} {m : ExpandedModule}
    (h : expandModule s r text = (r', .ok (some m))) :
    ∃ tree calls, ∃ ems : List Emission, ∃ results, ∃ x : Expansion,
      analyze s.configuration s.file text = .ok (some (tree, calls)) ∧
      let ds := imports tree
      let macroImports := ds.filter s.configuration.macroSources.isMacroImport
      let kept := ds.filter (!s.configuration.macroSources.isMacroImport ·)
      ems.map (·.subject.macroName) = calls.map (·.callee) ∧
      (ems.mapM (Emission.emit s.configuration)).run (.ofModule (identifiers tree) kept) =
        (results, x.scope) ∧
      x.prelude = results.flatMap (·.1) ∧
      m.code = assembled text ds macroImports (calls.zip (results.map (·.2))) x.header := by
  obtain ⟨tree, calls, ems, results, x, hcalls, hsubjects, hrest⟩ :=
    expandModule_yields yields_expand h
  have hmacros : ems.map (·.subject.macroName) = calls.map (·.callee) :=
    List.forall₂_eq_eq_eq ▸ List.forall₂_map_left_iff.2 (List.forall₂_map_right_iff.2 hsubjects)
  exact ⟨tree, calls, ems, results, x, hcalls, hmacros, hrest⟩

end Expansion

end SiteMacros
