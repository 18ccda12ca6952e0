import SiteMacros.Configuration
import SiteMacros.Dependencies
import SiteMacros.Expression.Render
import SiteMacros.PageTree
import SiteMacros.Script.Call

/-!
# Expansion of a call

Each macro has a rule that yields the expression for its calls. The rules share
what a module's expansion changes as it goes on: the registry, the module's
imports, its dependencies, and the statements that go below its imports. A rule
that fails has changed what it has changed; the pages visited before a fault, for
instance, have their routes.
-/

namespace SiteMacros

/-- A module in its project. -/
structure Surroundings where
  tree : FileTree
  configuration : Configuration
  root : Path
  file : Path

/-- The directory that the module's patterns are seen from. -/
def Surroundings.dir (s : Surroundings) : Path :=
  s.file.parent?.getD s.root

/-- What the expansion of a module changes. -/
structure Expansion where
  registry : Registry
  scope : ImportScope
  dependencies : Dependencies := {}
  /-- The statements below the imports, in order. -/
  prelude : List Expression := []

/-- A step of a module's expansion. A failure keeps what was changed. -/
abbrev Expand (α : Type) := ReaderT Surroundings (ExceptT MacroError (StateM Expansion)) α

namespace Expansion

open Script

def onRegistry (f : Registry → Registry) : Expand Unit :=
  modify fun x => { x with registry := f x.registry }

def depend (f : Dependencies → Dependencies) : Expand Unit :=
  modify fun x => { x with dependencies := f x.dependencies }

def watch (dir : Path) : Expand Unit :=
  depend fun d => { d with watched := d.watched ++ [dir] }

/-- Emit with the module's imports. -/
def emitting {α : Type} (m : StateM ImportScope α) : Expand α :=
  modifyGet fun x =>
    let (a, scope) := m.run x.scope
    (a, { x with scope })

/-- A result that may be an error. -/
def settle {α : Type} : Except MacroError α → Expand α
  | .ok a => pure a
  | .error e => throw e

/-! ### Arguments -/

/-- The argument at a place, which has to be a plain string if it is there. -/
def literal? (call : MacroCall) (place : Nat) : Except MacroError (Option String) :=
  match call.args[place]? with
  | none => .ok none
  | some a =>
      match a.literal? with
      | some value => .ok (some value)
      | none => .error (.argumentType call.callee.name (place + 1) a.text)

/-- The argument at a place, which has to be there and a plain string. -/
def literal (call : MacroCall) (place : Nat) (what : String) : Except MacroError String := do
  match ← literal? call place with
  | some value => .ok value
  | none => .error (.configuration (.missingArgument call.callee.name what))

/-- An argument as the value of a parameter. -/
def routeArg (a : Argument) : RouteArg :=
  match a.literal? with
  | some value => .literal value
  | none => .expression a.text

/-! ### Pages -/

/-- The route of the nearest page directory around the module. -/
def enclosingRoute? : Expand (Option String) := do
  return ((← get).registry.enclosingRoute? (← read).dir).map (·.2)

/-- Read a pages tree, and register the route of each page that is complete. -/
def loadPages (pattern base : String) : Expand PageTree := do
  let s ← read
  let visit := PageTree.load s.tree {
    pattern, base, root := s.root, importer := s.dir
    allowNoMeta := s.configuration.pages.allowNoMeta }
  onRegistry fun r => visit.visited.foldl (fun r page => r.registerRoute page.dir page.route) r
  let tree ← settle visit.result
  depend fun d => { d with pageStructure := true, registers := true }
  watch tree.root.dir
  return tree

/-- Load the translations of a page's route, and put their registration below the
imports. -/
def loadRouteTranslations (pages : ImportPattern) (route : Route) : Expand Unit := do
  match route.translations with
  | none => pure ()
  | some (id, dir) =>
      let s ← read
      let settings := s.configuration.translations
      let specifierOf (path : Path) : String :=
        (pages.specifierOf? path).getD (relativeSpecifier s.dir path)
      let translations ← settle (Translations.ofPage s.tree id dir settings.languages specifierOf)
      onRegistry (·.registerNamespace translations.id)
      let registration ← emitting (translations.emit settings.runtime)
      modify fun x => { x with prelude := x.prelude ++ [registration] }
      watch dir

/-- The routes of a pages tree: below the route around the module unless a base
is given. -/
def loadRoutes (call : MacroCall) : Expand Expression := do
  let pattern ← settle (literal call 0 "a pages directory")
  let base ← match ← settle (literal? call 1) with
    | some base => pure base
    | none => do pure ((← enclosingRoute?).getD "/")
  let tree ← loadPages pattern base
  let route := Route.ofPage tree.root
  route.flatten.forM (loadRouteTranslations tree.pattern)
  emitting (route.emit (← read).configuration.pages.wrapper)

/-- The menu of a pages tree, whose base has to be given or registered. -/
def loadMenus (call : MacroCall) : Expand Expression := do
  let pattern ← settle (literal call 0 "a pages directory")
  let base ← match ← settle (literal? call 1) with
    | some base => pure base
    | none => do
        match ← enclosingRoute? with
        | some base => pure base
        | none => throw (.unregisteredCallSite (← read).file)
  let tree ← loadPages pattern base
  return .array (← emitting (Menu.emitAll (Menu.ofPage tree.root)))

/-- The path of a route, with values for its parameters. -/
def resolveRoute (call : MacroCall) : Expand Expression := do
  let relative := (← settle (literal? call 0)).getD "."
  depend fun d => { d with pageStructure := true }
  let path ← settle (RoutePath.resolve (← get).registry (← read).file relative)
  let pieces ← settle (path.bind ((call.args.drop 1).map routeArg))
  return .ofPieces pieces

/-! ### Translations -/

def translationPattern (call : MacroCall) : Expand String := do
  match ← settle (literal? call 0) with
  | some pattern => return pattern
  | none =>
      match (← read).configuration.translations.defaultGlob with
      | some pattern => return pattern
      | none => throw (.configuration .noGlob)

def translationDirectory (call : MacroCall) : Expand Path := do
  let s ← read
  match ← settle (literal? call 1) with
  | some pattern => return (← settle (ImportPattern.resolve pattern s.dir s.root)).target
  | none => return s.dir

/-- The registration of a directory's translations. -/
def loadTranslations (call : MacroCall) : Expand Expression := do
  let pattern ← translationPattern call
  let directory ← translationDirectory call
  let s ← read
  let settings := s.configuration.translations
  let translations ← settle (Translations.find s.tree {
    pattern, directory, importer := s.dir, root := s.root, languages := settings.languages })
  onRegistry (·.registerNamespace translations.id)
  depend fun d => { d with registers := true }
  watch directory
  emitting (translations.emit settings.runtime)

/-- The namespaces that the module's texts are looked up in, for a call without
arguments. -/
def namespacesFor (call : MacroCall) : Expand NamespaceRef := do
  unless call.args.isEmpty do
    throw (.configuration (.takesNoArguments call.callee.name))
  depend fun d => { d with namespaces := true }
  let s ← read
  settle (NamespaceRef.resolve (← get).registry s.file s.root
    s.configuration.translations.globalNamespaces)

def expand (call : MacroCall) : Expand Expression := do
  match call.callee with
  | .loadRoutes => loadRoutes call
  | .loadMenus => loadMenus call
  | .resolveRoute => resolveRoute call
  | .loadTranslations => loadTranslations call
  | .useTranslations => do
      let ns ← namespacesFor call
      emitting (ns.emitUse (← read).configuration.translations.runtime)
  | .getTranslations => do
      let ns ← namespacesFor call
      emitting (ns.emitGet (← read).configuration.translations.runtime)
  | .resolveNamespace => return (← namespacesFor call).value

end Expansion

end SiteMacros
