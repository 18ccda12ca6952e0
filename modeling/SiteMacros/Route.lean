import SiteMacros.Page
import SiteMacros.Text.Uppercase
import SiteMacros.UrlPath

/-!
# Routes

Each page has a route, and the routes of its children below it: first the pages
of the menu by their numbers, then the hidden ones, then the fallback, whose path
ends in a star.

A page with children shows its layout around them. If it has an index view too,
that view gets a route of its own, ahead of the children and at the page's own
path, which it matches exactly.
-/

namespace SiteMacros

inductive RouteComponent where
  | module (ref : ModuleRef)
  /-- What is below it, unchanged. -/
  | passThrough
  | notImplemented
  deriving DecidableEq, Repr

/-- Is what a route shows there from the start? -/
def RouteComponent.sync : RouteComponent → Bool
  | .module ref => ref.sync
  | .passThrough | .notImplemented => true

/-- A route with the routes below it. -/
structure Route where
  id : String
  name : String
  path : String
  /-- Does the route match nothing below its path? -/
  exact : Bool
  isMenuItem : Bool
  sync : Bool
  component : RouteComponent
  metadata : Option ModuleRef
  /-- The page's id and its directory of translations. -/
  translations : Option (String × Path)
  children : List Route
  deriving Repr

namespace Page

def displayName (p : Page) : String :=
  Text.capitalize p.endpoint

/-- The page's children in the order of their routes, each with its kind. -/
def orderedChildren (p : Page) : List Page :=
  (PageKind.ordered (p.children.filterMap fun c => c.kind.map (·, c))).map (·.2)

/-- The route of the page's own index view, if it has children beside it. -/
def indexRoute? (p : Page) : Option Route :=
  if p.isLeaf then none
  else
    p.imports.index.map fun index => {
      id := p.id ++ "|index"
      name := p.displayName
      path := p.route
      exact := true
      isMenuItem := false
      sync := index.sync
      component := .module index
      metadata := p.imports.metadata
      translations := none
      children := [] }

/-- What the page's route shows. -/
def component (p : Page) : RouteComponent :=
  if p.isLeaf then p.imports.index.elim .notImplemented .module
  else p.imports.layout.elim .passThrough .module

/-- The page's route with given routes below it. -/
def routeWith (p : Page) (isMenuItem : Bool) (children : List Route) : Route where
  id := p.id
  name := p.displayName
  path := p.route
  exact := p.isLeaf
  isMenuItem := isMenuItem
  sync := p.component.sync
  component := p.component
  metadata := p.imports.metadata
  translations := p.imports.translations.map (p.id, ·)
  children := p.indexRoute?.toList ++ children

end Page

namespace Route

/-- The route of a child as its kind has it. -/
def ofKind (kind : PageKind) (r : Route) : Route :=
  match kind with
  | .menuItem _ => { r with isMenuItem := true }
  | .hidden _ => r
  | .fallback => { r with exact := false, path := UrlPath.wildcard r.path }

mutual

/-- The route of a page that is not in the menu. -/
def ofPage : Page → Route
  | ⟨id, rawName, dir, kind, protect, endpoint, route, imports, children⟩ =>
      Page.routeWith ⟨id, rawName, dir, kind, protect, endpoint, route, imports, children⟩ false
        ((PageKind.ordered (ofChildren children)).map (·.2))

/-- The routes of children that have a kind, each with its kind. -/
def ofChildren : List Page → List (PageKind × Route)
  | [] => []
  | c :: cs =>
      match c.kind with
      | some kind => (kind, ofKind kind (ofPage c)) :: ofChildren cs
      | none => ofChildren cs

end

mutual

/-- The route and all below it, each before those below. -/
def flatten : Route → List Route
  | ⟨id, name, path, exact, isMenuItem, sync, component, metadata, translations, children⟩ =>
      ⟨id, name, path, exact, isMenuItem, sync, component, metadata, translations, children⟩ ::
        flattenAll children

def flattenAll : List Route → List Route
  | [] => []
  | r :: rs => flatten r ++ flattenAll rs

end

end Route

end SiteMacros
