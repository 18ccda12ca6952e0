import SiteMacros.Path.Map

/-!
# The registry

What the modules of one project have made known to each other: the route that
each page directory has, and the namespaces whose translations are loaded.
Modules that register run before those that ask, and the answer to a question is
always the most specific entry there is.
-/

namespace SiteMacros

/-- The routes of page directories, and the loaded namespaces. -/
structure Registry where
  routes : PathMap String := {}
  /-- The latest first. -/
  namespaces : List String := []
  /-- Each namespace is there once. -/
  distinct : namespaces.Nodup := by exact List.nodup_nil
  deriving Repr

instance : Inhabited Registry := ⟨{}⟩

namespace Registry

/-- The registry with `route` as the route of `dir`. -/
def registerRoute (r : Registry) (dir : Path) (route : String) : Registry :=
  { r with routes := r.routes.insert dir route }

/-- The registry with the namespace `id` loaded. -/
def registerNamespace (r : Registry) (id : String) : Registry :=
  if h : id ∈ r.namespaces then r
  else { r with
    namespaces := id :: r.namespaces
    distinct := List.nodup_cons.2 ⟨h, r.distinct⟩ }

/-- The registry without the routes at or below `dir`. -/
def pruneUnder (r : Registry) (dir : Path) : Registry :=
  { r with routes := r.routes.eraseUnder dir }

/-- The nearest directory around `dir`, itself included, that has a route, and
that route. -/
def enclosingRoute? (r : Registry) (dir : Path) : Option (Path × String) :=
  dir.ancestors.findSome? r.routes.entryAt?

/-- Is `id` the namespace `caller` or one around it? The empty namespace is
around all. -/
def encloses (caller id : String) : Bool :=
  if id = "" then true
  else
    match Text.dropStart? id caller with
    | none => false
    | some rest => rest = "" || Text.startsWith "|" rest

/-- The longest loaded namespace that is `caller` or around it. -/
def resolveNamespace? (r : Registry) (caller : String) : Option String :=
  (r.namespaces.filter (encloses caller)).foldl longer none
where
  /-- The longer of a namespace and the longest so far. -/
  longer : Option String → String → Option String
    | none, id => some id
    | some best, id => if best.utf8ByteSize < id.utf8ByteSize then some id else some best

/-- The number of routes and namespaces. -/
def size (r : Registry) : Nat :=
  r.routes.size + r.namespaces.length

end Registry

end SiteMacros
