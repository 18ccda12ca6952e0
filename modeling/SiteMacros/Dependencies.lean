import SiteMacros.Path

/-!
# Dependencies of a module

What the expansion of a module was read from. When something changes, the
modules to expand again are those that depend on it.
-/

namespace SiteMacros

structure Dependencies where
  /-- Does it read a pages tree or the routes of the registry? -/
  pageStructure : Bool := false
  /-- Does it read the namespaces of the registry? -/
  namespaces : Bool := false
  /-- Does it write to the registry? -/
  registers : Bool := false
  /-- The directories whose files it reads. -/
  watched : List Path := []
  deriving DecidableEq, Repr, Inhabited

/-- Is `p` in a directory whose files the expansion reads? -/
def Dependencies.watches (d : Dependencies) (p : Path) : Bool :=
  d.watched.any p.startsWith

end SiteMacros
