import SiteMacros.RoutePath

/-!
# Translation namespaces

A directory's namespace is its place in the project: the names on the way from
the project's root to it, with bars between them. A module reads translations
from the nearest namespace around it that has been loaded, and after that from
the namespaces that the configuration makes global.
-/

namespace SiteMacros

namespace Namespace

/-- The namespace of a directory in the project at `root`. -/
def ofDirectory (dir root : Path) : String :=
  let rel := (dir.relativeTo? root).getD dir
  "|".intercalate (Text.split '/' rel.toSlashed)

/-- The part of a file's name before the ending of a YAML file, if it is not
empty. -/
def stem? (name : String) : Option String := do
  let stem ← (Text.dropEnd? ".yaml" name).orElse fun _ => Text.dropEnd? ".yml" name
  if stem.isEmpty then none else some stem

/-- The language of a resource file, from its name: `en.yaml` is `en`. A tag has
at least two characters. -/
def languageTag? (file : Path) : Option String := do
  let name ← file.fileName?
  let tag ← stem? name
  if 2 ≤ tag.length then some tag else none

end Namespace

/-- The namespaces that a module's texts are looked up in. -/
inductive NamespaceRef where
  | single (id : String)
  /-- The module's own namespace, then the global ones. -/
  | chain (ids : List String)
  deriving DecidableEq, Repr

namespace NamespaceRef

/-- The namespaces for a module in `file`. -/
def resolve (r : Registry) (file root : Path) (globals : List String) :
    Except MacroError NamespaceRef :=
  let caller := Namespace.ofDirectory (RoutePath.directoryOf file) root
  match r.resolveNamespace? caller with
  | none => .error (.namespaceNotLoaded caller)
  | some own =>
      if globals.isEmpty then .ok (.single own)
      else .ok (.chain (own :: globals.filter (· != own)))

end NamespaceRef

end SiteMacros
