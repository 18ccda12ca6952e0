import SiteMacros.Glob.Search
import SiteMacros.Namespace

/-!
# Loading translations

A namespace's translations are resource files, one for each language. They are
found by a pattern that a module gives, or they lie in a page's directory of
translations. Either way a file counts if its name is a language tag with the
ending of a YAML file, and its language is wanted.

Loading makes the namespace known; a failure leaves the registry as it was.
-/

namespace SiteMacros

/-- A file of translations. -/
structure Resource where
  language : String
  path : Path
  /-- How the module that loads it imports it. -/
  specifier : String
  deriving DecidableEq, Repr

/-- A namespace with its files. -/
structure Translations where
  id : String
  resources : List Resource
  deriving DecidableEq, Repr

namespace Translations

/-- Is a language wanted? Without a list all are. -/
def wanted (languages : Option (List String)) (tag : String) : Bool :=
  match languages with
  | some tags => tags.contains tag
  | none => true

/-- The resources among files. -/
def resourcesOf (languages : Option (List String)) (specifierOf : Path → String)
    (files : List Path) : List Resource :=
  files.filterMap fun path =>
    match Namespace.languageTag? path with
    | some tag => if wanted languages tag then some ⟨tag, path, specifierOf path⟩ else none
    | none => none

/-- A request of a module for the translations of a directory. -/
structure Request where
  pattern : String
  /-- The directory that the pattern is seen from and the namespace is named
  for. -/
  directory : Path
  /-- The directory of the module that asks. -/
  importer : Path
  root : Path
  languages : Option (List String)
  deriving Repr

/-- The files that a request names. -/
def find (tree : FileTree) (req : Request) : Except MacroError Translations := do
  let pattern ← ImportPattern.resolve req.pattern req.directory req.root
  let files ← pattern.findFiles tree
  let specifierOf (path : Path) : String :=
    let relative := relativeSpecifier req.importer path
    if req.directory.same req.importer then (pattern.specifierOf? path).getD relative
    else relative
  return ⟨Namespace.ofDirectory req.directory req.root,
    resourcesOf req.languages specifierOf files⟩

/-- The files in a page's directory of translations, under the page's id. -/
def ofPage (tree : FileTree) (id : String) (dir : Path) (languages : Option (List String))
    (specifierOf : Path → String) : Except MacroError Translations := do
  let found ← ["./*.yaml", "./*.yml"].mapM fun text => do
    (← ImportPattern.resolve text dir dir).findFiles tree
  let resources := found.flatMap (resourcesOf languages specifierOf)
  return ⟨id, sorted (fun a b => a.path.le b.path) resources⟩

end Translations

end SiteMacros
