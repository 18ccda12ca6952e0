import SiteMacros.Emission
import SiteMacros.Text.Split

/-!
# Configuration

What a project may set: where its modules are and where their expansions go, the
modules that macros are imported from, how pages are read, where translations
come from, and how long a watcher waits. Everything has a default.

A configuration is accepted if its directories, as texts without slashes at
either end, keep the output out of the source tree, and none of its lists that
have to say something is empty.
-/

namespace SiteMacros

/-- The trees of a project. -/
structure SourceSettings where
  dir : String := "src"
  outDir : String := ".pagemacro/out"
  extensions : List String := ["ts", "tsx", "js", "jsx"]
  deriving DecidableEq, Repr

/-- The modules that macros are imported from. -/
structure MacroSources where
  pages : String := "pages.macro"
  translations : String := "i18n.macro"
  deriving DecidableEq, Repr

/-- How pages are read and shown. -/
structure PageSettings where
  allowNoMeta : Bool := false
  /-- The function that wraps a view that is loaded when it is needed. -/
  wrapper : RuntimeImport := ⟨"lazy", "react"⟩
  deriving DecidableEq, Repr

/-- Where translations come from. -/
structure TranslationSettings where
  defaultGlob : Option String := none
  /-- The languages that are wanted; without a list all are. -/
  languages : Option (List String) := none
  globalNamespaces : List String := []
  runtime : TranslationRuntime := ⟨"i18next", ⟨"useTranslation", "react-i18next"⟩⟩
  deriving DecidableEq, Repr

structure Configuration where
  sources : SourceSettings := {}
  macroSources : MacroSources := {}
  pages : PageSettings := {}
  translations : TranslationSettings := {}
  /-- How many milliseconds a watcher waits for further changes. -/
  debounce : Nat := 300
  deriving DecidableEq, Repr

/-- Why a configuration is not accepted. -/
inductive ConfigurationRefusal where
  | noSourceDir
  | overlap (outDir dir : String)
  | noExtensions
  | noLanguages
  | noDebounce
  deriving DecidableEq, Repr

def ConfigurationRefusal.message : ConfigurationRefusal → String
  | .noSourceDir => "source.dir must name a subdirectory of the project root"
  | .overlap outDir dir =>
      "source.out_dir \"" ++ outDir ++ "\" must lie outside source.dir \"" ++ dir ++ "\""
  | .noExtensions => "source.extensions must not be empty"
  | .noLanguages => "i18n.languages must not be empty when set"
  | .noDebounce => "dev.debounce_ms must be positive"

namespace Configuration

/-- Is the configuration accepted? Of several reasons against it the first
counts. -/
def validate (c : Configuration) : Except ConfigurationRefusal Unit :=
  let dir := Text.trim '/' c.sources.dir
  let out := Text.trim '/' c.sources.outDir
  if dir = "" || dir = "." then .error .noSourceDir
  else if out = "" || out = dir || Text.startsWith (dir ++ "/") out then
    .error (.overlap c.sources.outDir c.sources.dir)
  else if c.sources.extensions.isEmpty then .error .noExtensions
  else if c.translations.languages = some [] then .error .noLanguages
  else if c.debounce = 0 then .error .noDebounce
  else .ok ()

def isSourceExtension (c : Configuration) (extension : String) : Bool :=
  c.sources.extensions.contains extension

def isModule (c : Configuration) (p : Path) : Bool :=
  p.extension?.any c.isSourceExtension

end Configuration

end SiteMacros
