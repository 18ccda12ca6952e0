import SiteMacros.Configuration
import SiteMacros.Toml.Document

/-!
# Configuration files

A configuration file is a document with a table for each group of settings. A
group that is not known is a fault, an unknown setting within a group is not. A
group may also be an array, whose items are then its settings in their fixed
order; settings that the array is too short for have their defaults, if they have
a default at all.
-/

namespace SiteMacros.Configuration

/-- A group of settings as the file gives it. -/
inductive Group where
  | named (entries : Toml.Entries)
  | positional (items : List Toml)

namespace Group

def ofToml? : Toml → Option Group
  | .table _ es => some (.named es)
  | .array vs => some (.positional vs)
  | .tables elements => some (.positional (elements.map (.table .header)))
  | _ => none

/-- A setting by its name or its place. -/
def get? (g : Group) (name : String) (place : Nat) : Option Toml :=
  match g with
  | .named es => Toml.lookup name es
  | .positional vs => vs[place]?

/-- A setting that has to be there. -/
def required {α : Type} (g : Group) (name : String) (place : Nat) (read : Toml → Option α) :
    Option α :=
  g.get? name place >>= read

def setting {α : Type} (g : Group) (name : String) (place : Nat) (read : Toml → Option α)
    (default : α) : Option α :=
  match g.get? name place with
  | some v => read v
  | none => some default

/-- A setting that may be left out of a table, but not of an array. -/
def optional {α : Type} (g : Group) (name : String) (place : Nat) (read : Toml → Option α) :
    Option (Option α) :=
  match g.get? name place, g with
  | some v, _ => (read v).map some
  | none, .named _ => some none
  | none, .positional _ => none

end Group

def text? : Toml → Option String
  | .string s => some s
  | _ => none

def flag? : Toml → Option Bool
  | .boolean b => some b
  | _ => none

def texts? : Toml → Option (List String)
  | .array vs => vs.mapM text?
  | _ => none

/-- Numbers of milliseconds are below this one, which is 2 ^ 64. -/
def millisecondsBound : Nat :=
  18446744073709551616

/-- A value as a number of milliseconds. -/
def milliseconds? : Toml → Option Nat
  | .integer n => if 0 ≤ n && n.toNat < millisecondsBound then some n.toNat else none
  | _ => none

/-- A value as the import of a name. -/
def runtimeImport? (v : Toml) : Option RuntimeImport := do
  let g ← Group.ofToml? v
  return ⟨← g.required "name" 0 text?, ← g.required "from" 1 text?⟩

def sources? (v : Toml) : Option SourceSettings := do
  let g ← Group.ofToml? v
  let base : SourceSettings := {}
  return {
    dir := ← g.setting "dir" 0 text? base.dir
    outDir := ← g.setting "out_dir" 1 text? base.outDir
    extensions := ← g.setting "extensions" 2 texts? base.extensions }

def macroSources? (v : Toml) : Option MacroSources := do
  let g ← Group.ofToml? v
  let base : MacroSources := {}
  return {
    pages := ← g.setting "pages" 0 text? base.pages
    translations := ← g.setting "i18n" 1 text? base.translations }

def pages? (v : Toml) : Option PageSettings := do
  let g ← Group.ofToml? v
  let base : PageSettings := {}
  return {
    allowNoMeta := ← g.setting "allow_no_meta" 0 flag? base.allowNoMeta
    wrapper := ← g.setting "lazy" 1 runtimeImport? base.wrapper }

/-- The group `i18n`. -/
def translations? (v : Toml) : Option TranslationSettings := do
  let g ← Group.ofToml? v
  let base : TranslationSettings := {}
  return {
    defaultGlob := ← g.optional "default_glob" 0 text?
    languages := ← g.optional "languages" 1 texts?
    globalNamespaces := ← g.setting "global_namespaces" 2 texts? base.globalNamespaces
    runtime := {
      instanceSource := ← g.setting "runtime" 3 text? base.runtime.instanceSource
      hook := ← g.setting "hook" 4 runtimeImport? base.runtime.hook } }

/-- The group `dev`. -/
def debounce? (v : Toml) : Option Nat := do
  let g ← Group.ofToml? v
  g.setting "debounce_ms" 0 milliseconds? ({} : Configuration).debounce

def groups : List String :=
  ["source", "macros", "pages", "i18n", "dev"]

/-- A document as a configuration. -/
def ofEntries? (es : Toml.Entries) : Option Configuration := do
  let base : Configuration := {}
  let document := Group.named es
  if es.all fun e => groups.contains e.1 then
    return {
      sources := ← document.setting "source" 0 sources? base.sources
      macroSources := ← document.setting "macros" 1 macroSources? base.macroSources
      pages := ← document.setting "pages" 2 pages? base.pages
      translations := ← document.setting "i18n" 3 translations? base.translations
      debounce := ← document.setting "dev" 4 debounce? base.debounce }
  else none

/-- A configuration file's text as a configuration that is still to be
validated; `none` if it is not one. -/
def ofText? (s : String) : Option Configuration :=
  Toml.ofText? s >>= ofEntries?

end SiteMacros.Configuration
