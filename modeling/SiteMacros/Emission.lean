import SiteMacros.Expression
import SiteMacros.ImportScope
import SiteMacros.Menu
import SiteMacros.Translations

/-!
# Emission

What the loading macros become: an object for a route, an array for a menu, a
call that registers translations, a call that reads them. The modules these refer
to are imported under names that the scope hands out, in the order in which they
are met: first in the children, then in the route itself.
-/

namespace SiteMacros

/-- The text that stands for a page without a view. -/
def notImplementedText : String :=
  "NOT IMPLEMENTED YET"

namespace RouteComponent

/-- What a route shows, as an expression. -/
def emit (wrapper : RuntimeImport) : RouteComponent → StateM ImportScope Expression
  | .module ref =>
      if ref.sync then do return .name (← ImportScope.requestDefault ref.specifier "page")
      else do
        let wrap ← ImportScope.requestNamed wrapper.source wrapper.name
        return .call (.name wrap) [.arrow [] (.dynamicImport ref.specifier)]
  | .passThrough => return .arrow ["\x7b children \x7d"] (.name "children")
  | .notImplemented => return .arrow [] (.string notImplementedText)

end RouteComponent

def emitMetadata : Option ModuleRef → StateM ImportScope Expression
  | some ref => do return .name (← ImportScope.requestDefault ref.specifier "meta")
  | none => return .undefined

namespace Route

mutual

def emit (wrapper : RuntimeImport) : Route → StateM ImportScope Expression
  | ⟨id, name, path, exact, isMenuItem, sync, component, metadata, _, children⟩ => do
      let children ← emitAll wrapper children
      let component ← component.emit wrapper
      let metadata ← emitMetadata metadata
      return .object [("id", .string id), ("name", .string name), ("path", .string path),
        ("exact", .bool exact), ("isMenuItem", .bool isMenuItem), ("sync", .bool sync),
        ("component", component), ("meta", metadata), ("children", .array children)]

def emitAll (wrapper : RuntimeImport) : List Route → StateM ImportScope (List Expression)
  | [] => return []
  | r :: rs => do
      let first ← emit wrapper r
      let rest ← emitAll wrapper rs
      return first :: rest

end

end Route

namespace Menu

mutual

def emit : Menu → StateM ImportScope Expression
  | ⟨id, name, path, metadata, children⟩ => do
      let metadata ← emitMetadata metadata
      let children ← emitAll children
      return .object [("id", .string id), ("name", .string name), ("path", .string path),
        ("meta", metadata), ("children", .array children)]

def emitAll : List Menu → StateM ImportScope (List Expression)
  | [] => return []
  | m :: ms => do
      let first ← emit m
      let rest ← emitAll ms
      return first :: rest

end

end Menu

/-- Where translations come from when a page runs. -/
structure TranslationRuntime where
  /-- The module whose default export holds the translations. -/
  instanceSource : String
  /-- The function that a component reads them with. -/
  hook : RuntimeImport
  deriving DecidableEq, Repr

namespace Translations

/-- The call that adds one file's translations. -/
def emitResource (holder : Expression) (id : String) (r : Resource) :
    StateM ImportScope Expression := do
  let bundle ← ImportScope.requestDefault r.specifier ("i18n_" ++ r.language)
  return .call (.member holder "addResourceBundle")
    [.string r.language, .string id, .name bundle, .bool true, .bool true]

/-- The call that registers a namespace: at once if the holder of translations
is initialized, and otherwise as soon as it is. -/
def emit (runtime : TranslationRuntime) (t : Translations) : StateM ImportScope Expression := do
  let holder := .name (← ImportScope.requestDefault runtime.instanceSource "i18n")
  let adds ← t.resources.mapM (emitResource holder t.id)
  let guard := .arrow ["register"]
    (.conditional (.member holder "isInitialized") (.call (.name "register") [])
      (.call (.member holder "on") [.string "initialized", .name "register"]))
  return .call guard [.arrowBlock [] adds]

end Translations

namespace NamespaceRef

def value : NamespaceRef → Expression
  | .single id => .string id
  | .chain ids => .array (ids.map .string)

/-- The call with which a component reads translations. -/
def emitUse (runtime : TranslationRuntime) (ns : NamespaceRef) : StateM ImportScope Expression := do
  let hook ← ImportScope.requestNamed runtime.hook.source runtime.hook.name
  return .call (.name hook) [ns.value]

/-- The call with which other code reads translations. -/
def emitGet (runtime : TranslationRuntime) (ns : NamespaceRef) : StateM ImportScope Expression := do
  let holder ← ImportScope.requestDefault runtime.instanceSource "i18n"
  return .call (.member (.name holder) "getFixedT") [.null, ns.value]

end NamespaceRef

end SiteMacros
