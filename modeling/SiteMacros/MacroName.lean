/-!
# The macros

A macro is a function that a module imports and calls, and that is gone once the
module is expanded. Some are about pages, the others about translations; each
group comes from a module of its own.
-/

namespace SiteMacros

inductive MacroName where
  | loadRoutes
  | loadMenus
  | resolveRoute
  | loadTranslations
  | useTranslations
  | getTranslations
  | resolveNamespace
  deriving DecidableEq, Repr

namespace MacroName

def name : MacroName → String
  | .loadRoutes => "loadRoutes"
  | .loadMenus => "loadMenus"
  | .resolveRoute => "resolveRoute"
  | .loadTranslations => "loadI18n"
  | .useTranslations => "useI18n"
  | .getTranslations => "getI18n"
  | .resolveNamespace => "resolveNamespace"

/-- The macros about pages. -/
def ofPages : List MacroName :=
  [.loadRoutes, .loadMenus, .resolveRoute]

/-- The macros about translations. -/
def ofTranslations : List MacroName :=
  [.loadTranslations, .useTranslations, .getTranslations, .resolveNamespace]

/-- The macro of a name, among those that a module provides. -/
def find? (provided : List MacroName) (name : String) : Option MacroName :=
  provided.find? fun m => m.name == name

/-- Does the macro make routes or namespaces known to other modules? -/
def registers : MacroName → Bool
  | .loadRoutes | .loadMenus | .loadTranslations => true
  | _ => false

end MacroName

end SiteMacros
