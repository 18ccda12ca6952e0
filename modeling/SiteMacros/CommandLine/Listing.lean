import SiteMacros.Menu
import SiteMacros.Text.Quoted

/-!
# Listings

A listing shows a route or a menu as a nested value, one item a line and two
blanks further in at each level. A collection without items takes no lines.
-/

namespace SiteMacros

inductive Listing where
  | null
  | bool (b : Bool)
  | text (s : String)
  | items (xs : List Listing)
  | fields (fs : List (String × Listing))

namespace Listing

/-- The beginning of a line. -/
def margin (depth : Nat) : String :=
  "\n" ++ Text.replicate depth "  "

mutual

/-- A value as text; lines after the first are indented below `depth`. -/
def render (depth : Nat) : Listing → String
  | .null => "null"
  | .bool b => if b then "true" else "false"
  | .text s => Text.quoted s
  | .items [] => "[]"
  | .items xs =>
      "[" ++ ",".intercalate (renderItems (depth + 1) xs) ++ margin depth ++ "]"
  | .fields [] => "\x7b\x7d"
  | .fields fs =>
      "\x7b" ++ ",".intercalate (renderFields (depth + 1) fs) ++ margin depth ++ "\x7d"

/-- Items, each on a line of its own. -/
def renderItems (depth : Nat) : List Listing → List String
  | [] => []
  | x :: xs => (margin depth ++ x.render depth) :: renderItems depth xs

/-- Fields, each on a line of its own behind its name. -/
def renderFields (depth : Nat) : List (String × Listing) → List String
  | [] => []
  | (name, x) :: fs =>
      (margin depth ++ Text.quoted name ++ ": " ++ x.render depth) :: renderFields depth fs

end

def ofModule (m : ModuleRef) : Listing :=
  .fields [("import", .text m.specifier), ("sync", .bool m.sync)]

/-- The listing of a module that may be missing. -/
def ofModule? (m : Option ModuleRef) : Listing :=
  m.elim .null ofModule

def ofComponent : RouteComponent → Listing
  | .module m => .fields [("type", .text "module"), ("module", ofModule m)]
  | .passThrough => .fields [("type", .text "passThrough")]
  | .notImplemented => .fields [("type", .text "notImplemented")]

mutual

def ofRoute : Route → Listing
  | ⟨id, name, path, exact, isMenuItem, sync, component, metadata, _, children⟩ =>
      .fields [("id", .text id), ("name", .text name), ("path", .text path),
        ("exact", .bool exact), ("isMenuItem", .bool isMenuItem), ("sync", .bool sync),
        ("component", ofComponent component), ("meta", ofModule? metadata),
        ("children", .items (ofRoutes children))]

def ofRoutes : List Route → List Listing
  | [] => []
  | r :: rs => ofRoute r :: ofRoutes rs

end

mutual

def ofMenu : Menu → Listing
  | ⟨id, name, path, metadata, children⟩ =>
      .fields [("id", .text id), ("name", .text name), ("path", .text path),
        ("meta", ofModule? metadata), ("children", .items (ofMenus children))]

def ofMenus : List Menu → List Listing
  | [] => []
  | m :: ms => ofMenu m :: ofMenus ms

end

end Listing

end SiteMacros
