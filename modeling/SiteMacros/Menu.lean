import SiteMacros.Route

/-!
# Menus

The menu shows the pages of the menu, each with those below it. A protected page
keeps its entry and shows nothing below.
-/

namespace SiteMacros

structure Menu where
  id : String
  name : String
  path : String
  metadata : Option ModuleRef
  children : List Menu
  deriving Repr

namespace Menu

mutual

def ofPage : Page → List Menu
  | ⟨_, _, _, _, protect, _, _, _, children⟩ =>
      if protect then [] else (PageKind.ordered (ofChildren children)).map (·.2)

/-- The entries of the children that are in the menu, each with its kind. -/
def ofChildren : List Page → List (PageKind × Menu)
  | [] => []
  | c :: cs =>
      match c.kind with
      | some (.menuItem n) =>
          (.menuItem n, {
            id := c.id
            name := c.displayName
            path := c.route
            metadata := c.imports.metadata
            children := ofPage c }) :: ofChildren cs
      | _ => ofChildren cs

end

end Menu

end SiteMacros
