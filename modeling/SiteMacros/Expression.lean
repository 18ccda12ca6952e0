import SiteMacros.RoutePath

/-!
# Emitted expressions

The expressions that take the place of macro calls. They are few: literals,
names, calls, arrow functions and templates. `source` is text that was copied
from the call; all else is built here.
-/

namespace SiteMacros

mutual

/-- An expression of the module that a macro call becomes. -/
inductive Expression where
  | string (text : String)
  | bool (value : Bool)
  | null
  | undefined
  | name (text : String)
  /-- Source text as it stood at the call. -/
  | source (text : String)
  | array (items : List Expression)
  | object (properties : List (String × Expression))
  | member (object : Expression) (property : String)
  | call (callee : Expression) (args : List Expression)
  | arrow (params : List String) (body : Expression)
  /-- An arrow function whose body is a block of expression statements. -/
  | arrowBlock (params : List String) (statements : List Expression)
  /-- An import that is loaded when it is evaluated. -/
  | dynamicImport (source : String)
  | conditional (test consequent alternate : Expression)
  | template (parts : List TemplatePart)
  deriving Repr

/-- A part of a template: fixed text, or an expression in its place. -/
inductive TemplatePart where
  | text (text : String)
  | hole (expression : Expression)
  deriving Repr

end

namespace Expression

/-- A bound path: a string if all of it is known, a template otherwise. -/
def ofPieces : List Piece → Expression
  | [.text t] => .string t
  | ps => .template (ps.map fun
      | .text t => .text t
      | .expression e => .hole (.source e))

end Expression

end SiteMacros
