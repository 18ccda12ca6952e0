import SiteMacros.ImportScope

/-!
# Import declarations

What a module imports: the module it takes from, the names it takes, and where
the declaration stands. Positions in a module are counted in bytes of its text.

Imports that stay in a module are there for emitted code to use, unless they are
for types only.
-/

namespace SiteMacros

namespace Script

/-- A part of a module's text, from one byte up to another. -/
structure Span where
  start : Nat
  stop : Nat
  deriving DecidableEq, Repr, Inhabited

/-- Is the other part within this one? -/
def Span.covers (outer inner : Span) : Bool :=
  outer.start ≤ inner.start && inner.stop ≤ outer.stop

/-- A name taken from a module. -/
structure NamedImport where
  imported : String
  localName : String
  typeOnly : Bool
  deriving DecidableEq, Repr

structure ImportDeclaration where
  span : Span
  source : String
  /-- Is it for types only as a whole? -/
  typeOnly : Bool
  /-- The local name of the default export. -/
  default? : Option String := none
  /-- The local name of the module as a whole. -/
  whole? : Option String := none
  named : List NamedImport := []
  deriving DecidableEq, Repr

/-- The bindings that a declaration makes, with their local names, in order. -/
def ImportDeclaration.bindings (d : ImportDeclaration) : List (ImportKey × String) :=
  if d.typeOnly then []
  else
    (d.default?.map fun l => (⟨d.source, .default⟩, l)).toList ++
      (d.named.filter (!·.typeOnly)).map fun n =>
        (⟨d.source, if n.imported = "default" then .default else .named n.imported⟩, n.localName)

end Script

namespace ImportScope

/-- The scope of a module that uses the identifiers `taken` and keeps the
declarations. Of two imports of one binding the later one serves. -/
def ofModule (taken : List String) (kept : List Script.ImportDeclaration) : ImportScope where
  taken := taken
  bound := (kept.flatMap (·.bindings)).reverse

end ImportScope

end SiteMacros
