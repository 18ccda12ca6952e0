import SiteMacros.Error

/-!
# Import patterns

A pattern names files the way an import does: from the project's root if it
starts with a slash, from the importing module's directory if it starts with a
dot. Its leading `../` steps are taken at once, so that what is left is a
pattern below a known directory; the steps are remembered, because the import
specifiers of the files found there start with them again.
-/

namespace SiteMacros

/-- What an import specifier starts from. -/
inductive ImportBase where
  /-- The project's root, written `/`. -/
  | root
  /-- The directory so many levels up, written `../` each. -/
  | up (levels : Nat)
  /-- The importing module's directory, written `./`. -/
  | here
  deriving DecidableEq, Repr

/-- A pattern after its leading steps. -/
structure ImportPattern where
  /-- The directory that the rest is seen from. -/
  base : Path
  /-- The rest of the pattern; empty if the pattern names `base` itself. -/
  rest : String
  start : ImportBase
  deriving DecidableEq, Repr

namespace ImportPattern

/-- A path without its last component; a path that has none stays. -/
def up (p : Path) : Path :=
  p.parent?.getD p

/-- Take the leading `../` steps of a pattern: the directory they lead to, their
number, and what is left. -/
def climb (base : Path) (levels : Nat) : List Char → Path × Nat × List Char
  | '.' :: '.' :: '/' :: cs => climb (up base) (levels + 1) cs
  | ['.', '.'] => (up base, levels + 1, [])
  | cs => (base, levels, cs)

/-- The rest of a relative pattern without a leading `./`. -/
def dropHere : List Char → List Char
  | '.' :: '/' :: cs => cs
  | ['.'] => []
  | cs => cs

/-- A pattern written in a module of directory `importer`, in the project at
`root`. -/
def resolve (pattern : String) (importer root : Path) : Except MacroError ImportPattern :=
  match pattern.toList with
  | '/' :: cs => .ok ⟨root, String.ofList cs, .root⟩
  | '.' :: cs =>
      let (base, levels, cs) := climb importer 0 ('.' :: cs)
      let rest := String.ofList (Text.dropEndWhile (· == '/') (dropHere cs))
      .ok ⟨base, rest, if levels = 0 then .here else .up levels⟩
  | _ => .error (.configuration (.patternStart pattern))

/-- The path that the pattern names if it has no wildcards. -/
def target (p : ImportPattern) : Path :=
  if p.rest.isEmpty then p.base else p.base.join p.rest

/-- A text without the occurrences of `./` at its start. -/
def dropDots : List Char → List Char
  | '.' :: '/' :: cs => dropDots cs
  | cs => cs

/-- The import specifier of a path given relative to `base`. -/
def specifier (p : ImportPattern) (found : String) : String :=
  let found := String.ofList (dropDots found.toList)
  match p.start with
  | .root => "/" ++ found
  | .up levels => Text.replicate levels "../" ++ found
  | .here => "./" ++ found

/-- The import specifier of a path below `base`. -/
def specifierOf? (p : ImportPattern) (path : Path) : Option String :=
  (path.relativeTo? p.base).map fun rel => p.specifier rel.toSlashed

end ImportPattern

/-- The import specifier of a file for a module in the directory `source`: up to
the directory that both are in, and down from there. -/
def relativeSpecifier (source target : Path) : String :=
  let (ups, downs) := Path.dropCommon source.components target.components
  let down := Path.slashed downs
  if ups.isEmpty then "./" ++ down else Text.replicate ups.length "../" ++ down

end SiteMacros
