import SiteMacros.Page
import SiteMacros.PageName
import SiteMacros.Session

/-!
# Changes

A file system reports events; what an event means for a session is a change. The
name of what was added or removed tells whether the shape of a pages tree may have
changed. Otherwise a YAML file is a resource of its directory, a module is a
source, and any other file an asset that is copied as it is.
-/

namespace SiteMacros

/-- What a file system reports of a path. -/
inductive FileEvent where
  | create
  | remove
  /-- A new name, or the old one of what has a new one. -/
  | rename
  | modify
  /-- Something that is not told. -/
  | unknown
  /-- A look at it. -/
  | access
  /-- Something that is no change. -/
  | other
  deriving DecidableEq, Repr

inductive PathChange where
  | created
  | removed
  | modified
  deriving DecidableEq, Repr

/-- The change that an event stands for. Of a rename the old name is gone by now
and the new one is there. -/
def PathChange.ofEvent? (tree : FileTree) (p : Path) : FileEvent → Option PathChange
  | .create => some .created
  | .remove => some .removed
  | .rename => some (if tree.exists? p then .created else .removed)
  | .modify | .unknown => some .modified
  | .access | .other => none

/-- What a change means for a session. -/
inductive Change where
  /-- The shape of a pages tree may be another. -/
  | shape
  /-- A module has another text. -/
  | source (file : Path)
  /-- A directory has other resources. -/
  | translation (dir : Path)
  /-- Another file has to be copied again. -/
  | asset (file : Path)
  | ignored
  deriving DecidableEq, Repr

namespace Change

/-- Does a name have to do with the shape of a pages tree? -/
def isStructural (name : String) : Bool :=
  PageImports.isConventionFile name || PageImports.isTranslationDir name ||
    (PageName.parse? name).isSome

/-- Does the session care for a path? -/
def concerns (s : Session) (p : Path) : Bool :=
  p.startsWith s.srcDir && !p.startsWith s.outDir &&
    !p.components.contains (.name "node_modules")

/-- What it means for a session that a path was changed. -/
def classify (s : Session) (tree : FileTree) (p : Path) (c : PathChange) : Change :=
  let name := p.fileName?.getD ""
  if !concerns s p then .ignored
  else if c != .modified && isStructural name then .shape
  else if Text.endsWith ".yaml" name || Text.endsWith ".yml" name then
    .translation (p.parent?.getD p)
  else if s.isModule p then .source p
  else if c == .modified && tree.isDir p then .ignored
  else .asset p

end Change

end SiteMacros
