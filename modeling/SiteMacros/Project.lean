import SiteMacros.Configuration.Document
import SiteMacros.Failure
import SiteMacros.FileTree.Access

/-!
# Projects

A project's root is the nearest directory, from where one starts outwards, that
holds a `package.json`. Its configuration file may be missing; if it is there it
has to be read, parsed and accepted.
-/

namespace SiteMacros.Project

/-- The root of the project around `start`, which is seen from `cwd`. -/
def findRoot (tree : FileTree) (cwd start : Path) : Except Failure Path :=
  match tree.canonical (cwd.join start.text) with
  | .error fault => .error (.unresolvable start fault)
  | .ok here =>
      match here.ancestors.find? fun dir => tree.isFile (dir.join "package.json") with
      | some dir => .ok dir
      | none => .error (.noProject here)

/-- The configuration file of the project at `root`. -/
def configurationFile (root : Path) : Path :=
  root.join "pagemacro.toml"

/-- The configuration that the project at `root` gives, accepted or not. -/
def readConfiguration (tree : FileTree) (root : Path) : Except Failure Configuration :=
  let file := configurationFile root
  if tree.isFile file then
    match tree.readText file with
    | .error fault => .error (.unreadable file fault)
    | .ok text =>
        match Configuration.ofText? text with
        | some c => .ok c
        | none => .error (.unparsable file)
  else .ok {}

/-- The configuration of the project at `root`. -/
def loadConfiguration (tree : FileTree) (root : Path) : Except Failure Configuration := do
  let c ← readConfiguration tree root
  match c.validate with
  | .ok () => return c
  | .error reason => .error (.refused reason)

end SiteMacros.Project
