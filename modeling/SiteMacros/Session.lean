import SiteMacros.Cache
import SiteMacros.Expansion.Module
import SiteMacros.Failure

/-!
# Sessions

A session works on a project: it knows the configuration, and it keeps the
registry and the cache from one run to the next. The modules of a run come in an
order in which those that register stand before those that ask: first the
registering modules, then the others that use macros, then the rest; within each
of these groups the shallower paths stand first.

Every file of the source tree has a place of its own in the output tree.
-/

namespace SiteMacros

/-- Work on a project, as far as it has come. -/
structure Session where
  root : Path
  configuration : Configuration
  registry : Registry := {}
  cache : ModuleCache := {}

/-- Modules with their scans in the order in which they are expanded. -/
def buildOrder (scanned : List (Path × ModuleScan)) : List Path :=
  (sorted le scanned).map (·.1)
where
  /-- How late the group of a module comes. -/
  group (s : ModuleScan) : Nat :=
    if s.registers then (if s.usesMacros then 0 else 1)
    else if s.usesMacros then 2 else 3
  order (a b : Path × ModuleScan) : Ordering :=
    (compare (group a.2) (group b.2)).then
      ((compare a.1.components.length b.1.components.length).then (a.1.compare b.1))
  /-- Does a module come before another, or neither before the other? -/
  le (a b : Path × ModuleScan) : Bool :=
    order a b != .gt

namespace Session

def srcDir (s : Session) : Path :=
  s.root.join s.configuration.sources.dir

def outDir (s : Session) : Path :=
  s.root.join s.configuration.sources.outDir

/-- The place of a source file in the output tree. -/
def outputPath? (s : Session) (file : Path) : Option Path :=
  (file.relativeTo? s.srcDir).map fun rel => s.outDir.join rel.text

def isModule (s : Session) (p : Path) : Bool :=
  s.configuration.isModule p

/-- Is an entry with this path and name left out of the source tree? -/
def isSkipped (s : Session) (p : Path) (name : String) : Bool :=
  p.startsWith s.outDir || name = "node_modules"

mutual

/-- The source files at a node that has this path. -/
def sourcesAt (s : Session) (p : Path) : FileTree → List Path
  | .file _ => [p]
  | .dir es => s.sourcesIn p es

/-- The source files below the entries of a directory. -/
def sourcesIn (s : Session) (dir : Path) : List (String × FileTree) → List Path
  | [] => []
  | (name, node) :: rest =>
      let p := dir.join name
      (if s.isSkipped p name then [] else s.sourcesAt p node) ++ s.sourcesIn dir rest

end

/-- Every source file, in the order of paths. -/
def sourceFiles (s : Session) (tree : FileTree) : Except Failure (List Path) :=
  match tree.readEntries s.srcDir with
  | .error fault => .error (.unreadable s.srcDir fault)
  | .ok es => .ok (sortPaths (s.sourcesIn s.srcDir es))

/-- The scan of a module; one that cannot be read uses no macros. -/
def scan (s : Session) (tree : FileTree) (p : Path) : ModuleScan :=
  match tree.readText p with
  | .ok text => Expansion.scanModule s.configuration p text
  | .error _ => {}

/-- Modules in the order in which they are expanded. -/
def inOrder (s : Session) (tree : FileTree) (modules : List Path) : List Path :=
  buildOrder (modules.map fun p => (p, s.scan tree p))

end Session

end SiteMacros
