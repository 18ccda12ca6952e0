import SiteMacros.CommandLine.Command
import SiteMacros.CommandLine.Console
import SiteMacros.CommandLine.Listing
import SiteMacros.Project
import SiteMacros.Session.Build

/-!
# Carrying out commands

A command finds its project and reads the configuration; then it builds, prints a
module or a listing, or removes the output tree. What it has printed before it
fails stays printed, and the failure is reported after it.
-/

namespace SiteMacros

/-- What a command answers. -/
structure Reply where
  /-- 0 for success, 1 for a failure and 2 for a usage error. -/
  status : Nat := 0
  output : List Output := []
  errors : String := ""
  deriving DecidableEq, Repr

namespace Reply

/-- The reply of a command that printed `output` and failed. -/
def failed (output : String) (e : Failure) : Reply :=
  { status := 1, output := [.text output], errors := e.report }

end Reply

namespace Command

/-- The session for a command, whose project is around `root?` as seen from
`cwd`. -/
def openSession (tree : FileTree) (cwd : Path) (root? : Option Path) : Except Failure Session := do
  let root ← Project.findRoot tree cwd (root?.getD cwd)
  return { root, configuration := ← Project.loadConfiguration tree root }

/-- The lines on modules that failed. -/
def failureLines (s : Session) (failures : List (Path × Failure)) : String :=
  String.join (failures.map fun (p, e) =>
    Console.error ((p.relativeTo? s.root).getD p).text ++ Console.detail (Console.faint e.describe))

/-- How much was done. -/
def summary (r : BuildReport) : String :=
  toString r.expanded ++ " module(s) expanded, " ++ toString r.copied ++ " file(s) copied"

def runBuild (s : Session) (tree : FileTree) : FileTree × Reply :=
  let opening := Console.banner "build" s.configuration.sources.dir ++
    Console.step 1 2 "expanding macros"
  match s.build true tree with
  | ((tree, _), .error e) => (tree, .failed opening e)
  | ((tree, _), .ok report) =>
      let output := opening ++ Console.detail (summary report) ++
        Console.step 2 2 ("output written to " ++ s.outDir.text)
      if report.failures.isEmpty then
        (tree, { output :=
          [.text (output ++ Console.okHead "build complete ("), .elapsed, .text ")\n"] })
      else
        (tree, .failed (output ++ failureLines s report.failures)
          (.failedModules report.failures.length))

/-- Build the project as a watcher does before it waits for changes. -/
def runWatch (s : Session) (tree : FileTree) : FileTree × Session × Reply :=
  let opening := Console.banner "dev" s.configuration.sources.dir
  match s.build true tree with
  | ((tree, s), .error e) => (tree, s, .failed opening e)
  | ((tree, s), .ok report) =>
      (tree, s, { output := [.text (opening ++ failureLines s report.failures ++
        Console.ok (summary report))] })

def runExpand (cwd file : Path) (s : Session) (tree : FileTree) : Reply :=
  match (s.expandFile cwd file tree).2 with
  | .ok text => { output := [.text text] }
  | .error e => .failed "" e

/-- The listing of the routes or the menu of a pages directory. -/
def listing (cwd dir : Path) (base : String) (menus : Bool) (s : Session) (tree : FileTree) :
    Except Failure Listing :=
  match tree.canonical (cwd.join dir.text) with
  | .error fault => .error (.unresolvable dir fault)
  | .ok target =>
      match target.fileName? with
      | none => .error .namelessDirectory
      | some name =>
          let pages := (PageTree.load tree {
            pattern := "./" ++ name, base, root := s.root
            importer := target.parent?.getD s.root
            allowNoMeta := s.configuration.pages.allowNoMeta }).result
          match pages with
          | .error e => .error (.plain e)
          | .ok pages =>
              .ok (if menus then .items (Listing.ofMenus (Menu.ofPage pages.root))
                else .ofRoute (Route.ofPage pages.root))

def runRoutes (cwd dir : Path) (base : String) (menus : Bool) (s : Session) (tree : FileTree) :
    Reply :=
  match listing cwd dir base menus s tree with
  | .ok l => { output := [.text (Console.line (l.render 0))] }
  | .error e => .failed "" e

def runClean (s : Session) (tree : FileTree) : FileTree × Reply :=
  let opening := Console.arrow "cleaning project"
  let dir := s.outDir
  let done := Console.ok "clean complete"
  if tree.exists? dir then
    match tree.removeTree dir with
    | (tree, .ok ()) =>
        (tree, { output := [.text (opening ++ Console.detail ("deleted " ++ dir.text) ++ done)] })
    | (tree, .error fault) => (tree, .failed opening (.unremovable dir fault))
  else (tree, { output := [.text (opening ++ done)] })

/-- The root that a command gives. -/
def root? : Command → Option Path
  | .build r | .watch r | .clean r | .expand _ r | .routes _ _ _ r => r

/-- Carry out a command in the directory `cwd`. -/
def run (cwd : Path) (c : Command) (tree : FileTree) : FileTree × Reply :=
  match openSession tree cwd c.root? with
  | .error e => (tree, .failed "" e)
  | .ok s =>
      match c with
      | .build _ => runBuild s tree
      | .watch _ =>
          let (tree, _, reply) := runWatch s tree
          (tree, reply)
      | .expand file _ => (tree, runExpand cwd file s tree)
      | .routes dir base menus _ => (tree, runRoutes cwd dir base menus s tree)
      | .clean _ => runClean s tree

def usage : String :=
  String.join (["Usage:", "  pagemacro build [--root DIR]", "  pagemacro expand FILE [--root DIR]",
    "  pagemacro routes DIR [--prefix PATH] [--menus] [--root DIR]",
    "  pagemacro dev [--root DIR]", "  pagemacro clean [--root DIR]"].map Console.line)

/-- Carry out what the arguments ask for in the directory `cwd`. -/
def runArguments (cwd : Path) (args : List String) (tree : FileTree) : FileTree × Reply :=
  match ofArguments args with
  | .ok c => c.run cwd tree
  | .error .help => (tree, { output := [.text usage] })
  | .error .usage => (tree, { status := 2, errors := usage })

end Command

end SiteMacros
