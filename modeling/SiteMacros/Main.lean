import SiteMacros.CommandLine.Watch

/-!
# The program

The program reads the files of a project into a file tree, carries out a command
on the tree, and does to the files what the command did to the tree.

Only texts in UTF-8 are read, and nothing in a `node_modules` directory.
-/

namespace SiteMacros

partial def readDirectory (dir : String) : IO (List (String × FileTree)) := do
  let entries ← (← IO.FS.realPath dir).readDir
  entries.toList.filterMapM fun entry => do
    let name := entry.fileName
    let p := dir ++ "/" ++ name
    if ← entry.path.isDir then
      let below ← if name = "node_modules" then pure [] else readDirectory p
      return some (name, .dir below)
    else
      return (String.fromUTF8? (← IO.FS.readBinFile p)).map fun text => (name, .file text)

/-- The nearest directory around a path on disk that holds a `package.json`. -/
def projectAround? (p : Path) : IO (Option Path) := do
  for dir in p.ancestors do
    try
      let _ ← IO.FS.readFile (dir.join "package.json").text
      return some dir
    catch _ => continue
  return none

/-- A path on disk without steps that lead nowhere, if it is there. -/
def onDisk? (p : Path) : IO (Option Path) := do
  try
    return some ⟨(← IO.FS.realPath p.text).toString⟩
  catch _ => return none

/-- The names on the way to a path. -/
def namesOf (p : Path) : List String :=
  p.components.filterMap fun
    | .name n => some n
    | _ => none

/-- A file tree with what is on disk at a directory. -/
def withDirectory (tree : FileTree) (dir : Path) : IO FileTree := do
  try
    return tree.set (namesOf dir) (.dir (← readDirectory dir.text))
  catch _ => return tree

def Command.paths (c : Command) : List Path :=
  c.root?.toList ++
    match c with
    | .expand p _ | .routes p _ _ _ => [p]
    | _ => []

/-- The file tree that a command needs: the projects around the current directory
and around the paths that the command names. -/
def readProject (cwd : Path) (paths : List Path) : IO FileTree := do
  let mut tree := FileTree.empty.set (namesOf cwd) .empty
  let mut seen : List Path := []
  for p in cwd :: paths do
    if let some here ← onDisk? (cwd.join p.text) then
      if let some top ← projectAround? here then
        unless seen.any (top.startsWith ·) do
          seen := top :: seen
          tree ← withDirectory tree top
  return tree

/-- Do to the files what was done to the tree. -/
def Difference.carryOut : Difference → IO Unit
  | .made dir => IO.FS.createDirAll dir.text
  | .created file text | .changed file text => IO.FS.writeFile file.text text
  | .gone p => do
      try IO.FS.removeFile p.text
      catch _ => IO.FS.removeDirAll p.text

/-- Print an output; the time that it mentions is that since `start`. -/
def printOutput (start : Nat) (output : List Output) : IO Unit := do
  for part in output do
    match part with
    | .text s => IO.print s
    | .elapsed =>
        let spent := (← IO.monoMsNow) - start
        IO.print (toString (spent / 1000) ++ "." ++ toString (spent % 1000 / 100) ++ "s")
  (← IO.getStdout).flush

/-- Follow the changes of a project without end. -/
partial def follow (s : Session) (before : FileTree) : IO Unit := do
  IO.sleep s.configuration.debounce.toUInt32
  let start ← IO.monoMsNow
  let now ← withDirectory before s.root
  let (tree, s, output) := Command.followUp s before now
  (now.differences tree).forM Difference.carryOut
  printOutput start output
  follow s tree

/-- Build a project and follow its changes. -/
def watch (s : Session) (tree : FileTree) : IO UInt32 := do
  let (after, s, reply) := Command.runWatch s tree
  (tree.differences after).forM Difference.carryOut
  printOutput 0 reply.output
  IO.eprint reply.errors
  if reply.status = 0 then follow s after
  return reply.status.toUInt32

end SiteMacros

open SiteMacros in
def main (args : List String) : IO UInt32 := do
  let start ← IO.monoMsNow
  let cwd : Path := ⟨(← IO.currentDir).toString⟩
  let paths :=
    match Command.ofArguments args with
    | .ok c => c.paths
    | .error _ => []
  let tree ← readProject cwd paths
  match Command.ofArguments args with
  | .ok (.watch root?) =>
      match Command.openSession tree cwd root? with
      | .ok s => watch s tree
      | .error e =>
          IO.eprint e.report
          return 1
  | _ =>
      let (after, reply) := Command.runArguments cwd args tree
      (tree.differences after).forM Difference.carryOut
      printOutput start reply.output
      IO.eprint reply.errors
      return reply.status.toUInt32
