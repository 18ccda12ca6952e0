import SiteMacros.Session

/-!
# The output tree

What a run puts into the output tree: the text of a module, or a copy of another
file. The directories around a file are made as they are needed. A step that fails
leaves what it has done.
-/

namespace SiteMacros

/-- A step that changes files and may fail. -/
abbrev OnDisk (α : Type) := ExceptT Failure (StateM FileTree) α

namespace OnDisk

/-- A change of files, with the failure that a fault of it means. -/
def change (failure : FileFault → Failure) (f : FileTree → FileTree.Changed) : OnDisk Unit := do
  let (tree, result) := f (← get)
  set tree
  match result with
  | .ok () => return ()
  | .error fault => throw (failure fault)

/-- A look at the files. -/
def look {α : Type} (failure : FileFault → Failure) (f : FileTree → Except FileFault α) :
    OnDisk α := do
  match f (← get) with
  | .ok a => return a
  | .error fault => throw (failure fault)

/-- A change that leaves the files as they are if it fails. -/
def attempt (f : FileTree → Except FileFault FileTree) (tree : FileTree) : FileTree.Changed :=
  match f tree with
  | .ok tree => (tree, .ok ())
  | .error fault => (tree, .error fault)

def makeAround (file : Path) : OnDisk Unit :=
  match file.parent? with
  | some dir => change (.uncreatable dir) (·.makeDirs dir)
  | none => pure ()

def writeFile (file : Path) (text : String) : OnDisk Unit := do
  makeAround file
  change (.unwritable file) (attempt (·.writeText file text))

/-- Copy a file. The target is emptied before the file is read, so that a file
copied onto itself is empty afterwards. -/
def copyFile (file target : Path) : OnDisk Unit := do
  makeAround target
  let failure := Failure.uncopyable file target
  let _ ← look failure (·.readText file)
  change failure (attempt (·.writeText target ""))
  let text ← look failure (·.readText file)
  change failure (attempt (·.writeText target text))

/-- Remove a file or a tree if it is there and can be removed. -/
def discard (p : Path) : OnDisk Unit :=
  modify fun tree =>
    if tree.isDir p then (tree.removeTree p).1 else (attempt (·.removeFile p) tree).1

end OnDisk

namespace Session

/-- Put a text into the place of a source file. -/
def writeOutput (s : Session) (file : Path) (text : String) : OnDisk Unit :=
  match s.outputPath? file with
  | some target => OnDisk.writeFile target text
  | none => pure ()

def copyOutput (s : Session) (file : Path) : OnDisk Unit :=
  match s.outputPath? file with
  | some target => OnDisk.copyFile file target
  | none => pure ()

/-- Remove what is in the place of a source file. -/
def removeOutput (s : Session) (file : Path) : OnDisk Unit :=
  match s.outputPath? file with
  | some target => OnDisk.discard target
  | none => pure ()

end Session

end SiteMacros
