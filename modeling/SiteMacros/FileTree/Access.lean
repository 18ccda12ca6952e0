import SiteMacros.Error
import SiteMacros.FileTree

/-!
# Access by path

A path is walked piece by piece. Each piece needs a directory to be looked up
in: a name steps to the entry of that name, `..` steps out, and an empty piece or
`.` stays, so that a trailing slash asks for a directory too. The root is its own
parent. What is found is known by its address, which is free of such steps.

A step into what is not there is `notFound`; a step out of a file is
`notDirectory`.

A change that fails half-way leaves what it has done: operations that take more
than one step return the tree along with their fault.
-/

namespace SiteMacros.FileTree

/-- Walk pieces of a path from the directory at `here`. -/
def walk (t : FileTree) (here : List String) : List String → Except FileFault (List String)
  | [] => .ok here
  | piece :: rest =>
      match t.get? here with
      | none => .error .notFound
      | some (.file _) => .error .notDirectory
      | some (.dir _) =>
          if piece = "" || piece = "." then walk t here rest
          else if piece = ".." then walk t here.dropLast rest
          else
            match t.get? (here ++ [piece]) with
            | none => .error .notFound
            | some _ => walk t (here ++ [piece]) rest

/-- The pieces of a path as they are walked; the empty path has none. -/
def steps (p : Path) : List String :=
  if p.text.isEmpty then [] else Text.split '/' p.text

/-- The address of what a path names. -/
def address (t : FileTree) (p : Path) : Except FileFault (List String) :=
  match steps p with
  | [] => .error .notFound
  | pieces => walk t [] pieces

def find (t : FileTree) (p : Path) : Except FileFault FileTree := do
  match t.get? (← t.address p) with
  | some node => .ok node
  | none => .error .notFound

def exists? (t : FileTree) (p : Path) : Bool :=
  match t.find p with
  | .ok _ => true
  | .error _ => false

def isDir (t : FileTree) (p : Path) : Bool :=
  match t.find p with
  | .ok (.dir _) => true
  | _ => false

def isFile (t : FileTree) (p : Path) : Bool :=
  match t.find p with
  | .ok (.file _) => true
  | _ => false

def readText (t : FileTree) (p : Path) : Except FileFault String := do
  match ← t.find p with
  | .file text => .ok text
  | .dir _ => .error .isDirectory

/-- The entries of a directory, as the file system lists them. -/
def readEntries (t : FileTree) (p : Path) : Except FileFault (List (String × FileTree)) := do
  match ← t.find p with
  | .file _ => .error .notDirectory
  | .dir es => .ok es

/-- The path of an address. -/
def pathOf (address : List String) : Path :=
  ⟨"/" ++ "/".intercalate address⟩

/-- The path of a node without steps that lead nowhere. -/
def canonical (t : FileTree) (p : Path) : Except FileFault Path :=
  (t.address p).map pathOf

/-- The last piece of a path that is walked, without slashes at the path's end,
and the pieces before it; `none` for the root. -/
def lastStep (p : Path) : Option (List String × String) :=
  match (Text.dropEndWhile (· = "") (steps p)).reverse with
  | [] => none
  | last :: before => some (before.reverse, last)

/-- The address of the directory that the pieces lead to. -/
def directoryAt (t : FileTree) (pieces : List String) : Except FileFault (List String) := do
  let here ← walk t [] pieces
  match t.get? here with
  | some (.dir _) => .ok here
  | some (.file _) => .error .notDirectory
  | none => .error .notFound

/-- Is the piece a step and not a name? -/
def isStep (piece : String) : Bool :=
  piece = "." || piece = ".."

/-- The tree with `text` in the file at `p`; the directory around it has to be
there. -/
def writeText (t : FileTree) (p : Path) (text : String) : Except FileFault FileTree :=
  match lastStep p with
  | none => .error .isDirectory
  | some (before, name) => do
      let here ← t.directoryAt before
      if isStep name || Text.endsWith "/" p.text then .error .isDirectory
      else
        match t.get? (here ++ [name]) with
        | some (.dir _) => .error .isDirectory
        | _ => .ok (t.set (here ++ [name]) (.file text))

/-- The tree with a new directory at `p`. -/
def makeDir (t : FileTree) (p : Path) : Except FileFault FileTree :=
  match lastStep p with
  | none => .error (if p.text.isEmpty then .notFound else .exists)
  | some (before, name) => do
      let here ← t.directoryAt before
      if isStep name then .error .exists
      else
        match t.get? (here ++ [name]) with
        | some _ => .error .exists
        | none => .ok (t.set (here ++ [name]) empty)

/-- The outcome of a change, and the tree it leaves. -/
abbrev Changed := FileTree × Except FileFault Unit

/-- Make a directory, after all directories around it that are missing. The list
holds the directory's path and the paths around it, from the inside out. -/
def makeDirsAt (t : FileTree) : List Path → Changed
  | [] => (t, .error .notFound)
  | p :: around =>
      match t.makeDir p with
      | .ok t => (t, .ok ())
      | .error .notFound =>
          match makeDirsAt t around with
          | (t, .error e) => (t, .error e)
          | (t, .ok ()) =>
              match t.makeDir p with
              | .ok t => (t, .ok ())
              | .error e => (t, if t.isDir p then .ok () else .error e)
      | .error e => (t, if t.isDir p then .ok () else .error e)

/-- Make a directory and all directories around it; one that is there is
fine. -/
def makeDirs (t : FileTree) (p : Path) : Changed :=
  if p.text.isEmpty then (t, .ok ()) else makeDirsAt t p.ancestors

/-- Remove a directory with all that is in it. The path is walked a second time
to take the directory itself away. If that walk led through the directory it is
gone by then, and the empty directory stays; a path that ends in a step empties
the directory and cannot remove it. -/
def removeTree (t : FileTree) (p : Path) : Changed :=
  match t.address p with
  | .error e => (t, .error e)
  | .ok here =>
      match t.get? here with
      | none => (t, .error .notFound)
      | some (.file _) => (t, .error .notDirectory)
      | some (.dir _) =>
          let emptied := t.set here empty
          match emptied.address p with
          | .error _ => (emptied, .ok ())
          | .ok here =>
              match lastStep p with
              | some (_, ".") => (emptied, .error .invalidArgument)
              | some (_, "..") => (emptied, .error .notEmpty)
              | some _ => (emptied.erase here, .ok ())
              | none => (emptied, .error .busy)

def removeFile (t : FileTree) (p : Path) : Except FileFault FileTree := do
  let here ← t.address p
  match t.get? here with
  | some (.file _) => .ok (t.erase here)
  | some (.dir _) => .error .isDirectory
  | none => .error .notFound

mutual

/-- Every file below a directory with its path, in the order of the listing. -/
def filesBelow (dir : Path) : FileTree → List (Path × String)
  | .file text => [(dir, text)]
  | .dir es => filesOf dir es

/-- Every file below the entries of a directory. -/
def filesOf (dir : Path) : List (String × FileTree) → List (Path × String)
  | [] => []
  | (name, node) :: rest => filesBelow (dir.join name) node ++ filesOf dir rest

end

end SiteMacros.FileTree
