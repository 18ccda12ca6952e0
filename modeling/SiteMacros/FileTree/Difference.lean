import SiteMacros.FileTree
import SiteMacros.Path

/-!
# Differences of file trees

What has to be done to a file tree so that it becomes another one, in an order in
which it can be done: what is in the way goes first, and a directory is made before
what is in it.
-/

namespace SiteMacros

/-- A step from one file tree to another. -/
inductive Difference where
  | made (dir : Path)
  | created (file : Path) (text : String)
  | changed (file : Path) (text : String)
  | gone (path : Path)
  deriving DecidableEq, Repr

namespace FileTree

/-- The entries of a directory that another one lacks. -/
def missingEntries (dir : Path) (old new : List (String × FileTree)) : List Difference :=
  (old.filter fun e => (new.lookup e.1).isNone).map fun e => .gone (dir.join e.1)

mutual

/-- The steps to a node at a path, from what is there. -/
def differencesAt (p : Path) (old? : Option FileTree) : FileTree → List Difference
  | .file text =>
      match old? with
      | some (.file before) => if before = text then [] else [.changed p text]
      | some (.dir _) => [.gone p, .created p text]
      | none => [.created p text]
  | .dir es =>
      match old? with
      | some (.dir before) => missingEntries p before es ++ differencesIn p before es
      | some (.file _) => .gone p :: .made p :: differencesIn p [] es
      | none => .made p :: differencesIn p [] es

/-- The steps to the entries of a directory. -/
def differencesIn (dir : Path) (old : List (String × FileTree)) :
    List (String × FileTree) → List Difference
  | [] => []
  | (name, node) :: rest =>
      differencesAt (dir.join name) (old.lookup name) node ++ differencesIn dir old rest

end

def differences (old new : FileTree) : List Difference :=
  differencesAt ⟨"/"⟩ (some old) new

end FileTree

end SiteMacros
