import SiteMacros.FileTree.Access
import SiteMacros.Glob.Pattern
import SiteMacros.ImportPattern

/-!
# Searching for files

A pattern is matched component by component on a walk down the tree. A component
without special characters is stepped into without a look at the listing, and so
a `.` or `..` may stand in a pattern. Any other is matched with the names of the
listing, in their order.

After `**` the walk goes to every directory below, and tests every node it meets
with the component that follows; the nodes that pass are where the rest of the
pattern starts from. With several `**` a node can be reached on several ways,
and is then found as often.

`node_modules` directories are not searched for what an import pattern names.
-/

namespace SiteMacros.Glob

/-- A component of a pattern, as it is walked. -/
inductive Step where
  /-- A text to step into. -/
  | literal (name : String)
  /-- Tokens to match names with. -/
  | wild (tokens : List Token)
  /-- `**` -/
  | deep
  deriving DecidableEq, Repr

/-- The characters that tokens stand for, if none of them is special. -/
def plain? : List Token → Option (List Char)
  | [] => some []
  | .char c :: ts => (plain? ts).map (c :: ·)
  | _ :: _ => none

/-- Tokens of one component as a step. -/
def Step.ofTokens (ts : List Token) : Step :=
  if ts = [.deep] then .deep
  else
    match plain? ts with
    | some cs => .literal (String.ofList cs)
    | none => .wild ts

/-- Does a name pass the step? -/
def Step.admits (s : Step) (name : String) : Bool :=
  match s with
  | .literal text => text = name
  | .wild ts => matchTokens ts name.toList
  | .deep => false

/-- Steps without a `**` right after another. -/
def collapse : List Step → List Step
  | .deep :: .deep :: rest => collapse (.deep :: rest)
  | s :: rest => s :: collapse rest
  | [] => []

/-- Results of entries in the order of the entries' names. -/
def inOrder {α : Type} (found : List (String × List α)) : List α :=
  (sorted (fun a b => decide (a.1 ≤ b.1)) found).flatMap (·.2)

mutual

/-- What `visit` finds at the nodes below a directory: at each node itself
before the nodes below it. -/
def below (visit : String → Path → List Path) (p : Path) : FileTree → List Path
  | .file _ => []
  | .dir es => inOrder (belowEntries visit p es)

/-- What `visit` finds at and below each entry. -/
def belowEntries (visit : String → Path → List Path) (p : Path) :
    List (String × FileTree) → List (String × List Path)
  | [] => []
  | (name, node) :: rest =>
      (name, visit name (p.join name) ++ below visit (p.join name) node) ::
        belowEntries visit p rest

end

/-- `..` and `.` if the tokens match them; they have to start with a dot of
their own. -/
def dotSteps (ts : List Token) : List String :=
  if ts.head? = some (.char '.') then
    ["..", "."].filter fun s => matchTokens ts s.toList
  else []

/-- The paths that the steps lead to from `p`. -/
def walkSteps (tree : FileTree) : List Step → Path → List Path
  | [], p => [p]
  | .literal name :: rest, p =>
      let there :=
        if name = "." || name = ".." then tree.isDir p else tree.exists? (p.join name)
      if there then walkSteps tree rest (p.join name) else []
  | .wild ts :: rest, p =>
      match tree.find p with
      | .ok (.dir es) =>
          (dotSteps ts).flatMap (fun s => walkSteps tree rest (p.join s)) ++
            inOrder (es.filterMap fun e =>
              if matchTokens ts e.1.toList then some (e.1, walkSteps tree rest (p.join e.1))
              else none)
      | _ => []
  | [.deep], p =>
      match tree.find p with
      | .ok node => below (fun _ q => if tree.isDir q then [q] else []) p node
      | .error _ => []
  | .deep :: next :: rest, p =>
      match tree.find p with
      | .ok node =>
          below (fun name q => if next.admits name then walkSteps tree rest q else []) p node
      | .error _ => []

/-- A pattern's components as steps. A slash at the end adds none. The pattern is
checked as a whole before its components are. -/
def stepsOf (pattern : String) : Except GlobError (List Step) := do
  let _ ← compile pattern
  let relative := (Text.dropStart? "/" pattern).getD pattern
  let components := Text.split '/' relative
  let components := if components.getLast? = some "" then components.dropLast else components
  let steps ← components.mapM fun c => (compile c).map Step.ofTokens
  return collapse steps

/-- The paths that a pattern matches. One that ends in a slash matches
directories only. -/
def search (tree : FileTree) (pattern : String) : Except GlobError (List Path) := do
  let steps ← stepsOf pattern
  let start : Path := if Text.startsWith "/" pattern then ⟨"/"⟩ else ⟨""⟩
  let found := walkSteps tree steps start
  return if Text.endsWith "/" pattern then found.filter tree.isDir else found

end SiteMacros.Glob

namespace SiteMacros.ImportPattern

/-- The pattern with its base written out, so that the base stands for itself. -/
def globText (p : ImportPattern) : String :=
  let base := Glob.escape p.base.text
  if p.rest.isEmpty then base else Text.trimEnd '/' base ++ "/" ++ p.rest

/-- Is the path in a `node_modules` directory below `base`? -/
def inNodeModules (base p : Path) : Bool :=
  match p.relativeTo? base with
  | some rel => rel.components.contains (.name "node_modules")
  | none => false

/-- The files that a pattern matches, in order. -/
def findFiles (p : ImportPattern) (tree : FileTree) : Except MacroError (List Path) :=
  match Glob.search tree p.globText with
  | .error e => .error (.badPattern p.rest e)
  | .ok found =>
      .ok (sortPaths (found.filter fun q => !inNodeModules p.base q && tree.isFile q))

end SiteMacros.ImportPattern
