import SiteMacros.CommandLine.Run
import SiteMacros.FileTree.Difference
import SiteMacros.Session.Batch

/-!
# Watching

A watcher sees its project again and again. The differences between two sights are
a batch of changes, and the report of the batch is printed if it says anything.
-/

namespace SiteMacros

/-- The change that a difference is. -/
def Difference.change : Difference → Path × PathChange
  | .made p | .created p _ => (p, .created)
  | .changed p _ => (p, .modified)
  | .gone p => (p, .removed)

namespace Command

/-- The lines on a batch. -/
def batchOutput (s : Session) (r : BatchReport) : List Output :=
  if r.isEmpty then []
  else
    let failures := r.failures.map fun (p, e) =>
      Console.line ("  " ++ Console.styled 31 "[pagemacro]" ++ " " ++
        ((p.relativeTo? s.root).getD p).text ++ ": " ++ e.describe)
    let pruned := if r.pruned = 0 then "" else ", " ++ toString r.pruned ++ " route(s) pruned"
    [.text (String.join failures ++ "  " ++ Console.styled 32 "[pagemacro]" ++ " " ++
      toString r.rebuilt ++ " module(s) rebuilt, " ++ toString r.copied ++ " file(s) copied" ++
      pruned ++ " ("), .elapsed, .text ")\n"]

/-- Bring the output tree up to date with what has become of the project since it
was seen last. -/
def followUp (s : Session) (before now : FileTree) : FileTree × Session × List Output :=
  let changes := ((before.differences now).map Difference.change).filter fun (p, _) =>
    Change.concerns s p
  if changes.isEmpty then (now, s, [])
  else
    let (tree, s, report) := s.applyBatch changes now
    let head := Console.line ("  " ++ Console.styled 36 "[pagemacro]" ++ " " ++
      toString changes.length ++ " change(s), rebuilding...")
    (tree, s, .text head :: batchOutput s report)

end Command

end SiteMacros
