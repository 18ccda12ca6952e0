import SiteMacros.Session.Output
import SiteMacros.Session.Process

/-!
# Builds

A build processes every module of the source tree, forced, and then writes the
output tree: the modules in the order they were processed in, and copies of all
other files. A module that fails is reported, and the others are built all the
same; a file that cannot be written ends the build.

Expanding one module takes a build that writes nothing, because what the module
asks for may be registered anywhere in the project.
-/

namespace SiteMacros

structure BuildReport where
  /-- How many modules were expanded. -/
  expanded : Nat := 0
  /-- How many files were copied. -/
  copied : Nat := 0
  failures : List (Path × Failure) := []
  deriving Repr

namespace Outcome

/-- The text that goes into the output tree, if there is a new one. -/
def output? : Outcome → Option String
  | .expanded code => some code
  | .unchanged text => some text
  | .fresh => none

def isExpanded : Outcome → Bool
  | .expanded _ => true
  | _ => false

end Outcome

namespace BuildReport

/-- The report on processed modules. -/
def ofProcessed (rs : List Processed) : BuildReport where
  expanded := (rs.filter fun r => r.2.toOption.any (·.isExpanded)).length
  failures := rs.filterMap fun r =>
    match r.2 with
    | .error e => some (r.1, e)
    | .ok _ => none

end BuildReport

namespace Session

/-- Write the texts of processed modules. -/
def writeProcessed (s : Session) : List Processed → OnDisk Unit
  | [] => pure ()
  | (p, result) :: rest => do
      match result.toOption.bind (·.output?) with
      | some text => s.writeOutput p text
      | none => pure ()
      s.writeProcessed rest

/-- Build the project, and write the output tree if `write` is set. The session
that comes back knows what was expanded, also if the output could not be
written. -/
def build (write : Bool) (s : Session) (tree : FileTree) :
    (FileTree × Session) × Except Failure BuildReport :=
  match s.sourceFiles tree with
  | .error e => ((tree, s), .error e)
  | .ok files =>
      let (modules, others) := files.partition s.isModule
      let (s, processed) := s.processAll tree (fun _ => true) modules
      let report := BuildReport.ofProcessed processed
      if write then
        let writing : OnDisk BuildReport := do
          s.writeProcessed processed
          others.forM s.copyOutput
          return { report with copied := others.length }
        let (result, tree) := writing.run tree
        ((tree, s), result)
      else ((tree, s), .ok report)

/-- The expanded text of one module, seen from `cwd`, and the session after the
build that it takes. -/
def expandFile (cwd file : Path) (s : Session) (tree : FileTree) :
    Session × Except Failure String :=
  match tree.canonical (cwd.join file.text) with
  | .error fault => (s, .error (.unresolvable file fault))
  | .ok file =>
      if !file.startsWith s.srcDir then (s, .error (.outsideSource file s.srcDir))
      else
        let ((_, s), built) := s.build false tree
        (s, do
          let report ← built
          match report.failures.find? (·.1.same file) with
          | some (_, e) => throw (.reported e.describe)
          | none =>
              match s.cache.get? file with
              | some m => return m.output
              | none =>
                  match tree.readText file with
                  | .ok text => return text
                  | .error fault => throw (.unreadable file fault))

end Session

end SiteMacros
