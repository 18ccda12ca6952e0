import SiteMacros.Session.Build
import SiteMacros.Session.Change

/-!
# Batches of changes

A watched project is kept up to date batch by batch. Each change is noted in a
plan, and what was removed is forgotten at once, in the registry, the cache and
the output tree. From the plan and the dependencies in the cache follow the
modules to expand: those that have changed, and, forced, those that depend on what
has changed. Failures are reported and end nothing.
-/

namespace SiteMacros

/-- What a batch of changes asks for. -/
structure Plan where
  /-- May the shape of a pages tree be another? -/
  structural : Bool := false
  /-- The directories whose resources have changed. -/
  translationDirs : PathSet := {}
  /-- The modules that have changed. -/
  sources : PathSet := {}
  /-- The other files to copy. -/
  assets : PathSet := {}

structure BatchReport where
  rebuilt : Nat := 0
  copied : Nat := 0
  /-- How many routes were forgotten. -/
  pruned : Nat := 0
  failures : List (Path × Failure) := []
  deriving Repr

/-- Was there nothing to report? -/
def BatchReport.isEmpty (r : BatchReport) : Bool :=
  r.rebuilt == 0 && r.copied == 0 && r.pruned == 0 && r.failures.isEmpty

namespace Plan

/-- A plan with a source file in it. -/
def addFile (plan : Plan) (s : Session) (p : Path) : Plan :=
  if s.isModule p then { plan with sources := plan.sources.add p }
  else { plan with assets := plan.assets.add p }

/-- A plan with one more change, which is about the path `p`. What is no file is
neither expanded nor copied. -/
def note (plan : Plan) (s : Session) (tree : FileTree) (p : Path) : Change → Plan
  | .shape =>
      let plan := { plan with structural := true }
      if tree.isFile p then plan.addFile s p else plan
  | .translation dir =>
      let plan := { plan with translationDirs := plan.translationDirs.add dir }
      if tree.isFile p then { plan with assets := plan.assets.add p } else plan
  | .source file =>
      if tree.isFile file then { plan with sources := plan.sources.add file } else plan
  | .asset file =>
      if tree.isFile file then { plan with assets := plan.assets.add file } else plan
  | .ignored => plan

/-- May the registry come to hold something else? -/
def touchesRegistry (plan : Plan) (cache : ModuleCache) : Bool :=
  plan.structural || plan.translationDirs.size != 0 || plan.sources.toList.any cache.registers

/-- The modules that depend on what has changed. -/
def dependents (plan : Plan) (cache : ModuleCache) : PathSet :=
  let ofPages := if plan.structural then cache.pageDependents else []
  let ofDirs := plan.translationDirs.toList.flatMap cache.watchersOf
  let ofNamespaces := if plan.touchesRegistry cache then cache.namespaceDependents else []
  ((PathSet.addAll {} ofPages).addAll ofDirs).addAll ofNamespaces

end Plan

namespace Session

/-- Forget what is at or below a path, and count the routes among it. -/
def forget (p : Path) (s : Session) (tree : FileTree) : FileTree × Session × Nat :=
  let registry := s.registry.pruneUnder p
  let pruned := s.registry.size - registry.size
  let s := { s with registry, cache := s.cache.eraseUnder p }
  let (_, tree) := (s.removeOutput p).run tree
  (tree, s, pruned)

/-- Note changes in a plan, and forget what was removed. -/
def noteChanges : List (Path × PathChange) → Plan → Session → FileTree →
    FileTree × Session × Nat × Plan
  | [], plan, s, tree => (tree, s, 0, plan)
  | (p, c) :: rest, plan, s, tree =>
      let (tree, s, pruned) := if c = .removed then s.forget p tree else (tree, s, 0)
      let plan := plan.note s tree p (Change.classify s tree p c)
      let (tree, s, more, plan) := noteChanges rest plan s tree
      (tree, s, pruned + more, plan)

/-- Write the texts of processed modules, and report on each. -/
def rewriteAll (s : Session) : List Processed → BatchReport → FileTree → FileTree × BatchReport
  | [], report, tree => (tree, report)
  | (p, result) :: rest, report, tree =>
      let (written, tree) : Except Failure Bool × FileTree :=
        match result with
        | .error e => (.error e, tree)
        | .ok outcome =>
            match outcome.output? with
            | none => (.ok false, tree)
            | some text => ((do s.writeOutput p text; return true) : OnDisk Bool).run tree
      let report :=
        match written with
        | .ok true => { report with rebuilt := report.rebuilt + 1 }
        | .ok false => report
        | .error e => { report with failures := report.failures ++ [(p, e)] }
      s.rewriteAll rest report tree

/-- Copy files, and report on each. -/
def copyAll (s : Session) : List Path → BatchReport → FileTree → FileTree × BatchReport
  | [], report, tree => (tree, report)
  | p :: rest, report, tree =>
      let (copied, tree) := (s.copyOutput p).run tree
      let report :=
        match copied with
        | .ok () => { report with copied := report.copied + 1 }
        | .error e => { report with failures := report.failures ++ [(p, e)] }
      s.copyAll rest report tree

/-- Bring the output tree up to date after changes. -/
def applyBatch (changes : List (Path × PathChange)) (s : Session) (tree : FileTree) :
    FileTree × Session × BatchReport :=
  let (tree, s, pruned, plan) := noteChanges changes {} s tree
  let forced := plan.dependents s.cache
  let modules := ((PathSet.addAll forced plan.sources.toList).toList).filter tree.isFile
  let (s, processed) := s.processAll tree forced.contains modules
  let (tree, report) := s.rewriteAll processed { pruned } tree
  let (tree, report) := s.copyAll plan.assets.toList report tree
  (tree, s, report)

end Session

end SiteMacros
