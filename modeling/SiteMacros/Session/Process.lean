import SiteMacros.Session

/-!
# Processing modules

A module is processed by expanding its text, unless it is fresh. Modules that are
processed together are tried in their order. Those that fail because something is
not registered yet are tried again, after each pass that made the registry grow.
A module that succeeds keeps its outcome, whatever the registry has to say later.

A pass that is followed by another one has added an entry to the registry. What
the modules can add is limited, which bounds the number of passes.
-/

namespace SiteMacros

inductive Outcome where
  /-- Its macros are expanded. -/
  | expanded (code : String)
  /-- It has no macros. -/
  | unchanged (text : String)
  /-- It is as it was when it was expanded last. -/
  | fresh
  deriving DecidableEq, Repr

instance : DecidableEq (Except Failure Outcome)
  | .ok a, .ok b => decidable_of_iff (a = b) (by rw [Except.ok.injEq])
  | .error e, .error f => decidable_of_iff (e = f) (by rw [Except.error.injEq])
  | .ok _, .error _ => isFalse fun h => nomatch h
  | .error _, .ok _ => isFalse fun h => nomatch h

abbrev Processed := Path × Except Failure Outcome

/-- Does a module wait for something to be registered? -/
def Processed.waits (r : Processed) : Bool :=
  match r.2 with
  | .error e => e.awaitsRegistration
  | .ok _ => false

mutual

/-- The number of files and directories in a tree. -/
def FileTree.nodeCount : FileTree → Nat
  | .file _ => 1
  | .dir es => 1 + FileTree.entryCount es

/-- The number of files and directories below entries. -/
def FileTree.entryCount : List (String × FileTree) → Nat
  | [] => 0
  | (_, node) :: rest => node.nodeCount + FileTree.entryCount rest

end

namespace Session

/-- Process a module; one that is forced is expanded also if it is fresh. -/
def process (tree : FileTree) (force : Bool) (p : Path) (s : Session) :
    Session × Except Failure Outcome :=
  match tree.readText p with
  | .error fault => (s, .error (.unreadable p fault))
  | .ok text =>
      let fingerprint := Text.digest text
      if !force && s.cache.isFresh p fingerprint then (s, .ok .fresh)
      else
        let (registry, result) :=
          Expansion.expandModule ⟨tree, s.configuration, s.root, p⟩ s.registry text
        let s := { s with registry }
        match result with
        | .error e => (s, .error (.unexpanded p e))
        | .ok none => ({ s with cache := s.cache.erase p }, .ok (.unchanged text))
        | .ok (some m) =>
            ({ s with cache := s.cache.insert p ⟨fingerprint, m.dependencies, m.code⟩ },
              .ok (.expanded m.code))

/-- Process modules one after another. -/
def pass (tree : FileTree) (force : Path → Bool) : List Path → Session → Session × List Processed
  | [], s => (s, [])
  | p :: ps, s =>
      let (s, result) := s.process tree (force p) p
      let (s, rest) := pass tree force ps s
      (s, (p, result) :: rest)

/-- Process modules, and again those that wait, as long as the registry grows and
for `more` further passes at most. -/
def passes (tree : FileTree) (force : Path → Bool) (more : Nat) (ps : List Path) (s : Session) :
    Session × List Processed :=
  let (after, results) := s.pass tree force ps
  let (waiting, settled) := results.partition Processed.waits
  match more with
  | 0 => (after, settled ++ waiting)
  | more + 1 =>
      if waiting.isEmpty || after.registry.size == s.registry.size then
        (after, settled ++ waiting)
      else
        let (final, rest) := passes tree (fun _ => true) more (waiting.map (·.1)) after
        (final, settled ++ rest)

/-- No fewer entries than the calls of a module can add to the registry: a call
registers a route and a namespace for each directory at most, and one more
namespace. -/
def entryBound (s : Session) (tree : FileTree) (p : Path) : Nat :=
  match tree.readText p with
  | .error _ => 0
  | .ok text =>
      match Expansion.analyze s.configuration p text with
      | .ok (some (_, calls)) => calls.length * (2 * tree.nodeCount + 1)
      | _ => 0

/-- No fewer entries than modules can add to the registry. -/
def entryBoundAll (s : Session) (tree : FileTree) : List Path → Nat
  | [] => 0
  | p :: ps => s.entryBound tree p + s.entryBoundAll tree ps

/-- Process modules in their order. -/
def processAll (tree : FileTree) (force : Path → Bool) (modules : List Path) (s : Session) :
    Session × List Processed :=
  s.passes tree force (s.entryBoundAll tree modules) (s.inOrder tree modules)

end Session

end SiteMacros
