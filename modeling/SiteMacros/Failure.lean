import SiteMacros.Configuration
import SiteMacros.Error

/-!
# Failures of a run

Why a command or a step of a build fails. A failure has a headline and, if
something else brought it about, a cause; a report shows both, one after the
other on a line or one below the other.
-/

namespace SiteMacros

/-- Why a command or a step of a build fails. -/
inductive Failure where
  | unresolvable (path : Path) (fault : FileFault)
  | unreadable (path : Path) (fault : FileFault)
  | uncreatable (path : Path) (fault : FileFault)
  | unwritable (path : Path) (fault : FileFault)
  | uncopyable (file target : Path) (fault : FileFault)
  | unremovable (path : Path) (fault : FileFault)
  /-- A module whose macros cannot be expanded. -/
  | unexpanded (file : Path) (error : MacroError)
  /-- An error that is not about a module of the build. -/
  | plain (error : MacroError)
  /-- A configuration file that is not one. -/
  | unparsable (path : Path)
  | refused (reason : ConfigurationRefusal)
  | noProject (start : Path)
  | outsideSource (file src : Path)
  | namelessDirectory
  | failedModules (count : Nat)
  /-- The report of a module's failure. -/
  | reported (report : String)
  deriving DecidableEq, Repr

namespace Failure

def headline : Failure → String
  | .unresolvable p _ => "failed to resolve " ++ p.text
  | .unreadable p _ => "failed to read " ++ p.text
  | .uncreatable p _ => "failed to create " ++ p.text
  | .unwritable p _ => "failed to write " ++ p.text
  | .uncopyable file target _ => "failed to copy " ++ file.text ++ " to " ++ target.text
  | .unremovable p _ => "failed to remove " ++ p.text
  | .unexpanded file _ => "failed to expand macros in " ++ file.text
  | .plain e => e.message
  | .unparsable p => "failed to parse " ++ p.text
  | .refused reason => reason.message
  | .noProject start =>
      "configuration error: no package.json found in " ++ start.text ++ " or any parent directory"
  | .outsideSource file src => file.text ++ " is outside the source tree " ++ src.text
  | .namelessDirectory => "invalid pages directory"
  | .failedModules n => toString n ++ " module(s) failed to expand"
  | .reported report => report

/-- What brought it about. -/
def cause? : Failure → Option String
  | .unresolvable _ fault | .unreadable _ fault | .uncreatable _ fault | .unwritable _ fault
  | .uncopyable _ _ fault | .unremovable _ fault => some fault.message
  | .unexpanded _ e => some e.message
  | .plain (.unreadable _ fault) => some fault.message
  | .plain (.badPattern _ e) => some e.message
  | .unparsable _ => some "not a configuration file"
  | _ => none

/-- The failure on one line. -/
def message (f : Failure) : String :=
  match f.cause? with
  | some cause => f.headline ++ ": " ++ cause
  | none => f.headline

/-- The failure of a module in a report, by the kind of its error if it has
one. -/
def describe : Failure → String
  | .unexpanded _ e | .plain e => e.kind ++ ": " ++ e.message
  | f => f.message

/-- Does the failure go away once another module has registered? -/
def awaitsRegistration : Failure → Bool
  | .unexpanded _ e => e.awaitsRegistration
  | _ => false

/-- The failure as a command reports it. -/
def report (f : Failure) : String :=
  match f.cause? with
  | some cause => "Error: " ++ f.headline ++ "\n\nCaused by:\n    " ++ cause ++ "\n"
  | none => "Error: " ++ f.headline ++ "\n"

end Failure

end SiteMacros
