import SiteMacros.Error
import SiteMacros.Registry
import SiteMacros.UrlPath

/-!
# Paths of routes

A route's path is looked up from where it is asked for: the route of the nearest
page directory around the file, joined with a relative path. Its segments that
start with a colon are parameters, which values are bound to by position. The
result is a sequence of pieces, text that is known now and expressions that are
known when the page runs; text never meets text.
-/

namespace SiteMacros

/-- A value for a parameter. -/
inductive RouteArg where
  /-- A text known now. -/
  | literal (text : String)
  /-- The source of an expression. -/
  | expression (source : String)
  deriving DecidableEq, Repr

/-- A part of a bound path. -/
inductive Piece where
  | text (text : String)
  | expression (source : String)
  deriving DecidableEq, Repr

/-- The path of a route, such as `/cluster/:clusterId/backup`. -/
structure RoutePath where
  path : String
  deriving DecidableEq, Repr

namespace RoutePath

def segments (r : RoutePath) : List String :=
  Text.split '/' r.path

def params (r : RoutePath) : List String :=
  r.segments.filterMap (Text.dropStart? ":")

/-- Pieces, the latest first, with `s` after them. -/
def pushText (s : String) : List Piece → List Piece
  | .text t :: rest => .text (t ++ s) :: rest
  | ps => .text s :: ps

/-- Segments with arguments put in for parameters, after the pieces so far. Once
the arguments are used up, parameters stay as they are written. -/
def bindSegments : List Piece → List RouteArg → List String → List Piece
  | done, _, [] => done
  | done, args, s :: rest =>
      let (done, args) :=
        match args with
        | [] => (pushText s done, [])
        | a :: more =>
            if Text.startsWith ":" s then
              match a with
              | .literal v => (pushText v done, more)
              | .expression e => (.expression e :: done, more)
            else (pushText s done, a :: more)
      match rest with
      | [] => done
      | _ :: _ => bindSegments (pushText "/" done) args rest

/-- The path with arguments for its parameters by position; arguments beyond the
last parameter are dropped. -/
def bind (r : RoutePath) (args : List RouteArg) : Except MacroError (List Piece) :=
  if args.isEmpty then .ok [.text r.path]
  else if r.params.isEmpty then .error (.missingParameter r.path)
  else .ok (bindSegments [] args r.segments).reverse

def directoryOf (file : Path) : Path :=
  file.parent?.getD file

/-- The path `relative` seen from the route that owns `file`. -/
def resolve (r : Registry) (file : Path) (relative : String) : Except MacroError RoutePath :=
  match r.enclosingRoute? (directoryOf file) with
  | some (_, route) => .ok ⟨UrlPath.join route relative⟩
  | none => .error (.unregisteredCallSite file)

end RoutePath

end SiteMacros
