import SiteMacros.Text.Split

/-!
# URL paths

A route's path is canonical: it starts with one slash, has no empty, `.` or `..`
segment, and ends in a slash only if it is the root. `join` makes it so. It runs
the segments of both texts over a stack, on which `..` takes back the segment
before it; at the root there is nothing to take back.
-/

namespace SiteMacros.UrlPath

/-- One segment on the stack of segments before it, the latest first. -/
def step (stack : List String) (segment : String) : List String :=
  if segment = "" || segment = "." then stack
  else if segment = ".." then stack.tail
  else segment :: stack

/-- The segments that remain of a list, in order. -/
def resolve (segments : List String) : List String :=
  (segments.foldl step []).reverse

/-- A list of segments as an absolute path. -/
def render (segments : List String) : String :=
  "/" ++ "/".intercalate segments

/-- `rel` seen from `base`, as a canonical path. -/
def join (base rel : String) : String :=
  render (resolve (Text.split '/' base ++ Text.split '/' rel))

/-- A path in canonical form. -/
def normalize (path : String) : String :=
  join "/" path

/-- The path with `*` in the place of its last segment: it matches everything
beside that segment. -/
def wildcard (path : String) : String :=
  match (Text.pieces '/' path.toList).reverse with
  | _ :: before =>
      let head := Text.joinPieces '/' before.reverse
      if head = [] then "/*" else String.ofList head ++ "/*"
  | [] => "/*"

end SiteMacros.UrlPath
