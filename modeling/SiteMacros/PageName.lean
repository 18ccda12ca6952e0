import SiteMacros.Text.Split
import SiteMacros.Text.Digit

/-!
# Names of page directories

A directory is a page if its name holds an index token: brackets around a
decimal number, with or without a sign. The number's sign says what kind of page
it is, its magnitude where the page stands among its siblings. A name may hold
other bracketed tokens; `[protect]` closes a page's menu, and the rest is
ignored. What remains when all tokens are taken out is the page's segment.

An underscore right after the index token makes the segment a parameter, if it
is the first character that remains: `[1]_id` is `:id`. Anywhere else an
underscore is a character like any other.
-/

namespace SiteMacros

/-- What a page is for, from the number in its name. -/
inductive PageKind where
  /-- A positive number: the page is in the menu, at this place. -/
  | menuItem (order : Nat)
  /-- A negative number: the page has a route and is not in the menu. -/
  | hidden (order : Nat)
  /-- Zero: the page catches what no sibling matches. -/
  | fallback
  deriving DecidableEq, Repr

/-- The parts of a page directory's name. -/
structure PageName where
  kind : PageKind
  protect : Bool
  /-- The part of the route's path, with `:` in front of a parameter. -/
  segment : String
  /-- The segment without the mark of a parameter. -/
  endpoint : String
  deriving DecidableEq, Repr

/-- The number of an index token as it is written. -/
structure IndexToken where
  negative : Bool
  digits : List Char
  /-- Does an underscore follow the closing bracket? -/
  marked : Bool
  deriving DecidableEq, Repr

namespace PageName

/-- What follows the opening bracket of an index token: a sign or none, digits
of any script, the closing bracket. -/
def indexAfterBracket? (cs : List Char) : Option IndexToken :=
  let (negative, body) :=
    match cs with
    | '-' :: r => (true, r)
    | '+' :: r => (false, r)
    | r => (false, r)
  let digits := body.takeWhile Text.isDecimalDigit
  match digits, body.dropWhile Text.isDecimalDigit with
  | _ :: _, ']' :: rest => some ⟨negative, digits, rest.head? == some '_'⟩
  | _, _ => none

/-- The first index token of a name. -/
def firstIndex? : List Char → Option IndexToken
  | [] => none
  | c :: cs =>
      match (if c = '[' then indexAfterBracket? cs else none) with
      | some t => some t
      | none => firstIndex? cs

/-- The text without its bracketed tokens: each `[` goes together with all up to
the next `]`. An opening bracket that nothing closes stays. `pending` holds the
text since the bracket that is open, the latest character first. -/
def stripTokens : (pending : Option (List Char)) → List Char → List Char
  | none, [] => []
  | some open_, [] => open_.reverse
  | none, c :: cs => if c = '[' then stripTokens (some ['[']) cs else c :: stripTokens none cs
  | some open_, c :: cs =>
      if c = ']' then stripTokens none cs else stripTokens (some (c :: open_)) cs

/-- A name without its bracketed tokens. -/
def clean (raw : String) : String :=
  String.ofList (stripTokens none raw.toList)

/-- The greatest number that an index token may spell. -/
def maxOrder : Nat := 4294967295

/-- The kind of page that an index token makes; `none` if its digits are not all
of `0` to `9`, or spell too great a number. -/
def kind? (t : IndexToken) : Option PageKind := do
  let n ← Text.number? t.digits
  if n ≤ maxOrder then
    if n = 0 then some .fallback
    else if t.negative then some (.hidden n)
    else some (.menuItem n)
  else none

/-- A directory's name read as a page's; `none` if it does not name a page. -/
def parse? (raw : String) : Option PageName := do
  let token ← firstIndex? raw.toList
  let kind ← kind? token
  let text := stripTokens none raw.toList
  let (segment, endpoint) :=
    match text with
    | '_' :: r => if token.marked then (':' :: r, r) else (text, text)
    | _ => (text, text)
  return {
    kind
    protect := Text.contains "[protect]" raw
    segment := String.ofList segment
    endpoint := String.ofList endpoint }

end PageName

end SiteMacros
