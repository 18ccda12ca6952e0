import SiteMacros.Error
import SiteMacros.Text.Split

/-!
# Glob patterns

A pattern names files: `?` stands for one character of a name, `*` for any
number of them, `[ab]` and `[!ab]` for one character that is or is not in a
class, `**` for any number of directories. The last is only allowed as a whole
component. A class holds characters and ranges; its first character is taken as
it is, so that `[]]` is the class of the closing bracket.

Nothing escapes a special character but a class of its own, which is how
`escape` writes a text that is to stand for itself.
-/

namespace SiteMacros.Glob

inductive ClassItem where
  | single (c : Char)
  | range (low high : Char)
  deriving DecidableEq, Repr

inductive Token where
  | char (c : Char)
  /-- `?` -/
  | one
  /-- `*` -/
  | many
  /-- `[...]` -/
  | within (items : List ClassItem)
  /-- `[!...]` -/
  | except (items : List ClassItem)
  /-- `**` -/
  | deep
  deriving DecidableEq, Repr

/-- The members of a class from the text between its brackets. -/
def classItems : List Char → List ClassItem
  | a :: '-' :: b :: rest => .range a b :: classItems rest
  | c :: rest => .single c :: classItems rest
  | [] => []

/-- Is `c` in the class? A range whose ends are the wrong way round is empty. -/
def inClass (c : Char) (items : List ClassItem) : Bool :=
  items.any fun
    | .single a => a == c
    | .range low high => decide (low ≤ c) && decide (c ≤ high)

/-- The text of a class from after its first character: all up to the closing
bracket. -/
def classBody? (first : Char) (rest : List Char) : Option (List Char) :=
  if rest.contains ']' then some (first :: rest.takeWhile (· != ']')) else none

/-- A class from after its opening bracket: the token, and the number of
characters after the bracket that belong to it. -/
def class? : List Char → Option (Token × Nat)
  | '!' :: first :: rest =>
      (classBody? first rest).map fun body => (.except (classItems body), body.length + 2)
  | '!' :: [] => none
  | first :: rest =>
      (classBody? first rest).map fun body => (.within (classItems body), body.length + 1)
  | [] => none

/-- The tokens of a pattern. `position` counts the characters so far, `opens`
says whether a component starts here, and `skip` characters belong to the token
before. -/
def tokens (position : Nat) (opens : Bool) (skip : Nat) :
    List Char → Except GlobError (List Token)
  | [] => .ok []
  | c :: cs =>
      let next (t : Token) (skip : Nat) :=
        (tokens (position + 1) false skip cs).map (t :: ·)
      match skip with
      | skip + 1 => tokens (position + 1) false skip cs
      | 0 =>
          match c with
          | '?' => next .one 0
          | '*' =>
              match cs with
              | '*' :: '*' :: _ => .error ⟨.wildcards, position + 2⟩
              | '*' :: rest =>
                  if !opens then .error ⟨.recursiveWildcard, position - 1⟩
                  else if rest.isEmpty || rest.head? == some '/' then next .deep 1
                  else .error ⟨.recursiveWildcard, position + 2⟩
              | _ => next .many 0
          | '[' =>
              match class? cs with
              | some (t, length) => next t length
              | none => .error ⟨.range, position⟩
          | '/' => (tokens (position + 1) true 0 cs).map (.char '/' :: ·)
          | c => next (.char c) 0

def compile (pattern : String) : Except GlobError (List Token) :=
  tokens 0 true 0 pattern.toList

/-- Does a part of the list from some place on have the property? -/
def anySuffix {α : Type} (p : List α → Bool) : List α → Bool
  | [] => p []
  | a :: as => p (a :: as) || anySuffix p as

def matchTokens : List Token → List Char → Bool
  | [], name => name.isEmpty
  | .many :: ts, name => anySuffix (matchTokens ts) name
  | .deep :: ts, name => matchTokens ts name
  | .char a :: ts, c :: cs => a == c && matchTokens ts cs
  | .one :: ts, _ :: cs => matchTokens ts cs
  | .within items :: ts, c :: cs => inClass c items && matchTokens ts cs
  | .except items :: ts, c :: cs => !inClass c items && matchTokens ts cs
  | _ :: _, [] => false

/-- The characters of a text with each special one in a class of its own. -/
def escapeChar (c : Char) : List Char :=
  if c = '?' || c = '*' || c = '[' || c = ']' then ['[', c, ']'] else [c]

/-- A pattern that matches only the text. -/
def escape (s : String) : String :=
  String.ofList (s.toList.flatMap escapeChar)

end SiteMacros.Glob
