import SiteMacros.Sort
import SiteMacros.Text.Blank
import SiteMacros.Text.Split

/-!
# Edits of a text

An edit puts a text in the place of a part of another. Places are counted in
bytes, as positions in a module are. Edits of one text are carried out together,
in the order of their places, and each place is one of the text as it was; of
edits at one place those come first that take nothing away, and equal ones keep
their order.

The functions below the edits read the text around a place: where the line of a
removed statement ends, how far a line is indented, and whether a statement that
begins with a bracket would run on from the one before it.
-/

namespace SiteMacros

/-- A text in the place of the bytes from `start` to `stop`. -/
structure Edit where
  start : Nat
  stop : Nat
  text : String
  deriving DecidableEq, Repr

namespace Edit

/-- The characters from byte `n` on. -/
def dropBytes : Nat → List Char → List Char
  | 0, cs => cs
  | _ + 1, [] => []
  | n + 1, c :: cs => dropBytes (n + 1 - c.utf8Size) cs

/-- The characters up to byte `n`. -/
def takeBytes : Nat → List Char → List Char
  | 0, _ => []
  | _ + 1, [] => []
  | n + 1, c :: cs => c :: takeBytes (n + 1 - c.utf8Size) cs

/-- Is `a` to be carried out before `b`, or neither before the other? -/
def le (a b : Edit) : Bool :=
  decide (a.start < b.start) || (a.start == b.start && decide (a.stop ≤ b.stop))

/-- Carry out edits that are in order on the characters from byte `at_` on. -/
def applySorted (at_ : Nat) : List Edit → List Char → List Char
  | [], cs => cs
  | e :: es, cs =>
      takeBytes (e.start - at_) cs ++ e.text.toList ++
        applySorted e.stop es (dropBytes (e.stop - at_) cs)

def applyAll (s : String) (es : List Edit) : String :=
  String.ofList (applySorted 0 (sorted le es) s.toList)

end Edit

namespace Text

/-- The characters before byte `n` of a text, the latest first. -/
def before (s : String) (n : Nat) : List Char :=
  (Edit.takeBytes n s.toList).reverse

/-- The place after a statement that ends at byte `n`: beyond the line break if
only blanks are in between, and where it was otherwise. -/
def lineEnd (s : String) (n : Nat) : Nat :=
  let rest := Edit.dropBytes n s.toList
  let isBlank (c : Char) : Bool := c == ' ' || c == '\t'
  let blanks := (rest.takeWhile isBlank).length
  match rest.dropWhile isBlank with
  | '\r' :: '\n' :: _ => n + blanks + 2
  | '\n' :: _ => n + blanks + 1
  | _ => n

/-- How many levels of two blanks the line around byte `n` is indented by. -/
def indentDepth (s : String) (n : Nat) : Nat :=
  let column := (before s n).takeWhile (· != '\n')
  let line := column.reverse ++ Edit.dropBytes n s.toList
  (line.takeWhile (· == ' ')).length / 2

/-- The characters after which a statement cannot be running on. -/
def statementBreaks : List Char :=
  [';', '\x7b', '\x7d', '(', '[', ',', '=', ':', '?', '&', '|', '!', '>']

/-- Does a text that replaces what is at byte `n` need a semicolon in front, so
that it is not read as a call of what stands before it? -/
def needsGuard (s : String) (n : Nat) (replacement : String) : Bool :=
  startsWith "(" replacement &&
    match (before s n).dropWhile isWhiteSpace with
    | [] => false
    | c :: _ => !statementBreaks.contains c

end Text

end SiteMacros
