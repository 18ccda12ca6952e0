import SiteMacros.Script.Node
import SiteMacros.Script.Scanner

/-!
# Parsing

A parser reads tokens from a cursor and yields a tree. What it may read depends on
the language of the module and on where in the module it is: inside which kinds of
functions, and whether the operator `in` may appear.

The grammar is recursive, the definitions are not: a production gets the others
through a table `go`, by the goal they are known under, and the table is tied in
the end with fuel. A loop in a production takes a token each time around, so the
bytes that are left bound it.
-/

namespace SiteMacros.Script

/-- What a module may be written in. -/
structure Language where
  types : Bool
  markup : Bool
  deriving DecidableEq, Repr

/-- Where in a module the parser is. -/
structure Setting where
  language : Language
  /-- May `in` be an operator? -/
  inOperator : Bool := true
  /-- May `await` be an operator? -/
  awaits : Bool := true
  /-- May `yield` be an operator? -/
  yields : Bool := false
  /-- May `return` be a statement? -/
  returns : Bool := false
  /-- Is it a declaration of what exists elsewhere? -/
  ambient : Bool := false
  /-- Is it between the question mark and the colon of a conditional? A function
  with a return type then has to be followed by the colon. -/
  consequent : Bool := false
  /-- Is a conditional type barred? -/
  plainTypes : Bool := false
  decorating : Bool := false

/-- How far the text has been read. -/
structure Cursor where
  token : Token
  /-- The end of the token before. -/
  reached : Nat := 0

/-- The text cannot be read on from a place. -/
structure SyntaxError where
  offset : Nat
  deriving DecidableEq, Repr

abbrev Parse (α : Type) := ReaderT Setting (StateT Cursor (Except SyntaxError)) α

/-- What a production may ask for. -/
inductive Goal where
  /-- Expressions with commas between them. -/
  | expression
  /-- An expression without a comma. -/
  | assignment
  /-- Operators that bind more tightly than a level. -/
  | operators (level : Nat)
  | unary
  /-- Members and calls, without operators. -/
  | leftHand
  /-- An expression with `new`. -/
  | new
  | statement
  | type
  | typeOperator
  /-- A name, or a pattern of names. -/
  | target
  /-- An element of markup, in another or in an expression. -/
  | element (nested : Bool)
  deriving DecidableEq, Repr

/-- The table of productions. -/
abbrev Go := Goal → Parse Node

namespace Parse

def token : Parse Token :=
  return (← get).token

/-- Give up at the cursor. -/
def fail {α : Type} : Parse α := do
  throw ⟨(← token).start⟩

/-- Give up at the cursor unless `b`. -/
def require (b : Bool) : Parse Unit :=
  if b then pure () else fail

/-- Put the cursor behind a token. -/
def moveBehind (t : Token) : Parse Unit :=
  set { token := Scanner.scan t.stop t.rest, reached := t.stop : Cursor }

/-- Step to the next token. -/
def step : Parse Unit := do
  moveBehind (← token)

/-- The token after the one at the cursor. -/
def peek : Parse Token := do
  let t ← token
  return Scanner.scan t.stop t.rest

/-- Where the token at the cursor starts. -/
def start : Parse Nat :=
  return (← token).start

/-- A group from `start` up to the cursor. -/
def finish (k : Construct) (start : Nat) (parts : List Node) : Parse Node :=
  return .group k ⟨start, (← get).reached⟩ parts

def atMark (m : String) : Parse Bool :=
  return (← token).isMark m

def atWord (w : String) : Parse Bool :=
  return (← token).isWord w

/-- Step over the mark if it is at the cursor. -/
def eat (m : String) : Parse Bool := do
  if ← atMark m then
    step
    return true
  else return false

def eatWord (w : String) : Parse Bool := do
  if ← atWord w then
    step
    return true
  else return false

/-- Step over the mark, which has to be at the cursor. -/
def expect (m : String) : Parse Unit := do
  unless ← eat m do fail

def expectWord (w : String) : Parse Unit := do
  unless ← eatWord w do fail

def types : Parse Bool :=
  return (← read).language.types

/-- Run a parser in another setting. -/
def within {α : Type} (f : Setting → Setting) (p : Parse α) : Parse α :=
  ReaderT.adapt f p

/-- Run a parser; if it gives up, be where it started. -/
def attempt {α : Type} (p : Parse α) : Parse (Option α) := fun setting cursor =>
  match p setting cursor with
  | .ok (a, after) => .ok (some a, after)
  | .error _ => .ok (none, cursor)

/-- Does a parser succeed here? The cursor stays. -/
def looksLike (p : Parse Bool) : Parse Bool := fun setting cursor =>
  match p setting cursor with
  | .ok (b, _) => .ok (b, cursor)
  | .error _ => .ok (false, cursor)

/-- More than the number of tokens that are left. -/
def budget : Parse Nat := do
  return (← token).here.length + 1

/-- The results of a parser that is run as long as it has one. -/
def collect {α : Type} (p : Parse (Option α)) : (bound : Nat) → Parse (List α)
  | 0 => return []
  | bound + 1 => do
      match ← p with
      | some a => return a :: (← collect p bound)
      | none => return []

/-- Run a parser as long as it has a result. -/
def many {α : Type} (p : Parse (Option α)) : Parse (List α) := do
  collect p (← budget)

/-- Items up to the closing mark, with separators between them; one may stand
after the last. The closing mark is stepped over. -/
def listUntil {α : Type} (close : String) (p : Parse α) (separate : Parse Unit) : Parse (List α) := do
  let items ← many do
    if ← atMark close then return none
    else
      let item ← p
      unless ← atMark close do separate
      return some item
  expect close
  return items

/-- Items up to the closing mark, with commas between them. -/
def commaList {α : Type} (close : String) (p : Parse α) : Parse (List α) :=
  listUntil close p (expect ",")

/-- Change a value by parsers as long as there is one for it. -/
def extendWith {α : Type} (p : α → Parse (Option α)) (a : α) : (bound : Nat) → Parse α
  | 0 => return a
  | bound + 1 => do
      match ← p a with
      | some a => extendWith p a bound
      | none => return a

/-- Change a value as long as there is something that changes it. -/
def extend {α : Type} (p : α → Parse (Option α)) (a : α) : Parse α := do
  extendWith p a (← budget)

/-- May a statement end here without a semicolon? -/
def atStatementEnd : Parse Bool := do
  let t ← token
  return t.onNewLine || t.isEnd || t.isMark closeBrace || t.isMark ";"

def endStatement : Parse Unit := do
  unless ← eat ";" do
    require (← atStatementEnd)

/-- A word at the cursor, keywords included. -/
def anyName : Parse Node := do
  let t ← token
  match t.lexeme with
  | .name text _ =>
      step
      return .word t.span text
  | _ => fail

/-- Does the token name a variable? -/
def isVariable (t : Token) : Parse Bool := do
  match t.lexeme with
  | .name text _ => return isIdentifier text && !(text == "yield" && (← read).yields)
  | _ => return false

/-- The name of a variable at the cursor. -/
def variableName : Parse (Span × String) := do
  let t ← token
  require (← isVariable t)
  match t.lexeme with
  | .name text _ =>
      step
      return (t.span, text)
  | _ => fail

/-- A name that refers to a variable. -/
def reference : Parse Node := do
  let (s, name) ← variableName
  return .reference s name

/-- A name that declares a variable. -/
def binding : Parse Node := do
  let (s, name) ← variableName
  return .binding s name

/-- Nothing or one node, as a list. -/
def optional (b : Bool) (p : Parse Node) : Parse (List Node) := do
  if b then return [← p] else return []

end Parse

end SiteMacros.Script
