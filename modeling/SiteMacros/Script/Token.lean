import SiteMacros.Script.Import

/-!
# Tokens

The pieces that a module's text is made of. A token knows its place, whether a
line break stands between it and the one before it, and the text from its start
and from its end on, because some characters mean another token where the grammar
expects one: a slash may begin a regular expression, and a closing brace may end
the hole of a template.
-/

namespace SiteMacros.Script

inductive Lexeme where
  | endOfText
  /-- An identifier or a keyword. A name that is spelled with escapes is never a
  keyword. -/
  | name (text : String) (escaped : Bool)
  /-- A name after a hash. -/
  | privateName (text : String)
  | number
  | regex
  | string (value : String)
  /-- A template up to its end or its next hole. What it denotes is not known if
  it holds an escape that denotes nothing. -/
  | template (value : Option String) (ends : Bool)
  | mark (text : String)
  /-- No token starts like this. -/
  | invalid
  deriving DecidableEq, Repr

structure Token where
  lexeme : Lexeme
  start : Nat
  stop : Nat
  /-- Does a line break precede it? -/
  onNewLine : Bool
  /-- The text from the token's start on. -/
  here : List Char
  /-- The text after the token. -/
  rest : List Char
  deriving Repr

namespace Token

def span (t : Token) : Span := ⟨t.start, t.stop⟩

def isMark (t : Token) (s : String) : Bool :=
  match t.lexeme with
  | .mark m => m = s
  | _ => false

/-- Is it this word, spelled without escapes? -/
def isWord (t : Token) (s : String) : Bool :=
  match t.lexeme with
  | .name n false => n = s
  | _ => false

def isName (t : Token) : Bool :=
  match t.lexeme with
  | .name _ _ => true
  | _ => false

def isEnd (t : Token) : Bool :=
  match t.lexeme with
  | .endOfText => true
  | _ => false

end Token

def openBrace : String := "\x7b"

def closeBrace : String := "\x7d"

/-- Words that are never names. -/
def reservedWords : List String := [
  "break", "case", "catch", "class", "const", "continue", "debugger", "default", "delete", "do",
  "else", "enum", "export", "extends", "false", "finally", "for", "function", "if", "import",
  "in", "instanceof", "new", "null", "return", "super", "switch", "this", "throw", "true", "try",
  "typeof", "var", "void", "while", "with"]

/-- May the word name a variable? In a module `await` may not. -/
def isIdentifier (text : String) : Bool :=
  text != "await" && !reservedWords.contains text

end SiteMacros.Script
