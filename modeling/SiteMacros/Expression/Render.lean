import SiteMacros.Expression
import SiteMacros.Text.Quoted

/-!
# Expressions as source text

Arrays and objects are laid out one element a line, two blanks for each level,
starting from the level of the line that the call stood on. An arrow function or
a conditional is put in parentheses where it would otherwise not be read as one
operand, and an object in parentheses where it would be read as a block.
-/

namespace SiteMacros.Expression

def indent (depth : Nat) : String :=
  Text.replicate depth "  "

/-- May `c` start a property name that needs no quotes? -/
def keyStart (c : Char) : Bool :=
  c.isAlpha || c == '_' || c == '$'

/-- A property name, in quotes unless it is plain. -/
def key (name : String) : String :=
  match name.toList with
  | [] => Text.quoted name
  | c :: cs =>
      if keyStart c && cs.all fun c => keyStart c || c.isDigit then name else Text.quoted name

/-- Text between the backticks of a template. A dollar sign is escaped only in
front of a brace. -/
def templateText : List Char → List Char
  | [] => []
  | '\\' :: cs => '\\' :: '\\' :: templateText cs
  | '\x60' :: cs => '\\' :: '\x60' :: templateText cs
  | '$' :: '\x7b' :: cs => '\\' :: '$' :: '\x7b' :: templateText cs
  | c :: cs => c :: templateText cs

/-- Does an operand need parentheses? -/
def needsParens : Expression → Bool
  | .arrow .. | .arrowBlock .. | .conditional .. => true
  | _ => false

def isObject : Expression → Bool
  | .object _ => true
  | _ => false

/-- Text in parentheses if `wrap` says so. -/
def parens (wrap : Bool) (s : String) : String :=
  if wrap then "(" ++ s ++ ")" else s

/-- The parameters of an arrow function and its arrow. -/
def arrowHead (params : List String) : String :=
  "(" ++ ", ".intercalate params ++ ") => "

mutual

/-- An expression as source text, on a line that is indented by `depth`
levels. -/
def render (depth : Nat) : Expression → String
  | .string s => Text.quoted s
  | .bool b => if b then "true" else "false"
  | .null => "null"
  | .undefined => "undefined"
  | .name s => s
  | .source s => s
  | .array [] => "[]"
  | .array (e :: es) => "[\n" ++ renderItems (depth + 1) (e :: es) ++ indent depth ++ "]"
  | .object [] => "\x7b\x7d"
  | .object (p :: ps) =>
      "\x7b\n" ++ renderProperties (depth + 1) (p :: ps) ++ indent depth ++ "\x7d"
  | .member e property => parens e.needsParens (render depth e) ++ "." ++ property
  | .call callee args =>
      parens callee.needsParens (render depth callee) ++ "(" ++ renderArgs depth args ++ ")"
  | .arrow params body => arrowHead params ++ parens body.isObject (render depth body)
  | .arrowBlock params statements =>
      arrowHead params ++ "\x7b\n" ++ renderStatements (depth + 1) statements ++
        indent depth ++ "\x7d"
  | .dynamicImport s => "import(" ++ Text.quoted s ++ ")"
  | .conditional test consequent alternate =>
      parens test.needsParens (render depth test) ++ " ? " ++
        parens consequent.needsParens (render depth consequent) ++ " : " ++
        parens alternate.needsParens (render depth alternate)
  | .template parts => "\x60" ++ renderParts depth parts ++ "\x60"

/-- Array elements, one a line. -/
def renderItems (depth : Nat) : List Expression → String
  | [] => ""
  | e :: es => indent depth ++ render depth e ++ ",\n" ++ renderItems depth es

/-- Object properties, one a line. -/
def renderProperties (depth : Nat) : List (String × Expression) → String
  | [] => ""
  | (k, e) :: ps =>
      indent depth ++ key k ++ ": " ++ render depth e ++ ",\n" ++ renderProperties depth ps

def renderArgs (depth : Nat) : List Expression → String
  | [] => ""
  | [e] => render depth e
  | e :: e' :: es => render depth e ++ ", " ++ renderArgs depth (e' :: es)

/-- Statements, one a line. -/
def renderStatements (depth : Nat) : List Expression → String
  | [] => ""
  | e :: es => indent depth ++ render depth e ++ ";\n" ++ renderStatements depth es

def renderParts (depth : Nat) : List TemplatePart → String
  | [] => ""
  | .text t :: ps => String.ofList (templateText t.toList) ++ renderParts depth ps
  | .hole e :: ps => "$\x7b" ++ render depth e ++ "\x7d" ++ renderParts depth ps

end

end SiteMacros.Expression
