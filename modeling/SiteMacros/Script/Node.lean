import SiteMacros.Script.Import

/-!
# Syntax trees

A module's text as a tree. What matters here are names: a name that refers to a
variable, a name that declares one, and the calls, because a macro is a call of a
name. These have nodes of their own, as have texts, because a macro's argument
may be one. Everything else is a group: a construct with its parts, in the order
in which the parts are visited.

A name that neither refers nor declares, such as a property's, is a word, and so
is a number or an operator.
-/

namespace SiteMacros.Script

/-- What a group is. -/
inductive Construct where
  | program | block | empty | expressionStatement | variableDeclaration | declarator
  | ifStatement | forStatement | forInStatement | forOfStatement | whileStatement | doStatement
  | returnStatement | throwStatement | tryStatement | catchClause | switchStatement | switchCase
  | labeled | jump | debugger | withStatement
  | exportNamed | exportDefault | exportAll | exportSpecifier | exportAssignment | importEquals
  | function | arrow | parameters | parameter | body | classBody | classForm | decorator
  | method | property | staticBlock
  | parenthesized | sequence | assignment | conditional | binary | unary | update
  | await | yield | new | member | index | chain | tagged | template | dynamicImport | metaProperty
  | array | hole | object | pair | coverDefault | spread | super | this
  | arrayPattern | objectPattern | default | rest
  | nonNull | cast | typeAssertion | instantiation
  | element | elementName | attribute | elementText | embedded
  | ascription | typeArguments | typeParameters | typeParameter | typeReference | type
  | predicate | signature
  | interface | typeAlias | enum | enumMember | moduleBlock | ambient
  deriving DecidableEq, Repr

inductive Node where
  /-- A name that refers to a variable or a type. -/
  | reference (span : Span) (name : String)
  /-- A name that declares one. -/
  | binding (span : Span) (name : String)
  /-- A text, or a template that has no holes, with the value it denotes. -/
  | string (span : Span) (value : String)
  | word (span : Span) (text : String)
  | call (span : Span) (callee : Node) (typeArgs args : List Node)
  | importDeclaration (declaration : ImportDeclaration) (bindings : List Node)
  | group (construct : Construct) (span : Span) (parts : List Node)
  deriving Repr

namespace Node

/-- The part of the text that a node stands for. -/
def span : Node → Span
  | reference s _ | binding s _ | string s _ | word s _ | call s _ _ _ | group _ s _ => s
  | importDeclaration d _ => d.span

def is (k : Construct) : Node → Bool
  | group k' _ _ => k = k'
  | _ => false

/-- The text that the node denotes, if it is a text. -/
def literal? : Node → Option String
  | string _ value => some value
  | _ => none

end Node

/-- A place in a tree that has to do with a name. -/
inductive Site where
  | reference (span : Span) (name : String)
  | binding (span : Span) (name : String)
  /-- A call of a name, which stands at `callee`. -/
  | call (span callee : Span) (name : String) (args : List Node)
  deriving Repr

mutual

/-- The sites of a node in the order of a visit: a call before what it
contains. -/
def Node.sites : Node → List Site
  | .reference s name => [.reference s name]
  | .binding s name => [.binding s name]
  | .string _ _ | .word _ _ => []
  | .call s callee typeArgs args =>
      (match callee with
        | .reference c name => [.call s c name args]
        | _ => []) ++ Node.sites callee ++ sitesOf typeArgs ++ sitesOf args
  | .importDeclaration _ bindings => sitesOf bindings
  | .group _ _ parts => sitesOf parts

/-- The sites of nodes one after another. -/
def sitesOf : List Node → List Site
  | [] => []
  | n :: ns => n.sites ++ sitesOf ns

end

end SiteMacros.Script
