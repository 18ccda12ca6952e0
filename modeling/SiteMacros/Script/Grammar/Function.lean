import SiteMacros.Script.Grammar.Type

/-!
# Functions, classes and objects

A function sets what may stand in it: whether it awaits, whether it yields, and
that it returns. Its parameters are read under the same setting as its body. Where
there are types a function may lack its body; it then only says what there is.

The members of classes and objects may have words in front, and each of these
words may be a member's name as well. It is a modifier if another name follows.
-/

namespace SiteMacros.Script.Grammar

open Parse

/-- The setting between brackets of any kind. -/
def bracketed (s : Setting) : Setting :=
  { s with inOperator := true, consequent := false, decorating := false }

/-- The setting inside a function. -/
def inFunction (isAsync isGenerator : Bool) (s : Setting) : Setting :=
  { bracketed s with awaits := isAsync, yields := isGenerator, returns := true }

/-- Statements up to the closing brace. -/
def statementsInBraces (go : Go) : Parse (List Node) := do
  expect openBrace
  let ss ← within bracketed <| many do
    let t ← token
    if t.isMark closeBrace || t.isEnd then return none
    else return some (← go .statement)
  expect closeBrace
  return ss

def functionBody (go : Go) : Parse Node := do
  let start ← start
  let ss ← statementsInBraces go
  finish .body start ss

/-- What follows the name of a function. -/
def functionParts (go : Go) (isAsync isGenerator mayLackBody : Bool) : Parse (List Node) :=
  within (inFunction isAsync isGenerator) do
    let tps ← typeParameters? go
    let ps ← parameters go
    let r ← returnType go
    if ← atMark openBrace then
      let b ← functionBody go
      return tps ++ ps :: r ++ [b]
    else
      require (mayLackBody && (← types))
      endStatement
      return tps ++ ps :: r

/-- A function from the word `function` on, which may have `async` before it. A
function that is declared has a name, unless it is a default export. -/
def function (go : Go) (declared nameless : Bool) : Parse Node := do
  let start ← start
  let isAsync ← eatWord "async"
  expectWord "function"
  let isGenerator ← eat "*"
  let t ← token
  let name ← if t.isName then pure [← binding] else
    require (!declared || nameless)
    pure []
  let parts ← functionParts go isAsync isGenerator declared
  finish .function start (name ++ parts)

/-- A method from its parameters on. -/
def method (go : Go) (isAsync isGenerator mayLackBody : Bool) : Parse Node := do
  let start ← start
  let parts ← functionParts go isAsync isGenerator mayLackBody
  finish .function start parts

/-- Does the next token show that the word at the cursor is a modifier? -/
def modifies (next : Token) : Bool :=
  startsPropertyName next || next.isMark "*"

def memberModifiers : List String :=
  ["declare", "public", "private", "protected", "static", "abstract", "override", "readonly",
    "accessor"]

/-- Step over `async`, if a method's name follows it on the line. -/
def eatAsync : Parse Bool := do
  let t ← token
  let next ← peek
  if t.isWord "async" && modifies next && !next.onNewLine then
    step
    return true
  else return false

/-- Step over `get` or `set`, if a name follows. -/
def eatAccessor : Parse Bool := do
  let t ← token
  let next ← peek
  if (t.isWord "get" || t.isWord "set") && startsPropertyName next then
    step
    return true
  else return false

/-- What stands in front of a method's name: whether the method waits, whether it
yields, and whether it stands for a property. -/
structure MethodHead where
  isAsync : Bool
  isGenerator : Bool
  isAccessor : Bool

/-- Has it to be a method? -/
def MethodHead.isSpecial (h : MethodHead) : Bool :=
  h.isAsync || h.isGenerator || h.isAccessor

/-- Step over what stands in front of a method's name. -/
def methodHead : Parse MethodHead := do
  let isAsync ← eatAsync
  let isGenerator ← eat "*"
  let isAccessor ← if isAsync || isGenerator then pure false else eatAccessor
  return ⟨isAsync, isGenerator, isAccessor⟩

/-- Step over the modifiers of a member, and say which of them are there. -/
def memberModifiersHere : Parse (List String) := do
  let withTypes ← types
  let extendModifiers (seen : List String) : Parse (Option (List String)) := do
    let t ← token
    let next ← peek
    let known := if withTypes then memberModifiers else ["static", "accessor"]
    match known.find? t.isWord with
    | none => return none
    | some w =>
        if modifies next && !(w = "static" && seen.contains w) && (w = "static" || !next.onNewLine)
        then
          step
          return some (w :: seen)
        else return none
  extend extendModifiers []

/-- The name that a member is known by before the program runs. -/
def memberName? : Node → Option String
  | .word _ text | .string _ text => some text
  | _ => none

/-- May a member have this name? A class has one constructor, which is a plain
method, and its prototype is its own. -/
def mayBeNamed (key : Node) (isStatic isMethod isSpecial : Bool) : Bool :=
  match memberName? key with
  | some "constructor" => isStatic || (isMethod && !isSpecial)
  | some "prototype" => !isStatic
  | some "#constructor" => false
  | _ => true

def classMember (go : Go) : Parse Node := do
  let start ← start
  let ds ← decorators go
  let next ← peek
  if (← atWord "static") && next.isMark openBrace then
    step
    let ss ← within (fun s => { s with awaits := true, yields := false, returns := false })
      (statementsInBraces go)
    finish .staticBlock start ss
  else
    let modifiers ← memberModifiersHere
    let withTypes ← types
    if withTypes && (← atIndexSignature) then
      let i ← indexSignature go
      let _ ← eat ","
      endStatement
      return i
    else
      let head ← methodHead
      let key ← propertyName go
      let t ← token
      if withTypes && (t.isMark "?" || (t.isMark "!" && !t.onNewLine)) then step
      let isMethod := (← atMark "(") || (withTypes && (← atMark "<"))
      require (mayBeNamed key (modifiers.contains "static") isMethod head.isSpecial)
      if isMethod then
        let f ← method go head.isAsync head.isGenerator true
        finish .method start (ds ++ [key, f])
      else
        require !head.isSpecial
        let a ← ascription go
        let value ← within (fun s => { bracketed s with awaits := false, yields := false })
          (initializer go)
        endStatement
        finish .property start (ds ++ key :: value ++ a)

def classBody (go : Go) : Parse Node := do
  let start ← start
  expect openBrace
  let ms ← within bracketed <| many do
    let _ ← many do
      if ← eat ";" then return some () else return none
    if ← atMark closeBrace then return none
    else return some (← classMember go)
  expect closeBrace
  finish .classBody start ms

/-- The types that a class or an interface is said to be of. -/
def heritage (go : Go) : Parse (List Node) := do
  let first ← typeReference go
  let more ← many do
    if ← eat "," then return some (← typeReference go)
    else return none
  return first :: more

/-- A class from its decorators on. A class that is declared has a name, unless it
is a default export. -/
def classDefinition (go : Go) (start : Nat) (ds : List Node) (named : Bool) : Parse Node := do
  expectWord "class"
  let t ← token
  let next ← peek
  let hasName := (← isVariable t) &&
    !(t.isWord "implements" && (← types) && !next.isMark openBrace)
  let name ← if hasName then pure [← binding] else
    require !named
    pure []
  let tps ← typeParameters? go
  let super ← if ← eatWord "extends" then do
      let e ← within (fun s => { s with decorating := false }) (go .leftHand)
      let args ← if ← types then typeArguments? go else pure []
      pure (e :: args)
    else pure []
  let kinds ← if (← types) && (← eatWord "implements") then heritage go else pure []
  let b ← classBody go
  finish .classForm start (ds ++ name ++ tps ++ super ++ kinds ++ [b])

/-- Values spread out where they stand. A comma behind them is a part of it, because
no target may have one there. -/
def spread (go : Go) : Parse Node := do
  let start ← start
  expect "..."
  let e ← go .assignment
  let t ← token
  finish .spread start (e :: if t.isMark "," then [.word t.span ","] else [])

def objectProperty (go : Go) : Parse Node := do
  let start ← start
  if ← atMark "..." then spread go
  else
    let head ← methodHead
    let t ← token
    let key ← propertyName go
    if (← atMark "(") || ((← types) && (← atMark "<")) then
      let f ← method go head.isAsync head.isGenerator false
      finish .method start [key, f]
    else
      require !head.isSpecial
      if ← eat ":" then
        let value ← go .assignment
        finish .pair start [key, value]
      else
        match key with
        | .word s text =>
            require (t.isName && (← isVariable t))
            if ← eat "=" then
              let value ← go .assignment
              finish .coverDefault start [.reference s text, value]
            else finish .pair start [.reference s text]
        | _ => fail

def object (go : Go) : Parse Node := do
  let start ← start
  expect openBrace
  let ps ← within bracketed (commaList closeBrace (objectProperty go))
  finish .object start ps

end SiteMacros.Script.Grammar
