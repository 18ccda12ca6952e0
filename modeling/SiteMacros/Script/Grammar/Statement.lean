import SiteMacros.Script.Grammar.Expression

/-!
# Statements

A statement is known by its first word, or by its first two where the first may be
a name as well. What declares types is a statement like any other; where something
is declared to exist elsewhere, values and bodies may be missing.
-/

namespace SiteMacros.Script.Grammar

open Parse

/-! ### Variables -/

/-- Does `let` at the cursor declare variables? -/
def atLet : Parse Bool := do
  let t ← token
  let next ← peek
  return t.isWord "let" &&
    (next.isMark "[" || next.isMark openBrace || (← isVariable next)) &&
    !(next.isWord "instanceof") && !(next.isWord "in")

def atVariables : Parse Bool := do
  return (← atWord "var") || (← atWord "const") || (← atLet)

/-- A variable with its type and its value. In a loop over values it has none of
its own. -/
def declarator (go : Go) (constant inLoop : Bool) : Parse Node := do
  let start ← start
  let t ← go .target
  let mark ← token
  if (← types) && mark.isMark "!" && !mark.onNewLine then step
  let a ← ascription go
  let value ← if ← eat "=" then pure [← go .assignment] else pure []
  let loops := inLoop && ((← atWord "of") || (← atWord "in"))
  let ambient := (← read).ambient
  let named := match t with
    | .binding _ _ => true
    | _ => false
  require (!value.isEmpty || loops || ambient || (named && !constant))
  finish .declarator start (t :: a ++ value)

/-- A declaration of variables, without its end. -/
def declaredVariables (go : Go) (inLoop : Bool) : Parse Node := do
  let start ← start
  let constant ← atWord "const"
  step
  let first ← declarator go constant inLoop
  let more ← many do
    if ← eat "," then return some (← declarator go constant inLoop)
    else return none
  finish .variableDeclaration start (first :: more)

def variableStatement (go : Go) : Parse Node := do
  let start ← start
  let d ← declaredVariables go false
  endStatement
  match d with
  | .group k _ parts => finish k start parts
  | d => return d

/-! ### Control -/

def block (go : Go) : Parse Node := do
  let start ← start
  let ss ← statementsInBraces go
  finish .block start ss

/-- An expression in parentheses that controls a statement. -/
def control (go : Go) : Parse Node := do
  expect "("
  let e ← within bracketed (go .expression)
  expect ")"
  return e

/-- A statement that another consists of. It declares nothing, unless it is a plain
function. -/
def inner (go : Go) : Parse Node := do
  let t ← token
  let next ← peek
  require !(t.isWord "const" && !next.isWord "enum")
  require !(← atLet)
  require !(t.isWord "class" || (t.isWord "function" && next.isMark "*") ||
    (t.isWord "async" && next.isWord "function" && !next.onNewLine))
  go .statement

def ifStatement (go : Go) : Parse Node := do
  let start ← start
  expectWord "if"
  let test ← control go
  let yes ← inner go
  let no ← if ← eatWord "else" then pure [← inner go] else pure []
  finish .ifStatement start (test :: yes :: no)

/-- The rest of a loop over values, from `of` or `in` on. -/
def loopOver (go : Go) (start : Nat) (left : Node) : Parse Node := do
  let overValues ← atWord "of"
  step
  let right ← within bracketed (go (if overValues then .assignment else .expression))
  expect ")"
  let body ← inner go
  finish (if overValues then .forOfStatement else .forInStatement) start [left, right, body]

/-- The rest of a loop with a test and an update, from the first semicolon on. -/
def loopWhile (go : Go) (start : Nat) (first : List Node) : Parse Node := do
  expect ";"
  let test ← if ← atMark ";" then pure [] else pure [← within bracketed (go .expression)]
  expect ";"
  let update ← if ← atMark ")" then pure [] else pure [← within bracketed (go .expression)]
  expect ")"
  let body ← inner go
  finish .forStatement start (first ++ test ++ update ++ [body])

/-- An expression taken as the target of a loop over values, which has no value of
its own. -/
def toLoopTarget (e : Node) : Option Node :=
  if e.is .assignment then none else toTarget e

def forStatement (go : Go) : Parse Node := do
  let start ← start
  expectWord "for"
  let awaited ← eatWord "await"
  require (!awaited || (← read).awaits)
  expect "("
  let headed (s : Setting) : Setting := { bracketed s with inOperator := false }
  if ← atMark ";" then
    require !awaited
    loopWhile go start []
  else if ← atVariables then
    let d ← within headed (declaredVariables go true)
    let alone := match d with
      | .group _ _ [_] => true
      | _ => false
    if (← atWord "of") || (← atWord "in") then
      require (alone && (!awaited || (← atWord "of")))
      loopOver go start d
    else
      require !awaited
      loopWhile go start [d]
  else
    let t ← token
    let next ← peek
    let e ← within headed (go .expression)
    if (← atWord "of") || (← atWord "in") then
      require (!awaited || (← atWord "of"))
      require (awaited || !(t.isWord "async" && next.isWord "of"))
      match toLoopTarget e with
      | some left => loopOver go start left
      | none => throw ⟨t.start⟩
    else
      require !awaited
      loopWhile go start [e]

/-- A loop with its test in front. -/
def whileStatement (go : Go) : Parse Node := do
  let start ← start
  expectWord "while"
  let test ← control go
  let body ← inner go
  finish .whileStatement start [test, body]

/-- A loop with its test at the end. -/
def doStatement (go : Go) : Parse Node := do
  let start ← start
  expectWord "do"
  let body ← inner go
  expectWord "while"
  let test ← control go
  let _ ← eat ";"
  finish .doStatement start [body, test]

/-- A statement that leaves a loop or goes on with it. -/
def jump : Parse Node := do
  let start ← start
  step
  let t ← token
  if t.isName && !t.onNewLine then
    require (← isVariable t)
    step
  endStatement
  finish .jump start []

def returnStatement (go : Go) : Parse Node := do
  let start ← start
  require (← read).returns
  expectWord "return"
  let e ← if ← atStatementEnd then pure [] else pure [← within bracketed (go .expression)]
  endStatement
  finish .returnStatement start e

def throwStatement (go : Go) : Parse Node := do
  let start ← start
  expectWord "throw"
  let t ← token
  require !t.onNewLine
  let e ← within bracketed (go .expression)
  endStatement
  finish .throwStatement start [e]

def switchCase (go : Go) : Parse Node := do
  let start ← start
  let test ← if ← eatWord "default" then pure [] else
    expectWord "case"
    pure [← within bracketed (go .expression)]
  expect ":"
  let ss ← many do
    let t ← token
    if t.isMark closeBrace || t.isWord "case" || t.isWord "default" then return none
    else return some (← go .statement)
  finish .switchCase start (test ++ ss)

/-- A choice among cases. -/
def switchStatement (go : Go) : Parse Node := do
  let start ← start
  expectWord "switch"
  let e ← control go
  expect openBrace
  let cases ← many do
    if ← atMark closeBrace then return none else return some (← switchCase go)
  expect closeBrace
  finish .switchStatement start (e :: cases)

/-- What is done when something is thrown. -/
def catchClause (go : Go) : Parse Node := do
  let start ← start
  expectWord "catch"
  let parameter ← if ← eat "(" then do
      let t ← go .target
      let a ← ascription go
      expect ")"
      pure (t :: a)
    else pure []
  let b ← block go
  finish .catchClause start (parameter ++ [b])

def tryStatement (go : Go) : Parse Node := do
  let start ← start
  expectWord "try"
  let b ← block go
  let handler ← if ← atWord "catch" then pure [← catchClause go] else pure []
  let final ← if ← eatWord "finally" then pure [← block go] else pure []
  require !(handler.isEmpty && final.isEmpty)
  finish .tryStatement start (b :: handler ++ final)

/-- Statements with an object in scope. -/
def withStatement (go : Go) : Parse Node := do
  let start ← start
  expectWord "with"
  let e ← control go
  let body ← inner go
  finish .withStatement start [e, body]

/-! ### Declarations of types -/

def typeAlias (go : Go) : Parse Node := do
  let start ← start
  expectWord "type"
  let name ← binding
  let tps ← typeParameters? go
  expect "="
  let ty ← go .type
  endStatement
  finish .typeAlias start (name :: tps ++ [ty])

def interface (go : Go) : Parse Node := do
  let start ← start
  expectWord "interface"
  let name ← binding
  let tps ← typeParameters? go
  let bases ← if ← eatWord "extends" then heritage go else pure []
  let ms ← typeMembers go
  finish .interface start (name :: bases ++ tps ++ ms)

def enumMember (go : Go) : Parse Node := do
  let start ← start
  let key ← propertyName go
  let value ← initializer go
  finish .enumMember start (key :: value)

def enum (go : Go) : Parse Node := do
  let start ← start
  let _ ← eatWord "const"
  expectWord "enum"
  let name ← binding
  expect openBrace
  let ms ← within bracketed (commaList closeBrace (enumMember go))
  finish .enum start (name :: ms)

/-- A module within a module: its names, or the text that names it, and its
statements. -/
def moduleBlock (go : Go) : Parse Node := do
  let start ← start
  let t ← token
  let names ←
    if t.isWord "global" then pure [← binding]
    else do
      step
      let t ← token
      match t.lexeme with
      | .string value =>
          step
          pure [.string t.span value]
      | _ =>
          let head ← binding
          let more ← many do
            if ← eat "." then return some (← binding) else return none
          pure (head :: more)
  if ← atMark openBrace then
    let ss ← within (fun s => { s with returns := false }) (statementsInBraces go)
    finish .moduleBlock start (names ++ ss)
  else
    endStatement
    finish .moduleBlock start names

/-- Does the token begin a declaration after `declare`? -/
def beginsDeclaration (t : Token) : Bool :=
  ["var", "let", "const", "function", "class", "enum", "interface", "type", "module", "namespace",
    "global", "abstract", "async", "import"].any t.isWord

/-- Is a declaration at the cursor that only a language with types has? -/
def atTypeDeclaration : Parse Bool := do
  if !(← types) then return false
  else
    let t ← token
    let next ← peek
    let named := (← isVariable next) && !next.onNewLine
    let text := match next.lexeme with
      | .string _ => !next.onNewLine
      | _ => false
    return t.isWord "enum" || (t.isWord "const" && next.isWord "enum") ||
      ((t.isWord "type" || t.isWord "interface") && named) ||
      (t.isWord "namespace" && named) || (t.isWord "module" && (named || text)) ||
      (t.isWord "global" && next.isMark openBrace && !next.onNewLine) ||
      (t.isWord "abstract" && next.isWord "class" && !next.onNewLine) ||
      (t.isWord "declare" && beginsDeclaration next && !next.onNewLine)

def typeDeclaration (go : Go) (ds : List Node) : Parse Node := do
  let start ← start
  let t ← token
  if t.isWord "declare" then
    step
    let d ← within (fun s => { s with ambient := true }) (go .statement)
    finish .ambient start (ds ++ [d])
  else if t.isWord "abstract" then
    step
    classDefinition go start ds true
  else
    require ds.isEmpty
    if t.isWord "enum" || t.isWord "const" then enum go
    else if t.isWord "type" then typeAlias go
    else if t.isWord "interface" then interface go
    else moduleBlock go

/-! ### Expressions and labels -/

/-- An expression as a statement, or a statement with a label. -/
def expressionStatement (go : Go) : Parse Node := do
  let start ← start
  let t ← token
  let next ← peek
  if (← isVariable t) && next.isMark ":" then
    step
    step
    let s ← inner go
    finish .labeled start [s]
  else
    let e ← within (fun s => { bracketed s with decorating := s.decorating }) (go .expression)
    endStatement
    finish .expressionStatement start [e]

end SiteMacros.Script.Grammar
