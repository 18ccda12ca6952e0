import SiteMacros.Script.Grammar.Statement

/-!
# Imports and exports

What a module takes from others and gives to them. The words of these statements
are all names elsewhere, `type` and `as` and `from` among them, so a name is taken
for such a word only where what follows leaves no other reading.
-/

namespace SiteMacros.Script.Grammar

open Parse

/-- The text that names a module. -/
def moduleText : Parse (Node × String) := do
  let t ← token
  match t.lexeme with
  | .string value =>
      step
      return (.string t.span value, value)
  | _ => fail

def importAttribute : Parse Node := do
  let start ← start
  let t ← token
  match t.lexeme with
  | .string _ => step
  | _ =>
      let _ ← anyName
  expect ":"
  let (value, _) ← moduleText
  finish .pair start [value]

/-- What is said of an import after its module. -/
def importAttributes : Parse (List Node) := do
  let t ← token
  if t.isWord "with" || (t.isWord "assert" && !t.onNewLine) then
    step
    expect openBrace
    commaList closeBrace importAttribute
  else return []

/-- A name that modules know each other's things by: a word or a text. -/
structure ExchangeName where
  token : Token
  text : String

def exchangeName : Parse ExchangeName := do
  let t ← token
  match t.lexeme with
  | .name text _ | .string text =>
      step
      return ⟨t, text⟩
  | _ => fail

/-- May such a name be at the cursor? -/
def atExchangeName : Parse Bool := do
  match (← token).lexeme with
  | .name _ _ | .string _ => return true
  | _ => return false

/-- A thing that is imported or exported: the name on the near side of the word
`as`, the name on its far side, and whether it is only a type. -/
structure Exchange where
  near : ExchangeName
  far : ExchangeName
  typeOnly : Bool

/-- What follows the first name: perhaps another one after `as`. -/
def renamed (near : ExchangeName) (typeOnly : Bool) : Parse Exchange := do
  if ← eatWord "as" then return ⟨near, ← exchangeName, typeOnly⟩
  else return ⟨near, near, typeOnly⟩

/-- A thing in the braces of an import or export. -/
def exchange : Parse Exchange := do
  let first ← exchangeName
  if (← types) && first.token.isWord "type" then
    if ← atWord "as" then
      let firstAs ← exchangeName
      if ← atWord "as" then
        let secondAs ← exchangeName
        if ← atExchangeName then return ⟨firstAs, ← exchangeName, true⟩
        else return ⟨first, secondAs, false⟩
      else if ← atExchangeName then return ⟨first, ← exchangeName, false⟩
      else return ⟨firstAs, firstAs, true⟩
    else if ← atExchangeName then renamed (← exchangeName) true
    else return ⟨first, first, false⟩
  else renamed first false

/-- The node of a name that is bound here. -/
def bound (n : ExchangeName) : Parse Node := do
  require (← isVariable n.token)
  return .binding n.token.span n.text

/-- An import of another module's name under the name `name`. -/
def importEquals (start : Nat) (name : Node) : Parse Node := do
  expect "="
  let next ← peek
  let source ← if (← atWord "require") && next.isMark "(" then
      step
      step
      let (text, _) ← moduleText
      expect ")"
      pure text
    else entityName
  endStatement
  finish .importEquals start [name, source]

structure ImportClause where
  default? : Option ExchangeName := none
  whole? : Option ExchangeName := none
  named : List Exchange := []

/-- Named imports, or the module as a whole. -/
def importList (c : ImportClause) : Parse ImportClause := do
  if ← eat "*" then
    expectWord "as"
    return { c with whole? := some (← exchangeName) }
  else
    expect openBrace
    return { c with named := ← commaList closeBrace exchange }

/-- Everything between the word `import` and the word `from`. -/
def importClause : Parse ImportClause := do
  if (← atMark "*") || (← atMark openBrace) then importList {}
  else
    let c : ImportClause := { default? := some (← exchangeName) }
    if ← eat "," then importList c else return c

/-- Does `type` at the cursor make the import one of types? -/
def atTypeImport : Parse Bool := do
  if (← types) && (← atWord "type") then
    let next ← peek
    if next.isMark openBrace || next.isMark "*" then return true
    else if ← isVariable next then
      if next.isWord "from" then
        let following := Scanner.scan next.stop next.rest
        return following.isWord "from" || following.isMark "="
      else return true
    else return false
  else return false

/-- The declaration of an import, from its clause on. -/
def importFrom (start : Nat) (typeOnly : Bool) (clause : Option ImportClause) : Parse Node := do
  let (_, source) ← moduleText
  let attributes ← importAttributes
  endStatement
  let c := clause.getD {}
  let names ← (c.default?.toList ++ c.whole?.toList ++ c.named.map (·.far)).mapM bound
  return .importDeclaration {
    span := ⟨start, (← get).reached⟩
    source
    typeOnly
    default? := c.default?.map (·.text)
    whole? := c.whole?.map (·.text)
    named := c.named.map fun e => ⟨e.near.text, e.far.text, e.typeOnly⟩ } (names ++ attributes)

def importDeclaration : Parse Node := do
  let start ← start
  expectWord "import"
  match (← token).lexeme with
  | .string _ => importFrom start false none
  | _ =>
      let typeOnly ← atTypeImport
      if typeOnly then step
      let next ← peek
      if (← types) && next.isMark "=" then
        let name ← binding
        importEquals start name
      else
        let c ← importClause
        expectWord "from"
        importFrom start typeOnly (some c)

/-! ### Exports -/

/-- Exported names in braces, which refer to variables unless another module is
named. -/
def exportList (start : Nat) : Parse Node := do
  expect openBrace
  let es ← commaList closeBrace exchange
  if ← eatWord "from" then
    let (source, _) ← moduleText
    let attributes ← importAttributes
    endStatement
    finish .exportNamed start (source :: attributes)
  else
    endStatement
    let names ← es.mapM fun e => do
      require (← isVariable e.near.token)
      return .group .exportSpecifier ⟨e.near.token.start, e.far.token.stop⟩
        [.reference e.near.token.span e.near.text, .word e.far.token.span e.far.text]
    finish .exportNamed start names

/-- Everything that another module exports. -/
def exportAll (start : Nat) : Parse Node := do
  expect "*"
  if ← eatWord "as" then
    let _ ← exchangeName
  expectWord "from"
  let (source, _) ← moduleText
  let attributes ← importAttributes
  endStatement
  finish .exportAll start (source :: attributes)

/-- What a module exports as its default. -/
def exportDefault (go : Go) (start : Nat) (ds : List Node) : Parse Node := do
  expectWord "default"
  let at_ ← Parse.start
  let ds := ds ++ (← decorators go)
  let t ← token
  let next ← peek
  let withTypes ← types
  let e ←
    if t.isWord "class" then classDefinition go at_ ds false
    else if withTypes && t.isWord "abstract" && next.isWord "class" && !next.onNewLine then do
      step
      classDefinition go at_ ds false
    else do
      require ds.isEmpty
      if t.isWord "function" || (t.isWord "async" && next.isWord "function" && !next.onNewLine) then
        function go true true
      else if withTypes && t.isWord "interface" && (← isVariable next) && !next.onNewLine then
        interface go
      else
        let e ← within bracketed (go .assignment)
        endStatement
        pure e
  finish .exportDefault start [e]

/-- An export, with the decorators of the class that follows it. -/
def exportDeclaration (go : Go) (start : Nat) (ds : List Node) : Parse Node := do
  expectWord "export"
  let withTypes ← types
  let t ← token
  let next ← peek
  if t.isMark "*" then exportAll start
  else if t.isMark openBrace then exportList start
  else if t.isWord "default" then exportDefault go start ds
  else if withTypes && t.isMark "=" then
    step
    let e ← within bracketed (go .expression)
    endStatement
    finish .exportAssignment start [e]
  else if withTypes && t.isWord "as" && next.isWord "namespace" then
    step
    step
    let name ← exchangeName
    endStatement
    finish .exportAssignment start [.word name.token.span name.text]
  else if withTypes && t.isWord "type" && next.isMark openBrace then
    step
    exportList start
  else if withTypes && t.isWord "type" && next.isMark "*" then
    step
    exportAll start
  else if t.isWord "import" then
    require withTypes
    step
    let typeOnly ← atTypeImport
    if typeOnly then step
    let name ← binding
    let d ← importEquals start name
    finish .exportNamed start [d]
  else
    let at_ ← Parse.start
    let ds := ds ++ (← decorators go)
    let d ←
      if ← atWord "class" then classDefinition go at_ ds true
      else if ← atTypeDeclaration then typeDeclaration go ds
      else do
        require ds.isEmpty
        let t ← token
        let next ← peek
        require ((← atVariables) || t.isWord "function" ||
          (t.isWord "async" && next.isWord "function" && !next.onNewLine))
        go .statement
    finish .exportNamed start [d]

/-! ### Statements by their first words -/

def statement (go : Go) : Parse Node := do
  let start ← start
  let t ← token
  let next ← peek
  match t.lexeme with
  | .mark "\x7b" => block go
  | .mark ";" =>
      step
      finish .empty start []
  | .mark "@" =>
      let ds ← decorators go
      if ← atWord "export" then exportDeclaration go start ds
      else if ← atTypeDeclaration then typeDeclaration go ds
      else classDefinition go start ds true
  | .name text false =>
      if ← atTypeDeclaration then typeDeclaration go []
      else if ← atVariables then variableStatement go
      else
        match text with
        | "if" => ifStatement go
        | "for" => forStatement go
        | "while" => whileStatement go
        | "do" => doStatement go
        | "break" | "continue" => jump
        | "return" => returnStatement go
        | "throw" => throwStatement go
        | "switch" => switchStatement go
        | "try" => tryStatement go
        | "with" => withStatement go
        | "debugger" =>
            step
            endStatement
            finish .debugger start []
        | "class" => classDefinition go start [] true
        | "function" => function go true false
        | "export" => exportDeclaration go start []
        | "import" =>
            if next.isMark "(" || next.isMark "." then expressionStatement go
            else importDeclaration
        | "async" =>
            if next.isWord "function" && !next.onNewLine then function go true false
            else expressionStatement go
        | _ => expressionStatement go
  | _ => expressionStatement go

end SiteMacros.Script.Grammar
