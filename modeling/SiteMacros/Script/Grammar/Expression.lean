import SiteMacros.Script.Grammar.Markup

/-!
# Expressions

Operators are read by how tightly they bind: an operand, and then operators that
bind more tightly than the level asked for, each with what stands right of it.

What stands left of an equals sign is read as an expression first and then taken
as a target, if it can be one. A parenthesis may open the parameters of an arrow
function; that is tried first, and is settled by the arrow.
-/

namespace SiteMacros.Script.Grammar

open Parse

/-! ### Targets of assignments -/

/-- May the node be assigned to as a whole? -/
def isSimpleTarget : Node → Bool
  | .reference _ _ => true
  | .group .member _ _ | .group .index _ _ => true
  | .group .parenthesized _ [inner] | .group .nonNull _ [inner] => isSimpleTarget inner
  | .group .cast _ (inner :: _) | .group .typeAssertion _ (inner :: _) => isSimpleTarget inner
  | _ => false

mutual

/-- An expression taken as the target of an assignment. -/
def toTarget : Node → Option Node
  | .group .array s items => (toTargets items).map (.group .arrayPattern s)
  | .group .object s properties => (toTargets properties).map (.group .objectPattern s)
  | .group .pair s [only] => some (.group .pair s [only])
  | .group .pair s [key, value] => (toTarget value).map fun v => .group .pair s [key, v]
  | .group .coverDefault s parts => some (.group .default s parts)
  | .group .spread s [inner] => (toTarget inner).map fun t => .group .rest s [t]
  | .group .hole s [] => some (.group .hole s [])
  | .group .assignment s [left, .word _ "=", right] =>
      some (.group .default s [left, right])
  | n => if isSimpleTarget n then some n else none

/-- Parts of a pattern. What takes the rest is the last, for it has no comma behind
it. -/
def toTargets : List Node → Option (List Node)
  | [] => some []
  | n :: ns =>
      match toTarget n, toTargets ns with
      | some t, some ts => some (t :: ts)
      | _, _ => none

end

def assignmentOperators : List String :=
  ["=", "+=", "-=", "*=", "/=", "%=", "**=", "<<=", ">>=", ">>>=", "&=", "|=", "^=", "&&=", "||=",
    "??="]

/-! ### Operands -/

/-- An item of a list of values. -/
def spreadOr (go : Go) : Parse Node := do
  if ← atMark "..." then spread go else go .assignment

def arguments (go : Go) : Parse (List Node) := do
  expect "("
  within bracketed (commaList ")" (spreadOr go))

def array (go : Go) : Parse Node := do
  let start ← start
  expect "["
  let items ← within bracketed <| many do
    let t ← token
    if t.isMark "]" then return none
    else if t.isMark "," then
      step
      return some (.group .hole ⟨t.start, t.start⟩ [])
    else
      let e ← spreadOr go
      unless ← atMark "]" do expect ","
      return some e
  expect "]"
  finish .array start items

def parenthesized (go : Go) : Parse Node := do
  let start ← start
  expect "("
  let e ← within bracketed (go .expression)
  expect ")"
  finish .parenthesized start [e]

/-- A template that is not tagged. One without holes is a text. -/
def template (go : Go) : Parse Node := do
  let start ← start
  match ← templateParts false (within bracketed (go .expression)) with
  | [.word s value] => return .string s value
  | parts => finish .template start parts

def regex : Parse Node := do
  match Scanner.regex? (← token) with
  | some t =>
      moveBehind t
      return .word t.span ""
  | none => fail

/-- An operand that stands alone. -/
def primary (go : Go) : Parse Node := do
  let start ← start
  let t ← token
  let next ← peek
  match t.lexeme with
  | .string value =>
      step
      return .string t.span value
  | .number =>
      step
      return .word t.span (String.ofList (t.here.take (t.stop - t.start)))
  | .template _ _ => template go
  | .mark "(" => parenthesized go
  | .mark "[" => array go
  | .mark "\x7b" => object go
  | .mark "/" | .mark "/=" => regex
  | .mark "@" =>
      let ds ← decorators go
      classDefinition go start ds false
  | .mark "<" =>
      require (← read).language.markup
      go (.element false)
  | .name text false =>
      if text = "function" then function go false false
      else if text = "async" && next.isWord "function" && !next.onNewLine then
        function go false false
      else if text = "class" then classDefinition go start [] false
      else if text = "this" then
        step
        finish .this start []
      else if text = "null" || text = "true" || text = "false" then anyName
      else reference
  | _ => reference

/-! ### Members and calls -/

def memberName : Parse Node := do
  let t ← token
  match t.lexeme with
  | .privateName text =>
      step
      return .word t.span ("#" ++ text)
  | _ => anyName

/-- An expression in square brackets after another. -/
def indexOf (go : Go) (start : Nat) (e : Node) : Parse Node := do
  expect "["
  let i ← within bracketed (go .expression)
  expect "]"
  finish .index start [e, i]

def callOf (go : Go) (start : Nat) (e : Node) (typeArgs : List Node) : Parse Node := do
  let args ← arguments go
  return .call ⟨start, (← get).reached⟩ e typeArgs args

/-- A template with `e` as its tag. -/
def taggedBy (go : Go) (start : Nat) (e : Node) (typeArgs : List Node) : Parse Node := do
  let parts ← templateParts true (within bracketed (go .expression))
  finish .tagged start (e :: parts ++ typeArgs)

def atTemplate : Parse Bool := do
  match (← token).lexeme with
  | .template _ _ => return true
  | _ => return false

/-- Marks that types in angle brackets may not precede, because an operand begins
with them. -/
def operandMarks : List String :=
  ["(", "[", openBrace, "<", ">", "+", "-", "!", "~", "++", "--", "/=", "@"]

/-- May types in angle brackets stand before the token? -/
def endsOperand (t : Token) : Bool :=
  match t.lexeme with
  | .endOfText => true
  | .mark m => !operandMarks.contains m
  | .name text false =>
      ["in", "instanceof", "as", "satisfies"].contains text
  | _ => false

/-- Types in angle brackets after an expression, if that is what the bracket
opens. -/
def typeArgumentsAfter (go : Go) : Parse (Option Node) := do
  if (← types) && (← atMark "<") then
    attempt do
      let args ← typeArguments go
      let t ← token
      let called := t.isMark "(" || (← atTemplate)
      let barred := t.isMark "<" || t.isMark ">" || t.isMark "+" || t.isMark "-"
      require (called || (!barred && (t.onNewLine || endsOperand t)))
      return args
  else return none

/-- One more step on from an expression: to a member, or to a call. The flag says
whether the way goes on only if there is something to go on from. -/
def suffix (go : Go) (start : Nat) (calls : Bool) : Node × Bool → Parse (Option (Node × Bool))
  | (e, inChain) => do
      let t ← token
      let next ← peek
      let found (n : Parse Node) : Parse (Option (Node × Bool)) := do
        return some (← n, inChain)
      match t.lexeme with
      | .template _ _ =>
          require !inChain
          found (taggedBy go start e [])
      | .mark "." => found do
          step
          let name ← memberName
          finish .member start [e, name]
      | .mark "?." => do
          require calls
          step
          let args ← typeArgumentsAfter go
          let n ←
            if args.isSome || next.isMark "(" then callOf go start e args.toList
            else if next.isMark "[" then indexOf go start e
            else do
              let name ← memberName
              finish .member start [e, name]
          return some (n, true)
      | .mark "[" => if (← read).decorating then return none else found (indexOf go start e)
      | .mark "(" => if calls then found (callOf go start e []) else return none
      | .mark "!" =>
          if (← types) && !t.onNewLine then found do
            step
            finish .nonNull start [e]
          else return none
      | .mark "<" => do
          match ← typeArgumentsAfter go with
          | none => return none
          | some args =>
              if ← atMark "(" then
                if calls then found (callOf go start e [args])
                else found (finish .instantiation start [e, args])
              else if ← atTemplate then
                require !inChain
                found (taggedBy go start e [args])
              else found (finish .instantiation start [e, args])
      | _ => return none

/-- The members and calls after an expression. -/
def suffixes (go : Go) (start : Nat) (calls : Bool) (e : Node) : Parse Node := do
  let (e, inChain) ← extend (suffix go start calls) (e, false)
  if inChain then finish .chain start [e] else return e

/-- What `new` makes: an expression without calls. -/
def callee (go : Go) : Parse Node := do
  let start ← start
  require !(← atWord "import")
  if ← atWord "new" then go .new
  else
    let e ← primary go
    suffixes go start false e

/-- An expression with `new`. Its arguments may be left out. -/
def newExpression (go : Go) : Parse Node := do
  let start ← start
  expectWord "new"
  if ← eat "." then
    expectWord "target"
    finish .metaProperty start []
  else
    let e ← callee go
    require !(← atMark "?.")
    let args ← if ← atMark "(" then arguments go else pure []
    match e with
    | .group .instantiation _ [inner, typeArgs] => finish .new start (inner :: args ++ [typeArgs])
    | e => finish .new start (e :: args)

/-- What follows the word `import` in an expression. -/
def importExpression (go : Go) : Parse Node := do
  let start ← start
  expectWord "import"
  if ← eat "." then
    expectWord "meta"
    finish .metaProperty start []
  else
    expect "("
    let parts ← within bracketed (commaList ")" (go .assignment))
    require (parts.length = 1 || parts.length = 2)
    finish .dynamicImport start parts

def superExpression : Parse Node := do
  let start ← start
  expectWord "super"
  require ((← atMark "(") || (← atMark ".") || (← atMark "["))
  finish .super start []

def leftHand (go : Go) : Parse Node := do
  let start ← start
  let t ← token
  let e ←
    if t.isWord "new" then go .new
    else if t.isWord "import" then importExpression go
    else if t.isWord "super" then superExpression
    else primary go
  suffixes go start true e

/-! ### Operators -/

/-- Operators that stand in front of their operand. -/
def frontOperators (t : Token) : Bool :=
  ["+", "-", "~", "!"].any t.isMark || ["delete", "void", "typeof"].any t.isWord

/-- An operand with the operators in front of it or right behind it. -/
def unary (go : Go) : Parse Node := do
  let start ← start
  let t ← token
  if frontOperators t then
    step
    let e ← go .unary
    finish .unary start [e]
  else if t.isMark "++" || t.isMark "--" then
    step
    let e ← go .unary
    require (isSimpleTarget e)
    finish .update start [e]
  else if t.isWord "await" && (← read).awaits then
    step
    let e ← go .unary
    finish .await start [e]
  else if t.isMark "<" && (← types) && !(← read).language.markup then
    step
    let ty ← go .type
    expect ">"
    let e ← go .unary
    finish .typeAssertion start [e, ty]
  else
    let e ← go .leftHand
    let t ← token
    if (t.isMark "++" || t.isMark "--") && !t.onNewLine then
      require (isSimpleTarget e)
      step
      finish .update start [e]
    else return e

/-- How tightly the operators between two operands bind. -/
def levels : List (List String) := [
  ["??"], ["||"], ["&&"], ["|"], ["^"], ["&"], ["==", "!=", "===", "!=="],
  ["<", ">", "<=", ">="], ["<<", ">>", ">>>"], ["+", "-"], ["*", "/", "%"], ["**"]]

def comparison : Nat := 8

/-- The level of the operator that binds most tightly, which groups to the
right. -/
def power : Nat := 12

/-- The level of an operator at a token, which has been joined. -/
def levelOf (s : Setting) (t : Token) : Option Nat :=
  match t.lexeme with
  | .mark m => ((levels.findIdx? fun ops => ops.contains m)).map (· + 1)
  | .name text false =>
      if text = "instanceof" || (text = "in" && s.inOperator) then some comparison
      else if (text = "as" || text = "satisfies") && s.language.types && !t.onNewLine then
        some comparison
      else none
  | _ => none

/-- Is the node an operation with one of these operators? -/
def isOperation (ops : List String) : Node → Bool
  | .group .binary _ [_, .word _ op, _] => ops.contains op
  | _ => false

/-- May the operator stand between the operands? The power of a signed operand is
ambiguous, and so is a default for a truth value. -/
def mayJoin (op : String) (left right : Node) : Bool :=
  if op = "**" then !(left.is .unary || left.is .await || left.is .typeAssertion)
  else if op = "??" then
    !(isOperation ["||", "&&"] left || isOperation ["||", "&&"] right)
  else if op = "||" || op = "&&" then !(isOperation ["??"] left || isOperation ["??"] right)
  else true

def operatorText (t : Token) : String :=
  match t.lexeme with
  | .mark m => m
  | .name text _ => text
  | _ => ""

/-- A type that a value is said to have. -/
def castType (go : Go) : Parse Node := do
  if ← atWord "const" then anyName else go .type

/-- One more operator and what stands right of it. -/
def operation (go : Go) (start level : Nat) (left : Node) : Parse (Option Node) := do
  let t := Scanner.joined (← token)
  match levelOf (← read) t with
  | none => return none
  | some own =>
      if own ≤ level then return none
      else
        moveBehind t
        let op := operatorText t
        if op = "as" || op = "satisfies" then
          let ty ← castType go
          return some (← finish .cast start [left, ty])
        else
          let right ← go (.operators (if own = power then own - 1 else own))
          require (mayJoin op left right)
          return some (← finish .binary start [left, .word t.span op, right])

/-- Operands with operators that bind more tightly than a level. -/
def operators (go : Go) (level : Nat) : Parse Node := do
  let start ← start
  let t ← token
  let next ← peek
  let left ← match t.lexeme with
    | .privateName text => do
        require (next.isWord "in" && level < comparison)
        step
        pure (.word t.span ("#" ++ text))
    | _ => go .unary
  extend (operation go start level) left

/-! ### Arrow functions -/

/-- Do type parameters open here? Where there is markup, a bracket opens an
element unless what follows the name shows otherwise. -/
def atTypeParameters : Parse Bool := do
  if (← types) && (← atMark "<") then
    if (← read).language.markup then
      looksLike do
        step
        let _ ← eatWord "const"
        let t ← token
        require t.isName
        step
        if ← eatWord "extends" then
          let t ← token
          return !(t.isMark "=" || t.isMark ">" || t.isMark "/")
        else return (← atMark ",") || (← atMark "=")
    else return true
  else return false

/-- The body of an arrow function. -/
def arrowBody (go : Go) (isAsync : Bool) : Parse Node := do
  let body (s : Setting) : Setting :=
    { s with awaits := isAsync, yields := false, consequent := false, decorating := false }
  if ← atMark openBrace then within (fun s => { body s with returns := true }) (functionBody go)
  else within body (go .assignment)

/-- The arrow, on the line of what precedes it. -/
def expectArrow : Parse Unit := do
  let t ← token
  require (t.isMark "=>" && !t.onNewLine)
  step

/-- The parameters and the return type of an arrow function, up to the arrow. -/
def arrowHead (go : Go) (isAsync : Bool) : Parse (List Node × Bool) := do
  let head ← within (inFunction isAsync false) do
    let tps ← typeParameters? go
    let ps ← parameters go
    let r ← returnType go
    return (tps ++ ps :: r, !r.isEmpty)
  expectArrow
  return head

/-- An arrow function with parameters in parentheses. Between the marks of a
conditional a return type is one only if the colon still follows. -/
def arrowFrom (go : Go) (start : Nat) (isAsync : Bool) : Parse (Option Node) := do
  let s ← read
  let whole (head : List Node) : Parse Node := do
    let b ← arrowBody go isAsync
    finish .arrow start (head ++ [b])
  if s.consequent then
    attempt do
      let (head, typed) ← arrowHead go isAsync
      let a ← whole head
      require (!typed || (← atMark ":"))
      return a
  else
    match ← attempt (arrowHead go isAsync) with
    | some (head, _) => return some (← whole head)
    | none => return none

/-- An arrow function with one parameter and no parentheses. -/
def arrowOfName (go : Go) (start : Nat) (isAsync : Bool) : Parse Node := do
  let at_ ← Parse.start
  let name ← binding
  let ps ← finish .parameters at_ [name]
  expectArrow
  let b ← arrowBody go isAsync
  finish .arrow start [ps, b]

/-- An arrow function, if there is one. -/
def arrow? (go : Go) : Parse (Option Node) := do
  let start ← start
  let t ← token
  let next ← peek
  if (← isVariable t) && next.isMark "=>" && !next.onNewLine then
    return some (← arrowOfName go start false)
  else if t.isWord "async" && !next.onNewLine then
    let following := Scanner.scan next.stop next.rest
    if (← isVariable next) && following.isMark "=>" && !following.onNewLine then
      step
      return some (← arrowOfName go start true)
    else if next.isMark "(" || next.isMark "<" then
      let here ← get
      step
      match ← arrowFrom go start true with
      | some a => return some a
      | none =>
          set here
          return none
    else return none
  else if t.isMark "(" || (← atTypeParameters) then arrowFrom go start false
  else return none

/-! ### Expressions -/

def yieldExpression (go : Go) : Parse Node := do
  let start ← start
  expectWord "yield"
  let t ← token
  let ends := t.onNewLine || t.isEnd || t.isWord "in" ||
    [")", "]", closeBrace, ",", ";", ":"].any t.isMark
  if ends then finish .yield start []
  else
    let _ ← eat "*"
    let e ← go .assignment
    finish .yield start [e]

/-- The two branches of a conditional, if one follows its test. -/
def conditionalRest (go : Go) (start : Nat) (test : Node) : Parse Node := do
  if ← eat "?" then
    let yes ← within (fun s => { s with inOperator := true, consequent := true }) (go .assignment)
    expect ":"
    let no ← go .assignment
    finish .conditional start [test, yes, no]
  else return test

def assignment (go : Go) : Parse Node := do
  let start ← start
  if (← atWord "yield") && (← read).yields then yieldExpression go
  else
    match ← arrow? go with
    | some a => return a
    | none =>
        let left ← go (.operators 0)
        let t := Scanner.joined (← token)
        let op := operatorText t
        if assignmentOperators.contains op then
          let left ← match if op = "=" then toTarget left else
              if isSimpleTarget left then some left else none with
            | some n => pure n
            | none => throw ⟨start⟩
          moveBehind t
          let right ← go .assignment
          finish .assignment start [left, .word t.span op, right]
        else conditionalRest go start left

def expression (go : Go) : Parse Node := do
  let start ← start
  let first ← go .assignment
  let more ← many do
    if ← eat "," then return some (← go .assignment)
    else return none
  match more with
  | [] => return first
  | _ => finish .sequence start (first :: more)

end SiteMacros.Script.Grammar
