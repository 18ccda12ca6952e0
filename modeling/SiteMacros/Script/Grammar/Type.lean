import SiteMacros.Script.Grammar.Target

/-!
# Types

Types are read for the names in them: each refers to a type, but for the names of
properties, of tuple members, and of the type that a keyword stands for. What a
type declares itself is bound: type parameters, inferred types, the keys of mapped
types, and the parameters of function types.
-/

namespace SiteMacros.Script.Grammar

open Parse

/-- Types that have a word of their own. -/
def typeKeywords : List String :=
  ["any", "unknown", "string", "number", "bigint", "symbol", "boolean", "undefined", "never",
    "object", "null", "void", "true", "false", "this"]

def typeArguments (go : Go) : Parse Node := do
  let start ← start
  expect "<"
  let ts ← within ({ · with plainTypes := false }) (commaList ">" (go .type))
  require !ts.isEmpty
  finish .typeArguments start ts

/-- The type arguments that follow on the same line, if there are any. -/
def typeArguments? (go : Go) : Parse (List Node) := do
  let t ← token
  optional (t.isMark "<" && !t.onNewLine) (typeArguments go)

def typeParameterModifiers : List String := ["const", "in", "out"]

def typeParameter (go : Go) : Parse Node := do
  let start ← start
  let _ ← many do
    let t ← token
    let next ← peek
    if typeParameterModifiers.any t.isWord && next.isName && !next.isWord "extends" then
      step
      return some ()
    else return none
  let name ← binding
  let constraint ← if ← eatWord "extends" then pure [← go .type] else pure []
  let standard ← if ← eat "=" then pure [← go .type] else pure []
  finish .typeParameter start (name :: constraint ++ standard)

def typeParameters (go : Go) : Parse Node := do
  let start ← start
  expect "<"
  let ps ← within ({ · with plainTypes := false }) (commaList ">" (typeParameter go))
  require !ps.isEmpty
  finish .typeParameters start ps

/-- The type parameters that follow, if there are any. -/
def typeParameters? (go : Go) : Parse (List Node) := do
  optional ((← types) && (← atMark "<")) (typeParameters go)

/-- A type, or what a function says of a parameter: `x is T`. -/
def typeOrPredicate (go : Go) : Parse Node := do
  let t ← token
  let next ← peek
  if t.isName && next.isWord "is" && !next.onNewLine then
    let start ← start
    step
    step
    let ty ← go .type
    finish .predicate start [.word t.span "", ty]
  else go .type

def returnType (go : Go) : Parse (List Node) := do
  if (← types) && (← atMark ":") then
    let start ← start
    step
    let t ← within ({ · with plainTypes := false }) (typeOrPredicate go)
    return [← finish .ascription start [t]]
  else return []

/-- Parameters and return type of a signature. -/
def signatureParts (go : Go) : Parse (List Node) := do
  let tps ← typeParameters? go
  let ps ← parameters go
  let r ← returnType go
  return tps ++ ps :: r

/-- Names with dots between them, the first of which refers. -/
def entityName : Parse Node := do
  let start ← start
  let t ← token
  let head ← if t.isWord "this" then anyName else reference
  let more ← many do
    if ← eat "." then
      let part ← token
      match part.lexeme with
      | .privateName text =>
          step
          return some (.word part.span text)
      | _ => return some (← anyName)
    else return none
  match more with
  | [] => return head
  | _ => finish .member start (head :: more)

def typeReference (go : Go) : Parse Node := do
  let start ← start
  let name ← entityName
  let args ← typeArguments? go
  finish .typeReference start (name :: args)

/-- The end of a member of an object type. -/
def endTypeMember : Parse Unit := do
  unless ← eat "," do endStatement

/-- Is this an index signature: a name and a colon in brackets? -/
def atIndexSignature : Parse Bool :=
  looksLike do
    expect "["
    let t ← token
    step
    return t.isName && (← atMark ":")

/-- An index signature. The name of the key binds nothing. -/
def indexSignature (go : Go) : Parse Node := do
  let start ← start
  expect "["
  let _ ← anyName
  let k ← ascription go
  expect "]"
  let v ← ascription go
  finish .signature start (k ++ v)

/-- Does the token begin the name of a property? -/
def startsPropertyName (t : Token) : Bool :=
  match t.lexeme with
  | .name _ _ | .string _ | .number | .privateName _ => true
  | .mark m => m = "["
  | _ => false

def typeMember (go : Go) : Parse Node := do
  let start ← start
  let t ← token
  let next ← peek
  let node ←
    if t.isMark "(" || t.isMark "<" then
      let parts ← signatureParts go
      finish .signature start parts
    else if t.isWord "new" && (next.isMark "(" || next.isMark "<") then do
      step
      let parts ← signatureParts go
      finish .signature start parts
    else do
      if t.isWord "readonly" && startsPropertyName next then step
      if ← atIndexSignature then indexSignature go
      else
        let t ← token
        let next ← peek
        if (t.isWord "get" || t.isWord "set") && startsPropertyName next then step
        let key ← propertyName go
        let _ ← eat "?"
        if (← atMark "(") || (← atMark "<") then
          let parts ← signatureParts go
          finish .signature start (key :: parts)
        else
          let a ← ascription go
          finish .signature start (key :: a)
  endTypeMember
  return node

def typeMembers (go : Go) : Parse (List Node) := do
  expect openBrace
  let ms ← within ({ · with plainTypes := false }) <| many do
    if ← atMark closeBrace then return none
    else return some (← typeMember go)
  expect closeBrace
  return ms

def atMappedType : Parse Bool :=
  looksLike do
    expect openBrace
    if (← eat "+") || (← eat "-") then return ← atWord "readonly"
    let next ← peek
    if (← atWord "readonly") && next.isMark "[" then step
    expect "["
    let t ← token
    step
    return t.isName && (← atWord "in")

/-- Step over a mark that may have a sign in front. -/
def skipSigned (p : Parse Bool) : Parse Unit := do
  if (← eat "+") || (← eat "-") then require (← p)
  else
    let _ ← p

def mappedType (go : Go) : Parse Node := do
  let start ← start
  expect openBrace
  skipSigned (eatWord "readonly")
  expect "["
  let k ← binding
  expectWord "in"
  let constraint ← go .type
  let renamed ← if ← eatWord "as" then pure [← go .type] else pure []
  expect "]"
  skipSigned (eat "?")
  let a ← ascription go
  let _ ← eat ";"
  let _ ← eat ","
  expect closeBrace
  finish .type start (k :: constraint :: renamed ++ a)

/-- A member of a tuple type, which may be named, optional, or the rest. -/
def tupleMember (go : Go) : Parse Node := do
  let start ← start
  let rest ← eat "..."
  let t ← token
  let next ← peek
  let named ← looksLike do
    let _ ← anyName
    let _ ← eat "?"
    atMark ":"
  if t.isName && named && (next.isMark ":" || next.isMark "?") then
    step
    let _ ← eat "?"
    expect ":"
    let ty ← go .type
    finish .type start [ty]
  else
    let ty ← go .type
    let _ ← if rest then pure false else eat "?"
    finish .type start [ty]

/-- A part of a template that is text. -/
def templateText (tagged : Bool) : Parse (Node × Bool) := do
  let t ← token
  match t.lexeme with
  | .template value ends =>
      require (tagged || value.isSome)
      step
      return (.word t.span (value.getD ""), ends)
  | _ => fail

/-- Read on with the template after the closing brace at the cursor. -/
def resumeTemplate : Parse Unit := do
  let close ← token
  require (close.isMark closeBrace)
  match Scanner.templateRest? close with
  | some t => modify fun c => { c with token := t }
  | none => fail

/-- The parts of a template with holes: text, a hole, and so on up to text. In a
template that is not tagged every escape has to denote something. -/
def templateParts (tagged : Bool) (hole : Parse Node) : Parse (List Node) := do
  let (head, ends) ← templateText tagged
  if ends then return [head]
  else
    let first ← hole
    resumeTemplate
    let (parts, _) ← extend (fun (parts, ends) => do
      if ends then return none
      else
        let (text, ends) ← templateText tagged
        if ends then return some (text :: parts, true)
        else
          let e ← hole
          resumeTemplate
          return some (e :: text :: parts, false)) ([first, head], false)
    return parts.reverse

def importType (go : Go) : Parse Node := do
  let start ← start
  expectWord "import"
  expect "("
  let source ← go .type
  let options ← if ← eat "," then
      if ← atMark ")" then pure [] else
        let o ← go .assignment
        let _ ← eat ","
        pure [o]
    else pure []
  expect ")"
  let qualifier ← if ← eat "." then pure [← entityName] else pure []
  let args ← typeArguments? go
  finish .typeReference start (source :: options ++ qualifier ++ args)

/-- The type of a value. -/
def typeQuery (go : Go) : Parse Node := do
  let start ← start
  expectWord "typeof"
  let name ← if ← atWord "import" then importType go else entityName
  let args ← typeArguments? go
  finish .type start (name :: args)

/-- A type without operators. -/
def primaryType (go : Go) : Parse Node := do
  let start ← start
  let t ← token
  let next ← peek
  match t.lexeme with
  | .string value =>
      step
      return .string t.span value
  | .number =>
      step
      return .word t.span (String.ofList (t.here.take (t.stop - t.start)))
  | .template value ends =>
      if ends then
        step
        return .string t.span (value.getD "")
      else
        let parts ← templateParts false (go .type)
        finish .template start parts
  | .mark "-" =>
      step
      let n ← token
      require (n.lexeme = .number)
      step
      finish .type start []
  | .mark "[" =>
      step
      let ts ← commaList "]" (tupleMember go)
      finish .type start ts
  | .mark "(" =>
      step
      let inner ← within ({ · with plainTypes := false }) (go .type)
      expect ")"
      finish .parenthesized start [inner]
  | .mark "\x7b" =>
      if ← atMappedType then mappedType go
      else
        let ms ← typeMembers go
        finish .type start ms
  | .name text false =>
      if text = "typeof" then typeQuery go
      else if text = "import" then importType go
      else if text = "asserts" && (next.isName && !next.onNewLine) then
        step
        let subject ← token
        step
        let ty ← if ← eatWord "is" then pure [← go .type] else pure []
        finish .predicate start (.word subject.span "" :: ty)
      else if typeKeywords.contains text && !next.isMark "." then
        step
        return .word t.span text
      else typeReference go
  | _ => typeReference go

/-- A type with brackets after it: the type of lists of it, or of a member. -/
def postfixType (go : Go) : Parse Node := do
  let start ← start
  let ty ← primaryType go
  extend (fun ty => do
    let t ← token
    if t.isMark "[" && !t.onNewLine then
      step
      if ← eat "]" then return some (← finish .type start [ty])
      else
        let i ← within ({ · with plainTypes := false }) (go .type)
        expect "]"
        return some (← finish .type start [ty, i])
    else return none) ty

/-- An inferred type. Its constraint is left out where a conditional type would
begin. -/
def inferredType (go : Go) : Parse Node := do
  let start ← start
  expectWord "infer"
  let name ← binding
  let setting ← read
  let constraint ← attempt do
    expectWord "extends"
    let c ← within ({ · with plainTypes := true }) (go .type)
    if !setting.plainTypes && (← atMark "?") then fail
    return c
  finish .typeParameter start (name :: constraint.toList)

/-- A type with operators in front. -/
def operatorType (go : Go) : Parse Node := do
  let start ← start
  let t ← token
  if ["keyof", "unique", "readonly"].any t.isWord then
    step
    let inner ← go .typeOperator
    finish .type start [inner]
  else if t.isWord "infer" then inferredType go
  else within ({ · with plainTypes := false }) (postfixType go)

/-- Types with one of the marks `&` and `|` between them, and perhaps in front. -/
def joinedTypes (mark : String) (p : Parse Node) : Parse Node := do
  let start ← start
  let leading ← eat mark
  let first ← p
  let more ← many do
    if ← eat mark then return some (← p)
    else return none
  if leading || !more.isEmpty then finish .type start (first :: more) else return first

/-- Types joined by `|`, each of which may be types joined by `&`. -/
def unionType (go : Go) : Parse Node :=
  joinedTypes "|" (joinedTypes "&" (go .typeOperator))

def atFunctionType (go : Go) : Parse Bool := do
  let t ← token
  let next ← peek
  if t.isMark "<" || t.isWord "new" then return true
  else if t.isWord "abstract" then return next.isWord "new"
  else if t.isMark "(" then
    looksLike do
      step
      if (← atMark ")") || (← atMark "...") then return true
      skipParameterModifiers
      if ← atWord "this" then step
      else
        let _ ← go .target
      if (← atMark ":") || (← atMark ",") || (← atMark "?") || (← atMark "=") then return true
      expect ")"
      atMark "=>"
  else return false

def functionType (go : Go) : Parse Node := do
  let start ← start
  let _ ← eatWord "abstract"
  let _ ← eatWord "new"
  let tps ← typeParameters? go
  let ps ← parameters go
  expect "=>"
  let r ← typeOrPredicate go
  finish .type start (tps ++ [ps, r])

def type (go : Go) : Parse Node := do
  if ← atFunctionType go then functionType go
  else
    let start ← start
    let ty ← unionType go
    let t ← token
    if t.isWord "extends" && !t.onNewLine && !(← read).plainTypes then
      step
      let bound ← within ({ · with plainTypes := true }) (go .type)
      expect "?"
      let yes ← go .type
      expect ":"
      let no ← go .type
      finish .type start [ty, bound, yes, no]
    else return ty

end SiteMacros.Script.Grammar
