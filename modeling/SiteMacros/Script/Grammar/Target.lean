import SiteMacros.Script.Parse

/-!
# Names and parameters

What declares variables: a name, a pattern of names, and the parameters of a
function. Types may be annotated where the language has them.
-/

namespace SiteMacros.Script.Grammar

open Parse

/-- The type after a colon, if there is one. -/
def ascription (go : Go) : Parse (List Node) := do
  if (← types) && (← atMark ":") then
    let start ← start
    step
    let t ← go .type
    return [← finish .ascription start [t]]
  else return []

/-- The value after an equals sign, if there is one. -/
def initializer (go : Go) : Parse (List Node) := do
  if ← eat "=" then return [← within ({ · with inOperator := true }) (go .assignment)]
  else return []

/-- An expression in square brackets. -/
def computedKey (go : Go) : Parse Node := do
  let start ← start
  expect "["
  let e ← within ({ · with inOperator := true, decorating := false }) (go .assignment)
  expect "]"
  finish .index start [e]

def propertyName (go : Go) : Parse Node := do
  let t ← token
  match t.lexeme with
  | .string value =>
      step
      return .string t.span value
  | .number =>
      step
      return .word t.span (String.ofList (t.here.take (t.stop - t.start)))
  | .privateName text =>
      step
      return .word t.span ("#" ++ text)
  | .mark _ => computedKey go
  | _ => anyName

/-- A target with what it is when there is no value for it. -/
def withDefault (go : Go) (start : Nat) (left : List Node) : Parse Node := do
  match left, ← initializer go with
  | [only], [] => return only
  | left, [] => finish .parameter start left
  | left, value => finish .default start (left ++ value)

/-- What takes the remaining values. -/
def restTarget (go : Go) : Parse Node := do
  let start ← start
  expect "..."
  let t ← go .target
  finish .rest start [t]

def arrayPattern (go : Go) : Parse Node := do
  let start ← start
  expect "["
  let items ← many do
    let at_ ← Parse.start
    if ← atMark "]" then return none
    else if ← eat "," then return some (.group .hole ⟨at_, at_⟩ [])
    else if ← atMark "..." then
      let r ← restTarget go
      require (← atMark "]")
      return some r
    else
      let t ← go .target
      let item ← withDefault go at_ [t]
      unless ← atMark "]" do expect ","
      return some item
  expect "]"
  finish .arrayPattern start items

def patternProperty (go : Go) : Parse Node := do
  let start ← start
  if ← atMark "..." then
    let r ← restTarget go
    require (← atMark closeBrace)
    return r
  else
    let t ← token
    let key ← propertyName go
    if ← eat ":" then
      let at_ ← Parse.start
      let target ← go .target
      let value ← withDefault go at_ [target]
      finish .pair start [key, value]
    else
      match key with
      | .word s text =>
          require (← isVariable t)
          withDefault go start [.binding s text]
      | _ => fail

def objectPattern (go : Go) : Parse Node := do
  let start ← start
  expect openBrace
  let properties ← commaList closeBrace (patternProperty go)
  finish .objectPattern start properties

def target (go : Go) : Parse Node := do
  if ← atMark "[" then arrayPattern go
  else if ← atMark openBrace then objectPattern go
  else binding

def decorator (go : Go) : Parse Node := do
  let start ← start
  expect "@"
  let e ← within ({ · with decorating := true }) (go .leftHand)
  finish .decorator start [e]

def decorators (go : Go) : Parse (List Node) :=
  many do
    if ← atMark "@" then return some (← decorator go)
    else return none

/-- Words that make a parameter a property as well. -/
def parameterModifiers : List String :=
  ["public", "private", "protected", "readonly", "override"]

/-- Step over the modifiers of a parameter: such a word is one if a target
follows it. -/
def skipParameterModifiers : Parse Unit := do
  let _ ← many do
    let t ← token
    let next ← peek
    if (← types) && parameterModifiers.any t.isWord &&
        (next.isMark openBrace || next.isMark "[" || next.isName) then
      step
      return some ()
    else return none
  return

def parameter (go : Go) : Parse Node := do
  let start ← start
  let ds ← decorators go
  skipParameterModifiers
  if (← types) && (← atWord "this") then
    let t ← token
    step
    let a ← ascription go
    finish .parameter start (ds ++ .word t.span "this" :: a)
  else if ← atMark "..." then
    let r ← restTarget go
    let _ ← if ← types then eat "?" else pure false
    let a ← ascription go
    require (← atMark ")")
    finish .rest start (ds ++ r :: a)
  else
    let t ← go .target
    let _ ← if ← types then eat "?" else pure false
    let a ← ascription go
    withDefault go start (ds ++ t :: a)

def parameters (go : Go) : Parse Node := do
  let start ← start
  expect "("
  let ps ← within ({ · with inOperator := true, decorating := false, consequent := false })
    (commaList ")" (parameter go))
  finish .parameters start ps

end SiteMacros.Script.Grammar
