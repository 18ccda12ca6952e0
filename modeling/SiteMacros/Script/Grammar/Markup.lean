import SiteMacros.Script.Grammar.Function

/-!
# Markup

An element of markup, with attributes and children. Between tags the text is not
made of tokens, so an element that stands in another leaves the cursor on its last
bracket, and the text after it is scanned from there.

A name that starts with a lower-case letter or has a hyphen in it names an element
of the page; any other refers to a component, and so does the first of names with
dots between them.
-/

namespace SiteMacros.Script.Grammar

open Parse

/-- Put a token at the cursor. -/
def place (t : Token) : Parse Unit :=
  modify fun c => { c with token := t }

/-- A name of markup: its place and its text. -/
def markupName : Parse (Span × String) := do
  let t := Scanner.markupName (← token)
  match t.lexeme with
  | .name text _ =>
      moveBehind t
      return (t.span, text)
  | _ => fail

/-- Does an element's name refer to a component? -/
def isComponentName (name : String) : Bool :=
  match name.toList with
  | c :: cs => !c.isLower && !(c :: cs).contains '-'
  | [] => false

def elementName : Parse (Node × String) := do
  let start ← start
  let (s, name) ← markupName
  if ← eat ":" then
    let (_, part) ← markupName
    return (← finish .elementName start [], name ++ ":" ++ part)
  else
    let more ← many do
      if ← eat "." then
        let (s, part) ← markupName
        return some (s, part)
      else return none
    let head := if name = "this" || (more.isEmpty && !isComponentName name) then .word s name
      else .reference s name
    let text := ".".intercalate (name :: more.map (·.2))
    return (← finish .elementName start (head :: more.map fun (s, part) => .word s part), text)

/-- The expression in braces at the cursor, which may be missing; the cursor stays
on the closing brace. -/
def embedded (go : Go) (mayBeEmpty : Bool) : Parse Node := do
  let start ← start
  expect openBrace
  let spread ← if mayBeEmpty then eat "..." else pure false
  let t ← token
  let e ← if t.isMark closeBrace then
      require (mayBeEmpty && !spread)
      pure []
    else pure [← within bracketed (go .expression)]
  let close ← token
  require (close.isMark closeBrace)
  return .group .embedded ⟨start, close.stop⟩ e

/-- The value of an attribute, after its equals sign. -/
def attributeValue (go : Go) : Parse Node := do
  let equals ← token
  match Scanner.markupString? equals.stop equals.rest with
  | some t =>
      moveBehind t
      match t.lexeme with
      | .string value => return .string t.span value
      | _ => fail
  | none =>
      step
      let e ← if ← atMark openBrace then embedded go false else go (.element true)
      step
      return e

def markupAttribute (go : Go) : Parse Node := do
  let start ← start
  if ← eat openBrace then
    expect "..."
    let e ← within bracketed (go .assignment)
    expect closeBrace
    finish .spread start [e]
  else
    let (s, name) ← markupName
    if ← eat ":" then
      let _ ← markupName
    let value ← if ← atMark "=" then pure [← attributeValue go] else pure []
    finish .attribute start (.word s name :: value)

/-- A child of an element, from the cursor's last bracket on; `none` if what
follows is a closing tag, on whose bracket the cursor then is. -/
def child (go : Go) : Parse (Option (List Node)) := do
  let t ← token
  match Scanner.markupText t.stop t.rest with
  | none => throw ⟨t.stop⟩
  | some (offset, rest) =>
      let text : List Node :=
        if offset = t.stop then [] else [.group .elementText ⟨t.stop, offset⟩ []]
      place (Scanner.scan offset rest)
      if ← atMark openBrace then
        let e ← embedded go true
        return some (text ++ [e])
      else
        let next ← peek
        if next.isMark "/" then return none
        else
          let e ← go (.element true)
          return some (text ++ [e])

/-- The children of an element, and its closing tag but for the last bracket. -/
def childrenAndClose (go : Go) (name : Option String) : Parse (List Node × List Node) := do
  let children ← within bracketed (many (child go))
  expect "<"
  expect "/"
  match name with
  | none => return ([], children.flatten)
  | some name =>
      let (closing, text) ← elementName
      require (text = name)
      return ([closing], children.flatten)

/-- An element or a fragment. Within another element the cursor stays on the last
bracket. -/
def element (go : Go) (nested : Bool) : Parse Node := do
  let start ← start
  expect "<"
  let parts ← if ← atMark ">" then
      let (_, children) ← childrenAndClose go none
      pure children
    else
      let (opening, name) ← elementName
      let args ← if ← types then typeArguments? go else pure []
      let attributes ← many do
        if (← atMark ">") || (← atMark "/") then return none
        else return some (← markupAttribute go)
      let head := opening :: attributes ++ args
      if ← eat "/" then pure head
      else
        require (← atMark ">")
        let (closing, children) ← childrenAndClose go (some name)
        pure (head ++ closing ++ children)
  let last ← token
  require (last.isMark ">")
  unless nested do step
  return .group .element ⟨start, last.stop⟩ parts

end SiteMacros.Script.Grammar
