import SiteMacros.Path
import SiteMacros.Script.Grammar.Exchange

/-!
# Modules

A module's text is read as a program. The table of productions is tied here: a
production asks for another one level down, and as each level stands for an
entry into the grammar, there are no more of them on a way down the tree than a
fixed number for each character.

The language of a module is that of its file's ending.
-/

namespace SiteMacros.Script

def production (go : Go) : Goal → Parse Node
  | .expression => Grammar.expression go
  | .assignment => Grammar.assignment go
  | .operators level => Grammar.operators go level
  | .unary => Grammar.unary go
  | .leftHand => Grammar.leftHand go
  | .new => Grammar.newExpression go
  | .statement => Grammar.statement go
  | .type => Grammar.type go
  | .typeOperator => Grammar.operatorType go
  | .target => Grammar.target go
  | .element nested => Grammar.element go nested

/-- The productions, down to a depth. -/
def productions : (depth : Nat) → Go
  | 0 => fun _ => Parse.fail
  | depth + 1 => production (productions depth)

/-- Statements up to the end of the text. -/
def program (go : Go) : Parse Node := do
  let start ← Parse.start
  let ss ← Parse.many do
    if (← Parse.token).isEnd then return none
    else return some (← go .statement)
  Parse.require (← Parse.token).isEnd
  Parse.finish .program start ss

mutual

/-- Where in a tree an object has a default and is no pattern. -/
def Node.strayDefault? : Node → Option Nat
  | .group k s parts => if k = .coverDefault then some s.start else strayDefaultIn? parts
  | .call _ callee typeArgs args =>
      callee.strayDefault?.orElse fun _ =>
        (strayDefaultIn? typeArgs).orElse fun _ => strayDefaultIn? args
  | .importDeclaration _ _ | .reference _ _ | .binding _ _ | .string _ _ | .word _ _ => none

/-- Where among nodes an object has a default and is no pattern. -/
def strayDefaultIn? : List Node → Option Nat
  | [] => none
  | n :: ns => n.strayDefault?.orElse fun _ => strayDefaultIn? ns

end

namespace Language

/-- The language of a file, by its ending. A file of no known ending may have
everything. -/
def ofPath (file : Path) : Language :=
  match file.extension? with
  | some "ts" | some "mts" => ⟨true, false⟩
  | some "js" | some "jsx" | some "mjs" => ⟨false, true⟩
  | _ => ⟨true, true⟩

end Language

/-- More levels than a text of so many characters can need. -/
def depthFor (characters : Nat) : Nat :=
  8 * characters + 64

def parse (language : Language) (text : String) : Except SyntaxError Node := do
  let cs := text.toList
  let go := productions (depthFor cs.length)
  let (tree, _) ← program go { language } { token := Scanner.first cs }
  match tree.strayDefault? with
  | some offset => throw ⟨offset⟩
  | none => return tree

end SiteMacros.Script
