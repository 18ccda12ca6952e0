import SiteMacros.Edit
import SiteMacros.Error
import SiteMacros.MacroName
import SiteMacros.Script.Node

/-!
# Calls of macros

A module binds macros to local names. Every reference to such a name has to be
the callee of a call, and no such call may stand within another one; a module in
which that holds has its calls found, in the order of a visit, and the first
place where it does not hold is an error.

Names count wherever they stand: a local variable of the same name does not hide
a macro.
-/

namespace SiteMacros.Script

/-- The part of a text that a span covers. -/
def Span.textIn (text : String) (s : Span) : String :=
  String.ofList (Edit.takeBytes (s.stop - s.start) (Edit.dropBytes s.start text.toList))

/-- An argument of a call: its text, and its value if it is a plain string. -/
structure Argument where
  span : Span
  text : String
  literal? : Option String
  deriving DecidableEq, Repr

/-- A call of a macro, from the callee up to the closing bracket. -/
structure MacroCall where
  callee : MacroName
  span : Span
  args : List Argument
  deriving DecidableEq, Repr

/-- The local names of macros. -/
abbrev Bindings := List (String × MacroName)

namespace MacroCall

/-- A node in the place of an argument. -/
def argument (text : String) (n : Node) : Argument :=
  ⟨n.span, n.span.textIn text, n.literal?⟩

/-- The error of a call that stands within this one. -/
def nested (text : String) (outer : MacroCall) (inner : Span) : MacroError :=
  match outer.args.findIdx? (·.span.covers inner) with
  | some i =>
      .argumentType outer.callee.name (i + 1) ((outer.args[i]?.map (·.text)).getD "")
  | none => .argumentType outer.callee.name 1 (inner.textIn text)

end MacroCall

/-- What a visit of a tree has found. -/
structure Finding where
  calls : List MacroCall := []
  /-- Where the callees of the calls stand. -/
  callees : List Nat := []

/-- What is found at one more site. -/
def Finding.visit (text : String) (bindings : Bindings) (f : Finding) :
    Site → Except MacroError Finding
  | .binding _ _ => .ok f
  | .reference span name =>
      match bindings.lookup name with
      | some m =>
          if f.callees.contains span.start then .ok f
          else .error (.configuration (.indirectUse m.name))
      | none => .ok f
  | .call span callee name args =>
      match bindings.lookup name with
      | some m =>
          match f.calls.find? (·.span.covers span) with
          | some outer => .error (outer.nested text span)
          | none => .ok {
              calls := f.calls ++ [⟨m, span, args.map (MacroCall.argument text)⟩]
              callees := callee.start :: f.callees }
      | none => .ok f

/-- The calls of macros in a tree. -/
def findCalls (text : String) (bindings : Bindings) (tree : Node) :
    Except MacroError (List MacroCall) :=
  (tree.sites.foldlM (Finding.visit text bindings) {}).map (·.calls)

/-- The name that a site is about. A call is about no name; its callee is. -/
def Site.name? : Site → Option String
  | .reference _ name | .binding _ name => some name
  | .call .. => none

/-- The names that a tree declares or refers to. -/
def identifiers (tree : Node) : List String :=
  tree.sites.filterMap (·.name?)

/-- The import declarations of a program; those in other places do not count. -/
def imports : Node → List ImportDeclaration
  | .group .program _ parts =>
      parts.filterMap fun
        | .importDeclaration d _ => some d
        | _ => none
  | _ => []

end SiteMacros.Script
