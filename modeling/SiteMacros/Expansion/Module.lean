import SiteMacros.Expansion
import SiteMacros.Script.Parser

/-!
# Expansion of a module

A module is expanded if it imports a module of macros. Each call of a macro is
replaced by its expansion, the imports of macros are removed, and what the
expansions need goes below the last import: first the imports that the module did
not have, then statements.

A module that does not parse is left alone unless its text mentions a module of
macros. A scan tells beforehand, without expanding, whether a module uses macros
and whether it registers anything.
-/

namespace SiteMacros

structure ExpandedModule where
  code : String
  dependencies : Dependencies
  deriving DecidableEq, Repr

/-- What a scan tells of a module. -/
structure ModuleScan where
  usesMacros : Bool := false
  registers : Bool := false
  deriving DecidableEq, Repr, Inhabited

namespace MacroSources

open Script

/-- Does an import's source name the module `specifier`, as it is or at the end
of a path? -/
def names (specifier source : String) : Bool :=
  source = specifier || (Text.dropEnd? specifier source).any (Text.endsWith "/")

/-- The macros that an import's source provides, if it is a module of macros. -/
def provided? (m : MacroSources) (source : String) : Option (List MacroName) :=
  if names m.pages source then some MacroName.ofPages
  else if names m.translations source then some MacroName.ofTranslations
  else none

/-- Is the declaration an import of macros? -/
def isMacroImport (m : MacroSources) (d : ImportDeclaration) : Bool :=
  (m.provided? d.source).isSome

/-- Does a text mention a module of macros? -/
def mentionedIn (m : MacroSources) (text : String) : Bool :=
  Text.contains m.pages text || Text.contains m.translations text

/-- The macro that a named import takes. -/
def binding (source : String) (provided : List MacroName) (n : NamedImport) :
    Except MacroError (String × MacroName) :=
  match MacroName.find? provided n.imported with
  | some m => .ok (n.localName, m)
  | none => .error (.configuration (.notExported source n.imported))

/-- The macros that a declaration binds. -/
def bindingsOf (m : MacroSources) (d : ImportDeclaration) : Except MacroError Bindings :=
  match m.provided? d.source with
  | none => .ok []
  | some provided =>
      if d.typeOnly then .ok []
      else if d.default?.isSome || d.whole?.isSome then
        .error (.configuration (.namedImportsOnly d.source))
      else (d.named.filter (!·.typeOnly)).mapM (binding d.source provided)

/-- The macros that declarations bind; of two under one name the later counts. -/
def bindings (m : MacroSources) (ds : List ImportDeclaration) : Except MacroError Bindings :=
  (ds.mapM m.bindingsOf).map fun bs => bs.flatten.reverse

end MacroSources

namespace Expansion

open Script

/-- The edit that puts a call's expansion in its place. -/
def expandCall (text : String) (call : MacroCall) : Expand Edit := do
  let code := (← expand call).render (Text.indentDepth text call.span.start)
  let guard := if Text.needsGuard text call.span.start code then ";" else ""
  return ⟨call.span.start, call.span.stop, guard ++ code⟩

def removal (text : String) (d : ImportDeclaration) : Edit :=
  ⟨d.span.start, Text.lineEnd text d.span.stop, ""⟩

/-- The imports and statements that the expansions need. -/
def header (x : Expansion) : String :=
  x.scope.declarations ++ String.join (x.prelude.map fun e => e.render 0 ++ ";\n")

/-- The edit that puts the header below the last import, if there is one. -/
def insertion (text : String) (ds : List ImportDeclaration) (header : String) : List Edit :=
  if header.isEmpty then []
  else
    let place := (ds.map fun d => Text.lineEnd text d.span.stop).foldl max 0
    let breakBefore :=
      match Text.before text place with
      | [] | '\n' :: _ => ""
      | _ => "\n"
    [⟨place, place, breakBefore ++ header⟩]

/-- The text with its calls expanded. -/
def expandCalls (text : String) (ds : List ImportDeclaration) (macroImports : List ImportDeclaration)
    (calls : List MacroCall) : Expand ExpandedModule := do
  let replacements ← calls.mapM (expandCall text)
  let x ← get
  return {
    code := Edit.applyAll text
      (replacements ++ macroImports.map (removal text) ++ insertion text ds x.header)
    dependencies := x.dependencies }

/-- The calls of a module that imports macros, with its tree; `none` for other
modules. -/
def analyze (c : Configuration) (file : Path) (text : String) :
    Except MacroError (Option (Node × List MacroCall)) :=
  match parse (.ofPath file) text with
  | .error e =>
      if c.macroSources.mentionedIn text then
        .error (.configuration (.unparsable file e.offset))
      else .ok none
  | .ok tree => do
      let ds := imports tree
      let bindings ← c.macroSources.bindings ds
      if ds.any c.macroSources.isMacroImport then
        return some (tree, ← findCalls text bindings tree)
      else return none

/-- Expand the module with this text. The registry is changed by every call that
is expanded, also if a later one fails; `none` stands for a module without
macros. -/
def expandModule (s : Surroundings) (registry : Registry) (text : String) :
    Registry × Except MacroError (Option ExpandedModule) :=
  match analyze s.configuration s.file text with
  | .error e => (registry, .error e)
  | .ok none => (registry, .ok none)
  | .ok (some (tree, calls)) =>
      let ds := imports tree
      let (macroImports, kept) := ds.partition s.configuration.macroSources.isMacroImport
      let scope := ImportScope.ofModule (identifiers tree) kept
      let (result, x) := ((expandCalls text ds macroImports calls).run s).run { registry, scope }
      (x.registry, result.map some)

/-- Scan the module with this text. One whose imports or calls are wrong uses
macros and registers nothing. -/
def scanModule (c : Configuration) (file : Path) (text : String) : ModuleScan :=
  match parse (.ofPath file) text with
  | .error _ => { usesMacros := c.macroSources.mentionedIn text }
  | .ok tree =>
      let ds := imports tree
      match c.macroSources.bindings ds with
      | .error _ => { usesMacros := true }
      | .ok bindings =>
          if ds.any c.macroSources.isMacroImport then
            let registers :=
              match findCalls text bindings tree with
              | .ok calls => calls.any (·.callee.registers)
              | .error _ => false
            { usesMacros := true, registers }
          else {}

end Expansion

end SiteMacros
