import SiteMacros.Expression.Render
import SiteMacros.Script.Parser
import Mathlib.Data.List.Forall2

/-!
# Trees as expressions

A tree of the grammar stands for an expression if it consists of the constructs that are emitted
(`Node.expression?`). Parentheses only group, and `undefined` is a name like any other: nothing
else of an expression is lost when it is read (`Expression.asRead`).

An object that has a default is a pattern and no expression. In a tree that stands for an
expression there is none (`strayDefault?_of_expression?`).
-/

namespace SiteMacros.Script

namespace Node

/-- The parameter that a node declares: a name, or the pattern that takes a property by name. -/
def parameter? : Node → Option String
  | .binding _ name => some name
  | .group .objectPattern _ [.binding _ name] => some ("\x7b " ++ name ++ " \x7d")
  | _ => none

/-- The name of a property. -/
def key? : Node → Option String
  | .word _ text | .string _ text => some text
  | _ => none

mutual

/-- The expression that a tree stands for. Parentheses only group, and `undefined` is a name. -/
def expression? : Node → Option Expression
  | .string _ value => some (.string value)
  | .reference _ name => some (.name name)
  | .word _ text =>
      if text = "null" then some .null
      else if text = "true" then some (.bool true)
      else if text = "false" then some (.bool false)
      else none
  | .call _ callee [] args => do return .call (← callee.expression?) (← expressionsOf? args)
  | .group .parenthesized _ [e] => e.expression?
  | .group .member _ [e, .word _ property] => do return .member (← e.expression?) property
  | .group .array _ items => do return .array (← expressionsOf? items)
  | .group .object _ properties => do return .object (← propertiesOf? properties)
  | .group .dynamicImport _ [source] => do
      match ← source.expression? with
      | .string text => some (.dynamicImport text)
      | _ => none
  | .group .conditional _ [test, consequent, alternate] => do
      return .conditional (← test.expression?) (← consequent.expression?) (← alternate.expression?)
  | .group .arrow _ [.group .parameters _ params, .group .body _ statements] => do
      return .arrowBlock (← params.mapM parameter?) (← statementsOf? statements)
  | .group .arrow _ [.group .parameters _ params, body] => do
      return .arrow (← params.mapM parameter?) (← body.expression?)
  | _ => none

def expressionsOf? : List Node → Option (List Expression)
  | [] => some []
  | n :: ns => do return (← n.expression?) :: (← expressionsOf? ns)

def propertiesOf? : List Node → Option (List (String × Expression))
  | [] => some []
  | .group .pair _ [key, value] :: ns => do
      return (← key.key?, ← value.expression?) :: (← propertiesOf? ns)
  | _ :: _ => none

def statementsOf? : List Node → Option (List Expression)
  | [] => some []
  | .group .expressionStatement _ [e] :: ns => do
      return (← e.expression?) :: (← statementsOf? ns)
  | _ :: _ => none

end

end Node

end SiteMacros.Script

namespace SiteMacros.Expression

mutual

/-- An expression as it is read: `undefined` is a name like any other. -/
def asRead : Expression → Expression
  | .undefined => .name "undefined"
  | .array es => .array (asReadAll es)
  | .object ps => .object (asReadProperties ps)
  | .member e property => .member e.asRead property
  | .call callee args => .call callee.asRead (asReadAll args)
  | .arrow params body => .arrow params body.asRead
  | .arrowBlock params statements => .arrowBlock params (asReadAll statements)
  | .conditional test consequent alternate =>
      .conditional test.asRead consequent.asRead alternate.asRead
  | e => e

def asReadAll : List Expression → List Expression
  | [] => []
  | e :: es => e.asRead :: asReadAll es

def asReadProperties : List (String × Expression) → List (String × Expression)
  | [] => []
  | (k, e) :: ps => (k, e.asRead) :: asReadProperties ps

end

end SiteMacros.Expression

namespace SiteMacros.Script

/-- A text read as an expression, up to its end. -/
def readExpression (language : Language) (text : String) : Except SyntaxError Node := do
  let cs := text.toList
  let go := productions (depthFor cs.length)
  let (n, c) ← go .expression { language } { token := Scanner.scan 0 cs }
  match n.strayDefault? with
  | some offset => throw ⟨offset⟩
  | none => if c.token.isEnd then return n else throw ⟨c.token.start⟩

/-- Does the tree stand for the expression? -/
def Denotes (e : Expression) (n : Node) : Prop :=
  n.expression? = some e

/-! ## Lists -/

open Expression

theorem expressionsOf?_of_forall₂ {es : List Expression} {ns : List Node}
    (h : List.Forall₂ (fun e n => Denotes e.asRead n) es ns) :
    Node.expressionsOf? ns = some (asReadAll es) := by
  induction h with
  | nil => rfl
  | cons hfirst _ ih =>
      rw [Denotes] at hfirst
      rw [Node.expressionsOf?, hfirst, ih]
      rfl

/-- The node is the property, with its value. -/
def DenotesProperty (p : String × Expression) (n : Node) : Prop :=
  ∃ span key value, n = .group .pair span [key, value] ∧ key.key? = some p.1 ∧
    Denotes p.2.asRead value

theorem propertiesOf?_of_forall₂ {ps : List (String × Expression)} {ns : List Node}
    (h : List.Forall₂ DenotesProperty ps ns) :
    Node.propertiesOf? ns = some (asReadProperties ps) := by
  induction h with
  | nil => rfl
  | cons hfirst _ ih =>
      obtain ⟨span, key, value, rfl, hkey, hvalue⟩ := hfirst
      rw [Denotes] at hvalue
      rw [Node.propertiesOf?, hkey, hvalue, ih]
      rfl

theorem mapM_parameter? {params : List String} {ns : List Node}
    (h : List.Forall₂ (fun p n => Node.parameter? n = some p) params ns) :
    ns.mapM Node.parameter? = some params := by
  induction h with
  | nil => rfl
  | cons hfirst _ ih =>
      rw [List.mapM_cons, hfirst, ih]
      rfl

/-- The node is the expression as a statement. -/
def DenotesStatement (e : Expression) (n : Node) : Prop :=
  ∃ span inner, n = .group .expressionStatement span [inner] ∧ Denotes e.asRead inner

theorem statementsOf?_of_forall₂ {es : List Expression} {ns : List Node}
    (h : List.Forall₂ DenotesStatement es ns) : Node.statementsOf? ns = some (asReadAll es) := by
  induction h with
  | nil => rfl
  | cons hfirst _ ih =>
      obtain ⟨span, inner, rfl, hinner⟩ := hfirst
      rw [Denotes] at hinner
      rw [Node.statementsOf?, hinner, ih]
      rfl

/-! ## Defaults -/

theorem strayDefault?_of_parameter? {n : Node} {p : String} (h : n.parameter? = some p) :
    n.strayDefault? = none := by
  rw [Node.parameter?.eq_def] at h
  split at h
  · rfl
  · rfl
  · cases h

theorem strayDefault?_of_key? {n : Node} {k : String} (h : n.key? = some k) :
    n.strayDefault? = none := by
  rw [Node.key?.eq_def] at h
  split at h
  · rfl
  · rfl
  · cases h

theorem strayDefaultIn?_of_parameters {ns : List Node} {params : List String}
    (h : ns.mapM Node.parameter? = some params) : strayDefaultIn? ns = none := by
  induction ns generalizing params with
  | nil => rfl
  | cons n ns ih =>
      simp only [List.mapM_cons, Option.bind_eq_bind, Option.bind_eq_some_iff] at h
      obtain ⟨p, hp, ps, hps, -⟩ := h
      rw [strayDefaultIn?, strayDefault?_of_parameter? hp, ih hps]
      rfl

/-- In a tree that stands for an expression no object has a default. The induction is on how such
a tree is taken for an expression, together with those of the lists in it. -/
theorem strayDefault?_of_expression? {n : Node} {e : Expression} (h : n.expression? = some e) :
    n.strayDefault? = none := by
  have hall := (Node.expression?.mutual_induct
    (fun n => ∀ e, n.expression? = some e → n.strayDefault? = none)
    (fun ns => ∀ es, Node.statementsOf? ns = some es → strayDefaultIn? ns = none)
    (fun ns => ∀ ps, Node.propertiesOf? ns = some ps → strayDefaultIn? ns = none)
    (fun ns => ∀ es, Node.expressionsOf? ns = some es → strayDefaultIn? ns = none)
    ?string ?reference ?null ?true ?false ?word ?call ?parenthesized ?member ?array ?object
    ?dynamicImport ?conditional ?arrowBlock ?arrow ?other ?noStatements ?statements ?noStatement
    ?noProperties ?properties ?noProperty ?noExpressions ?expressions).1
  · exact hall n e h
  case call =>
    intro span callee args hcallee hargs e h
    simp only [Node.expression?, Option.bind_eq_bind, Option.bind_eq_some_iff] at h
    obtain ⟨f, hf, es, hes, -⟩ := h
    simp [Node.strayDefault?, strayDefaultIn?, hcallee f hf, hargs es hes]
  case parenthesized =>
    intro span inner hinner e h
    rw [Node.expression?] at h
    simp [Node.strayDefault?, strayDefaultIn?, hinner e h]
  case member =>
    intro span object span' property hobject e h
    simp only [Node.expression?, Option.bind_eq_bind, Option.bind_eq_some_iff] at h
    obtain ⟨o, ho, -⟩ := h
    simp [Node.strayDefault?, strayDefaultIn?, hobject o ho]
  case array =>
    intro span items hitems e h
    simp only [Node.expression?, Option.bind_eq_bind, Option.bind_eq_some_iff] at h
    obtain ⟨es, hes, -⟩ := h
    simp [Node.strayDefault?, hitems es hes]
  case object =>
    intro span properties hproperties e h
    simp only [Node.expression?, Option.bind_eq_bind, Option.bind_eq_some_iff] at h
    obtain ⟨ps, hps, -⟩ := h
    simp [Node.strayDefault?, hproperties ps hps]
  case dynamicImport =>
    intro span source hsource e h
    simp only [Node.expression?, Option.bind_eq_bind, Option.bind_eq_some_iff] at h
    obtain ⟨text, htext, -⟩ := h
    simp [Node.strayDefault?, strayDefaultIn?, hsource text htext]
  case conditional =>
    intro span test consequent alternate htest hconsequent halternate e h
    simp only [Node.expression?, Option.bind_eq_bind, Option.bind_eq_some_iff] at h
    obtain ⟨e₁, h₁, e₂, h₂, e₃, h₃, -⟩ := h
    simp [Node.strayDefault?, strayDefaultIn?, htest e₁ h₁, hconsequent e₂ h₂, halternate e₃ h₃]
  case arrowBlock =>
    intro span span' params span'' statements hstatements e h
    simp only [Node.expression?, Option.bind_eq_bind, Option.bind_eq_some_iff] at h
    obtain ⟨ps, hps, es, hes, -⟩ := h
    simp [Node.strayDefault?, strayDefaultIn?, strayDefaultIn?_of_parameters hps,
      hstatements es hes]
  case arrow =>
    intro span span' params body hnot hbody e h
    simp only [Node.expression?, Option.bind_eq_bind, Option.bind_eq_some_iff] at h
    obtain ⟨ps, hps, b, hb, -⟩ := h
    simp [Node.strayDefault?, strayDefaultIn?, strayDefaultIn?_of_parameters hps, hbody b hb]
  case statements =>
    intro span e ns he hns es h
    simp only [Node.statementsOf?, Option.bind_eq_bind, Option.bind_eq_some_iff] at h
    obtain ⟨a, ha, as, has, -⟩ := h
    simp [Node.strayDefault?, strayDefaultIn?, he a ha, hns as has]
  case properties =>
    intro span key value ns hvalue hns ps h
    simp only [Node.propertiesOf?, Option.bind_eq_bind, Option.bind_eq_some_iff] at h
    obtain ⟨k, hk, a, ha, as, has, -⟩ := h
    simp [Node.strayDefault?, strayDefaultIn?, strayDefault?_of_key? hk, hvalue a ha, hns as has]
  case expressions =>
    intro n ns hn hns es h
    simp only [Node.expressionsOf?, Option.bind_eq_bind, Option.bind_eq_some_iff] at h
    obtain ⟨a, ha, as, has, -⟩ := h
    simp [strayDefaultIn?, hn a ha, hns as has]
  -- a leaf has no parts, and what is no expression is not taken for one
  all_goals
    intros
    first
    | rfl
    | simp_all [Node.expression?, Node.propertiesOf?, Node.statementsOf?]

end SiteMacros.Script
