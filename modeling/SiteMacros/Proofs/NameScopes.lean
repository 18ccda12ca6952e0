import SiteMacros.Proofs.Captures
import SiteMacros.Proofs.Leftovers
import SiteMacros.Proofs.TreeSites

/-!
# Scopes of names

What a name means at a place is for the scopes around the place to say: it is what the
nearest scope declares that declares the name, and if none does, what the module declares or
imports (`Node.ResolvesTo`). Scopes are opened by functions, for their parameters and for what
their bodies declare; by blocks, loops, cases and clauses; by classes and enumerations. What a
`var` declares belongs to the nearest function around it. Types declare nothing here, nor does
what is only said to exist elsewhere, because neither is there when the module runs.

A call is found by the name of its callee alone. So each call that is found is one of a name
that an import of macros binds, and it is replaced by its expansion whatever is declared around
it: also if a scope around it declares the name, and it is no call of the macro
(`expandModule_resolves_iff`, `expandModule_replaces_shadowed`).
-/

namespace SiteMacros

namespace Script

/-! ## Declarations -/

/-- Does the text of a span begin with a word? -/
def Span.begins (text : String) (s : Span) (word : String) : Bool :=
  (Span.mk s.start (s.start + word.length)).textIn text = word

/-- The name that a construct has, of those with a name of their own. -/
def ownName : List Node → List String
  | [] => []
  | .binding _ name :: _ => [name]
  | _ :: ns => ownName ns

namespace Node

/-- The names in the target of a declarator. -/
def targetNames : Node → List String
  | .group .declarator _ (target :: _) => target.declaredNames
  | _ => []

/-- The names that a declaration of variables declares where it stands. -/
def letNames (text : String) : Node → List String
  | .group .variableDeclaration s parts =>
      if s.begins text "var" then [] else parts.flatMap targetNames
  | _ => []

mutual

/-- The names that a statement declares where it stands. -/
def lexicalNames (text : String) : Node → List String
  | .group .variableDeclaration s parts => letNames text (.group .variableDeclaration s parts)
  | .group .function _ parts | .group .classForm _ parts | .group .enum _ parts
  | .group .moduleBlock _ parts | .group .importEquals _ parts => ownName parts
  | .group .labeled _ parts | .group .exportNamed _ parts | .group .exportDefault _ parts =>
      lexicalNamesIn text parts
  | _ => []

/-- The names that statements declare where they stand. -/
def lexicalNamesIn (text : String) : List Node → List String
  | [] => []
  | n :: ns => n.lexicalNames text ++ lexicalNamesIn text ns

end

end Node

/-- Do variables stay in the construct that are declared by `var` in it? -/
def Construct.keepsVars : Construct → Bool
  | .function | .arrow | .staticBlock | .moduleBlock | .ambient => true
  | _ => false

namespace Node

mutual

/-- The names that a statement declares by `var`, in whatever statement within it. -/
def varNames (text : String) : Node → List String
  | .group k s parts =>
      if k = .variableDeclaration then
        if s.begins text "var" then parts.flatMap targetNames else []
      else if k.keepsVars then [] else varNamesIn text parts
  | _ => []

/-- The names that statements declare by `var`. -/
def varNamesIn (text : String) : List Node → List String
  | [] => []
  | n :: ns => n.varNames text ++ varNamesIn text ns

end

/-- The names that the statements of a case declare where they stand. -/
def caseNames (text : String) : Node → List String
  | .group .switchCase s parts =>
      lexicalNamesIn text (if s.begins text "case" then parts.tail else parts)
  | _ => []

/-- The names by which the members of an enumeration know each other. -/
def memberNames : Node → List String
  | .group .enumMember _ (key :: _) => (Grammar.memberName? key).toList
  | _ => []

/-- The decorators of parameters. -/
def parameterDecorators : Node → List Node
  | .group .parameters _ parts => parts.flatMap fun
      | .group _ _ parts => parts.filter (·.is .decorator)
      | _ => []
  | _ => []

end Node

open Node

/-- The names that a construct declares for a place in it. Decorators stand outside of what
they decorate, and the subject of a choice outside of its cases. -/
def Construct.declares (text : String) (place : Span) : Construct → List Node → List String
  | .block, parts => lexicalNamesIn text parts
  | .body, parts | .staticBlock, parts | .moduleBlock, parts =>
      varNamesIn text parts ++ lexicalNamesIn text parts
  | .switchStatement, subject :: cases =>
      if subject.span.covers place then [] else cases.flatMap (caseNames text)
  | .forStatement, head :: _ | .forInStatement, head :: _ | .forOfStatement, head :: _ =>
      head.letNames text
  | .catchClause, head :: _ => head.declaredNames
  | .function, parts | .arrow, parts =>
      if (parts.flatMap parameterDecorators).any (·.span.covers place) then []
      else ownName parts ++ parametersOf parts
  | .classForm, parts =>
      if parts.any fun p => p.is .decorator && p.span.covers place then [] else ownName parts
  | .enum, parts => parts.flatMap memberNames
  | _, _ => []

/-! ## Resolution -/

/-- A construct around a place, with the names that it declares for the place. -/
structure Scope where
  place : Span
  names : List String
  deriving DecidableEq, Repr

namespace Node

mutual

/-- The scopes within a node around a place, from the nearest one on. -/
def scopesAround (text : String) (place : Span) : Node → List Scope
  | .group k s parts =>
      if s.covers place then
        scopesAroundIn text place parts ++ [⟨s, k.declares text place parts⟩]
      else []
  | .call s callee typeArgs args =>
      if s.covers place then
        callee.scopesAround text place ++ scopesAroundIn text place typeArgs ++
          scopesAroundIn text place args
      else []
  | .importDeclaration d bindings =>
      if d.span.covers place then scopesAroundIn text place bindings else []
  | .reference _ _ | .binding _ _ | .string _ _ | .word _ _ => []

/-- The scopes within nodes around a place. -/
def scopesAroundIn (text : String) (place : Span) : List Node → List Scope
  | [] => []
  | n :: ns => n.scopesAround text place ++ scopesAroundIn text place ns

end

/-- The names that a module declares besides those that it imports. -/
def moduleNames (text : String) : Node → List String
  | .group .program _ parts => varNamesIn text parts ++ lexicalNamesIn text parts
  | _ => []

end Node

/-- What declares a name. -/
inductive Declarer where
  | imported (d : ImportDeclaration)
  | module
  | within (scope : Scope)

/-- What a name at a place in a module stands for: what the nearest scope declares, or else the
module. -/
inductive Node.ResolvesTo (text : String) (tree : Node) (place : Span) (name : String) :
    Declarer → Prop
  | within {nearer further : List Scope} {scope : Scope}
      (hsplit : tree.scopesAround text place = nearer ++ scope :: further)
      (hnearer : ∀ s ∈ nearer, name ∉ s.names) (hname : name ∈ scope.names) :
      ResolvesTo text tree place name (.within scope)
  | module (hfree : ∀ s ∈ tree.scopesAround text place, name ∉ s.names)
      (hname : name ∈ tree.moduleNames text) : ResolvesTo text tree place name .module
  | imported {d : ImportDeclaration} (hfree : ∀ s ∈ tree.scopesAround text place, name ∉ s.names)
      (hd : d ∈ imports tree) (hname : name ∈ d.locals) :
      ResolvesTo text tree place name (.imported d)

/-! ## What scopes declare -/

/-- Is a name declared in a tree, by something other than an import? -/
def Node.Declares (tree : Node) (name : String) : Prop :=
  ∃ k s parts, tree.Has (.group k s parts) ∧
    ((∃ b, .binding b name ∈ parts) ∨
      k = .enumMember ∧ ∃ key ∈ parts.head?, Grammar.memberName? key = some name)

theorem eq_flatMap {α β : Type} {f : α → List β} {g : List α → List β} (hnil : g [] = [])
    (hcons : ∀ a as, g (a :: as) = f a ++ g as) (as : List α) : g as = as.flatMap f := by
  induction as with
  | nil => exact hnil
  | cons a as ih => rw [hcons, ih, List.flatMap_cons]

theorem declaredNamesIn_eq (ns : List Node) : declaredNamesIn ns = ns.flatMap Node.declaredNames :=
  eq_flatMap rfl (fun _ _ => rfl) ns

theorem mem_parametersOf {name : String} {ns : List Node} (h : name ∈ parametersOf ns) :
    ∃ n ∈ ns, name ∈ n.declaredNames := by
  induction ns with
  | nil => cases h
  | cons n ns ih =>
      rw [parametersOf, List.mem_append] at h
      rcases h with h | h
      · split at h
        · exact ⟨n, List.mem_cons_self, h⟩
        · cases h
      · exact List.exists_mem_cons_of_exists (ih h)

theorem mem_ownName {name : String} {ns : List Node} (h : name ∈ ownName ns) :
    ∃ s, Node.binding s name ∈ ns := by
  induction ns with
  | nil => exact nomatch h
  | cons n ns ih =>
      have hrest : name ∈ ownName ns → ∃ s, Node.binding s name ∈ n :: ns := fun h =>
        (ih h).imp fun _ => List.mem_cons_of_mem n
      cases n with
      | binding s name' =>
          rw [ownName, List.mem_singleton] at h
          exact ⟨s, h ▸ List.mem_cons_self⟩
      | _ => exact hrest h

namespace Node

variable {text name : String} {place : Span}

theorem lexicalNamesIn_eq (ns : List Node) :
    lexicalNamesIn text ns = ns.flatMap (lexicalNames text) :=
  eq_flatMap rfl (fun _ _ => rfl) ns

theorem varNamesIn_eq (ns : List Node) : varNamesIn text ns = ns.flatMap (varNames text) :=
  eq_flatMap rfl (fun _ _ => rfl) ns

theorem scopesAroundIn_eq (ns : List Node) :
    scopesAroundIn text place ns = ns.flatMap (scopesAround text place) :=
  eq_flatMap rfl (fun _ _ => rfl) ns

theorem Declares.of_has {n m : Node} (hm : n.Has m) (h : m.Declares name) : n.Declares name := by
  obtain ⟨k, s, parts, hgroup, hname⟩ := h
  exact ⟨k, s, parts, hm.trans hgroup, hname⟩

section

variable {k : Construct} {s : Span} {parts : List Node}

theorem declares_of_part {p : Node} (hp : p ∈ parts) (h : p.Declares name) :
    (group k s parts).Declares name :=
  h.of_has (.part hp (.self p))

theorem declares_of_binding {b : Span} (h : .binding b name ∈ parts) :
    (group k s parts).Declares name :=
  ⟨k, s, parts, .self _, .inl ⟨b, h⟩⟩

theorem declares_of_parts {f : Node → List String} (hf : ∀ n, name ∈ f n → n.Declares name)
    (h : name ∈ parts.flatMap f) : (group k s parts).Declares name := by
  obtain ⟨p, hp, h⟩ := List.mem_flatMap.1 h
  exact declares_of_part hp (hf p h)

theorem declares_of_declaredNames {p : Node} (hp : p ∈ parts) (h : name ∈ p.declaredNames) :
    (group k s parts).Declares name := by
  induction p using inductOn generalizing k s parts with
  | node p ih =>
      cases p with
      | binding b name' =>
          rw [declaredNames, List.mem_singleton] at h
          exact declares_of_binding (h ▸ hp)
      | group k' s' parts' =>
          rw [declaredNames] at h
          split at h
          · rw [declaredNamesIn_eq] at h
            obtain ⟨q, hq, h⟩ := List.mem_flatMap.1 h
            exact declares_of_part hp (ih q hq hq h)
          · exact nomatch h
      | _ => exact nomatch h

theorem declares_of_ownName (h : name ∈ ownName parts) : (group k s parts).Declares name := by
  obtain ⟨b, hb⟩ := mem_ownName h
  exact declares_of_binding hb

theorem declares_of_targetNames {n : Node} (h : name ∈ n.targetNames) : n.Declares name := by
  rw [targetNames.eq_def] at h
  split at h
  · exact declares_of_declaredNames List.mem_cons_self h
  · exact nomatch h

theorem declares_of_letNames {n : Node} (h : name ∈ n.letNames text) : n.Declares name := by
  rw [letNames.eq_def] at h
  split at h
  · split at h
    · exact nomatch h
    · exact declares_of_parts (fun _ => declares_of_targetNames) h
  · exact nomatch h

theorem declares_of_lexicalNames {n : Node} (h : name ∈ n.lexicalNames text) :
    n.Declares name := by
  induction n using inductOn with
  | node n ih =>
      have hin : ∀ {k s parts}, n = .group k s parts → name ∈ lexicalNamesIn text parts →
          n.Declares name := by
        rintro k s parts rfl h
        rw [lexicalNamesIn_eq] at h
        obtain ⟨p, hp, h⟩ := List.mem_flatMap.1 h
        exact declares_of_part hp (ih p hp h)
      rw [lexicalNames.eq_def] at h
      split at h
      · exact declares_of_letNames h
      all_goals first
        | exact declares_of_ownName h
        | exact hin rfl h
        | exact nomatch h

theorem declares_of_lexicalNamesIn (h : name ∈ lexicalNamesIn text parts) :
    (group k s parts).Declares name := by
  rw [lexicalNamesIn_eq] at h
  exact declares_of_parts (fun _ => declares_of_lexicalNames) h

theorem declares_of_varNames {n : Node} (h : name ∈ n.varNames text) : n.Declares name := by
  induction n using inductOn with
  | node n ih =>
      cases n with
      | group k s parts =>
          rw [varNames] at h
          split at h
          · split at h
            · exact declares_of_parts (fun _ => declares_of_targetNames) h
            · exact nomatch h
          · split at h
            · exact nomatch h
            · rw [varNamesIn_eq] at h
              obtain ⟨p, hp, h⟩ := List.mem_flatMap.1 h
              exact declares_of_part hp (ih p hp h)
      | _ => exact nomatch h

theorem declares_of_statements (h : name ∈ varNamesIn text parts ++ lexicalNamesIn text parts) :
    (group k s parts).Declares name := by
  rcases List.mem_append.1 h with h | h
  · rw [varNamesIn_eq] at h
    exact declares_of_parts (fun _ => declares_of_varNames) h
  · exact declares_of_lexicalNamesIn h

theorem declares_of_caseNames {n : Node} (h : name ∈ n.caseNames text) : n.Declares name := by
  rw [caseNames.eq_def] at h
  split at h
  · rw [lexicalNamesIn_eq] at h
    obtain ⟨p, hp, h⟩ := List.mem_flatMap.1 h
    refine declares_of_part ?_ (declares_of_lexicalNames h)
    split at hp
    · exact List.mem_of_mem_tail hp
    · exact hp
  · exact nomatch h

theorem declares_of_memberNames {n : Node} (h : name ∈ n.memberNames) : n.Declares name := by
  rw [memberNames.eq_def] at h
  split at h
  · next key value =>
      exact ⟨_, _, _, .self _, .inr ⟨rfl, key, rfl, Option.mem_toList.1 h⟩⟩
  · exact nomatch h

theorem declares_of_parameters {outside : Bool}
    (h : name ∈ if outside then [] else ownName parts ++ parametersOf parts) :
    (group k s parts).Declares name := by
  split at h
  · exact nomatch h
  · rcases List.mem_append.1 h with h | h
    · exact declares_of_ownName h
    · obtain ⟨p, hp, h⟩ := mem_parametersOf h
      exact declares_of_declaredNames hp h

/-- What a construct declares for a place in it is declared by something in it. -/
theorem declares_of_construct (h : name ∈ k.declares text place parts) :
    (group k s parts).Declares name := by
  rw [Construct.declares.eq_def] at h
  split at h
  · exact declares_of_lexicalNamesIn h
  · exact declares_of_statements h
  · exact declares_of_statements h
  · exact declares_of_statements h
  · split at h
    · exact nomatch h
    · obtain ⟨c, hc, h⟩ := List.mem_flatMap.1 h
      exact declares_of_part (List.mem_cons_of_mem _ hc) (declares_of_caseNames h)
  · exact declares_of_part List.mem_cons_self (declares_of_letNames h)
  · exact declares_of_part List.mem_cons_self (declares_of_letNames h)
  · exact declares_of_part List.mem_cons_self (declares_of_letNames h)
  · exact declares_of_declaredNames List.mem_cons_self h
  · exact declares_of_parameters h
  · exact declares_of_parameters h
  · split at h
    · exact nomatch h
    · exact declares_of_ownName h
  · exact declares_of_parts (fun _ => declares_of_memberNames) h
  · exact nomatch h

end

/-- The scopes around a place are those of constructs that cover it: a node's own, and those
within its parts. -/
theorem mem_scopesAround_iff {n : Node} {scope : Scope} : scope ∈ n.scopesAround text place ↔
    n.span.covers place = true ∧
      ((∃ k s parts, n = .group k s parts ∧ scope = ⟨s, k.declares text place parts⟩) ∨
        ∃ p ∈ n.parts, scope ∈ p.scopesAround text place) := by
  cases n with
  | group k s parts =>
      rw [scopesAround, span, Node.parts]
      split
      · next hcovers =>
          simp [hcovers, scopesAroundIn_eq, or_comm]
      · next hcovers => simp [hcovers]
  | call s callee typeArgs args =>
      rw [scopesAround, span, Node.parts]
      split
      · next hcovers =>
          simp [hcovers, scopesAroundIn_eq, or_and_right, exists_or]
      · next hcovers => simp [hcovers]
  | importDeclaration d bindings =>
      rw [scopesAround, span, Node.parts]
      split
      · next hcovers => simp [hcovers, scopesAroundIn_eq]
      · next hcovers => simp [hcovers]
  | _ => simp [scopesAround, Node.parts]

theorem exists_group_of_scopesAround {n : Node} {scope : Scope}
    (h : scope ∈ n.scopesAround text place) : ∃ k s parts, n.Has (.group k s parts) ∧
      s.covers place = true ∧ scope = ⟨s, k.declares text place parts⟩ := by
  induction n using inductOn with
  | node n ih =>
      rcases mem_scopesAround_iff.1 h with ⟨hcovers, ⟨k, s, parts, rfl, hscope⟩ | ⟨p, hp, h⟩⟩
      · exact ⟨k, s, parts, .self _, hcovers, hscope⟩
      · obtain ⟨k, s, parts, hhas, hrest⟩ := ih p hp h
        exact ⟨k, s, parts, .part hp hhas, hrest⟩

/-- What a scope around a place declares is declared by something in the tree. -/
theorem declares_of_scopesAround {n : Node} {scope : Scope}
    (hscope : scope ∈ n.scopesAround text place) (h : name ∈ scope.names) : n.Declares name := by
  obtain ⟨k, s, parts, hhas, -, rfl⟩ := exists_group_of_scopesAround hscope
  exact (declares_of_construct h).of_has hhas

/-- The scopes around a name are those of the constructs that have it. -/
theorem LaidOut.mem_scopesAround_reference {tree : Node} (h : tree.LaidOut) {s : Span}
    (hname : tree.Has (.reference s name)) {scope : Scope} :
    scope ∈ tree.scopesAround text s ↔ ∃ k place parts, tree.Has (.group k place parts) ∧
      (group k place parts).Has (.reference s name) ∧
      scope = ⟨place, k.declares text s parts⟩ := by
  constructor
  · intro hscope
    have hfilled := h.named s name hname
    obtain ⟨k, place, parts, hgroup, hcovers, rfl⟩ := exists_group_of_scopesAround hscope
    refine ⟨k, place, parts, hgroup, ?_, rfl⟩
    rcases h.has_or_apart hgroup hname rfl rfl with hhas | hhas | hapart
    · exact hhas
    · rcases hhas.cases_part with heq | ⟨p, hp, -⟩
      · exact nomatch heq
      · exact nomatch hp
    · exact absurd hapart (Span.not_apart_of_covers hcovers hfilled)
  · rintro ⟨k, place, parts, hgroup, hhas, rfl⟩
    generalize hg : Node.group k place parts = g at hgroup hhas
    induction hgroup with
    | self n =>
        exact mem_scopesAround_iff.2 ⟨h.covers hhas rfl, .inl ⟨k, place, parts, hg.symm, rfl⟩⟩
    | @part n p m hp hm ih =>
        refine mem_scopesAround_iff.2 ⟨h.covers hname rfl, .inr ⟨p, hp, ?_⟩⟩
        exact ih (h.of_part hp) (hm.trans hhas) hg hhas

/-! ## Calls of names -/

/-- Is the name that the node calls, if it calls one, declared by no scope around it? -/
def callsFreeName (tree : Node) (text : String) : Node → Bool
  | .call _ (.reference callee name) _ _ =>
      (tree.scopesAround text callee).all (!·.names.contains name)
  | _ => true

/-- The place of a call without arguments, with the place of its callee and the name that it
calls. -/
def bareCall? : Node → Option (Span × Span × String)
  | .call s (.reference callee name) [] [] => some (s, callee, name)
  | _ => none

theorem eq_of_bareCall? {n : Node} {s callee : Span} {name : String}
    (h : n.bareCall? = some (s, callee, name)) : n = .call s (.reference callee name) [] [] := by
  rw [bareCall?.eq_def] at h
  split at h
  · cases h
    rfl
  · cases h

end Node

/-! ## Imports and scopes -/

section

variable {text name : String} {tree : Node} {place : Span} {d : ImportDeclaration}

/-- The nearest of the things that a list has is behind others that are not such things. -/
theorem exists_nearest {α : Type} {P : α → Prop} {xs : List α} (h : ∃ x ∈ xs, P x) :
    ∃ nearer x further, xs = nearer ++ x :: further ∧ (∀ y ∈ nearer, ¬P y) ∧ P x := by
  induction xs with
  | nil => exact absurd h (by simp)
  | cons x xs ih =>
      by_cases hx : P x
      · exact ⟨[], x, xs, rfl, List.forall_mem_nil _, hx⟩
      · have hrest : ∃ y ∈ xs, P y := by
          simpa [hx] using h
        obtain ⟨nearer, y, further, rfl, hnearer, hy⟩ := ih hrest
        exact ⟨x :: nearer, y, further, rfl, List.forall_mem_cons.2 ⟨hx, hnearer⟩, hy⟩

theorem Node.resolvesTo_within_iff : (∃ scope, tree.ResolvesTo text place name (.within scope)) ↔
    ∃ scope ∈ tree.scopesAround text place, name ∈ scope.names := by
  constructor
  · rintro ⟨scope, hresolves⟩
    cases hresolves with
    | within hsplit _ hname =>
        exact ⟨scope, hsplit ▸ List.mem_append_right _ List.mem_cons_self, hname⟩
  · intro hshadowed
    obtain ⟨nearer, scope, further, hsplit, hnearer, hname⟩ := exists_nearest hshadowed
    exact ⟨scope, .within hsplit hnearer hname⟩

theorem Node.resolvesTo_imported_iff : tree.ResolvesTo text place name (.imported d) ↔
    d ∈ imports tree ∧ name ∈ d.locals ∧
      ¬∃ scope, tree.ResolvesTo text place name (.within scope) := by
  rw [resolvesTo_within_iff]
  constructor
  · intro hresolves
    cases hresolves with
    | imported hfree hd hname =>
        exact ⟨hd, hname, fun ⟨scope, hscope, h⟩ => hfree scope hscope h⟩
  · rintro ⟨hd, hname, hfree⟩
    exact .imported (fun scope hscope h => hfree ⟨scope, hscope, h⟩) hd hname

/-- A name that nothing but imports declares is within no scope that declares it. -/
theorem Node.not_resolvesTo_within (h : ¬tree.Declares name) {scope : Scope} :
    ¬tree.ResolvesTo text place name (.within scope) := by
  intro hresolves
  obtain ⟨scope, hscope, hname⟩ := resolvesTo_within_iff.1 ⟨scope, hresolves⟩
  exact h (declares_of_scopesAround hscope hname)

end

end Script

namespace MacroSources

open Script

variable {m : MacroSources}

theorem binding_imported {source : String} {provided : List MacroName} {n : NamedImport}
    {b : String × MacroName} (h : binding source provided n = .ok b) : n.imported = b.2.name := by
  rw [binding] at h
  split at h
  · next macroName hfind =>
      cases h
      rw [MacroName.find?] at hfind
      have hname := List.find?_some hfind
      exact (eq_of_beq hname).symm
  · cases h

theorem exists_named_of_bindingsOf {d : ImportDeclaration} {bs : Bindings}
    (h : m.bindingsOf d = .ok bs) {b : String × MacroName} (hb : b ∈ bs) :
    m.isMacroImport d = true ∧ d.typeOnly = false ∧
      ∃ n ∈ d.named, n.typeOnly = false ∧ n.localName = b.1 ∧ n.imported = b.2.name := by
  have hname := (mem_bindingsOf h).1 (List.mem_map_of_mem hb)
  refine ⟨hname.1, ?_⟩
  rw [bindingsOf] at h
  split at h
  · cases h
    cases hb
  · split at h
    · cases h
      cases hb
    · next hvalue =>
        refine ⟨Bool.eq_false_iff.2 hvalue, ?_⟩
        split at h
        · cases h
        · obtain ⟨n, hn, hbinding⟩ := (Expansion.exists_of_mapM_eq_ok h).2 b hb
          obtain ⟨hn, htype⟩ := List.mem_filter.1 hn
          exact ⟨n, hn, by simpa using htype, (binding_name hbinding).symm,
            binding_imported hbinding⟩

/-- A name is bound to a macro by an import that takes the macro by its own name. -/
theorem exists_import_of_lookup {ds : List ImportDeclaration} {bs : Bindings} {name : String}
    {macroName : MacroName} (h : m.bindings ds = .ok bs)
    (hlookup : bs.lookup name = some macroName) :
    ∃ d ∈ ds, m.isMacroImport d = true ∧ d.typeOnly = false ∧
      ∃ n ∈ d.named, n.typeOnly = false ∧ n.localName = name ∧ n.imported = macroName.name := by
  obtain ⟨before, after, hsplit, -⟩ := List.lookup_eq_some_iff.1 hlookup
  rw [bindings] at h
  cases hall : ds.mapM m.bindingsOf with
  | error e =>
      rw [hall] at h
      cases h
  | ok bss =>
      rw [hall] at h
      have hbs : bss.flatten.reverse = bs := Except.ok.inj h
      have hmem : (name, macroName) ∈ bss.flatten := by
        rw [← List.mem_reverse, hbs, hsplit]
        exact List.mem_append_right _ List.mem_cons_self
      obtain ⟨bs', hbs', hb⟩ := List.mem_flatten.1 hmem
      obtain ⟨d, hd, hbindings⟩ := (Expansion.exists_of_mapM_eq_ok hall).2 bs' hbs'
      exact ⟨d, hd, exists_named_of_bindingsOf hbindings hb⟩

end MacroSources

namespace Expansion

open Script

variable {s : Surroundings}

/-- The calls that are found in a module, and replaced in its code, are calls of names that
imports of macros bind. Such a name stands for what the import binds exactly if no scope around
the callee declares it; otherwise it stands for what the nearest such scope declares, and the
call is replaced all the same. Where the module declares the name nowhere but in imports, the
name stands for what the import binds. -/
theorem expandModule_resolves_iff {r r' : Registry} {text : String} {m : ExpandedModule}
    (h : expandModule s r text = (r', .ok (some m))) :
    ∃ tree calls, ∃ es : List Expression, ∃ x : Expansion,
      analyze s.configuration s.file text = .ok (some (tree, calls)) ∧
      es.length = calls.length ∧
      let macroImports := (imports tree).filter s.configuration.macroSources.isMacroImport
      m.code = assembled text (imports tree) macroImports (calls.zip es) x.header ∧
      ∀ c ∈ calls, ∃ d ∈ macroImports, ∃ n ∈ d.named, ∃ callee typeArgs args,
        n.imported = c.callee.name ∧ d.typeOnly = false ∧ n.typeOnly = false ∧
        tree.Has (.call c.span (.reference callee n.localName) typeArgs args) ∧
        (tree.ResolvesTo text callee n.localName (.imported d) ↔
          ∀ scope ∈ tree.scopesAround text callee, n.localName ∉ scope.names) ∧
        ((∃ scope, tree.ResolvesTo text callee n.localName (.within scope)) ↔
          ∃ scope ∈ tree.scopesAround text callee, n.localName ∈ scope.names) ∧
        (¬tree.Declares n.localName → tree.ResolvesTo text callee n.localName (.imported d)) := by
  obtain ⟨tree, calls, ems, results, x, hcalls, hmacros, hrun, -, hcode⟩ :=
    expandModule_emissions h
  obtain ⟨-, bindings, hbindings, hfound⟩ := analyze_eq_ok hcalls
  have hlength : (results.map (·.2)).length = calls.length := by
    rw [List.length_map, ← emitAll_length hrun, ← List.length_map, hmacros, List.length_map]
  refine ⟨tree, calls, results.map (·.2), x, hcalls, hlength, hcode, fun c hc => ?_⟩
  obtain ⟨callee, name, args, hsite, hcall, -⟩ := exists_site_of_found hfound hc
  obtain ⟨macroName, hlookup, heq⟩ := Option.map_eq_some_iff.1 hcall
  obtain ⟨d, hd, hprovided, hvalue, n, hn, htype, rfl, himported⟩ :=
    MacroSources.exists_import_of_lookup hbindings hlookup
  obtain ⟨typeArgs, hhas⟩ := Node.call_mem_sites.1 hsite
  have hlocal : n.localName ∈ d.locals :=
    List.mem_append_right _ (List.mem_map_of_mem hn)
  have himport : tree.ResolvesTo text callee n.localName (.imported d) ↔
      ¬∃ scope, tree.ResolvesTo text callee n.localName (.within scope) := by
    simp only [Node.resolvesTo_imported_iff, hd, hlocal, true_and]
  refine ⟨d, List.mem_filter.2 ⟨hd, hprovided⟩, n, hn, callee, typeArgs, args, ?_, hvalue, htype,
    hhas, ?_, Node.resolvesTo_within_iff, fun hdeclares => himport.2 ?_⟩
  · rw [himported, ← heq]
  · rw [himport, Node.resolvesTo_within_iff]
    exact ⟨fun hfree scope hscope hname => hfree ⟨scope, hscope, hname⟩,
      fun hfree ⟨scope, hscope, hname⟩ => hfree scope hscope hname⟩
  · exact fun ⟨_, hwithin⟩ => Node.not_resolvesTo_within hdeclares hwithin

/-- A call in two functions, of which one has a parameter and the other one is a variable. -/
theorem expandModule_resolves_nested :
    let text := "import\x7bresolveRoute as r\x7dfrom\"pages.macro\"\n" ++
      "const f=x=>\x7bconst g=()=>r();\x7d"
    ∃ tree calls, analyze aloneInProject.configuration aloneInProject.file text =
        .ok (some (tree, calls)) ∧
      calls.map (·.callee) = [.resolveRoute] ∧
      ∀ c ∈ calls, ∃ d callee name, tree.ResolvesTo text callee name (.imported d) := by
  intro text
  have hexpanded : (expandModule aloneInProject (({} : Registry).registerRoute ⟨"/p/src"⟩ "/a")
      text).2.toOption.join.isSome = true := by
    decide +kernel
  -- no callee is in a scope that declares its name
  have hfacts : (analyze aloneInProject.configuration aloneInProject.file
      text).toOption.join.map (fun a => (a.2.map (·.callee),
        a.1.nodes.all (a.1.callsFreeName text))) = some ([.resolveRoute], true) := by
    decide +kernel
  obtain ⟨r, m, hrun⟩ := exists_expanded hexpanded
  obtain ⟨tree, calls, es, x, hcalls, -, -, hresolves⟩ := expandModule_resolves_iff hrun
  rw [hcalls] at hfacts
  obtain ⟨hcallees, hfree⟩ := Prod.mk.inj (Option.some.inj hfacts)
  refine ⟨tree, calls, hcalls, hcallees, fun c hc => ?_⟩
  obtain ⟨d, -, n, -, callee, typeArgs, args, -, -, -, hhas, hiff, -⟩ := hresolves c hc
  refine ⟨d, callee, n.localName, hiff.2 fun scope hscope hname => ?_⟩
  have hscopes := List.all_eq_true.1 hfree _ (Node.mem_nodes_iff.2 hhas)
  have hscope := List.all_eq_true.1 hscopes scope hscope
  rw [List.contains_iff_mem.2 hname] at hscope
  cases hscope

/-- A call of a parameter is replaced like one of the macro that the parameter has its name
of. -/
theorem expandModule_replaces_shadowed :
    let text := "import\x7buseI18n\x7dfrom\"i18n.macro\"\nexport default(useI18n)=>useI18n()"
    let code := "import \x7b useTranslation as __pm_useTranslation \x7d from \"react-i18next\";\n" ++
      "export default(useI18n)=>__pm_useTranslation(\"src\")"
    (∃ tree call callee, analyze aloneInProject.configuration aloneInProject.file text =
        .ok (some (tree, [call])) ∧
      tree.Has (.call call.span (.reference callee "useI18n") [] []) ∧
      (∃ scope, tree.ResolvesTo text callee "useI18n" (.within scope)) ∧
      ¬∃ d, tree.ResolvesTo text callee "useI18n" (.imported d)) ∧
    (expandModule aloneInProject (({} : Registry).registerNamespace "src") text).2.toOption.join.map
      (·.code) = some code := by
  intro text code
  refine ⟨?_, by decide +kernel⟩
  have hfacts : (analyze aloneInProject.configuration aloneInProject.file
      text).toOption.join.map (fun a => (a.2.map (·.span), a.1.nodes.filterMap Node.bareCall?,
        (a.1.scopesAround text ⟨57, 64⟩).any (·.names.contains "useI18n"))) =
      some ([⟨57, 66⟩], [(⟨57, 66⟩, ⟨57, 64⟩, "useI18n")], true) := by
    decide +kernel
  rcases hcalls : analyze aloneInProject.configuration aloneInProject.file text with
    e | _ | ⟨tree, calls⟩
  · rw [hcalls] at hfacts
    cases hfacts
  · rw [hcalls] at hfacts
    cases hfacts
  · rw [hcalls] at hfacts
    obtain ⟨hspans, hfacts⟩ := Prod.mk.inj (Option.some.inj hfacts)
    obtain ⟨hcalled, hshadowed⟩ := Prod.mk.inj hfacts
    obtain ⟨call, rfl, hspan⟩ := List.map_eq_singleton_iff.1 hspans
    have hmem : (⟨57, 66⟩, ⟨57, 64⟩, "useI18n") ∈ tree.nodes.filterMap Node.bareCall? :=
      hcalled ▸ List.mem_cons_self
    obtain ⟨n, hn, hcall⟩ := List.mem_filterMap.1 hmem
    obtain ⟨scope, hscope, hname⟩ := List.any_eq_true.1 hshadowed
    have hwithin : ∃ scope, tree.ResolvesTo text ⟨57, 64⟩ "useI18n" (.within scope) :=
      Node.resolvesTo_within_iff.2 ⟨scope, hscope, List.contains_iff_mem.1 hname⟩
    refine ⟨tree, call, ⟨57, 64⟩, rfl, ?_, hwithin, fun ⟨d, himported⟩ =>
      (Node.resolvesTo_imported_iff.1 himported).2.2 hwithin⟩
    rw [hspan]
    rw [← Node.eq_of_bareCall? hcall]
    exact Node.mem_nodes_iff.1 hn

end Expansion

end SiteMacros
