import Mathlib.Data.List.Forall2
import SiteMacros.Emission
import SiteMacros.Proofs.Requests

/-!
# Mentions

A name in emitted code is there for something: for an import that the code needs, or
for a parameter of a function that is emitted along with it. The expression has only
the names. What each of them is meant for is known to the rule that emits it, and is
written down here beside the rule, as a list of mentions in the order in which the
names stand (`Route.mentions` and its like).

That the rules keep to these lists is one statement with a case for each rule
(`Emits`, `Spelled`): whatever scope an emission starts from, it does nothing to it
but ask for imports, and each name of its expression is the one that the scope has for
the mention, then and after all further requests. So it does not matter in which order
the names are asked for, and the names of a whole module can be read off the scope
that is there in the end.
-/

namespace SiteMacros

/-- What a name in emitted code is meant for. -/
inductive Referent where
  | imported (key : ImportKey)
  /-- A parameter of an emitted function. -/
  | parameter (name : String)
  deriving DecidableEq, Repr

/-- The name of what is meant, if there is one. -/
def Referent.name? (scope : ImportScope) : Referent → Option String
  | .imported key => scope.bound.lookup key
  | .parameter name => some name

/-- A place for a name in emitted code: what the name is meant for, and what the
emitted functions around it declare as their parameters. -/
structure Mention where
  referent : Referent
  params : List String := []
  deriving DecidableEq, Repr

/-- A name in an expression, with what the functions around it declare. -/
structure Occurrence where
  name : String
  params : List String
  deriving DecidableEq, Repr

namespace Expression

/-- The names that a parameter declares: the parameter itself, or what stands in the
braces of a pattern. -/
def parameterNames (param : String) : List String :=
  (Text.split ' ' param).filter fun word => word ≠ "\x7b" && word ≠ "\x7d"

mutual

/-- The names in an expression, in order. -/
def names (params : List String) : Expression → List Occurrence
  | .name text => [⟨text, params⟩]
  | .array items => namesAll params items
  | .object properties => namesOfProperties params properties
  | .member e _ => names params e
  | .call callee args => names params callee ++ namesAll params args
  | .arrow ps body => names (ps.flatMap parameterNames ++ params) body
  | .arrowBlock ps statements => namesAll (ps.flatMap parameterNames ++ params) statements
  | .conditional test consequent alternate =>
      names params test ++ names params consequent ++ names params alternate
  | .template parts => namesOfParts params parts
  | .string _ | .bool _ | .null | .undefined | .source _ | .dynamicImport _ => []

def namesAll (params : List String) : List Expression → List Occurrence
  | [] => []
  | e :: es => names params e ++ namesAll params es

def namesOfProperties (params : List String) : List (String × Expression) → List Occurrence
  | [] => []
  | (_, e) :: ps => names params e ++ namesOfProperties params ps

def namesOfParts (params : List String) : List TemplatePart → List Occurrence
  | [] => []
  | .text _ :: ps => namesOfParts params ps
  | .hole e :: ps => names params e ++ namesOfParts params ps

end

end Expression

/-! ## What each rule mentions -/

namespace RouteComponent

def mentions (wrapper : RuntimeImport) : RouteComponent → List Mention
  | .module ref =>
      if ref.sync then [⟨.imported ⟨ref.specifier, .default⟩, []⟩]
      else [⟨.imported ⟨wrapper.source, .named wrapper.name⟩, []⟩]
  | .passThrough => [⟨.parameter "children", ["children"]⟩]
  | .notImplemented => []

end RouteComponent

def metadataMentions : Option ModuleRef → List Mention
  | some ref => [⟨.imported ⟨ref.specifier, .default⟩, []⟩]
  | none => []

namespace Route

mutual

def mentions (wrapper : RuntimeImport) : Route → List Mention
  | ⟨_, _, _, _, _, _, component, metadata, _, children⟩ =>
      component.mentions wrapper ++ metadataMentions metadata ++ mentionsAll wrapper children

def mentionsAll (wrapper : RuntimeImport) : List Route → List Mention
  | [] => []
  | r :: rs => mentions wrapper r ++ mentionsAll wrapper rs

end

end Route

namespace Menu

mutual

def mentions : Menu → List Mention
  | ⟨_, _, _, metadata, children⟩ => metadataMentions metadata ++ mentionsAll children

def mentionsAll : List Menu → List Mention
  | [] => []
  | m :: ms => mentions m ++ mentionsAll ms

end

end Menu

namespace TranslationRuntime

/-- The import that holds the translations. -/
def holder (runtime : TranslationRuntime) : ImportKey :=
  ⟨runtime.instanceSource, .default⟩

/-- The import that components read translations with. -/
def reader (runtime : TranslationRuntime) : ImportKey :=
  ⟨runtime.hook.source, .named runtime.hook.name⟩

end TranslationRuntime

namespace Translations

def resourceMentions (runtime : TranslationRuntime) (r : Resource) : List Mention :=
  [⟨.imported runtime.holder, []⟩, ⟨.imported ⟨r.specifier, .default⟩, []⟩]

/-- The function that waits for the holder declares `register`, and mentions the holder
inside. -/
def mentions (runtime : TranslationRuntime) (t : Translations) : List Mention :=
  [⟨.imported runtime.holder, ["register"]⟩, ⟨.parameter "register", ["register"]⟩,
    ⟨.imported runtime.holder, ["register"]⟩, ⟨.parameter "register", ["register"]⟩] ++
    t.resources.flatMap (resourceMentions runtime)

end Translations

/-! ## Scopes after requests -/

namespace ImportScope

/-- The scope has come from `base` by requests. -/
def Grown (base scope : ImportScope) : Prop :=
  ∃ new, Since base new scope ∧ ∀ i ∈ new, ∃ hint n, i.localName = candidate hint n

namespace Grown

variable {base scope later : ImportScope} {key : ImportKey} {name : String}

theorem refl (scope : ImportScope) : Grown scope scope :=
  ⟨[], .refl scope, fun _ h => absurd h List.not_mem_nil⟩

theorem trans (h : Grown base scope) (h' : Grown scope later) : Grown base later := by
  obtain ⟨new, hsince, hnew⟩ := h
  obtain ⟨more, hmore, hnames⟩ := h'
  refine ⟨new ++ more, hsince.trans hmore, fun i hi => ?_⟩
  rcases List.mem_append.1 hi with hi | hi
  · exact hnew i hi
  · exact hnames i hi

/-- A name that has been given stays. -/
theorem lookup (h : Grown base scope) (hbase : base.bound.lookup key = some name) :
    scope.bound.lookup key = some name := by
  obtain ⟨new, hsince, -⟩ := h
  exact hsince.lookup_of_base hbase

/-- A name that the scope has is an old one, or that of a new import: then it is one of
the candidates, and was not in use. -/
theorem lookup_cases (h : Grown base scope) (hscope : scope.bound.lookup key = some name) :
    base.bound.lookup key = some name ∨
      base.bound.lookup key = none ∧ ⟨key, name⟩ ∈ scope.added ∧ name ∉ base.taken ∧
        ∃ hint n, name = candidate hint n := by
  obtain ⟨new, hsince, hnew⟩ := h
  rcases hsince.lookup_cases hscope with hbase | hmem
  · exact .inl hbase
  · refine .inr ⟨hsince.unbound _ hmem, ?_, hsince.free _ hmem, hnew _ hmem⟩
    rw [hsince.added]
    exact List.mem_append_right _ hmem

end Grown

theorem request_grown (scope : ImportScope) (key : ImportKey) (hint : String) :
    Grown scope (scope.request key hint).2 := by
  cases hbound : scope.bound.lookup key with
  | some name =>
      rw [request_of_bound hbound]
      exact .refl scope
  | none =>
      obtain ⟨-, hsince⟩ := request_of_unbound hint hbound
      obtain ⟨n, hfresh, -⟩ := fresh_eq_first scope.taken hint
      refine ⟨_, hsince, fun i hi => ⟨hint, n, ?_⟩⟩
      rw [List.mem_singleton.1 hi]
      exact hfresh

/-- No candidate is the parameter of the function that waits. -/
theorem candidate_ne_register (hint : String) (n : Nat) : candidate hint n ≠ "register" := by
  intro heq
  have hfirst : (candidate hint n).toList.head? = some '_' := by
    rw [candidate]
    split <;> simp
  rw [heq] at hfirst
  exact absurd hfirst (by decide)

end ImportScope

/-! ## Emissions -/

open ImportScope

variable {α β : Type}

/-- The step only asks for imports, and `P` holds of its result in the scope after it
and in every scope that comes of further requests. -/
structure Emits (m : StateM ImportScope α) (P : ImportScope → α → Prop) : Prop where
  grown (scope : ImportScope) : Grown scope (m.run scope).2
  holds {scope later : ImportScope} (h : Grown (m.run scope).2 later) : P later (m.run scope).1

namespace Emits

variable {P : ImportScope → α → Prop} {Q : ImportScope → β → Prop}

theorem pure {a : α} (h : ∀ later, P later a) : Emits (Pure.pure a) P where
  grown scope := .refl scope
  holds _ := h _

/-- The second step may rely on what the first has settled. -/
theorem bind {m : StateM ImportScope α} {f : α → StateM ImportScope β} (hm : Emits m P)
    (hf : ∀ a, Emits (f a) fun later b => P later a → Q later b) : Emits (m >>= f) Q where
  grown scope := (hm.grown scope).trans ((hf _).grown _)
  holds {scope _} h :=
    (hf (m.run scope).1).holds h (hm.holds (((hf (m.run scope).1).grown _).trans h))

/-- What a run from one scope to another has come to. -/
theorem of_run {m : StateM ImportScope α} (hm : Emits m P) {scope later : ImportScope} {a : α}
    (h : m.run scope = (a, later)) : Grown scope later ∧ P later a := by
  have hgrown := hm.grown scope
  have hholds := hm.holds (.refl (m.run scope).2)
  rw [h] at hgrown hholds
  exact ⟨hgrown, hholds⟩

theorem imp {P' : ImportScope → α → Prop} {m : StateM ImportScope α} (hm : Emits m P)
    (h : ∀ later a, P later a → P' later a) : Emits m P' where
  grown := hm.grown
  holds hlater := h _ _ (hm.holds hlater)

theorem requestDefault (source hint : String) :
    Emits (ImportScope.requestDefault source hint) fun later name =>
      later.bound.lookup ⟨source, .default⟩ = some name where
  grown scope := scope.request_grown _ hint
  holds {scope _} h := h.lookup (scope.lookup_request _ hint)

theorem requestNamed (source name : String) :
    Emits (ImportScope.requestNamed source name) fun later localName =>
      later.bound.lookup ⟨source, .named name⟩ = some localName where
  grown scope := scope.request_grown _ name
  holds {scope _} h := h.lookup (scope.lookup_request _ name)

end Emits

/-- Steps one after the other come to results with each of which `P` holds. -/
theorem Emits.mapM {f : α → StateM ImportScope β} {P : ImportScope → α → β → Prop}
    (h : ∀ a, Emits (f a) fun later b => P later a b) (as : List α) :
    Emits (as.mapM f) fun later bs => List.Forall₂ (P later) as bs := by
  induction as with
  | nil => exact .pure fun _ => .nil
  | cons a as ih =>
      rw [List.mapM_cons]
      refine .bind (h a) fun b => .bind ih fun bs => ?_
      exact .pure fun _ hrest hfirst => .cons hfirst hrest

theorem exists_of_forall₂ {R : α → β → Prop} {as : List α} {bs : List β}
    (h : List.Forall₂ R as bs) {a : α} (ha : a ∈ as) : ∃ b, R a b := by
  induction h with
  | nil => cases ha
  | @cons _ b _ _ hfirst _ ih =>
      rcases List.mem_cons.1 ha with rfl | ha
      · exact ⟨b, hfirst⟩
      · exact ih ha

/-- The names are those that the scope has for the mentions, at the same places. -/
def Spelled (scope : ImportScope) : List Mention → List Occurrence → Prop :=
  List.Forall₂ fun q o => q.referent.name? scope = some o.name ∧ q.params = o.params

namespace Spelled

variable {scope : ImportScope} {qs qs' : List Mention} {os os' : List Occurrence}

theorem nil : Spelled scope [] [] :=
  List.Forall₂.nil

theorem cons {q : Mention} {o : Occurrence} (hname : q.referent.name? scope = some o.name)
    (hparams : q.params = o.params) (h : Spelled scope qs os) :
    Spelled scope (q :: qs) (o :: os) :=
  List.Forall₂.cons ⟨hname, hparams⟩ h

theorem append (h : Spelled scope qs os) (h' : Spelled scope qs' os') :
    Spelled scope (qs ++ qs') (os ++ os') :=
  List.rel_append h h'

/-- Every mention has a name. -/
theorem exists_name (h : Spelled scope qs os) {q : Mention} (hq : q ∈ qs) :
    ∃ name, q.referent.name? scope = some name := by
  obtain ⟨o, hname, -⟩ := exists_of_forall₂ h hq
  exact ⟨o.name, hname⟩

end Spelled

/-- One name for one import, with no function around it. -/
theorem spelled_import {scope : ImportScope} {key : ImportKey} {name : String}
    (h : scope.bound.lookup key = some name) :
    Spelled scope [⟨.imported key, []⟩] [⟨name, []⟩] :=
  .cons h rfl .nil

theorem RouteComponent.emits (wrapper : RuntimeImport) (c : RouteComponent) :
    Emits (c.emit wrapper) fun later e => Spelled later (c.mentions wrapper) (e.names []) := by
  cases c with
  | module ref =>
      rw [RouteComponent.emit, RouteComponent.mentions]
      split
      · exact .bind (.requestDefault _ _) fun name => .pure fun _ h => spelled_import h
      · exact .bind (.requestNamed _ _) fun name => .pure fun _ h => spelled_import h
  | passThrough => exact .pure fun _ => .cons rfl (by decide) .nil
  | notImplemented => exact .pure fun _ => .nil

theorem emitMetadata_emits (metadata : Option ModuleRef) :
    Emits (emitMetadata metadata) fun later e =>
      Spelled later (metadataMentions metadata) (e.names []) := by
  cases metadata with
  | some ref => exact .bind (.requestDefault _ _) fun name => .pure fun _ h => spelled_import h
  | none => exact .pure fun _ => .nil

namespace Route

open Expression

mutual

theorem emits (wrapper : RuntimeImport) (r : Route) :
    Emits (r.emit wrapper) fun later e => Spelled later (r.mentions wrapper) (e.names []) := by
  match r with
  | ⟨id, name, path, exact, isMenuItem, sync, component, metadata, translations, children⟩ =>
      refine .bind (emitsAll wrapper children) fun childExprs => ?_
      refine .bind (component.emits wrapper) fun componentExpr => ?_
      refine .bind (emitMetadata_emits metadata) fun metadataExpr => .pure fun later => ?_
      intro hmetadata hcomponent hchildren
      have hall := (hcomponent.append hmetadata).append hchildren
      simpa [mentions, names, namesOfProperties, List.append_assoc] using hall

theorem emitsAll (wrapper : RuntimeImport) (rs : List Route) :
    Emits (emitAll wrapper rs) fun later es =>
      Spelled later (mentionsAll wrapper rs) (namesAll [] es) := by
  match rs with
  | [] => exact .pure fun _ => .nil
  | r :: rs =>
      refine .bind (emits wrapper r) fun e => .bind (emitsAll wrapper rs) fun es => ?_
      exact .pure fun _ hrest hfirst => hfirst.append hrest

end

end Route

namespace Menu

open Expression

mutual

theorem emits (m : Menu) :
    Emits m.emit fun later e => Spelled later m.mentions (e.names []) := by
  match m with
  | ⟨id, name, path, metadata, children⟩ =>
      refine .bind (emitMetadata_emits metadata) fun metadataExpr => ?_
      refine .bind (emitsAll children) fun childExprs => .pure fun later => ?_
      intro hchildren hmetadata
      have hall := hmetadata.append hchildren
      simpa [mentions, names, namesOfProperties] using hall

theorem emitsAll (ms : List Menu) :
    Emits (emitAll ms) fun later es => Spelled later (mentionsAll ms) (namesAll [] es) := by
  match ms with
  | [] => exact .pure fun _ => .nil
  | m :: ms =>
      refine .bind (emits m) fun e => .bind (emitsAll ms) fun es => ?_
      exact .pure fun _ hrest hfirst => hfirst.append hrest

end

end Menu

namespace Translations

open Expression

variable (runtime : TranslationRuntime)

theorem emitResources_emits (holder id : String) (rs : List Resource) :
    Emits (rs.mapM (emitResource (.name holder) id)) fun later es =>
      later.bound.lookup runtime.holder = some holder →
        Spelled later (rs.flatMap (resourceMentions runtime)) (namesAll [] es) := by
  induction rs with
  | nil => exact .pure fun _ _ => .nil
  | cons r rs ih =>
      have hfirst : Emits (emitResource (.name holder) id r) fun later e =>
          later.bound.lookup runtime.holder = some holder →
            Spelled later (resourceMentions runtime r) (e.names []) :=
        .bind (.requestDefault _ _) fun bundle => .pure fun _ hbundle hholder =>
          .cons hholder rfl (spelled_import hbundle)
      rw [List.mapM_cons]
      refine .bind hfirst fun e => .bind ih fun es => .pure fun later => ?_
      intro hrest hfirst hholder
      exact (hfirst hholder).append (hrest hholder)

theorem emits (t : Translations) :
    Emits (t.emit runtime) fun later e => Spelled later (t.mentions runtime) (e.names []) := by
  refine .bind (.requestDefault _ _) fun holder => ?_
  refine .bind (emitResources_emits runtime holder t.id t.resources) fun adds => ?_
  refine .pure fun later hadds hholder => ?_
  have hguard : (["register"].flatMap parameterNames ++ [] : List String) = ["register"] := by
    decide
  have hblock := hadds hholder
  simp only [names, namesAll, hguard, List.flatMap_nil, List.nil_append, List.append_nil,
    List.cons_append]
  exact .cons hholder rfl (.cons rfl rfl (.cons hholder rfl (.cons rfl rfl hblock)))

end Translations

end SiteMacros
