import SiteMacros.Proofs.Emissions

/-!
# Captures

A name that is emitted for an import stands in the place of a call, and there it means
the import only if nothing nearer declares the same name: no emitted function around
it, and nothing that the module declares around the call. The names of new imports are
in little danger. No identifier of the module is one of them, and they do not look like
the parameters of emitted functions.

The name of an import that the module has already is used as it is, whatever is
declared around the call. It is captured if a function or a block around the call
declares it again, and the holder of translations is captured if it goes by the name
of the parameter of the function that waits for it. There is only one capture besides
(`expandModule_reaches_iff`): a new name may be declared around the call by something
that is not an identifier of the tree, as the members of an enumeration are.

What is declared around a place is for the scope rules of the language to say. Nothing
here depends on how they say it, so it is said of any rules; what functions declare as
their parameters is an instance (`Node.parametersAround`).
-/

namespace SiteMacros

open ImportScope

/-! ## Where mentions stand -/

/-- A mention in emitted code: of an import, with no function around it; of the holder
of translations, in the function that waits for it; or of a function's own
parameter. -/
inductive Mention.Usual (runtime : TranslationRuntime) (registers : Prop) : Mention → Prop where
  | outside (key : ImportKey) : Usual runtime registers ⟨.imported key, []⟩
  | waiting (h : registers) : Usual runtime registers ⟨.imported runtime.holder, ["register"]⟩
  | own (name : String) : Usual runtime registers ⟨.parameter name, [name]⟩

section

variable {runtime : TranslationRuntime} {registers : Prop}

theorem metadataMentions_usual {metadata : Option ModuleRef} :
    ∀ q ∈ metadataMentions metadata, q.Usual runtime registers := by
  cases metadata with
  | some ref => exact List.forall_mem_singleton.2 (.outside _)
  | none => exact fun _ h => nomatch h

theorem RouteComponent.mentions_usual {wrapper : RuntimeImport} {component : RouteComponent} :
    ∀ q ∈ component.mentions wrapper, q.Usual runtime registers := by
  cases component with
  | module ref =>
      rw [RouteComponent.mentions]
      split
      · exact List.forall_mem_singleton.2 (.outside _)
      · exact List.forall_mem_singleton.2 (.outside _)
  | passThrough => exact List.forall_mem_singleton.2 (.own _)
  | notImplemented => exact fun _ h => by cases h

mutual

theorem Route.mentions_usual {wrapper : RuntimeImport} (r : Route) :
    ∀ q ∈ r.mentions wrapper, q.Usual runtime registers := by
  match r with
  | ⟨_, _, _, _, _, _, component, metadata, _, children⟩ =>
      rw [Route.mentions, List.forall_mem_append, List.forall_mem_append]
      exact ⟨⟨RouteComponent.mentions_usual, metadataMentions_usual⟩,
        Route.mentionsAll_usual children⟩

theorem Route.mentionsAll_usual {wrapper : RuntimeImport} (rs : List Route) :
    ∀ q ∈ Route.mentionsAll wrapper rs, q.Usual runtime registers := by
  match rs with
  | [] => exact fun _ h => nomatch h
  | r :: rs =>
      rw [Route.mentionsAll, List.forall_mem_append]
      exact ⟨Route.mentions_usual r, Route.mentionsAll_usual rs⟩

end

mutual

theorem Menu.mentions_usual (m : Menu) : ∀ q ∈ m.mentions, q.Usual runtime registers := by
  match m with
  | ⟨_, _, _, metadata, children⟩ =>
      rw [Menu.mentions, List.forall_mem_append]
      exact ⟨metadataMentions_usual, Menu.mentionsAll_usual children⟩

theorem Menu.mentionsAll_usual (ms : List Menu) :
    ∀ q ∈ Menu.mentionsAll ms, q.Usual runtime registers := by
  match ms with
  | [] => exact fun _ h => nomatch h
  | m :: ms =>
      rw [Menu.mentionsAll, List.forall_mem_append]
      exact ⟨Menu.mentions_usual m, Menu.mentionsAll_usual ms⟩

end

theorem Translations.mentions_usual (h : registers) (t : Translations) :
    ∀ q ∈ t.mentions runtime, q.Usual runtime registers := by
  rw [Translations.mentions, List.forall_mem_append]
  constructor
  · intro q hq
    simp only [List.mem_cons, List.not_mem_nil, or_false] at hq
    rcases hq with rfl | rfl | rfl | rfl
    · exact .waiting h
    · exact .own _
    · exact .waiting h
    · exact .own _
  · intro q hq
    obtain ⟨r, -, hq⟩ := List.mem_flatMap.1 hq
    simp only [resourceMentions, List.mem_cons, List.not_mem_nil, or_false] at hq
    rcases hq with rfl | rfl <;> exact .outside _

end

/-- The translations that a subject registers. -/
def Subject.loaded : Subject → List Translations
  | .registration t => [t]
  | _ => []

/-- The translations that are registered for a call. -/
def Emission.loaded (em : Emission) : List Translations :=
  em.registrations ++ em.subject.loaded

/-- The imports that a subject needs. -/
def Subject.keys (c : Configuration) (subject : Subject) : List ImportKey :=
  (subject.mentions c).filterMap fun q =>
    match q.referent with
    | .imported key => some key
    | .parameter _ => none

theorem Subject.mem_keys {c : Configuration} {subject : Subject} {q : Mention} {key : ImportKey}
    (hq : q ∈ subject.mentions c) (hkey : q.referent = .imported key) : key ∈ subject.keys c :=
  List.mem_filterMap.2 ⟨q, hq, by rw [hkey]⟩

theorem Subject.exists_of_mem_keys {c : Configuration} {subject : Subject} {key : ImportKey}
    (h : key ∈ subject.keys c) : ∃ q ∈ subject.mentions c, q.referent = .imported key := by
  obtain ⟨q, hq, hkey⟩ := List.mem_filterMap.1 h
  refine ⟨q, hq, ?_⟩
  split at hkey
  · next hreferent => rw [hreferent, Option.some.inj hkey]
  · exact nomatch hkey

theorem Subject.eq_of_mem_loaded {subject : Subject} {t : Translations}
    (h : t ∈ subject.loaded) : subject = .registration t := by
  cases subject with
  | registration t' => rw [List.mem_singleton.1 h]
  | _ => exact nomatch h

theorem Subject.mentions_usual (c : Configuration) (subject : Subject) :
    ∀ q ∈ subject.mentions c,
      q.Usual c.translations.runtime (subject.loaded ≠ []) := by
  cases subject with
  | routes route => exact route.mentions_usual
  | menu entries => exact Menu.mentionsAll_usual entries
  | registration t => exact t.mentions_usual (List.cons_ne_nil _ _)
  | reader ns => exact List.forall_mem_singleton.2 (.outside _)
  | fixedReader ns => exact List.forall_mem_singleton.2 (.outside _)
  | path pieces => exact fun _ h => nomatch h
  | namespaces ns => exact fun _ h => nomatch h

/-! ## What a name comes down to -/

open Script

/-- The name that the scope has for a mention means what it is meant for, at a place
around which the names `declared` are declared: a parameter is one of a function around
it, and the name of an import is declared by nothing between its place and the imports
of the module. -/
def Mention.Reaches (scope : ImportScope) (declared : List String) (q : Mention) : Prop :=
  ∃ name, q.referent.name? scope = some name ∧
    match q.referent with
    | .imported _ => name ∉ q.params ∧ name ∉ declared
    | .parameter _ => name ∈ q.params

/-- All names that are emitted for a call mean what they are meant for, those of its
expression at a place around which the names `declared` are declared, and those of its
registrations below the imports. -/
def Emission.Reaches (c : Configuration) (scope : ImportScope) (declared : List String)
    (em : Emission) : Prop :=
  (∀ q ∈ em.subject.mentions c, q.Reaches scope declared) ∧
    ∀ q ∈ em.registrationMentions c, q.Reaches scope []

section

variable {base scope : ImportScope} {declared : List String} {q : Mention}
  {runtime : TranslationRuntime} {registers : Prop}

/-- A usual mention means what it is meant for unless the name of its import is declared
around it. -/
theorem Mention.Usual.reaches (husual : q.Usual runtime registers) (hgrown : Grown base scope)
    (hname : ∃ name, q.referent.name? scope = some name)
    (hdeclared : ∀ key, q.referent = .imported key → ∀ name ∈ declared,
      scope.bound.lookup key ≠ some name)
    (hregister : registers → base.bound.lookup runtime.holder ≠ some "register") :
    q.Reaches scope declared := by
  obtain ⟨name, hname⟩ := hname
  refine ⟨name, hname, ?_⟩
  cases husual with
  | outside key => exact ⟨List.not_mem_nil, fun hmem => hdeclared key rfl name hmem hname⟩
  | own name' =>
      cases hname
      exact List.mem_singleton.2 rfl
  | waiting h =>
      refine ⟨fun hmem => ?_, fun hmem => hdeclared _ rfl name hmem hname⟩
      rw [List.mem_singleton.1 hmem] at hname
      rcases hgrown.lookup_cases hname with hbase | ⟨-, -, -, hint, n, hcandidate⟩
      · exact hregister h hbase
      · exact candidate_ne_register hint n hcandidate.symm

/-- The name of an import that reaches it is declared by nothing around it. -/
theorem Mention.Reaches.not_mem {key : ImportKey} {name : String} (h : q.Reaches scope declared)
    (hkey : q.referent = .imported key) (hname : scope.bound.lookup key = some name) :
    name ∉ q.params ∧ name ∉ declared := by
  obtain ⟨name', hname', hfree⟩ := h
  rw [hkey] at hname' hfree
  rw [Option.some.inj (hname.symm.trans hname')]
  exact hfree

/-- What is emitted for a call means what it is meant for exactly if no name that is
declared around the call is that of an import it needs, whether an old one, or a new
one, which is possible only if the name is not taken; and, if translations are
registered, the old import of their holder is not called `register`. -/
theorem Emission.reaches_iff {c : Configuration} {em : Emission}
    {result : List Expression × Expression} (hgrown : Grown base scope)
    (hspelled : em.Spelled c scope result) :
    em.Reaches c scope declared ↔
      (∀ key ∈ em.subject.keys c, ∀ name ∈ declared, base.bound.lookup key ≠ some name ∧
        (name ∉ base.taken → scope.bound.lookup key ≠ some name)) ∧
      (em.loaded ≠ [] → base.bound.lookup c.translations.runtime.holder ≠ some "register") := by
  constructor
  · rintro ⟨hsubject, hregistrations⟩
    constructor
    · intro key hkey name hmem
      obtain ⟨q, hq, hkey⟩ := Subject.exists_of_mem_keys hkey
      have hfree : scope.bound.lookup key ≠ some name := fun hname =>
        ((hsubject q hq).not_mem hkey hname).2 hmem
      exact ⟨fun hbase => hfree (hgrown.lookup hbase), fun _ => hfree⟩
    · intro hloaded hbase
      obtain ⟨t, ht⟩ := List.exists_mem_of_ne_nil _ hloaded
      let waiting : Mention := ⟨.imported c.translations.runtime.holder, ["register"]⟩
      have hwaiting : waiting ∈ t.mentions c.translations.runtime := List.mem_cons_self
      have hreaches : ∃ declared, waiting.Reaches scope declared := by
        rcases List.mem_append.1 ht with ht | ht
        · exact ⟨[], hregistrations _ (List.mem_flatMap.2 ⟨t, ht, hwaiting⟩)⟩
        · rw [Subject.eq_of_mem_loaded ht] at hsubject
          exact ⟨declared, hsubject _ hwaiting⟩
      obtain ⟨_, hreaches⟩ := hreaches
      exact (hreaches.not_mem rfl (hgrown.lookup hbase)).1 (List.mem_singleton.2 rfl)
  · rintro ⟨hdeclared, hregister⟩
    have hfree : ∀ key ∈ em.subject.keys c, ∀ name ∈ declared,
        scope.bound.lookup key ≠ some name := by
      intro key hkey name hmem hname
      obtain ⟨hold, hnew⟩ := hdeclared key hkey name hmem
      rcases hgrown.lookup_cases hname with hbase | ⟨-, -, hfree, -⟩
      · exact hold hbase
      · exact hnew hfree hname
    constructor
    · intro q hq
      refine (em.subject.mentions_usual c q hq).reaches hgrown
        (hspelled.subject.exists_name hq) ?_ fun hloaded => hregister ?_
      · exact fun key hkey => hfree key (Subject.mem_keys hq hkey)
      · exact List.append_ne_nil_of_right_ne_nil _ hloaded
    · intro q hq
      obtain ⟨t, ht, hqt⟩ := List.mem_flatMap.1 hq
      have hloaded : em.loaded ≠ [] := List.ne_nil_of_mem (List.mem_append_left _ ht)
      exact (t.mentions_usual hloaded q hqt).reaches hgrown
        (hspelled.registrations.exists_name hq) (fun _ _ _ h => nomatch h) hregister

end

/-! ## Parameters around a place -/

namespace Script

/-- Is the construct a part of what stands in the place of a parameter? -/
def Construct.isPattern : Construct → Bool
  | .parameters | .parameter | .default | .rest | .pair | .arrayPattern | .objectPattern => true
  | _ => false

mutual

/-- The names that a parameter declares, or a pattern in its place. -/
def Node.declaredNames : Node → List String
  | .binding _ name => [name]
  | .group k _ parts => if k.isPattern then declaredNamesIn parts else []
  | _ => []

def declaredNamesIn : List Node → List String
  | [] => []
  | n :: ns => n.declaredNames ++ declaredNamesIn ns

end

/-- The names that the parameters of a function declare. -/
def parametersOf : List Node → List String
  | [] => []
  | n :: ns => (if n.is .parameters then n.declaredNames else []) ++ parametersOf ns

mutual

/-- The names that the functions around a place declare as their parameters. -/
def Node.parametersAround (place : Span) : Node → List String
  | .group k s parts =>
      if s.covers place then
        (if k = .function ∨ k = .arrow then parametersOf parts else []) ++
          parametersAroundIn place parts
      else []
  | .call s callee typeArgs args =>
      if s.covers place then
        callee.parametersAround place ++ parametersAroundIn place typeArgs ++
          parametersAroundIn place args
      else []
  | _ => []

def parametersAroundIn (place : Span) : List Node → List String
  | [] => []
  | n :: ns => n.parametersAround place ++ parametersAroundIn place ns

end

/-- The names that nodes declare or refer to. -/
def identifiersIn (ns : List Node) : List String :=
  (sitesOf ns).filterMap (·.name?)

theorem append_subset_append {as as' bs bs' : List String} (h : as ⊆ as') (h' : bs ⊆ bs') :
    as ++ bs ⊆ as' ++ bs' :=
  List.append_subset.2
    ⟨List.subset_append_of_subset_left _ h, List.subset_append_of_subset_right _ h'⟩

theorem identifiersIn_cons (n : Node) (ns : List Node) :
    identifiersIn (n :: ns) = identifiers n ++ identifiersIn ns := by
  rw [identifiersIn, sitesOf, List.filterMap_append]
  rfl

/-- A call has the names of its parts. -/
theorem identifiers_call (s : Span) (callee : Node) (typeArgs args : List Node) :
    identifiers (.call s callee typeArgs args) =
      identifiers callee ++ identifiersIn typeArgs ++ identifiersIn args := by
  cases callee <;> simp [identifiers, identifiersIn, Node.sites, Site.name?]

mutual

theorem Node.declaredNames_subset (n : Node) : n.declaredNames ⊆ identifiers n := by
  match n with
  | .binding _ name => exact List.Subset.refl _
  | .group k _ parts =>
      rw [Node.declaredNames]
      split
      · exact declaredNamesIn_subset parts
      · exact List.nil_subset _
  | .reference .. | .string .. | .word .. | .call .. | .importDeclaration .. =>
      exact List.nil_subset _

theorem declaredNamesIn_subset (ns : List Node) : declaredNamesIn ns ⊆ identifiersIn ns := by
  match ns with
  | [] => exact List.nil_subset _
  | n :: ns =>
      rw [declaredNamesIn, identifiersIn_cons]
      exact append_subset_append n.declaredNames_subset (declaredNamesIn_subset ns)

end

theorem parametersOf_subset (ns : List Node) : parametersOf ns ⊆ identifiersIn ns := by
  induction ns with
  | nil => exact List.nil_subset _
  | cons n ns ih =>
      rw [parametersOf, identifiersIn_cons]
      refine append_subset_append ?_ ih
      split
      · exact n.declaredNames_subset
      · exact List.nil_subset _

mutual

theorem Node.parametersAround_subset (place : Span) (n : Node) :
    n.parametersAround place ⊆ identifiers n := by
  match n with
  | .group k s parts =>
      rw [Node.parametersAround]
      split
      · refine List.append_subset.2 ⟨?_, parametersAroundIn_subset place parts⟩
        split
        · exact parametersOf_subset parts
        · exact List.nil_subset _
      · exact List.nil_subset _
  | .call s callee typeArgs args =>
      rw [Node.parametersAround, identifiers_call]
      split
      · refine append_subset_append (append_subset_append ?_ ?_) ?_
        · exact callee.parametersAround_subset place
        · exact parametersAroundIn_subset place typeArgs
        · exact parametersAroundIn_subset place args
      · exact List.nil_subset _
  | .binding .. | .reference .. | .string .. | .word .. | .importDeclaration .. =>
      exact List.nil_subset _

theorem parametersAroundIn_subset (place : Span) (ns : List Node) :
    parametersAroundIn place ns ⊆ identifiersIn ns := by
  match ns with
  | [] => exact List.nil_subset _
  | n :: ns =>
      rw [parametersAroundIn, identifiersIn_cons]
      exact append_subset_append (n.parametersAround_subset place)
        (parametersAroundIn_subset place ns)

end

end Script

namespace Expansion

variable {s : Surroundings}

/-- What an expanded module has in the place of its calls and below its imports, with
what each name in it is meant for. The names are those of imports that the module has,
or of new ones, which the header declares and no identifier of the module is called by.
Whatever is declared around the calls, the names emitted for a call mean what they are
meant for exactly if none declared around it is that of an import that the call needs
and the module has, nor, without being an identifier of the module, that of a new one;
and, if translations are registered, the module has not imported their holder as
`register`. -/
theorem expandModule_reaches_iff {r r' : Registry} {text : String} {m : ExpandedModule}
    (h : expandModule s r text = (r', .ok (some m))) :
    ∃ tree calls, ∃ ems : List Emission, ∃ results, ∃ x : Expansion,
      analyze s.configuration s.file text = .ok (some (tree, calls)) ∧
      let c := s.configuration
      let ds := imports tree
      let macroImports := ds.filter c.macroSources.isMacroImport
      let kept := ds.filter (!c.macroSources.isMacroImport ·)
      let own := ImportScope.ofModule (identifiers tree) kept
      ems.map (·.subject.macroName) = calls.map (·.callee) ∧
      (ems.mapM (Emission.emit c)).run own = (results, x.scope) ∧
      x.prelude = results.flatMap (·.1) ∧
      m.code = assembled text ds macroImports (calls.zip (results.map (·.2))) x.header ∧
      List.Forall₂ (Emission.Spelled c x.scope) ems results ∧
      (∀ key name, x.scope.bound.lookup key = some name →
        (key, name) ∈ kept.flatMap (·.bindings) ∨
          ⟨key, name⟩ ∈ x.scope.added ∧ name ∉ identifiers tree) ∧
      ∀ around : Span → List String, ∀ p ∈ calls.zip ems,
        p.2.Reaches c x.scope (around p.1.span) ↔
          (∀ key ∈ p.2.subject.keys c, ∀ name ∈ around p.1.span,
            own.bound.lookup key ≠ some name ∧
            (name ∉ identifiers tree → x.scope.bound.lookup key ≠ some name)) ∧
          (p.2.loaded ≠ [] → own.bound.lookup c.translations.runtime.holder ≠ some "register") := by
  obtain ⟨tree, calls, ems, results, x, hcalls, hmacros, hrun, hprelude, hcode⟩ :=
    expandModule_emissions h
  refine ⟨tree, calls, ems, results, x, hcalls, ?_⟩
  dsimp only at hrun hcode ⊢
  generalize hown : ImportScope.ofModule _ _ = own at hrun ⊢
  have hemits := emitAll_spelled s.configuration ems
  have hgrown := hemits.grown own
  have hspelled := hemits.holds (.refl ((ems.mapM (Emission.emit s.configuration)).run own).2)
  rw [hrun] at hgrown hspelled
  have htaken : own.taken = identifiers tree := by
    rw [← hown]
    rfl
  refine ⟨hmacros, hrun, hprelude, hcode, hspelled, ?_, ?_⟩
  · intro key name hname
    rcases hgrown.lookup_cases hname with hbase | ⟨-, hadded, hfree, -⟩
    · rw [← hown] at hbase
      exact .inl (mem_of_lookup_ofModule hbase)
    · rw [htaken] at hfree
      exact .inr ⟨hadded, hfree⟩
  · intro around p hp
    obtain ⟨result, hresult⟩ := exists_of_forall₂ hspelled (List.of_mem_zip hp).2
    rw [← htaken]
    exact Emission.reaches_iff hgrown hresult

/-- A hook that the module imports, called within a function with another parameter. -/
theorem expandModule_reaches_hook :
    let text := "import\x7buseTranslation\x7dfrom\"react-i18next\"\n" ++
      "import\x7buseI18n as u\x7dfrom\"i18n.macro\"\nexport default(x)=>u()"
    ∃ tree calls, ∃ ems : List Emission, ∃ scope : ImportScope,
      analyze aloneInProject.configuration aloneInProject.file text =
        .ok (some (tree, calls)) ∧
      ems.map (·.subject.macroName) = [.useTranslations] ∧
      ∀ p ∈ calls.zip ems,
        p.2.Reaches aloneInProject.configuration scope (tree.parametersAround p.1.span) := by
  intro text
  let kept (tree : Node) := (imports tree).filter
    (!aloneInProject.configuration.macroSources.isMacroImport ·)
  have hexpanded : (expandModule aloneInProject (({} : Registry).registerNamespace "src")
      text).2.toOption.join.isSome = true := by
    decide +kernel
  -- the one import that is kept goes by another name than the parameter
  have hnames : (analyze aloneInProject.configuration aloneInProject.file
      text).toOption.join.map (fun a => (a.2.map (·.callee), a.2.all fun call =>
        ((kept a.1).flatMap (·.bindings)).all fun b =>
          b.2 != "register" && !(a.1.parametersAround call.span).contains b.2)) =
      some ([.useTranslations], true) := by
    decide +kernel
  rcases hrun : expandModule aloneInProject (({} : Registry).registerNamespace "src")
    text with ⟨r, e | _ | m⟩
  · rw [hrun] at hexpanded
    exact nomatch hexpanded
  · rw [hrun] at hexpanded
    exact nomatch hexpanded
  · obtain ⟨tree, calls, ems, results, x, hcalls, hmacros, -, -, -, -, -, hreaches⟩ :=
      expandModule_reaches_iff hrun
    rw [hcalls] at hnames
    obtain ⟨hcallees, hnames⟩ := Prod.mk.inj (Option.some.inj hnames)
    refine ⟨tree, calls, ems, x.scope, hcalls, hmacros.trans hcallees, fun p hp => ?_⟩
    have hfree : ∀ {key name}, (ImportScope.ofModule (identifiers tree) (kept tree)).bound.lookup
        key = some name → name ≠ "register" ∧ name ∉ tree.parametersAround p.1.span := by
      intro key name hname
      have hcall := List.all_eq_true.1 hnames p.1 (List.of_mem_zip hp).1
      have hb := List.all_eq_true.1 hcall (key, name) (mem_of_lookup_ofModule hname)
      simpa using hb
    refine (hreaches tree.parametersAround p hp).2 ⟨fun key _ name hname => ⟨?_, ?_⟩, ?_⟩
    · exact fun hown => (hfree hown).2 hname
    · exact fun hnot => absurd (tree.parametersAround_subset _ hname) hnot
    · exact fun _ hregister => (hfree hregister).1 rfl

/-- The places where a module calls something by a name. -/
def callsOf (name : String) (tree : Node) : List Span :=
  tree.sites.filterMap fun
    | .call span _ name' _ => if name' = name then some span else none
    | _ => none

/-- A hook that the module imports is captured by a parameter around the call: in the
code, the hook's name is called within a function that has a parameter of this name. -/
theorem expandModule_captures_hook :
    let text := "import\x7buseTranslation\x7dfrom\"react-i18next\"\n" ++
      "import\x7buseI18n as u\x7dfrom\"i18n.macro\"\nexport default(useTranslation)=>u()"
    let code := "import\x7buseTranslation\x7dfrom\"react-i18next\"\n" ++
      "export default(useTranslation)=>useTranslation(\"src\")"
    (expandModule aloneInProject (({} : Registry).registerNamespace "src") text).2.toOption.join.map
        (·.code) = some code ∧
      (parse (.ofPath aloneInProject.file) code).toOption.map (fun tree =>
        (callsOf "useTranslation" tree).map tree.parametersAround) = some [["useTranslation"]] := by
  decide +kernel

end Expansion

end SiteMacros
