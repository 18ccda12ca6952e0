import SiteMacros.Proofs.Openings
import SiteMacros.Proofs.ReadExpressions

/-!
# Emitted code is read back

An expression that is emitted and the text that it is rendered as say the same. What comes of route
trees, menus, translations and namespaces has the forms that are read (`Subject.emits_readable`),
as long as the names that the scope hands out are names. In the scopes that a module's imports lead
to (`ImportScope.Reached`) they are, and so the text is read as the expression
(`Subject.reads_back`).
-/

namespace SiteMacros

open Expression Script

/-! ## What is emitted -/

instance (k : String) : Decidable (IsKey k) :=
  inferInstanceAs (Decidable (IsWord k ∧ key k = k))

/-- The properties of what is emitted have names that stand without quotes. -/
theorem emitted_keys : ∀ k ∈ ["id", "name", "path", "exact", "isMenuItem", "sync", "component",
    "meta", "children"], IsKey k := by
  decide

theorem RouteComponent.emits_readable (wrapper : RuntimeImport) (component : RouteComponent) :
    Emits (component.emit wrapper) fun later e =>
      later.IsNamed → e.Readable := by
  cases component with
  | module ref =>
      rw [RouteComponent.emit]
      split
      · exact .bind (.requestDefault _ _) fun name => .pure fun _ h hnamed => .name (hnamed _ _ h)
      · refine .bind (.requestNamed _ _) fun wrap => .pure fun _ h hnamed => ?_
        refine .callName (hnamed _ _ h) (fun _ => .arrow [] _) (List.forall_mem_singleton.2 ?_)
        exact .arrow (List.forall_mem_nil _) rfl (.dynamicImport ref.specifier)
  | passThrough =>
      refine .pure fun _ _ => .arrow (List.forall_mem_singleton.2 (.inr rfl)) rfl (.name ?_)
      decide
  | notImplemented =>
      exact .pure fun _ _ => .arrow (List.forall_mem_nil _) rfl (.string notImplementedText)

theorem emitMetadata_readable (metadata : Option ModuleRef) :
    Emits (emitMetadata metadata) fun later e => later.IsNamed → e.Readable := by
  cases metadata with
  | some ref =>
      exact .bind (.requestDefault _ _) fun name => .pure fun _ h hnamed => .name (hnamed _ _ h)
  | none => exact .pure fun _ _ => .undefined

namespace Route

mutual

theorem emits_readable (wrapper : RuntimeImport) (r : Route) :
    Emits (r.emit wrapper) fun later e => later.IsNamed → e.Readable := by
  match r with
  | ⟨id, name, path, exact, isMenuItem, sync, component, metadata, translations, children⟩ =>
      refine .bind (emitsAll_readable wrapper children) fun childExprs => ?_
      refine .bind (component.emits_readable wrapper) fun componentExpr => ?_
      refine .bind (emitMetadata_readable metadata) fun metadataExpr => .pure fun _ => ?_
      intro hmetadata hcomponent hchildren hnamed
      refine .object (fun p hp => emitted_keys p.1 (List.mem_map_of_mem hp)) ?_
      · simp only [List.forall_mem_cons]
        exact ⟨.string id, .string name, .string path, .bool exact, .bool isMenuItem, .bool sync,
          hcomponent hnamed, hmetadata hnamed, .array fun e he => hchildren e he hnamed, nofun⟩

theorem emitsAll_readable (wrapper : RuntimeImport) (rs : List Route) :
    Emits (emitAll wrapper rs) fun later es => ∀ e ∈ es, later.IsNamed → e.Readable := by
  match rs with
  | [] => exact .pure fun _ => List.forall_mem_nil _
  | r :: rs =>
      refine .bind (emits_readable wrapper r) fun e => ?_
      refine .bind (emitsAll_readable wrapper rs) fun es => ?_
      exact .pure fun _ hrest hfirst => List.forall_mem_cons.2 ⟨hfirst, hrest⟩

end

end Route

namespace Menu

mutual

theorem emits_readable (m : Menu) : Emits m.emit fun later e => later.IsNamed → e.Readable := by
  match m with
  | ⟨id, name, path, metadata, children⟩ =>
      refine .bind (emitMetadata_readable metadata) fun metadataExpr => ?_
      refine .bind (emitsAll_readable children) fun childExprs => .pure fun _ => ?_
      intro hchildren hmetadata hnamed
      have hkeys : ∀ k ∈ ["id", "name", "path", "meta", "children"], IsKey k :=
        fun k hk => emitted_keys k ((by decide : ["id", "name", "path", "meta", "children"] ⊆
          ["id", "name", "path", "exact", "isMenuItem", "sync", "component", "meta",
            "children"]) hk)
      refine .object (fun p hp => hkeys p.1 (List.mem_map_of_mem hp)) ?_
      simp only [List.forall_mem_cons]
      exact ⟨.string id, .string name, .string path, hmetadata hnamed,
        .array fun e he => hchildren e he hnamed, nofun⟩

theorem emitsAll_readable (ms : List Menu) :
    Emits (emitAll ms) fun later es => ∀ e ∈ es, later.IsNamed → e.Readable := by
  match ms with
  | [] => exact .pure fun _ => List.forall_mem_nil _
  | m :: ms =>
      refine .bind (emits_readable m) fun e => .bind (emitsAll_readable ms) fun es => ?_
      exact .pure fun _ hrest hfirst => List.forall_mem_cons.2 ⟨hfirst, hrest⟩

end

end Menu

namespace Translations

/-- The call that adds a file's translations, by the name of what holds them. -/
def AddsTo (holder : String) (e : Expression) : Prop :=
  ∃ args, e = .call (.member (.name holder) "addResourceBundle") args ∧ ∀ a ∈ args, a.Readable

theorem emitsResource_readable (holder id : String) (r : Resource) :
    Emits (emitResource (.name holder) id r) fun later e => later.IsNamed → AddsTo holder e := by
  refine .bind (.requestDefault _ _) fun bundle => .pure fun _ h hnamed => ⟨_, rfl, ?_⟩
  simp only [List.forall_mem_cons]
  exact ⟨.string _, .string _, .name (hnamed _ _ h), .bool _, .bool _, nofun⟩

theorem emits_readable (runtime : TranslationRuntime) (t : Translations) :
    Emits (t.emit runtime) fun later e => later.IsNamed → e.Readable := by
  have hadds (holder : String) :=
    Emits.mapM (emitsResource_readable holder t.id) t.resources
  refine .bind (.requestDefault _ _) fun holder => .bind (hadds holder) fun adds => ?_
  refine .pure fun later hall hbound hnamed => ?_
  have hholder : IsName holder := hnamed _ _ hbound
  have hcalls : ∀ e ∈ adds, AddsTo holder e := fun e he =>
    (exists_of_forall₂ hall.flip he).choose_spec hnamed
  have hregister : IsName "register" := by decide
  have hon : Readable (.call (.member (.name holder) "on")
      [.string "initialized", .name "register"]) := by
    refine .callMember hholder (by decide) ?_
    simp only [List.forall_mem_cons]
    exact ⟨.string _, .name hregister, nofun⟩
  refine .callArrow (.arrow (List.forall_mem_singleton.2 (.inl hregister)) rfl
    (.conditional hholder (by decide) hregister (by decide) rfl hon))
    (List.forall_mem_singleton.2 (.arrowBlock nofun (fun e he => ?_) fun e he => ?_))
  · obtain ⟨args, rfl, -⟩ := hcalls e he
    exact ⟨holder, "addResourceBundle", args, hholder, by decide, rfl⟩
  · obtain ⟨args, rfl, hargs⟩ := hcalls e he
    exact .callMember hholder (by decide) hargs

end Translations

theorem NamespaceRef.value_readable (ns : NamespaceRef) : ns.value.Readable := by
  cases ns with
  | single id => exact .string id
  | chain ids => exact .array (List.forall_mem_map.2 fun id _ => .string id)

/-- What a call has come to is an expression that can be read, unless it is a path, in a scope
whose names are names. -/
theorem Subject.emits_readable (c : Configuration) {subject : Subject}
    (hsubject : subject.macroName ≠ .resolveRoute) :
    Emits (subject.emit c) fun later e => later.IsNamed → e.Readable := by
  cases subject with
  | routes route => exact route.emits_readable _
  | menu entries =>
      exact .bind (Menu.emitsAll_readable entries) fun es => .pure fun _ h hnamed =>
        .array fun e he => h e he hnamed
  | path pieces => exact absurd rfl hsubject
  | registration t => exact t.emits_readable _
  | reader ns =>
      refine .bind (.requestNamed _ _) fun hook => .pure fun _ h hnamed => ?_
      refine .callName (hnamed _ _ h) (fun _ => ?_) (List.forall_mem_singleton.2 ns.value_readable)
      cases ns with
      | single id => exact .string id
      | chain ids => exact .strings ids
  | fixedReader ns =>
      refine .bind (.requestDefault _ _) fun holder => .pure fun _ h hnamed => ?_
      refine .callMember (hnamed _ _ h) (by decide) ?_
      simp only [List.forall_mem_cons]
      exact ⟨.null, ns.value_readable, nofun⟩
  | namespaces ns => exact .pure fun _ _ => ns.value_readable

/-! ## Reading back -/

namespace ImportScope

/-- The scopes that there are: a module's own, and what they become by requests. -/
inductive Reached : ImportScope → Prop
  | ofModule {language : Language} {text : String} {tree : Node} (taken : List String)
      {kept : List ImportDeclaration} (h : parse language text = .ok tree)
      (hkept : kept ⊆ imports tree) : Reached (ofModule taken kept)
  | request {scope : ImportScope} (h : Reached scope) (key : ImportKey) (hint : String) :
      Reached (scope.request key hint).2

theorem Reached.isNamed {scope : ImportScope} (h : Reached scope) : scope.IsNamed := by
  induction h with
  | ofModule taken h hkept => exact ofModule_isNamed fun d hd => parse_imports_named h d (hkept hd)
  | request _ key hint ih => exact (request_grown _ key hint).isNamed ih

end ImportScope

/-- What is emitted for route trees, menus and translations is an expression, and is read as
that expression: in any module, after any requests for its imports, at any depth. -/
theorem Subject.reads_back (c : Configuration) {subject : Subject}
    (hsubject : subject.macroName ≠ .resolveRoute) {scope : ImportScope} (hscope : scope.Reached)
    (language : Language) (depth : Nat) :
    ∃ n, readExpression language (((subject.emit c).run scope).1.render depth) = .ok n ∧
      n.expression? = some ((subject.emit c).run scope).1.asRead := by
  have hemits := subject.emits_readable c hsubject
  exact readExpression_render
    (hemits.holds (.refl _) ((hemits.grown scope).isNamed hscope.isNamed)) depth language

/-- The function that a component reads translations with may be imported as `async`. -/
theorem Subject.reads_back_reader :
    let module := "import\x7buseTranslation as async\x7dfrom\"react-i18next\""
    let text := "async([\n  \"a\\\"b\",\n  \"\\n\",\n])"
    let reader := (Subject.reader (.chain ["a\"b", "\n"])).emit {}
    ∃ tree, parse ⟨false, true⟩ module = .ok tree ∧
      (reader.run (.ofModule (identifiers tree) (imports tree))).1.render 0 = text ∧
      ∃ n, readExpression ⟨false, true⟩ text = .ok n ∧
        n.expression? = some (.call (.name "async") [.array [.string "a\"b", .string "\n"]]) := by
  intro module text reader
  have hfacts : (parse ⟨false, true⟩ module).toOption.map (fun tree =>
      let scope := ImportScope.ofModule (identifiers tree) (imports tree)
      ((reader.run scope).1.render 0,
        ((ImportScope.requestNamed "react-i18next" "useTranslation").run scope).1)) =
      some (text, "async") := by
    decide +kernel
  cases hparse : parse ⟨false, true⟩ module with
  | error e =>
      rw [hparse] at hfacts
      cases hfacts
  | ok tree =>
      rw [hparse] at hfacts
      obtain ⟨htext, hname⟩ := Prod.mk.inj (Option.some.inj hfacts)
      refine ⟨tree, rfl, htext, ?_⟩
      have hscope := ImportScope.Reached.ofModule (identifiers tree) hparse (List.Subset.refl _)
      have hsubject : (Subject.reader (.chain ["a\"b", "\n"])).macroName ≠ .resolveRoute := nofun
      obtain ⟨n, hread, hn⟩ := Subject.reads_back {} hsubject hscope ⟨false, true⟩ 0
      refine ⟨n, htext ▸ hread, hn.trans ?_⟩
      rw [← hname]
      rfl

end SiteMacros
