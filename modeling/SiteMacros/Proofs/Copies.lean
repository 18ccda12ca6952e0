import SiteMacros.Proofs.Emissions

/-!
# Copies

What takes the place of a call is built of literals, of names, and of texts that are
copied from the call. The copied texts are code of the module, so what they refer to is
not settled where the expansion is built. There are few of them: only the path of a route
has any, for the values of its parameters, and each is the text of one of the call's
arguments (`yields_expand_copied`). Nothing is copied into the registrations below the
imports. What is copied is not changed on the way (`occursIn_render`).
-/

namespace SiteMacros

open ImportScope

namespace Expression

mutual

/-- The texts that an expression has copied from a call, in order. -/
def sources : Expression → List String
  | .source text => [text]
  | .array items => sourcesAll items
  | .object properties => sourcesOfProperties properties
  | .member e _ => e.sources
  | .call callee args => callee.sources ++ sourcesAll args
  | .arrow _ body => body.sources
  | .arrowBlock _ statements => sourcesAll statements
  | .conditional test consequent alternate =>
      test.sources ++ consequent.sources ++ alternate.sources
  | .template parts => sourcesOfParts parts
  | .name _ | .string _ | .bool _ | .null | .undefined | .dynamicImport _ => []

def sourcesAll : List Expression → List String
  | [] => []
  | e :: es => e.sources ++ sourcesAll es

def sourcesOfProperties : List (String × Expression) → List String
  | [] => []
  | (_, e) :: ps => e.sources ++ sourcesOfProperties ps

def sourcesOfParts : List TemplatePart → List String
  | [] => []
  | .text _ :: ps => sourcesOfParts ps
  | .hole e :: ps => e.sources ++ sourcesOfParts ps

end

/-- The expression has copied nothing. -/
def CopiesNothing (e : Expression) : Prop :=
  e.sources = []

theorem sourcesAll_eq_nil {es : List Expression} (h : ∀ e ∈ es, e.CopiesNothing) :
    sourcesAll es = [] := by
  induction es with
  | nil => rfl
  | cons e es ih =>
      obtain ⟨hfirst, hrest⟩ := List.forall_mem_cons.1 h
      rw [sourcesAll, ih hrest, hfirst, List.append_nil]

end Expression

/-! ## Copies in rendered text -/

/-- The text occurs in the other one. -/
def Text.OccursIn (t whole : String) : Prop :=
  t.toList <:+: whole.toList

namespace Text.OccursIn

variable {t a b : String}

theorem refl (t : String) : OccursIn t t :=
  List.infix_rfl

theorem trans {c : String} (h : OccursIn a b) (h' : OccursIn b c) : OccursIn a c :=
  List.IsInfix.trans h h'

theorem left (h : OccursIn t a) (b : String) : OccursIn t (a ++ b) := by
  rw [OccursIn, String.toList_append]
  exact List.IsInfix.trans h (List.prefix_append _ _).isInfix

theorem right (h : OccursIn t b) (a : String) : OccursIn t (a ++ b) := by
  rw [OccursIn, String.toList_append]
  exact List.IsInfix.trans h (List.suffix_append _ _).isInfix

theorem parens (h : OccursIn t a) (wrap : Bool) : OccursIn t (Expression.parens wrap a) := by
  rw [Expression.parens]
  split
  · exact (h.right _).left _
  · exact h

end Text.OccursIn

namespace Expression

open Text

variable {t : String}

mutual

/-- What an expression has copied occurs in its text. -/
theorem occursIn_render (depth : Nat) (e : Expression) (h : t ∈ e.sources) :
    OccursIn t (e.render depth) := by
  match e with
  | .source s =>
      rw [sources] at h
      rw [List.mem_singleton.1 h, render]
      exact .refl s
  | .array (e :: es) =>
      rw [render]
      exact (((occursIn_renderItems (depth + 1) (e :: es) h).right _).left _).left _
  | .object (p :: ps) =>
      rw [render]
      exact (((occursIn_renderProperties (depth + 1) (p :: ps) h).right _).left _).left _
  | .member e property =>
      rw [render]
      exact (((occursIn_render depth e h).parens _).left _).left _
  | .call callee args =>
      rw [render]
      rcases List.mem_append.1 h with h | h
      · exact ((((occursIn_render depth callee h).parens _).left _).left _).left _
      · exact ((occursIn_renderArgs depth args h).right _).left _
  | .arrow params body =>
      rw [render]
      exact ((occursIn_render depth body h).parens _).right _
  | .arrowBlock params statements =>
      rw [render]
      exact (((occursIn_renderStatements (depth + 1) statements h).right _).left _).left _
  | .conditional test consequent alternate =>
      rw [render]
      rcases List.mem_append.1 h with h | h
      · rcases List.mem_append.1 h with h | h
        · exact (((((occursIn_render depth test h).parens _).left _).left _).left _).left _
        · exact ((((occursIn_render depth consequent h).parens _).right _).left _).left _
      · exact ((occursIn_render depth alternate h).parens _).right _
  | .template parts =>
      rw [render]
      exact ((occursIn_renderParts depth parts h).right _).left _
  | .array [] | .object [] | .name _ | .string _ | .bool _ | .null | .undefined
  | .dynamicImport _ => exact nomatch h

theorem occursIn_renderItems (depth : Nat) (es : List Expression) (h : t ∈ sourcesAll es) :
    OccursIn t (renderItems depth es) := by
  match es with
  | [] => exact nomatch h
  | e :: es =>
      rw [renderItems]
      rcases List.mem_append.1 h with h | h
      · exact (((occursIn_render depth e h).right _).left _).left _
      · exact (occursIn_renderItems depth es h).right _

theorem occursIn_renderProperties (depth : Nat) (ps : List (String × Expression))
    (h : t ∈ sourcesOfProperties ps) : OccursIn t (renderProperties depth ps) := by
  match ps with
  | [] => exact nomatch h
  | (k, e) :: ps =>
      rw [renderProperties]
      rcases List.mem_append.1 h with h | h
      · exact (((occursIn_render depth e h).right _).left _).left _
      · exact (occursIn_renderProperties depth ps h).right _

theorem occursIn_renderArgs (depth : Nat) (es : List Expression) (h : t ∈ sourcesAll es) :
    OccursIn t (renderArgs depth es) := by
  match es with
  | [] => exact nomatch h
  | [e] =>
      rw [renderArgs]
      exact occursIn_render depth e ((List.mem_append.1 h).resolve_right List.not_mem_nil)
  | e :: e' :: es =>
      rw [renderArgs]
      rcases List.mem_append.1 h with h | h
      · exact ((occursIn_render depth e h).left _).left _
      · exact (occursIn_renderArgs depth (e' :: es) h).right _

theorem occursIn_renderStatements (depth : Nat) (es : List Expression) (h : t ∈ sourcesAll es) :
    OccursIn t (renderStatements depth es) := by
  match es with
  | [] => exact nomatch h
  | e :: es =>
      rw [renderStatements]
      rcases List.mem_append.1 h with h | h
      · exact (((occursIn_render depth e h).right _).left _).left _
      · exact (occursIn_renderStatements depth es h).right _

theorem occursIn_renderParts (depth : Nat) (ps : List TemplatePart)
    (h : t ∈ sourcesOfParts ps) : OccursIn t (renderParts depth ps) := by
  match ps with
  | [] => exact nomatch h
  | .text _ :: ps =>
      rw [renderParts]
      exact (occursIn_renderParts depth ps h).right _
  | .hole e :: ps =>
      rw [renderParts]
      rcases List.mem_append.1 h with h | h
      · exact (((occursIn_render depth e h).right _).left _).left _
      · exact (occursIn_renderParts depth ps h).right _

end

end Expression

open Expression

/-! ## Paths -/

/-- The expression that a piece of a path is. -/
def Piece.source? : Piece → Option String
  | .text _ => none
  | .expression e => some e

def RouteArg.source? : RouteArg → Option String
  | .literal _ => none
  | .expression e => some e

/-- A path has copied the expressions among its pieces. -/
theorem sources_ofPieces (pieces : List Piece) :
    (Expression.ofPieces pieces).sources = pieces.filterMap (·.source?) := by
  rw [Expression.ofPieces.eq_def]
  split
  · rfl
  · next hpieces =>
      clear hpieces
      rw [sources]
      induction pieces with
      | nil => rfl
      | cons p ps ih => cases p <;> simpa [sourcesOfParts, sources, Piece.source?] using ih

namespace RoutePath

theorem sources_pushText (t : String) (pieces : List Piece) :
    (pushText t pieces).filterMap (·.source?) = pieces.filterMap (·.source?) := by
  rw [pushText.eq_def]
  split <;> simp [Piece.source?]

/-- The pieces with one segment more, and the arguments that are left. -/
def bindSegment (done : List Piece) (args : List RouteArg) (s : String) :
    List Piece × List RouteArg :=
  match args with
  | [] => (pushText s done, [])
  | a :: more =>
      if Text.startsWith ":" s then
        match a with
        | .literal v => (pushText v done, more)
        | .expression e => (.expression e :: done, more)
      else (pushText s done, a :: more)

theorem bindSegments_cons (done : List Piece) (args : List RouteArg) (s : String)
    (rest : List String) : bindSegments done args (s :: rest) =
      match rest with
      | [] => (bindSegment done args s).1
      | _ :: _ => bindSegments (pushText "/" (bindSegment done args s).1)
          (bindSegment done args s).2 rest := by
  exact (bindSegments.eq_def _ _ _).trans rfl

/-- Nothing is copied that is not an argument. -/
theorem bindSegment_sources (done : List Piece) (args : List RouteArg) (s : String) :
    (bindSegment done args s).1.filterMap (·.source?) ++
        (bindSegment done args s).2.filterMap (·.source?) ⊆
      done.filterMap (·.source?) ++ args.filterMap (·.source?) := by
  rw [bindSegment.eq_def]
  split
  · rw [sources_pushText]
    exact List.Subset.refl _
  · split
    · split
      · rw [sources_pushText]
        exact List.Subset.refl _
      · simp [Piece.source?, RouteArg.source?]
    · rw [sources_pushText]
      exact List.Subset.refl _

theorem bindSegments_sources (done : List Piece) (args : List RouteArg) (segments : List String) :
    (bindSegments done args segments).filterMap (·.source?) ⊆
      done.filterMap (·.source?) ++ args.filterMap (·.source?) := by
  induction segments generalizing done args with
  | nil =>
      rw [bindSegments]
      exact List.subset_append_left _ _
  | cons s rest ih =>
      have hsegment := bindSegment_sources done args s
      rw [bindSegments_cons]
      split
      · exact List.Subset.trans (List.subset_append_left _ _) hsegment
      · refine List.Subset.trans (ih _ _) ?_
        rw [sources_pushText]
        exact hsegment

/-- The expressions in a bound path are arguments. -/
theorem bind_sources {r : RoutePath} {args : List RouteArg} {pieces : List Piece}
    (h : r.bind args = .ok pieces) :
    pieces.filterMap (·.source?) ⊆ args.filterMap (·.source?) := by
  rw [bind] at h
  split at h
  · cases h
    exact List.nil_subset _
  · split at h
    · exact nomatch h
    · cases h
      rw [List.filterMap_reverse, List.reverse_subset]
      exact bindSegments_sources [] args r.segments

end RoutePath

/-! ## Emissions -/

theorem RouteComponent.emits_copiesNothing (wrapper : RuntimeImport) (component : RouteComponent) :
    Emits (component.emit wrapper) fun _ e => e.CopiesNothing := by
  cases component with
  | module ref =>
      rw [RouteComponent.emit]
      split
      · exact .bind (.requestDefault _ _) fun _ => .pure fun _ _ => rfl
      · exact .bind (.requestNamed _ _) fun _ => .pure fun _ _ => rfl
  | passThrough => exact .pure fun _ => rfl
  | notImplemented => exact .pure fun _ => rfl

theorem emitMetadata_copiesNothing (metadata : Option ModuleRef) :
    Emits (emitMetadata metadata) fun _ e => e.CopiesNothing := by
  cases metadata with
  | some ref => exact .bind (.requestDefault _ _) fun _ => .pure fun _ _ => rfl
  | none => exact .pure fun _ => rfl

namespace Route

mutual

theorem emits_copiesNothing (wrapper : RuntimeImport) (r : Route) :
    Emits (r.emit wrapper) fun _ e => e.CopiesNothing := by
  match r with
  | ⟨id, name, path, exact, isMenuItem, sync, component, metadata, translations, children⟩ =>
      refine .bind (emitsAll_copiesNothing wrapper children) fun childExprs => ?_
      refine .bind (component.emits_copiesNothing wrapper) fun componentExpr => ?_
      refine .bind (emitMetadata_copiesNothing metadata) fun metadataExpr => .pure fun _ => ?_
      intro hmetadata hcomponent hchildren
      simp only [CopiesNothing, sources, sourcesOfProperties, List.nil_append, List.append_nil]
      rw [hcomponent, hmetadata, sourcesAll_eq_nil hchildren]
      rfl

theorem emitsAll_copiesNothing (wrapper : RuntimeImport) (rs : List Route) :
    Emits (emitAll wrapper rs) fun _ es => ∀ e ∈ es, e.CopiesNothing := by
  match rs with
  | [] => exact .pure fun _ => List.forall_mem_nil _
  | r :: rs =>
      refine .bind (emits_copiesNothing wrapper r) fun e => ?_
      refine .bind (emitsAll_copiesNothing wrapper rs) fun es => ?_
      exact .pure fun _ hrest hfirst => List.forall_mem_cons.2 ⟨hfirst, hrest⟩

end

end Route

namespace Menu

mutual

theorem emits_copiesNothing (m : Menu) : Emits m.emit fun _ e => e.CopiesNothing := by
  match m with
  | ⟨id, name, path, metadata, children⟩ =>
      refine .bind (emitMetadata_copiesNothing metadata) fun metadataExpr => ?_
      refine .bind (emitsAll_copiesNothing children) fun childExprs => .pure fun _ => ?_
      intro hchildren hmetadata
      simp only [CopiesNothing, sources, sourcesOfProperties, List.nil_append, List.append_nil]
      rw [hmetadata, sourcesAll_eq_nil hchildren]
      rfl

theorem emitsAll_copiesNothing (ms : List Menu) :
    Emits (emitAll ms) fun _ es => ∀ e ∈ es, e.CopiesNothing := by
  match ms with
  | [] => exact .pure fun _ => List.forall_mem_nil _
  | m :: ms =>
      refine .bind (emits_copiesNothing m) fun e => .bind (emitsAll_copiesNothing ms) fun es => ?_
      exact .pure fun _ hrest hfirst => List.forall_mem_cons.2 ⟨hfirst, hrest⟩

end

end Menu

theorem Translations.emits_copiesNothing (runtime : TranslationRuntime) (t : Translations) :
    Emits (t.emit runtime) fun _ e => e.CopiesNothing := by
  have hadds (holder : String) (r : Resource) :
      Emits (emitResource (.name holder) t.id r) fun _ e => e.CopiesNothing :=
    .bind (.requestDefault _ _) fun _ => .pure fun _ _ => rfl
  refine .bind (.requestDefault _ _) fun holder => .bind (.mapM (hadds holder) _) fun adds => ?_
  refine .pure fun _ hall _ => ?_
  have hnone : sourcesAll adds = [] := sourcesAll_eq_nil fun e he =>
    (exists_of_forall₂ hall.flip he).choose_spec
  simp [CopiesNothing, sources, sourcesAll, hnone]

/-- What a subject has copied from the call. -/
def Subject.copied : Subject → List String
  | .path pieces => pieces.filterMap (·.source?)
  | _ => []

theorem value_copiesNothing (ns : NamespaceRef) : ns.value.CopiesNothing := by
  cases ns with
  | single id => rfl
  | chain ids => exact sourcesAll_eq_nil (List.forall_mem_map.2 fun _ _ => rfl)

theorem Subject.emits_copied (c : Configuration) (subject : Subject) :
    Emits (subject.emit c) fun _ e => e.sources = subject.copied := by
  cases subject with
  | routes route => exact route.emits_copiesNothing _
  | menu entries =>
      refine .bind (Menu.emitsAll_copiesNothing entries) fun _ => ?_
      exact .pure fun _ h => sourcesAll_eq_nil h
  | path pieces => exact .pure fun _ => sources_ofPieces pieces
  | registration t => exact t.emits_copiesNothing _
  | reader ns =>
      refine .bind (.requestNamed _ _) fun _ => .pure fun _ _ => ?_
      exact sourcesAll_eq_nil (List.forall_mem_singleton.2 (value_copiesNothing ns))
  | fixedReader ns =>
      refine .bind (.requestDefault _ _) fun _ => .pure fun _ _ => ?_
      exact (List.append_nil _).trans (value_copiesNothing ns)
  | namespaces ns => exact .pure fun _ => value_copiesNothing ns

/-- Only paths copy. -/
theorem Subject.copied_eq_nil {subject : Subject} (h : subject.macroName ≠ .resolveRoute) :
    subject.copied = [] := by
  cases subject with
  | path pieces => exact absurd rfl h
  | _ => rfl

/-- The expression for a call has copied what its subject has, and the registrations have
copied nothing. -/
structure Emission.Copied (em : Emission) (result : List Expression × Expression) : Prop where
  subject : result.2.sources = em.subject.copied
  registrations : ∀ e ∈ result.1, e.CopiesNothing

theorem Emission.emits_copied (c : Configuration) (em : Emission) :
    Emits (em.emit c) fun _ result => em.Copied result := by
  have hregistrations := Emits.mapM (fun t : Translations =>
    t.emits_copiesNothing c.translations.runtime) em.registrations
  refine .bind hregistrations fun es => .bind (em.subject.emits_copied c) fun e => ?_
  refine .pure fun _ hsubject hall => ⟨hsubject, fun e he => ?_⟩
  exact (exists_of_forall₂ hall.flip he).choose_spec

namespace Expansion

open Script

variable {s : Surroundings}

theorem Yields.settle_bind {α : Type} {ok : Subject → Prop} {r : Except MacroError α}
    {f : α → Expand Expression} (h : ∀ a, r = .ok a → Yields s ok (f a)) :
    Yields s ok (settle r >>= f) := by
  intro x z e hrun
  obtain ⟨a, y, hfirst, hrest⟩ := exists_of_perform_bind_ok hrun
  rw [perform_settle] at hfirst
  cases hfirst
  exact h a rfl x z e hrest

/-- The subject is what calls of the macro come to, and what it has copied are arguments
of the call. -/
def copiesFrom (call : MacroCall) (subject : Subject) : Prop :=
  comesFrom call subject ∧ subject.copied ⊆ call.args.map (·.text)

theorem source?_routeArg {a : Argument} {e : String} (h : (routeArg a).source? = some e) :
    e = a.text := by
  rw [routeArg] at h
  split at h
  · exact nomatch h
  · exact (Option.some.inj h).symm

/-- What a call emits has copied nothing but arguments of the call. -/
theorem yields_expand_copied (call : MacroCall) : Yields s (copiesFrom call) (expand call) := by
  by_cases hcallee : call.callee = .resolveRoute
  · rw [expand, hcallee]
    refine .quiet_bind (.settle _) fun _ => .quiet_bind (.depend _) fun _ => ?_
    refine .quiet_bind .get fun _ => .quiet_bind .read fun _ => ?_
    refine .quiet_bind (.settle _) fun path => .settle_bind fun pieces hpieces => ?_
    refine .emitting (.path pieces) ⟨hcallee.symm, fun e he => ?_⟩
    obtain ⟨arg, harg, hsource⟩ := List.mem_filterMap.1 (RoutePath.bind_sources hpieces he)
    obtain ⟨a, ha, rfl⟩ := List.mem_map.1 harg
    rw [source?_routeArg hsource]
    exact List.mem_map_of_mem (List.mem_of_mem_drop ha)
  · intro x y e hrun
    obtain ⟨em, registrations, hcomes, hrest⟩ := yields_expand call x y e hrun
    have hnone : em.subject.copied = [] := Subject.copied_eq_nil (hcomes.trans_ne hcallee)
    exact ⟨em, registrations, ⟨hcomes, hnone ▸ List.nil_subset _⟩, hrest⟩

end Expansion

end SiteMacros
