import Mathlib.Data.List.Pairwise
import SiteMacros.Proofs.Captures
import SiteMacros.Proofs.Copies
import SiteMacros.Proofs.Splices

/-!
# Leftovers

An import of macros is removed as a whole, with all the names that it binds. Of a name
that it binds as a value nothing is left: the name may be referred to only as the callee
of a call, the call is replaced, and no argument of a call that is replaced has another
such call in it. Nor is the name used in what is emitted, where all names are parameters,
names of imports that stay, or new.

A name that is bound for types only is not looked for. It stays wherever it is referred
to outside of calls, and within a call where it is part of an argument that is copied; then
the code refers to a name that nothing in it binds (`expandModule_leaves_type`). These are
the only leftovers (`expandModule_refers_iff`).
-/

namespace SiteMacros

open ImportScope

namespace Script

/-! ## Names of imports -/

namespace ImportDeclaration

/-- The local names that a declaration binds. -/
def locals (d : ImportDeclaration) : List String :=
  d.default?.toList ++ d.whole?.toList ++ d.named.map (·.localName)

/-- The local names that a declaration binds as values, and not for types only. -/
def valueLocals (d : ImportDeclaration) : List String :=
  if d.typeOnly then []
  else d.default?.toList ++ d.whole?.toList ++ (d.named.filter (!·.typeOnly)).map (·.localName)

theorem mem_locals_of_mem_bindings {d : ImportDeclaration} {key : ImportKey} {name : String}
    (h : (key, name) ∈ d.bindings) : name ∈ d.locals := by
  rw [bindings] at h
  split at h
  · exact nomatch h
  · rw [locals, List.mem_append, List.mem_append]
    rcases List.mem_append.1 h with h | h
    · rw [Option.mem_toList, Option.map_eq_some_iff] at h
      obtain ⟨name', hname, heq⟩ := h
      cases heq
      exact .inl (.inl (Option.mem_toList.2 hname))
    · obtain ⟨n, hn, heq⟩ := List.mem_map.1 h
      cases heq
      exact .inr (List.mem_map_of_mem (List.mem_filter.1 hn).1)

end ImportDeclaration

end Script

namespace MacroSources

open Script

variable {m : MacroSources} {name : String}

theorem binding_name {source : String} {provided : List MacroName} {n : NamedImport}
    {b : String × MacroName} (h : binding source provided n = .ok b) : b.1 = n.localName := by
  rw [binding] at h
  split at h
  · cases h
    rfl
  · exact nomatch h

/-- A declaration binds macros to the names that it binds as values. -/
theorem mem_bindingsOf {d : ImportDeclaration} {bs : Bindings} (h : m.bindingsOf d = .ok bs) :
    name ∈ bs.map Prod.fst ↔ m.isMacroImport d = true ∧ name ∈ d.valueLocals := by
  rw [bindingsOf] at h
  rw [isMacroImport, ImportDeclaration.valueLocals]
  split at h
  · next hnone =>
      cases h
      rw [hnone]
      exact iff_of_false List.not_mem_nil fun h => nomatch h.1
  · next provided hprovided =>
      rw [hprovided]
      split at h
      · next htype =>
          cases h
          rw [if_pos htype]
          exact iff_of_false List.not_mem_nil fun h => List.not_mem_nil h.2
      · next hvalue =>
          split at h
          · exact nomatch h
          · next hnamed =>
              rw [Bool.or_eq_true, not_or, Option.not_isSome_iff_eq_none,
                Option.not_isSome_iff_eq_none] at hnamed
              obtain ⟨htaken, hresults⟩ := Expansion.exists_of_mapM_eq_ok h
              rw [if_neg hvalue, hnamed.1, hnamed.2]
              constructor
              · intro hname
                obtain ⟨b, hb, rfl⟩ := List.mem_map.1 hname
                obtain ⟨n, hn, hbinding⟩ := hresults b hb
                exact ⟨rfl, binding_name hbinding ▸ List.mem_map_of_mem hn⟩
              · rintro ⟨-, hname⟩
                obtain ⟨n, hn, rfl⟩ := List.mem_map.1 hname
                obtain ⟨b, hb, hbinding⟩ := htaken n hn
                exact binding_name hbinding ▸ List.mem_map_of_mem hb

/-- The names that are bound to macros are those that imports of macros bind as values. -/
theorem lookup_bindings_isSome {ds : List ImportDeclaration} {bs : Bindings}
    (h : m.bindings ds = .ok bs) : (bs.lookup name).isSome = true ↔
      ∃ d ∈ ds, m.isMacroImport d = true ∧ name ∈ d.valueLocals := by
  rw [bindings] at h
  cases hall : ds.mapM m.bindingsOf with
  | error e =>
      rw [hall] at h
      exact nomatch h
  | ok bss =>
      rw [hall] at h
      cases h
      obtain ⟨hof, hresults⟩ := Expansion.exists_of_mapM_eq_ok hall
      have hlookup : (bss.flatten.reverse.lookup name).isSome = true ↔
          ∃ bs ∈ bss, name ∈ bs.map Prod.fst := by
        simp only [List.lookup_isSome_iff, List.mem_reverse, List.mem_flatten, List.mem_map,
          beq_iff_eq]
        exact ⟨fun ⟨b, ⟨bs, hbs, hb⟩, heq⟩ => ⟨bs, hbs, b, hb, heq.symm⟩,
          fun ⟨bs, hbs, b, hb, heq⟩ => ⟨b, ⟨bs, hbs, hb⟩, heq.symm⟩⟩
      rw [hlookup]
      constructor
      · rintro ⟨bs, hbs, hname⟩
        obtain ⟨d, hd, hbindings⟩ := hresults bs hbs
        exact ⟨d, hd, (mem_bindingsOf hbindings).1 hname⟩
      · rintro ⟨d, hd, hname⟩
        obtain ⟨bs, hbs, hbindings⟩ := hof d hd
        exact ⟨bs, hbs, (mem_bindingsOf hbindings).2 hname⟩

end MacroSources

namespace Script

/-! ## Names in their places -/

/-- A name that is referred to is a part of the text, apart from the imports, and within
each call or apart from it. A call starts with its callee, and its arguments are parts of
the text behind the callee. -/
def Site.InPlace (text : String) (tree : Node) : Site → Prop
  | .reference span _ =>
      span.StandsIn text ∧ (∀ d ∈ imports tree, d.span.Apart span) ∧
        ∀ call ∈ tree.callSpans, call.covers span = true ∨ call.Apart span
  | .binding _ _ => True
  | .call span callee _ args =>
      span.covers callee = true ∧ callee.start < callee.stop ∧
        ∀ arg ∈ args, arg.span.StandsIn text ∧ callee.stop ≤ arg.span.start ∧
          span.covers arg.span = true

instance (text : String) (tree : Node) (site : Site) : Decidable (site.InPlace text tree) :=
  match site with
  | .reference _ _ => inferInstanceAs (Decidable (_ ∧ _ ∧ _))
  | .binding _ _ => inferInstanceAs (Decidable True)
  | .call _ _ _ _ => inferInstanceAs (Decidable (_ ∧ _ ∧ _))

/-- Besides calls and imports, names are in place as well, and the names that imports
bind are identifiers of the tree. -/
structure Node.NamesPlaced (text : String) (tree : Node) : Prop extends tree.Placed text where
  sites : ∀ site ∈ tree.sites, site.InPlace text tree
  locals : ∀ d ∈ Script.imports tree, d.locals ⊆ identifiers tree

instance (text : String) (tree : Node) : Decidable (tree.NamesPlaced text) :=
  decidable_of_iff (tree.Placed text ∧ (∀ site ∈ tree.sites, site.InPlace text tree) ∧
      ∀ d ∈ Script.imports tree, ∀ name ∈ d.locals, name ∈ identifiers tree)
    ⟨fun ⟨placed, sites, locals⟩ => ⟨placed, sites, locals⟩,
      fun ⟨placed, sites, locals⟩ => ⟨placed, sites, locals⟩⟩

/-- The sites are the same one, or calls of macros that are apart. -/
def Site.SameOrApart (text : String) (bindings : Bindings) (a b : Site) : Prop :=
  a = b ∨ ∀ c, a.macroCall? text bindings = some c →
    ∀ c', b.macroCall? text bindings = some c' → c.span.Apart c'.span

instance (text : String) (bindings : Bindings) : Std.Symm (Site.SameOrApart text bindings) :=
  ⟨fun _ _ h => h.imp Eq.symm fun h c hc c' hc' => (h c' hc' c hc).symm⟩

section

variable {text : String} {bindings : Bindings} {tree : Node} {calls : List MacroCall}
  {span : Span} {name : String} (hplaced : tree.NamesPlaced text)
  (hfound : findCalls text bindings tree = .ok calls)

include hfound

/-- A call that is found is at a site. -/
theorem exists_site_of_found {call : MacroCall} (h : call ∈ calls) : ∃ callee name args,
    .call call.span callee name args ∈ tree.sites ∧
      (Site.call call.span callee name args).macroCall? text bindings = some call ∧
      call.args = args.map (MacroCall.argument text) := by
  rw [(findCalls_eq_ok hfound).1] at h
  obtain ⟨site, hsite, hcall⟩ := List.mem_filterMap.1 h
  cases site with
  | reference _ _ => exact nomatch hcall
  | binding _ _ => exact nomatch hcall
  | call span callee name args =>
      obtain ⟨m, hm, rfl⟩ := Option.map_eq_some_iff.1 hcall
      exact ⟨callee, name, args, hsite, hcall, rfl⟩

/-- A name that is bound to a macro starts where the callee of a call does that is found. -/
theorem exists_call_of_reference (href : .reference span name ∈ tree.sites)
    (hbound : (bindings.lookup name).isSome = true) : ∃ call ∈ calls, ∃ callee name args,
      .call call.span callee name args ∈ tree.sites ∧
      (Site.call call.span callee name args).macroCall? text bindings = some call ∧
      callee.start = span.start := by
  obtain ⟨hcalls, -, hcalled⟩ := findCalls_eq_ok hfound
  obtain ⟨site, hsite, hstart⟩ := List.mem_filterMap.1 (hcalled span name href hbound)
  cases site with
  | reference _ _ => exact nomatch hstart
  | binding _ _ => exact nomatch hstart
  | call callSpan callee callName args =>
      obtain ⟨m, hm, hstart⟩ := Option.map_eq_some_iff.1 hstart
      have hcall : (Site.call callSpan callee callName args).macroCall? text bindings =
          some ⟨m, callSpan, args.map (MacroCall.argument text)⟩ := by
        rw [Site.macroCall?, hm]
        rfl
      refine ⟨⟨m, callSpan, args.map (MacroCall.argument text)⟩, ?_, callee, callName, args,
        hsite, hcall, hstart⟩
      rw [hcalls]
      exact List.mem_filterMap.2 ⟨_, hsite, hcall⟩

include hplaced

/-- Two sites of calls that are found are the same or apart. -/
theorem Node.NamesPlaced.eq_or_apart {site site' : Site} (hsite : site ∈ tree.sites)
    (hsite' : site' ∈ tree.sites) {call call' : MacroCall}
    (hcall : site.macroCall? text bindings = some call)
    (hcall' : site'.macroCall? text bindings = some call') :
    site = site' ∨ call.span.Apart call'.span := by
  have hapart := hplaced.found_apart hfound
  rw [(findCalls_eq_ok hfound).1, List.pairwise_filterMap] at hapart
  have hall : tree.sites.Pairwise (Site.SameOrApart text bindings) := hapart.imp .inr
  exact (hall.forall_of_forall (fun _ _ => .inl rfl) hsite hsite').imp_right fun h =>
    h call hcall call' hcall'

/-- A name that is bound to a macro is within a call that is found, and not in an argument
of one. -/
theorem Node.NamesPlaced.bound_within_call (href : .reference span name ∈ tree.sites)
    (hbound : (bindings.lookup name).isSome = true) :
    (∃ call ∈ calls, ¬call.span.Apart span) ∧
      ∀ call ∈ calls, ∀ a ∈ call.args, a.span.covers span = false := by
  obtain ⟨call, hmem, callee, _, _, hsite, hcall, hstart⟩ :=
    exists_call_of_reference hfound href hbound
  have hne := (hplaced.sites _ href).1.nonempty
  obtain ⟨hwithin, hfilled, -⟩ := hplaced.sites _ hsite
  rw [Span.covers_iff] at hwithin
  refine ⟨⟨call, hmem, fun hapart => ?_⟩, fun call' hmem' a ha => ?_⟩
  · rw [Span.Apart] at hapart
    omega
  · refine Bool.eq_false_iff.2 fun hcovers => ?_
    obtain ⟨callee', _, args', hsite', hcall', hargs⟩ := exists_site_of_found hfound hmem'
    rw [hargs] at ha
    obtain ⟨arg, harg, rfl⟩ := List.mem_map.1 ha
    obtain ⟨-, -, hplaces⟩ := hplaced.sites _ hsite'
    obtain ⟨-, hbehind, hinside⟩ := hplaces arg harg
    rw [Span.covers_iff] at hcovers hinside
    dsimp only [MacroCall.argument] at hcovers
    -- the callee would be in an argument of its own call, or in one of a call that is apart
    rcases hplaced.eq_or_apart hfound hsite hsite' hcall hcall' with heq | hapart
    · rw [(Site.call.inj heq).2.1] at hstart hfilled
      omega
    · rw [Span.Apart] at hapart
      omega

end

end Script

namespace Expansion

open Script

variable {s : Surroundings} {text : String}

/-! ## What the code refers to -/

/-- The places where a tree refers to a name. -/
def referencesTo (name : String) (tree : Node) : List Span :=
  tree.sites.filterMap fun
    | .reference span name' => if name' = name then some span else none
    | _ => none

theorem mem_sites_of_referencesTo {tree : Node} {name : String} {place : Span}
    (h : place ∈ referencesTo name tree) : .reference place name ∈ tree.sites := by
  obtain ⟨site, hsite, hplace⟩ := List.mem_filterMap.1 h
  split at hplace
  · split at hplace
    · next hname =>
        cases hplace
        exact hname ▸ hsite
    · exact nomatch hplace
  · exact nomatch hplace

/-- What stands in the module at a place stands in its code as well: the place is apart
from the calls that are replaced, or in an argument that is copied into an expansion. -/
def Stays (expanded : List (MacroCall × Expression)) (place : Span) : Prop :=
  (∀ c ∈ expanded, c.1.span.Apart place) ∨
    ∃ c ∈ expanded, ∃ a ∈ c.1.args, a.text ∈ c.2.sources ∧ a.span.covers place = true

/-- The code refers to the name: the module does at a place that stays, or what is emitted
for a call does, with no function around it that has a parameter of this name. -/
def Refers (tree : Node) (expanded : List (MacroCall × Expression)) (prelude : List Expression)
    (name : String) : Prop :=
  (∃ place, .reference place name ∈ tree.sites ∧ Stays expanded place) ∨
    ∃ e ∈ expanded.map (·.2) ++ prelude, ∃ o ∈ e.names [], o.name = name ∧ name ∉ o.params

theorem mem_namesAll {params : List String} {es : List Expression} {e : Expression}
    {o : Occurrence} (he : e ∈ es) (ho : o ∈ e.names params) :
    o ∈ Expression.namesAll params es := by
  induction es with
  | nil => exact nomatch he
  | cons e' es ih =>
      rw [Expression.namesAll, List.mem_append]
      rcases List.mem_cons.1 he with rfl | he
      · exact .inl ho
      · exact .inr (ih he)

/-- A name that is spelled for a usual mention is a parameter of a function around it, the
name of an import that there was, or a new one. -/
theorem spelled_cases {base scope : ImportScope} (hgrown : Grown base scope)
    {runtime : TranslationRuntime} {registers : Prop} {qs : List Mention} {os : List Occurrence}
    (husual : ∀ q ∈ qs, q.Usual runtime registers) (hspelled : Spelled scope qs os)
    {o : Occurrence} (ho : o ∈ os) :
    o.name ∈ o.params ∨ (∃ key, base.bound.lookup key = some o.name) ∨ o.name ∉ base.taken := by
  have himport : ∀ {key}, scope.bound.lookup key = some o.name →
      (∃ key, base.bound.lookup key = some o.name) ∨ o.name ∉ base.taken := fun {key} h =>
    (hgrown.lookup_cases h).imp (fun hbase => ⟨key, hbase⟩) fun hnew => hnew.2.2.1
  obtain ⟨q, hq, hname, hparams⟩ :=
    exists_of_forall₂ ((List.forall₂_and_left _ _).2 ⟨husual, hspelled⟩).flip ho
  cases hq with
  | outside key => exact .inr (himport hname)
  | waiting _ => exact .inr (himport hname)
  | own name =>
      rw [← hparams, ← Option.some.inj hname]
      exact .inl List.mem_cons_self

/-- A name in what is emitted for a call is a parameter of a function around it, the name
of an import that stays, or not an identifier of the module. -/
theorem emitted_cases {c : Configuration} {taken : List String} {kept : List ImportDeclaration}
    {scope : ImportScope} (hgrown : Grown (ImportScope.ofModule taken kept) scope) {em : Emission}
    {result : List Expression × Expression} (hspelled : em.Spelled c scope result)
    {e : Expression} (he : e = result.2 ∨ e ∈ result.1) {o : Occurrence} (ho : o ∈ e.names []) :
    o.name ∈ o.params ∨ (∃ d ∈ kept, o.name ∈ d.locals) ∨ o.name ∉ taken := by
  have hcases : o.name ∈ o.params ∨
      (∃ key, (ImportScope.ofModule taken kept).bound.lookup key = some o.name) ∨
        o.name ∉ taken := by
    rcases he with rfl | he
    · exact spelled_cases hgrown (em.subject.mentions_usual c) hspelled.subject ho
    · have husual : ∀ q ∈ em.registrationMentions c, q.Usual c.translations.runtime True := by
        intro q hq
        obtain ⟨t, -, hqt⟩ := List.mem_flatMap.1 hq
        exact t.mentions_usual trivial q hqt
      exact spelled_cases hgrown husual hspelled.registrations (mem_namesAll he ho)
  refine hcases.imp_right (Or.imp_left ?_)
  rintro ⟨key, hkey⟩
  obtain ⟨d, hd, hbinding⟩ := List.mem_flatMap.1 (mem_of_lookup_ofModule hkey)
  exact ⟨d, hd, ImportDeclaration.mem_locals_of_mem_bindings hbinding⟩

section

variable {tree : Node} {bindings : Bindings} {calls : List MacroCall} {es : List Expression}
  {header : String} {isMacro : ImportDeclaration → Bool} {place : Span} {name : String}
  (hplaced : tree.NamesPlaced text) (hfound : findCalls text bindings tree = .ok calls)

include hplaced hfound

/-- An argument of a call that is found has the text that a part of the module has. -/
theorem argument_standsIn {call : MacroCall} (hcall : call ∈ calls) {a : Argument}
    (ha : a ∈ call.args) : a.span.StandsIn text ∧ a.text = a.span.textIn text := by
  obtain ⟨callee, _, args, hsite, -, hargs⟩ := exists_site_of_found hfound hcall
  rw [hargs] at ha
  obtain ⟨arg, harg, rfl⟩ := List.mem_map.1 ha
  obtain ⟨-, -, hplaces⟩ := hplaced.sites _ hsite
  exact ⟨(hplaces arg harg).1, rfl⟩

/-- What is referred to at a place that stays is in the code. -/
theorem occursIn_of_stays (hlength : es.length = calls.length)
    (href : .reference place name ∈ tree.sites) (hstays : Stays (calls.zip es) place) :
    Text.OccursIn (place.textIn text)
      (assembled text (imports tree) ((imports tree).filter isMacro) (calls.zip es) header) := by
  have hsplices := @splices_assembled text tree bindings calls es header isMacro hplaced.toPlaced
    hfound hlength
  obtain ⟨hplace, himports, -⟩ := hplaced.sites _ href
  rcases hstays with hapart | ⟨c, hc, a, ha, hcopied, hcovers⟩
  · obtain ⟨before, after, htext, hstart, hstop⟩ := hplace.textIn_split
    refine hsplices.kept_infix htext fun e he => ?_
    rw [Nat.zero_add, hstart, hstop]
    exact moduleEdits_apart_span hplaced.toPlaced hplace himports hapart
      ((sorted_perm _ _).mem_iff.1 he)
  · obtain ⟨harg, htext⟩ := argument_standsIn hplaced hfound (List.of_mem_zip hc).1 ha
    have hedit : Edit.guarded (replacement text c.1 c.2, isGuarded text c.1 c.2) ∈
        moduleEdits text (imports tree) ((imports tree).filter isMacro) (calls.zip es) header :=
      List.mem_append_left _ (List.mem_append_left _ (List.mem_map_of_mem hc))
    have hwithin : Text.OccursIn (place.textIn text) a.text := by
      rw [htext]
      exact harg.textIn_infix hplace hcovers
    have hrendered := c.2.occursIn_render (Text.indentDepth text c.1.span.start) hcopied
    have hput : Text.OccursIn a.text
        (Edit.guarded (replacement text c.1 c.2, isGuarded text c.1 c.2)).text :=
      hrendered.right _
    exact (hwithin.trans hput).trans (hsplices.text_infix ((sorted_perm _ _).mem_iff.2 hedit))

/-- A name that stays nowhere is within a call. -/
theorem stays_or_within_call (href : .reference place name ∈ tree.sites) :
    Stays (calls.zip es) place ∨ ∃ call ∈ calls, call.span.covers place = true := by
  obtain ⟨-, -, hwithin⟩ := hplaced.sites _ href
  by_cases hcall : ∃ call ∈ calls, call.span.covers place = true
  · exact .inr hcall
  · refine .inl (.inl fun c hc => ?_)
    have hmem := (List.of_mem_zip hc).1
    refine (hwithin _ (mem_callSpans_of_found hfound hmem)).resolve_left fun hcovers => ?_
    exact hcall ⟨c.1, hmem, hcovers⟩

/-- A name that is bound to a macro stays nowhere. -/
theorem not_stays_of_bound (hlength : es.length = calls.length)
    (href : .reference place name ∈ tree.sites) (hbound : (bindings.lookup name).isSome = true) :
    ¬Stays (calls.zip es) place := by
  obtain ⟨⟨call, hcall, hwithin⟩, hargs⟩ := hplaced.bound_within_call hfound href hbound
  rintro (hapart | ⟨c, hc, a, ha, -, hcovers⟩)
  · rw [← List.map_fst_zip (Nat.le_of_eq hlength.symm)] at hcall
    obtain ⟨c, hc, rfl⟩ := List.mem_map.1 hcall
    exact hwithin (hapart c hc)
  · rw [hargs c.1 (List.of_mem_zip hc).1 a ha] at hcovers
    exact nomatch hcovers

end

theorem exists_of_mem_zip {α β γ : Type} {R : γ → α → Prop} {S : γ → β → Prop} {as : List α}
    {bs : List β} {cs : List γ} (h : List.Forall₂ R cs as) (h' : List.Forall₂ S cs bs) {p : α × β}
    (hp : p ∈ as.zip bs) : ∃ c, R c p.1 ∧ S c p.2 := by
  induction h generalizing bs with
  | nil =>
      cases h'
      exact nomatch hp
  | @cons c _ _ _ hfirst _ ih =>
      cases h' with
      | cons hfirst' hrest' =>
          rcases List.mem_cons.1 hp with rfl | hp
          · exact ⟨c, hfirst, hfirst'⟩
          · exact ih hrest' hp

/-- What is emitted is part of a result. -/
theorem exists_result_of_emitted {calls : List MacroCall}
    {results : List (List Expression × Expression)} {e : Expression}
    (h : e ∈ (calls.zip (results.map (·.2))).map (·.2) ++ results.flatMap (·.1)) :
    ∃ result ∈ results, e = result.2 ∨ e ∈ result.1 := by
  rcases List.mem_append.1 h with h | h
  · obtain ⟨c, hc, rfl⟩ := List.mem_map.1 h
    obtain ⟨result, hresult, heq⟩ := List.mem_map.1 (List.of_mem_zip hc).2
    exact ⟨result, hresult, .inl heq.symm⟩
  · obtain ⟨result, hresult, he⟩ := List.mem_flatMap.1 h
    exact ⟨result, hresult, .inr he⟩

/-- What the code of an expanded module refers to. Its names are those that the module
refers to at places that stay, outside of calls and in arguments that are copied, and those
that are emitted; nothing but arguments is copied. A name that a removed import binds, and
no import that stays, is referred to exactly if no removed import binds it as a value and
the module refers to it at a place that stays. -/
theorem expandModule_refers_iff {r r' : Registry} {m : ExpandedModule}
    (h : expandModule s r text = (r', .ok (some m)))
    (hplaced : ∀ tree, parse (.ofPath s.file) text = .ok tree → tree.NamesPlaced text) :
    ∃ tree calls, ∃ es : List Expression, ∃ x : Expansion,
      analyze s.configuration s.file text = .ok (some (tree, calls)) ∧
      es.length = calls.length ∧
      let ds := imports tree
      let removed := ds.filter s.configuration.macroSources.isMacroImport
      let kept := ds.filter (!s.configuration.macroSources.isMacroImport ·)
      let expanded := calls.zip es
      m.code = assembled text ds removed expanded x.header ∧
      (∀ place name, .reference place name ∈ tree.sites →
        (Stays expanded place ∨ ∃ call ∈ calls, call.span.covers place = true) ∧
        (Stays expanded place → Text.OccursIn (place.textIn text) m.code)) ∧
      (∀ c ∈ expanded, ∀ copied ∈ c.2.sources, ∃ a ∈ c.1.args, a.text = copied) ∧
      (∀ e ∈ x.prelude, e.CopiesNothing) ∧
      ∀ d ∈ removed, ∀ name ∈ d.locals, (∀ k ∈ kept, name ∉ k.locals) →
        (Refers tree expanded x.prelude name ↔
          (∀ d' ∈ removed, name ∉ d'.valueLocals) ∧
          ∃ place, .reference place name ∈ tree.sites ∧ Stays expanded place) := by
  obtain ⟨tree, calls, ems, results, x, hcalls, hsubjects, hrun, hprelude, hcode⟩ :=
    expandModule_yields yields_expand_copied h
  obtain ⟨hparse, bindings, hbindings, hfound⟩ := analyze_eq_ok hcalls
  have hplaced := hplaced tree hparse
  have hlength : (results.map (·.2)).length = calls.length := by
    rw [List.length_map, ← emitAll_length hrun, hsubjects.length_eq]
  obtain ⟨hgrown, hspelled⟩ := (emitAll_spelled s.configuration ems).of_run hrun
  obtain ⟨-, hcopied⟩ := (Emits.mapM (Emission.emits_copied s.configuration) ems).of_run hrun
  refine ⟨tree, calls, results.map (·.2), x, hcalls, hlength, hcode, fun place name href => ?_,
    fun c hc copied hmem => ?_, fun e he => ?_, fun d hd name hname hfree => ?_⟩
  · refine ⟨stays_or_within_call hplaced hfound href, fun hstays => ?_⟩
    rw [hcode]
    exact occursIn_of_stays hplaced hfound hlength href hstays
  · have hsources : List.Forall₂ (fun em e => e.sources = em.subject.copied) ems
        (results.map (·.2)) := List.forall₂_map_right_iff.2 (hcopied.imp fun _ _ h => h.subject)
    obtain ⟨em, ⟨-, hargs⟩, heq⟩ := exists_of_mem_zip hsubjects hsources hc
    exact List.mem_map.1 (hargs (heq ▸ hmem))
  · rw [hprelude] at he
    obtain ⟨result, hresult, he⟩ := List.mem_flatMap.1 he
    obtain ⟨em, hem⟩ := exists_of_forall₂ hcopied.flip hresult
    exact hem.registrations e he
  · constructor
    · rintro (⟨place, href, hstays⟩ | ⟨e, he, o, ho, rfl, hparams⟩)
      · refine ⟨fun d' hd' hvalue => ?_, place, href, hstays⟩
        obtain ⟨hd', hprovided⟩ := List.mem_filter.1 hd'
        have hbound := (MacroSources.lookup_bindings_isSome hbindings).2
          ⟨d', hd', hprovided, hvalue⟩
        exact not_stays_of_bound hplaced hfound hlength href hbound hstays
      · obtain ⟨result, hresult, he⟩ := exists_result_of_emitted (hprelude ▸ he)
        obtain ⟨em, hem⟩ := exists_of_forall₂ hspelled.flip hresult
        rcases emitted_cases hgrown hem he ho with hown | ⟨k, hk, hkept⟩ | hnew
        · exact absurd hown hparams
        · exact absurd hkept (hfree k hk)
        · exact absurd (hplaced.locals d (List.mem_filter.1 hd).1 hname) hnew
    · rintro ⟨-, place, href, hstays⟩
      exact .inl ⟨place, href, hstays⟩

/-- A module that binds one name as a value and another one for types only. -/
theorem expandModule_refers_type :
    let text := "import\x7bresolveRoute as r,type loadMenus as m\x7dfrom\"pages.macro\";r()as m"
    ∃ tree calls, ∃ es : List Expression, ∃ x : Expansion,
      analyze aloneInProject.configuration aloneInProject.file text =
        .ok (some (tree, calls)) ∧
      Refers tree (calls.zip es) x.prelude "m" ∧ ¬Refers tree (calls.zip es) x.prelude "r" := by
  intro text
  have hplaced : (parse (.ofPath aloneInProject.file) text).toOption.all
      (fun tree => decide (tree.NamesPlaced text)) = true := by
    decide +kernel
  have hexpanded : (expandModule aloneInProject (({} : Registry).registerRoute ⟨"/p/src"⟩ "/a")
      text).2.toOption.join.isSome = true := by
    decide +kernel
  -- the type stands behind the only call
  have hfacts : (analyze aloneInProject.configuration aloneInProject.file
      text).toOption.join.map (fun a => ((imports a.1).map fun d =>
        (aloneInProject.configuration.macroSources.isMacroImport d, d.locals, d.valueLocals),
        a.2.map (·.span), referencesTo "m" a.1)) =
      some ([(true, ["r", "m"], ["r"])], [⟨63, 66⟩], [⟨69, 70⟩]) := by
    decide +kernel
  obtain ⟨r, m, hrun⟩ := exists_expanded hexpanded
  obtain ⟨tree, calls, es, x, hcalls, -, -, -, -, -, hrefers⟩ :=
    expandModule_refers_iff hrun fun _ => of_parsed hplaced
  rw [hcalls] at hfacts
  obtain ⟨himports, hfacts⟩ := Prod.mk.inj (Option.some.inj hfacts)
  obtain ⟨hspans, hplaces⟩ := Prod.mk.inj hfacts
  obtain ⟨d, hd, hdeclaration⟩ := List.map_eq_singleton_iff.1 himports
  simp only [Prod.mk.injEq] at hdeclaration
  obtain ⟨hprovided, hlocals, hvalues⟩ := hdeclaration
  rw [hd, List.filter_singleton, List.filter_singleton, hprovided] at hrefers
  have hrefers := hrefers d List.mem_cons_self
  refine ⟨tree, calls, es, x, hcalls, ?_, ?_⟩
  · refine (hrefers "m" (by rw [hlocals]; decide) fun _ h => nomatch h).2 ⟨?_, ⟨69, 70⟩, ?_, ?_⟩
    · intro d' hd'
      rw [List.mem_singleton.1 hd', hvalues]
      decide
    · exact mem_sites_of_referencesTo (hplaces ▸ List.mem_cons_self)
    · refine .inl fun c hc => .inl ?_
      have hspan := List.mem_map_of_mem (f := (·.span)) (List.of_mem_zip hc).1
      rw [hspans] at hspan
      rw [List.mem_singleton.1 hspan]
      decide
  · intro hrefersTo
    have hnone := ((hrefers "r" (by rw [hlocals]; decide) fun _ h => nomatch h).1 hrefersTo).1
    exact hnone d List.mem_cons_self (by rw [hvalues]; decide)

/-- A name that is bound for types only is left: the code refers to it, and neither imports
nor declares it. -/
theorem expandModule_leaves_type :
    let text := "import type\x7bresolveRoute\x7dfrom\"pages.macro\"\n" ++
      "export type R=typeof resolveRoute"
    let code := "export type R=typeof resolveRoute"
    (parse (.ofPath aloneInProject.file) text).toOption.map (fun tree =>
        (imports tree).map fun d =>
          (aloneInProject.configuration.macroSources.isMacroImport d, d.locals)) =
        some [(true, ["resolveRoute"])] ∧
      (expandModule aloneInProject {} text).2.toOption.join.map (·.code) = some code ∧
      (parse (.ofPath aloneInProject.file) code).toOption.map (fun tree =>
        (imports tree, identifiers tree, referencesTo "resolveRoute" tree)) =
        some ([], ["R", "resolveRoute"], [⟨21, 33⟩]) := by
  decide +kernel

end Expansion

end SiteMacros
