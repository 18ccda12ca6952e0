import SiteMacros.Proofs.LocalNames

/-!
# What expansions open with

Whether a text can be read on from the one before it is a matter of its first character. The
expansion of a call opens with a parenthesis exactly if it registers translations, and with a
square bracket or a backtick exactly if it is a list or a template (`expandModule_opens`). All
others open with a quote, a brace or a name. A name is that of an import: one that the module
has, which begins as names do (`parse_imports_named`), or a new one.
-/

namespace SiteMacros

namespace Script

theorem IsName.exists_start {name : String} (h : IsName name) :
    ∃ c, name.toList.head? = some c ∧ c ≠ '(' ∧ c ≠ '[' ∧ c ≠ '\x60' := by
  obtain ⟨c, cs, hname, hc, -⟩ := h.isWord.exists_chars
  rw [hname]
  refine ⟨c, rfl, ?_, ?_, ?_⟩
  all_goals
    rintro rfl
    exact absurd hc (by decide)

end Script

namespace Expression

open Script

/-- Does the expression open with a square bracket or a backtick? -/
def opensList : Expression → Bool
  | .array _ | .template _ => true
  | _ => false

/-- At every depth the text of the expression, which a call of the macro has come to, opens with
a parenthesis if and only if the macro registers translations, and with a square bracket or a
backtick if and only if it is a list or a template. -/
def OpensFor (callee : MacroName) (e : Expression) : Prop :=
  ∀ depth, ∃ c, (e.render depth).toList.head? = some c ∧
    (c = '(' ↔ callee = .loadTranslations) ∧ (c = '[' ∨ c = '\x60' ↔ e.opensList = true)

/-- A call of a function that is written out opens with a parenthesis. -/
theorem opensFor_call_arrow (params : List String) (body : Expression) (args : List Expression) :
    (call (arrow params body) args).OpensFor .loadTranslations := by
  intro depth
  refine ⟨'(', ?_, iff_of_true rfl rfl, iff_of_false (by decide) Bool.false_ne_true⟩
  simp [render, needsParens, parens]

section

variable {callee : MacroName} (h : callee ≠ .loadTranslations)

include h

theorem opensFor_array (es : List Expression) : (array es).OpensFor callee := by
  intro depth
  refine ⟨'[', ?_, iff_of_false (by decide) h, iff_of_true (.inl rfl) rfl⟩
  cases es <;> simp [render]

theorem opensFor_object (ps : List (String × Expression)) : (object ps).OpensFor callee := by
  intro depth
  refine ⟨'\x7b', ?_, iff_of_false (by decide) h, iff_of_false (by decide) Bool.false_ne_true⟩
  cases ps <;> simp [render]

theorem opensFor_string (s : String) : (string s).OpensFor callee := by
  intro depth
  refine ⟨'"', ?_, iff_of_false (by decide) h, iff_of_false (by decide) Bool.false_ne_true⟩
  simp [render, Text.quoted]

theorem opensFor_template (parts : List TemplatePart) : (template parts).OpensFor callee := by
  intro depth
  refine ⟨'\x60', ?_, iff_of_false (by decide) h, iff_of_true (.inr rfl) rfl⟩
  simp [render]

theorem opensFor_ofPieces (ps : List Piece) : (ofPieces ps).OpensFor callee := by
  rw [ofPieces.eq_def]
  split
  · exact opensFor_string h _
  · exact opensFor_template h _

theorem opensFor_value (ns : NamespaceRef) : ns.value.OpensFor callee := by
  cases ns with
  | single id => exact opensFor_string h id
  | chain ids => exact opensFor_array h _

variable {name : String} (hname : IsName name)

include hname

/-- A call of a name, or of a member of what has a name, opens with the name. -/
theorem opensFor_call_name (args : List Expression) :
    (call (.name name) args).OpensFor callee := by
  intro depth
  obtain ⟨c, hc, hparen, hlist⟩ := hname.exists_start
  refine ⟨c, ?_, iff_of_false hparen h, iff_of_false (not_or.2 hlist) Bool.false_ne_true⟩
  simp [render, needsParens, parens, hc]

theorem opensFor_call_member (property : String) (args : List Expression) :
    (call (.member (.name name) property) args).OpensFor callee := by
  intro depth
  obtain ⟨c, hc, hparen, hlist⟩ := hname.exists_start
  refine ⟨c, ?_, iff_of_false hparen h, iff_of_false (not_or.2 hlist) Bool.false_ne_true⟩
  simp [render, needsParens, parens, hc]

end

end Expression

/-- Letters and digits are ASCII characters. -/
theorem Text.isIdentifierPart_of_alphanum {c : Char} (h : c.isAlphanum = true) :
    isIdentifierPart c = true := by
  have hle : c.val ≤ 'Z'.val ∨ c.val ≤ 'z'.val ∨ c.val ≤ '9'.val := by
    rcases Bool.or_eq_true_iff.1 (h : (c.isAlpha || c.isDigit) = true) with halpha | hdigit
    · rcases Bool.or_eq_true_iff.1 (halpha : (c.isUpper || c.isLower) = true) with hupper | hlower
      · exact .inl ((of_decide_eq_true hupper).2)
      · exact .inr (.inl (of_decide_eq_true (Bool.and_eq_true_iff.1 hlower).2))
    · exact .inr (.inr (of_decide_eq_true (Bool.and_eq_true_iff.1 hdigit).2))
  have hc : c.toNat < 128 := by
    have hlast : 'Z'.val.toNat = 90 ∧ 'z'.val.toNat = 122 ∧ '9'.val.toNat = 57 := by decide
    rw [Char.toNat]
    rw [UInt32.le_iff_toNat_le, UInt32.le_iff_toNat_le, UInt32.le_iff_toNat_le] at hle
    omega
  rw [isIdentifierPart, if_pos hc, h]
  rfl

namespace ImportScope

open Text

/-- Are all that the scope has for imports words that may name variables? -/
def IsNamed (scope : ImportScope) : Prop :=
  ∀ key name, scope.bound.lookup key = some name → Script.IsName name

theorem isIdentifierPart_of_mem_sanitize {hint : String} {c : Char}
    (h : c ∈ (sanitize hint).toList) : isIdentifierPart c = true := by
  rw [sanitize, String.toList_ofList] at h
  obtain ⟨d, -, rfl⟩ := List.mem_map.1 h
  split
  · next hd =>
      rcases Bool.or_eq_true_iff.1 hd with hd | hd
      · exact isIdentifierPart_of_alphanum hd
      · rw [eq_of_beq hd]
        decide
  · decide

theorem isIdentifierPart_of_mem_toString {n : Nat} {c : Char} (h : c ∈ (toString n).toList) :
    isIdentifierPart c = true := by
  rw [Nat.toString_eq_repr, Nat.toList_repr] at h
  have hdigit := Nat.isDigit_of_mem_toDigits (by decide) (by decide) h
  exact isIdentifierPart_of_alphanum (by rw [Char.isAlphanum, hdigit, Bool.or_true])

/-- No reserved word begins as a candidate does. -/
theorem candidate_isName (hint : String) (n : Nat) : Script.IsName (candidate hint n) := by
  obtain ⟨cs, hcandidate, hparts⟩ : ∃ cs, (candidate hint n).toList = '_' :: cs ∧
      ∀ d ∈ cs, isIdentifierPart d = true := by
    have hhint : ∀ d ∈ "_pm_".toList ++ (sanitize hint).toList, isIdentifierPart d = true :=
      List.forall_mem_append.2
        ⟨List.all_eq_true.1 (by decide), fun _ => isIdentifierPart_of_mem_sanitize⟩
    rw [candidate]
    split
    · exact ⟨_, by rw [String.toList_append]; rfl, hhint⟩
    · refine ⟨_, by rw [String.toList_append, String.toList_append, String.toList_append]; rfl, ?_⟩
      exact List.forall_mem_append.2
        ⟨List.forall_mem_append.2 ⟨hhint, List.all_eq_true.1 (by decide)⟩,
          fun _ => isIdentifierPart_of_mem_toString⟩
  constructor
  · rw [Script.IsWord, hcandidate]
    exact Script.spells_cons.2 ⟨by decide, hparts⟩
  · have hreserved : ∀ w ∈ "await" :: Script.reservedWords, candidate hint n ≠ w := by
      intro w hw heq
      have hfirst : ∀ w ∈ "await" :: Script.reservedWords, w.toList.head? ≠ some '_' := by
        decide +kernel
      exact hfirst w hw (by rw [← heq, hcandidate]; rfl)
    obtain ⟨hawait, hreserved⟩ := List.forall_mem_cons.1 hreserved
    rw [Script.isIdentifier, Bool.and_eq_true, bne_iff_ne, Bool.not_eq_true']
    refine ⟨hawait, Bool.eq_false_iff.2 fun hmem => ?_⟩
    exact hreserved _ (List.contains_iff_mem.1 hmem) rfl

/-- What a scope adds are names. -/
theorem Grown.isNamed {base scope : ImportScope} (h : Grown base scope) (hbase : base.IsNamed) :
    scope.IsNamed := by
  intro key name hname
  rcases h.lookup_cases hname with hold | ⟨-, -, -, hint, n, rfl⟩
  · exact hbase key name hold
  · exact candidate_isName hint n

theorem ofModule_isNamed {taken : List String} {kept : List Script.ImportDeclaration}
    (h : ∀ d ∈ kept, ∀ name ∈ d.locals, Script.IsName name) : (ofModule taken kept).IsNamed := by
  intro key name hname
  obtain ⟨d, hd, hbinding⟩ := List.mem_flatMap.1 (mem_of_lookup_ofModule hname)
  exact h d hd name (Script.ImportDeclaration.mem_locals_of_mem_bindings hbinding)

end ImportScope

/-! ## Expansions of calls -/

/-- Lists that correspond to the same list correspond to each other. -/
theorem forall₂_of_left {α β γ : Type} {R : α → β → Prop} {S : α → γ → Prop} {T : β → γ → Prop}
    (h : ∀ a b c, R a b → S a c → T b c) {as : List α} {bs : List β} {cs : List γ}
    (hR : List.Forall₂ R as bs) (hS : List.Forall₂ S as cs) : List.Forall₂ T bs cs := by
  induction hR generalizing cs with
  | nil =>
      cases hS
      exact .nil
  | cons hfirst _ ih =>
      cases hS with
      | cons hfirst' hrest => exact .cons (h _ _ _ hfirst hfirst') (ih hrest)

open Expression

theorem Translations.emits_opensFor (runtime : TranslationRuntime) (t : Translations) :
    Emits (t.emit runtime) fun _ e => e.OpensFor .loadTranslations :=
  .bind (.requestDefault _ _) fun holder =>
    .bind (emitResources_emits runtime holder t.id t.resources) fun _ =>
      .pure fun _ _ _ => opensFor_call_arrow _ _ _

theorem Route.emits_opensFor (wrapper : RuntimeImport) (r : Route) :
    Emits (r.emit wrapper) fun _ e => e.OpensFor .loadRoutes := by
  obtain ⟨id, name, path, exact, isMenuItem, sync, component, metadata, translations, children⟩ := r
  rw [emit]
  refine .bind (emitsAll wrapper children) fun _ => .bind (component.emits wrapper) fun _ => ?_
  exact .bind (emitMetadata_emits metadata) fun _ => .pure fun _ _ _ _ =>
    opensFor_object (by nofun) _

/-- What a call has come to opens as is said of its macro, in a scope whose names are names. -/
theorem Subject.emits_opensFor (c : Configuration) (subject : Subject) :
    Emits (subject.emit c) fun later e => later.IsNamed → e.OpensFor subject.macroName := by
  cases subject with
  | routes route => exact (route.emits_opensFor _).imp fun _ _ h _ => h
  | menu entries =>
      exact .bind (Menu.emitsAll entries) fun es => .pure fun _ _ _ => opensFor_array (by nofun) es
  | path pieces => exact .pure fun _ _ => opensFor_ofPieces (by nofun) pieces
  | registration t => exact (t.emits_opensFor _).imp fun _ _ h _ => h
  | reader ns =>
      refine .bind (.requestNamed _ _) fun name => .pure fun _ h hnamed => ?_
      exact opensFor_call_name (by nofun) (hnamed _ _ h) _
  | fixedReader ns =>
      refine .bind (.requestDefault _ _) fun name => .pure fun _ h hnamed => ?_
      exact opensFor_call_member (by nofun) (hnamed _ _ h) _ _
  | namespaces ns => exact .pure fun _ _ => opensFor_value (by nofun) ns

theorem Emission.emits_opensFor (c : Configuration) (em : Emission) :
    Emits (em.emit c) fun later result =>
      later.IsNamed → result.2.OpensFor em.subject.macroName := by
  refine .bind (registrations_emit c em.registrations) fun es => ?_
  exact .bind (em.subject.emits_opensFor c) fun e => .pure fun _ h _ => h

namespace Expansion

open Script

variable {s : Surroundings}

/-- The calls of an expanded module have been expanded one after the other, its code is its text
with their expressions in their places, and each of these opens as is said of its macro. -/
theorem expandModule_opens {r r' : Registry} {text : String} {m : ExpandedModule}
    (h : expandModule s r text = (r', .ok (some m))) :
    ∃ tree calls es, ∃ x : Expansion,
      analyze s.configuration s.file text = .ok (some (tree, calls)) ∧
      let ds := imports tree
      let macroImports := ds.filter s.configuration.macroSources.isMacroImport
      let kept := ds.filter (!s.configuration.macroSources.isMacroImport ·)
      perform (calls.mapM expand) s
        { registry := r, scope := .ofModule (identifiers tree) kept } = (.ok es, x) ∧
      es.length = calls.length ∧
      m.code = assembled text ds macroImports (calls.zip es) x.header ∧
      ∀ c ∈ calls.zip es, c.2.OpensFor c.1.callee := by
  obtain ⟨tree, calls, es, x, hcalls, hes, hlength, hcode⟩ := expandModule_performs h
  refine ⟨tree, calls, es, x, hcalls, hes, hlength, hcode, ?_⟩
  obtain ⟨ems, results, hmacros, hrun, rfl, -⟩ := perform_mapM_expand yields_expand hes
  obtain ⟨hgrown, hopens⟩ :=
    (Emits.mapM (Emission.emits_opensFor s.configuration) ems).of_run hrun
  have hnamed : x.scope.IsNamed := by
    refine hgrown.isNamed (ImportScope.ofModule_isNamed fun d hd => ?_)
    exact parse_imports_named (analyze_eq_ok hcalls).1 d (List.mem_filter.1 hd).1
  have hall : List.Forall₂ (fun call e => Expression.OpensFor call.callee e) calls
      (results.map (·.2)) := by
    refine List.forall₂_map_right_iff.2 (forall₂_of_left (fun em call result hmacro hem => ?_)
      hmacros hopens)
    have hresult := hem hnamed
    rwa [show em.subject.macroName = call.callee from hmacro] at hresult
  exact fun c hc => (List.forall₂_iff_zip.1 hall).2 hc

end Expansion

end SiteMacros
