import SiteMacros.Proofs.Leftovers
import SiteMacros.Proofs.ParserRuns

/-!
# Local names of imports

The local names that a module's imports bind are names as the scanner reads them, and may name
a variable: each is a word that is not reserved (`parse_imports_named`). So code that refers to
an import begins with a character that may begin a name, and with no mark.

A statement is a group, unless it is the declaration of an import. Within such a declaration
nothing but steps from token to token is done, so all of its tokens but the first have been
scanned; and what can be bound is a word.
-/

namespace SiteMacros.Script

open Text

/-- Do the characters spell a word: one that may begin a name, and then such as may stand in
one? -/
def spells : List Char → Bool
  | [] => false
  | c :: cs => isIdentifierStart c && cs.all isIdentifierPart

/-- Is the text a word? -/
def IsWord (text : String) : Prop :=
  spells text.toList = true

theorem spells_cons {c : Char} {cs : List Char} :
    spells (c :: cs) = true ↔ isIdentifierStart c = true ∧ ∀ d ∈ cs, isIdentifierPart d = true := by
  rw [spells, Bool.and_eq_true_iff, List.all_eq_true]

theorem IsWord.exists_chars {text : String} (h : IsWord text) :
    ∃ c cs, text.toList = c :: cs ∧ isIdentifierStart c = true ∧
      ∀ d ∈ cs, isIdentifierPart d = true := by
  rw [IsWord] at h
  cases hchars : text.toList with
  | nil =>
      rw [hchars] at h
      exact nomatch h
  | cons c cs =>
      rw [hchars] at h
      exact ⟨c, cs, rfl, spells_cons.1 h⟩

/-- Is the text a word that may name a variable? -/
structure IsName (text : String) : Prop where
  isWord : IsWord text
  isIdentifier : isIdentifier text = true

/-! ## Names that are scanned -/

namespace Scanner

/-- What is read of a name after its first character are characters that may stand in it. -/
theorem nameBody_parts {offset skip : Nat} {cs text : List Char} {escaped : Bool} {stop : Nat}
    {rest : List Char} (h : nameBody false offset skip cs = some (text, escaped, stop, rest)) :
    ∀ d ∈ text, isIdentifierPart d = true := by
  induction cs generalizing offset skip text escaped with
  | nil =>
      cases h
      exact List.forall_mem_nil _
  | cons c cs ih =>
      rw [nameBody.eq_def] at h
      cases skip with
      | succ skip => exact ih h
      | zero =>
          simp only [Bool.false_eq_true, ↓reduceIte] at h
          split at h
          · -- a character that is spelled with an escape
            split at h
            · obtain ⟨⟨n, used⟩, -, h⟩ := Option.bind_eq_some_iff.1 h
              dsimp only at h
              split at h
              · next hfits =>
                  obtain ⟨⟨text', escaped', stop', rest'⟩, hbody, h⟩ := Option.bind_eq_some_iff.1 h
                  cases h
                  exact List.forall_mem_cons.2 ⟨hfits, ih hbody⟩
              · exact nomatch h
            · exact nomatch h
          · split at h
            · next hfits =>
                obtain ⟨⟨text', escaped', stop', rest'⟩, hbody, h⟩ := Option.map_eq_some_iff.1 h
                cases h
                exact List.forall_mem_cons.2 ⟨hfits, ih hbody⟩
            · cases h
              exact List.forall_mem_nil _

theorem nameBody_spells {offset : Nat} {cs text : List Char} {escaped : Bool} {stop : Nat}
    {rest : List Char} (h : nameBody true offset 0 cs = some (text, escaped, stop, rest)) :
    spells text = true := by
  cases cs with
  | nil => exact nomatch h
  | cons c cs =>
      rw [nameBody.eq_def] at h
      simp only [↓reduceIte] at h
      split at h
      · -- a name that begins with an escape
        split at h
        · next digits =>
            obtain ⟨⟨n, used⟩, -, h⟩ := Option.bind_eq_some_iff.1 h
            dsimp only at h
            split at h
            · next hfits =>
                obtain ⟨⟨text', escaped', stop', rest'⟩, hbody, h⟩ := Option.bind_eq_some_iff.1 h
                cases h
                exact spells_cons.2 ⟨hfits, nameBody_parts hbody⟩
            · exact nomatch h
        · exact nomatch h
      · split at h
        · next hfits =>
            obtain ⟨⟨text', escaped', stop', rest'⟩, hbody, h⟩ := Option.map_eq_some_iff.1 h
            cases h
            exact spells_cons.2 ⟨hfits, nameBody_parts hbody⟩
        · exact nomatch h

theorem lexeme_name {offset stop : Nat} {cs rest : List Char} {text : String} {escaped : Bool}
    (h : lexeme offset cs = (.name text escaped, stop, rest)) : IsWord text := by
  cases cs with
  | nil => exact nomatch h
  | cons c cs =>
      rw [lexeme] at h
      dsimp only at h
      split at h
      · split at h <;> exact nomatch h
      split at h
      · split at h <;> exact nomatch h
      split at h
      · split at h <;> exact nomatch h
      split at h
      · split at h
        · split at h <;> exact nomatch h
        · exact nomatch h
      split at h
      · split at h
        · next hname =>
            cases h
            rw [IsWord, String.toList_ofList]
            exact nameBody_spells hname
        · exact nomatch h
      · split at h <;> exact nomatch h

end Scanner

theorem Token.IsScanned.isWord {t : Token} (h : t.IsScanned) {text : String} {escaped : Bool}
    (hname : t.lexeme = .name text escaped) : IsWord text := by
  obtain ⟨offset, cs, rfl⟩ := h
  rw [Scanner.scan] at hname
  split at hname
  · exact nomatch hname
  · next start newLine here hblanks =>
      rcases hlexeme : Scanner.lexeme start here with ⟨what, stop, rest⟩
      rw [hlexeme] at hname
      cases hname
      exact Scanner.lexeme_name hlexeme

/-! ## Groups -/

/-- If the node is the declaration of an import, are its local names words that may name
variables? -/
def Node.ImportsNamed (n : Node) : Prop :=
  ∀ d bindings, n = .importDeclaration d bindings → ∀ name ∈ d.locals, IsName name

theorem yields_finish (k : Construct) (start : Nat) (parts : List Node) :
    Yields (Parse.finish k start parts) Node.ImportsNamed :=
  .bind fun _ => .pure fun _ _ => nofun

namespace Grammar

/-! ## Imports -/

/-- If the name is not a text, is it the word at its token? -/
def ExchangeName.IsNamed (n : ExchangeName) : Prop :=
  ∀ text escaped, n.token.lexeme = .name text escaped → n.text = text ∧ IsWord text

def ImportClause.names (c : ImportClause) : List ExchangeName :=
  c.default?.toList ++ c.whole?.toList ++ c.named.map (·.far)

theorem ImportClause.map_names (c : ImportClause) : c.names.map (·.text) =
    (c.default?.map (·.text)).toList ++ (c.whole?.map (·.text)).toList ++
      (c.named.map fun e => (⟨e.near.text, e.far.text, e.typeOnly⟩ : NamedImport)).map
        (·.localName) := by
  rw [names, List.map_append, List.map_append, List.map_map, List.map_map,
    Option.toList_map, Option.toList_map]
  rfl

theorem exchangeName_reads : Reads exchangeName ExchangeName.IsNamed := by
  refine .bind .token fun t ht => ?_
  split
  · next text escaped hlexeme =>
      refine .bind .step fun _ _ => .pure fun text' escaped' hname => ?_
      obtain ⟨rfl, -⟩ := Lexeme.name.inj (hlexeme.symm.trans hname)
      exact ⟨rfl, ht.isWord hlexeme⟩
  · next text hlexeme =>
      refine .bind .step fun _ _ => .pure fun _ _ hname => ?_
      rw [hlexeme] at hname
      exact nomatch hname
  · exact .fail

theorem atExchangeName_reads : Reads atExchangeName fun _ => True := by
  refine .bind .token fun t _ => ?_
  split
  · exact .pure trivial
  · exact .pure trivial
  · exact .pure trivial

theorem renamed_reads {near : ExchangeName} (h : near.IsNamed) (typeOnly : Bool) :
    Reads (renamed near typeOnly) fun e => e.far.IsNamed :=
  .bind (.eatWord _) fun _ _ => .ite (.bind exchangeName_reads fun _ h => .pure h) (.pure h)

theorem exchange_reads : Reads exchange fun e => e.far.IsNamed := by
  refine .bind exchangeName_reads fun first hfirst => .bind .types fun _ _ => ?_
  refine .ite ?_ (renamed_reads hfirst _)
  refine .bind (.atWord _) fun _ _ => .ite ?_ ?_
  · refine .bind exchangeName_reads fun firstAs hfirstAs => .bind (.atWord _) fun _ _ => .ite ?_ ?_
    · refine .bind exchangeName_reads fun secondAs hsecondAs => ?_
      refine .bind atExchangeName_reads fun _ _ => .ite ?_ (.pure hsecondAs)
      exact .bind exchangeName_reads fun _ h => .pure h
    · refine .bind atExchangeName_reads fun _ _ => .ite ?_ (.pure hfirstAs)
      exact .bind exchangeName_reads fun _ h => .pure h
  · refine .bind atExchangeName_reads fun _ _ => .ite ?_ (.pure hfirst)
    exact .bind exchangeName_reads fun _ h => renamed_reads h _

/-- A list of imports is read after what there may be of a clause, which it keeps. -/
theorem importList_reads {c : ImportClause} (hnamed : c.named = []) (hwhole : c.whole? = none)
    (h : ∀ n ∈ c.names, n.IsNamed) :
    Reads (importList c) fun c => ∀ n ∈ c.names, n.IsNamed := by
  have hdefault : ∀ n ∈ c.default?.toList, n.IsNamed := fun n hn =>
    h n (List.mem_append_left _ (List.mem_append_left _ hn))
  refine .bind (.eat _) fun _ _ => .ite ?_ ?_
  · refine .bind (.expectWord _) fun _ _ => .bind exchangeName_reads fun n hn => .pure ?_
    rw [ImportClause.names, hnamed, List.map_nil, List.append_nil]
    exact List.forall_mem_append.2 ⟨hdefault, List.forall_mem_singleton.2 hn⟩
  · refine .bind (.expect _) fun _ _ => .bind (.commaList exchange_reads _) fun es hes => .pure ?_
    rw [ImportClause.names, hwhole, Option.toList_none, List.append_nil]
    exact List.forall_mem_append.2 ⟨hdefault, List.forall_mem_map.2 hes⟩

theorem importClause_reads : Reads importClause fun c => ∀ n ∈ c.names, n.IsNamed := by
  refine .bind (.atMark _) fun _ _ => .bind (.atMark _) fun _ _ => .ite ?_ ?_
  · exact importList_reads rfl rfl (List.forall_mem_nil _)
  · refine .bind exchangeName_reads fun n hn => ?_
    have hdefault : ∀ m ∈ [n], m.IsNamed := List.forall_mem_singleton.2 hn
    refine .bind (.eat _) fun _ _ => .ite ?_ (.pure hdefault)
    exact importList_reads rfl rfl hdefault

theorem atTypeImport_reads : Reads atTypeImport fun _ => True := by
  refine .bind .types fun _ _ => .bind (.atWord _) fun _ _ => .ite ?_ (.pure trivial)
  refine .bind .peek fun next _ => .ite (.pure trivial) ?_
  refine .bind (.isVariable next) fun _ _ => .ite ?_ (.pure trivial)
  exact .ite (.pure trivial) (.pure trivial)

theorem exists_name_of_isVariable {t : Token} {s : Setting} {c c' : Cursor}
    (h : Parse.isVariable t s c = .ok (true, c')) :
    ∃ text escaped, t.lexeme = .name text escaped ∧ isIdentifier text = true := by
  rw [Parse.isVariable.eq_def] at h
  generalize t.lexeme = lexeme at h ⊢
  cases lexeme with
  | name text escaped =>
      have hvariable : (isIdentifier text && !(text == "yield" && s.yields)) = true :=
        congrArg Prod.fst (Except.ok.inj h)
      exact ⟨text, escaped, rfl, (Bool.and_eq_true_iff.1 hvariable).1⟩
  | _ => cases h

/-- A name that can be bound is a word that may name a variable. -/
theorem bound_isName {n : ExchangeName} (h : n.IsNamed) {s : Setting} {c c' : Cursor} {node : Node}
    (hrun : bound n s c = .ok (node, c')) : IsName n.text := by
  obtain ⟨b, c₁, hb, hrun⟩ := run_bind_ok hrun
  cases b with
  | false => exact nomatch hrun
  | true =>
      obtain ⟨text, escaped, hlexeme, hidentifier⟩ := exists_name_of_isVariable hb
      obtain ⟨rfl, hword⟩ := h text escaped hlexeme
      exact ⟨hword, hidentifier⟩

theorem mapM_bound_isName {ns : List ExchangeName} (h : ∀ n ∈ ns, n.IsNamed) {s : Setting}
    {c c' : Cursor} {nodes : List Node} (hrun : ns.mapM bound s c = .ok (nodes, c')) :
    ∀ n ∈ ns, IsName n.text := by
  induction ns generalizing c nodes with
  | nil => exact List.forall_mem_nil _
  | cons n ns ih =>
      obtain ⟨hn, hns⟩ := List.forall_mem_cons.1 h
      rw [List.mapM_cons] at hrun
      obtain ⟨node, c₁, hfirst, hrun⟩ := run_bind_ok hrun
      obtain ⟨rest, c₂, hrest, hrun⟩ := run_bind_ok hrun
      cases hrun
      exact List.forall_mem_cons.2 ⟨bound_isName hn hfirst, ih hns hrest⟩

theorem importFrom_yields (start : Nat) (typeOnly : Bool) {clause : Option ImportClause}
    (h : ∀ n ∈ (clause.getD {}).names, n.IsNamed) :
    Yields (importFrom start typeOnly clause) Node.ImportsNamed := by
  refine .bind fun _ => .bind fun _ => .bind fun _ => ?_
  intro s c node last hrun
  generalize clause.getD {} = clause at h hrun
  obtain ⟨names, c₁, hnames, hrun⟩ := run_bind_ok hrun
  have hnamed := mapM_bound_isName h hnames
  cases hrun
  rintro d bindings ⟨⟩
  rw [ImportDeclaration.locals, ← clause.map_names]
  exact List.forall_mem_map.2 hnamed

theorem expectWord_scanned {w : String} {s : Setting} {c c' : Cursor} {u : Unit}
    (h : Parse.expectWord w s c = .ok (u, c')) : c'.token.IsScanned := by
  obtain ⟨b, c₁, heat, hrun⟩ := run_bind_ok h
  obtain ⟨at_, c₂, hat, heat⟩ := run_bind_ok heat
  cases at_ with
  | false =>
      cases heat
      exact nomatch hrun
  | true =>
      cases heat
      cases hrun
      exact ⟨_, _, rfl⟩

theorem importEquals_yields (start : Nat) (name : Node) :
    Yields (importEquals start name) Node.ImportsNamed := by
  refine .bind fun _ => .bind fun _ => .bind fun _ => ?_
  repeat' first | exact yields_finish _ _ _ | refine .bind fun _ => ?_ | refine .ite ?_ ?_

/-- After its first word nothing but scanned tokens is read of an import. -/
theorem importDeclaration_yields : Yields importDeclaration Node.ImportsNamed := by
  refine .bind fun start => ?_
  intro s c node last hrun
  obtain ⟨_, c', hword, hrun⟩ := run_bind_ok hrun
  refine YieldsFrom.bind .token (fun t _ => ?_) s c' node last (expectWord_scanned hword) hrun
  have hclause (typeOnly : Bool) : YieldsFrom (do
      let next ← Parse.peek
      if (← Parse.types) && next.isMark "=" then
        let name ← Parse.binding
        importEquals start name
      else
        let c ← importClause
        Parse.expectWord "from"
        importFrom start typeOnly (some c)) Node.ImportsNamed := by
    refine .bind .peek fun next _ => .bind .types fun _ _ => .ite ?_ ?_
    · exact .of_yields (.bind fun _ => importEquals_yields _ _)
    · refine .bind importClause_reads fun c hc => .bind (.expectWord _) fun _ _ => ?_
      exact .of_yields (importFrom_yields _ _ hc)
  split
  · exact .of_yields (importFrom_yields _ _ (List.forall_mem_nil _))
  · refine .bind atTypeImport_reads fun typeOnly _ => .ite ?_ (hclause typeOnly)
    exact .bind .step fun _ _ => hclause typeOnly

/-! ## Statements -/

section

variable (go : Go) (start : Nat)

theorem variableStatement_yields : Yields (variableStatement go) Node.ImportsNamed := by
  intro s c n last hrun
  obtain ⟨start, c₁, -, hrun⟩ := run_bind_ok hrun
  obtain ⟨d, c₂, hd, hrun⟩ := run_bind_ok hrun
  have hgroup : Yields (declaredVariables go false) Node.ImportsNamed :=
    .bind fun _ => .bind fun _ => .bind fun _ => .bind fun _ => .bind fun _ => yields_finish _ _ _
  obtain ⟨-, c₃, -, hrun⟩ := run_bind_ok hrun
  split at hrun
  · exact yields_finish _ _ _ _ _ _ _ hrun
  · cases hrun
    exact hgroup _ _ _ _ hd

theorem block_yields : Yields (block go) Node.ImportsNamed :=
  .bind fun _ => .bind fun _ => yields_finish _ _ _

theorem ifStatement_yields : Yields (ifStatement go) Node.ImportsNamed := by
  refine .bind fun _ => .bind fun _ => .bind fun _ => .bind fun _ => .bind fun _ => ?_
  split
  · exact .bind fun _ => yields_finish _ _ _
  · exact .bind fun _ => yields_finish _ _ _

theorem loopOver_yields (left : Node) : Yields (loopOver go start left) Node.ImportsNamed :=
  .bind fun _ => .bind fun _ => .bind fun _ => .bind fun _ => .bind fun _ => yields_finish _ _ _

theorem loopWhile_yields (first : List Node) :
    Yields (loopWhile go start first) Node.ImportsNamed := by
  refine .bind fun _ => .bind fun _ => ?_
  repeat' first | exact yields_finish _ _ _ | refine .bind fun _ => ?_ | refine .ite ?_ ?_

theorem forStatement_yields : Yields (forStatement go) Node.ImportsNamed := by
  refine .bind fun _ => .bind fun _ => ?_
  repeat' first
    | exact loopWhile_yields _ _ _
    | exact loopOver_yields _ _ _
    | exact .throw _
    | refine .bind fun _ => ?_
    | refine .ite ?_ ?_
    | split

theorem whileStatement_yields : Yields (whileStatement go) Node.ImportsNamed :=
  .bind fun _ => .bind fun _ => .bind fun _ => .bind fun _ => yields_finish _ _ _

theorem doStatement_yields : Yields (doStatement go) Node.ImportsNamed :=
  .bind fun _ => .bind fun _ => .bind fun _ => .bind fun _ => .bind fun _ => .bind fun _ =>
    yields_finish _ _ _

theorem jump_yields : Yields jump Node.ImportsNamed := by
  refine .bind fun _ => .bind fun _ => .bind fun _ => ?_
  repeat' first | exact yields_finish _ _ _ | refine .bind fun _ => ?_ | refine .ite ?_ ?_

theorem returnStatement_yields : Yields (returnStatement go) Node.ImportsNamed := by
  refine .bind fun _ => .bind fun _ => ?_
  repeat' first | exact yields_finish _ _ _ | refine .bind fun _ => ?_ | refine .ite ?_ ?_

theorem throwStatement_yields : Yields (throwStatement go) Node.ImportsNamed :=
  .bind fun _ => .bind fun _ => .bind fun _ => .bind fun _ => .bind fun _ => .bind fun _ =>
    yields_finish _ _ _

theorem switchStatement_yields : Yields (switchStatement go) Node.ImportsNamed :=
  .bind fun _ => .bind fun _ => .bind fun _ => .bind fun _ => .bind fun _ => .bind fun _ =>
    yields_finish _ _ _

theorem tryStatement_yields : Yields (tryStatement go) Node.ImportsNamed := by
  refine .bind fun _ => .bind fun _ => ?_
  repeat' first | exact yields_finish _ _ _ | refine .bind fun _ => ?_ | refine .ite ?_ ?_

theorem withStatement_yields : Yields (withStatement go) Node.ImportsNamed :=
  .bind fun _ => .bind fun _ => .bind fun _ => .bind fun _ => yields_finish _ _ _

theorem function_yields (declared nameless : Bool) :
    Yields (function go declared nameless) Node.ImportsNamed := by
  refine .bind fun _ => .bind fun _ => ?_
  repeat' first | exact yields_finish _ _ _ | refine .bind fun _ => ?_ | refine .ite ?_ ?_

theorem classDefinition_yields (ds : List Node) (named : Bool) :
    Yields (classDefinition go start ds named) Node.ImportsNamed := by
  refine .bind fun _ => .bind fun _ => ?_
  repeat' first | exact yields_finish _ _ _ | refine .bind fun _ => ?_ | refine .ite ?_ ?_

theorem typeAlias_yields : Yields (typeAlias go) Node.ImportsNamed :=
  .bind fun _ => .bind fun _ => .bind fun _ => .bind fun _ => .bind fun _ => .bind fun _ =>
    .bind fun _ => yields_finish _ _ _

theorem interface_yields : Yields (interface go) Node.ImportsNamed := by
  refine .bind fun _ => .bind fun _ => ?_
  repeat' first | exact yields_finish _ _ _ | refine .bind fun _ => ?_ | refine .ite ?_ ?_

theorem enum_yields : Yields (enum go) Node.ImportsNamed :=
  .bind fun _ => .bind fun _ => .bind fun _ => .bind fun _ => .bind fun _ => .bind fun _ =>
    yields_finish _ _ _

theorem moduleBlock_yields : Yields (moduleBlock go) Node.ImportsNamed := by
  refine .bind fun _ => .bind fun _ => ?_
  repeat' first
    | exact yields_finish _ _ _
    | refine .bind fun _ => ?_
    | refine .ite ?_ ?_
    | split

theorem typeDeclaration_yields (ds : List Node) :
    Yields (typeDeclaration go ds) Node.ImportsNamed := by
  refine .bind fun _ => .bind fun _ => ?_
  split
  · exact .bind fun _ => .bind fun _ => yields_finish _ _ _
  · split
    · exact .bind fun _ => classDefinition_yields _ _ _ _
    · refine .bind fun _ => ?_
      split
      · exact enum_yields _
      · split
        · exact typeAlias_yields _
        · split
          · exact interface_yields _
          · exact moduleBlock_yields _

theorem expressionStatement_yields : Yields (expressionStatement go) Node.ImportsNamed := by
  refine .bind fun _ => .bind fun _ => .bind fun _ => .bind fun _ => ?_
  split
  · exact .bind fun _ => .bind fun _ => .bind fun _ => yields_finish _ _ _
  · exact .bind fun _ => .bind fun _ => yields_finish _ _ _

theorem exportList_yields : Yields (exportList start) Node.ImportsNamed := by
  refine .bind fun _ => .bind fun _ => .bind fun _ => ?_
  split
  · exact .bind fun _ => .bind fun _ => .bind fun _ => yields_finish _ _ _
  · exact .bind fun _ => .bind fun _ => yields_finish _ _ _

theorem exportAll_yields : Yields (exportAll start) Node.ImportsNamed := by
  refine .bind fun _ => .bind fun _ => ?_
  repeat' first | exact yields_finish _ _ _ | refine .bind fun _ => ?_ | refine .ite ?_ ?_

theorem exportDefault_yields (ds : List Node) :
    Yields (exportDefault go start ds) Node.ImportsNamed := by
  refine .bind fun _ => .bind fun _ => ?_
  repeat' first | exact yields_finish _ _ _ | refine .bind fun _ => ?_ | refine .ite ?_ ?_

theorem exportDeclaration_yields (ds : List Node) :
    Yields (exportDeclaration go start ds) Node.ImportsNamed := by
  refine .bind fun _ => .bind fun _ => .bind fun _ => .bind fun _ => ?_
  refine .ite (exportAll_yields _) <| .ite (exportList_yields _) <|
    .ite (exportDefault_yields _ _ _) <| .ite ?assignment <| .ite ?asNamespace <|
    .ite (.bind fun _ => exportList_yields _) <| .ite (.bind fun _ => exportAll_yields _) <|
    .ite ?importEquals ?declaration
  case assignment => exact .bind fun _ => .bind fun _ => .bind fun _ => yields_finish _ _ _
  case asNamespace =>
    exact .bind fun _ => .bind fun _ => .bind fun _ => .bind fun _ => yields_finish _ _ _
  case importEquals =>
    refine .bind fun _ => .bind fun _ => .bind fun _ => ?_
    repeat' first | exact yields_finish _ _ _ | refine .bind fun _ => ?_ | refine .ite ?_ ?_
  case declaration =>
    refine .bind fun _ => .bind fun _ => .bind fun _ => .bind fun _ => ?_
    repeat' first | exact yields_finish _ _ _ | refine .bind fun _ => ?_ | refine .ite ?_ ?_

theorem statement_yields : Yields (statement go) Node.ImportsNamed := by
  refine .bind fun _ => .bind fun _ => .bind fun next => ?_
  split
  · exact block_yields go
  · exact .bind fun _ => yields_finish _ _ _
  · refine .bind fun ds => .bind fun _ => .ite (exportDeclaration_yields _ _ _) ?_
    exact .bind fun _ => .ite (typeDeclaration_yields _ _) (classDefinition_yields _ _ _ _)
  · refine .bind fun _ => .ite (typeDeclaration_yields _ _) ?_
    refine .bind fun _ => .ite (variableStatement_yields _) ?_
    split
    · exact ifStatement_yields go
    · exact forStatement_yields go
    · exact whileStatement_yields go
    · exact doStatement_yields go
    · exact jump_yields
    · exact jump_yields
    · exact returnStatement_yields go
    · exact throwStatement_yields go
    · exact switchStatement_yields go
    · exact tryStatement_yields go
    · exact withStatement_yields go
    · exact .bind fun _ => .bind fun _ => yields_finish _ _ _
    · exact classDefinition_yields _ _ _ _
    · exact function_yields _ _ _
    · exact exportDeclaration_yields _ _ _
    · exact .ite (expressionStatement_yields go) importDeclaration_yields
    · exact .ite (function_yields _ _ _) (expressionStatement_yields go)
    · exact expressionStatement_yields go
  · exact expressionStatement_yields go

end

end Grammar

/-! ## Modules -/

theorem productions_statement (depth : Nat) :
    Yields (productions depth .statement) Node.ImportsNamed := by
  cases depth with
  | zero => exact .fail
  | succ depth => exact Grammar.statement_yields _

theorem program_yields {go : Go} (h : Yields (go .statement) Node.ImportsNamed) :
    Yields (program go) fun tree => ∀ d ∈ imports tree, ∀ name ∈ d.locals, IsName name := by
  intro s c tree last hrun
  obtain ⟨start, c₁, -, hrun⟩ := run_bind_ok hrun
  obtain ⟨ss, c₂, hss, hrun⟩ := run_bind_ok hrun
  obtain ⟨_, c₃, -, hrun⟩ := run_bind_ok hrun
  obtain ⟨_, c₄, -, hrun⟩ := run_bind_ok hrun
  cases hrun
  have hstatement : Yields (do
      if (← Parse.token).isEnd then return none
      else return some (← go .statement)) fun o => ∀ n, o = some n → n.ImportsNamed := by
    refine .bind fun _ => .ite (.pure nofun) ?_
    intro s c o c' hrun
    obtain ⟨n, c₅, hn, hrun⟩ := run_bind_ok hrun
    cases hrun
    exact fun _ heq => Option.some.inj heq ▸ h _ _ _ _ hn
  intro d hd
  obtain ⟨n, hn, hd⟩ := List.mem_filterMap.1 hd
  split at hd
  · next d' bindings =>
      cases hd
      exact Yields.many hstatement _ _ _ _ hss _ hn d bindings rfl
  · exact nomatch hd

/-- The local names of a module's imports are words that may name variables. -/
theorem parse_imports_named {language : Language} {text : String} {tree : Node}
    (h : parse language text = .ok tree) :
    ∀ d ∈ imports tree, ∀ name ∈ d.locals, IsName name := by
  rw [parse] at h
  obtain ⟨⟨tree', c'⟩, hprogram, h⟩ := Expansion.exists_of_bind_eq_ok h
  dsimp only at h
  split at h
  · exact nomatch h
  · cases h
    exact program_yields (productions_statement _) _ _ _ _ hprogram

end SiteMacros.Script
