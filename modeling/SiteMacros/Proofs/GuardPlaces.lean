import SiteMacros.Proofs.Openings

/-!
# Where guards belong

The semicolon before an expansion is there to keep the expansion from being read on from the
statement before it. So it belongs before a call that begins an expression statement, behind
another statement of the same list that nothing closes, if the expansion opens with a
parenthesis, a square bracket or a backtick (`isWanted`), and nowhere else.

Whether there is one is decided by the last character before the call that is no blank, and
only for what opens with a parenthesis. That is the expansion of a call that registers
translations and no other. The code is the one with the guards where they belong exactly if
for each such call the character says what the tree says, and no list and no template begins a
statement behind one that is not closed (`expandModule_guards_exactly_iff`).

Behind a closed statement the character is right if there is no comment in between. It is wrong
where the call is the operand of a word, such as `return`, and where an open statement ends with
a brace (`expandModule_guards_operand`).
-/

namespace SiteMacros

namespace Script

mutual

/-- Does the statement end with an expression or a type, unless a semicolon follows that? -/
def Node.endsInExpression : Node → Bool
  | .group k _ parts =>
      match k with
      | .expressionStatement | .variableDeclaration | .returnStatement | .throwStatement
      | .exportAssignment | .typeAlias => true
      | .exportDefault => !parts.any fun d => d.is .function || d.is .classForm || d.is .interface
      | .ifStatement | .forStatement | .forInStatement | .forOfStatement | .whileStatement
      | .withStatement | .labeled | .exportNamed | .ambient => lastEndsInExpression parts
      | _ => false
  | _ => false

/-- Does the last of the parts end with an expression or a type? -/
def lastEndsInExpression : List Node → Bool
  | [] => false
  | [n] => n.endsInExpression
  | _ :: n :: ns => lastEndsInExpression (n :: ns)

end

/-- Is the statement closed: by a semicolon, or by a brace that belongs to no expression? -/
def Node.isClosed (text : String) (n : Node) : Bool :=
  Text.endsWith ";" (n.span.textIn text) ||
    Text.endsWith closeBrace (n.span.textIn text) && !n.endsInExpression

/-- Is the node a statement, and not the name of a module block? -/
def Node.isStatement : Node → Bool
  | .group .. | .importDeclaration .. => true
  | _ => false

/-- The statements of a list of statements. What is compared in a case is none of them. -/
def statementsOf (text : String) (k : Construct) (s : Span) (parts : List Node) : List Node :=
  match k with
  | .program | .block | .body | .staticBlock => parts
  | .moduleBlock => parts.filter (·.isStatement)
  | .switchCase => if Text.startsWith "case" (s.textIn text) then parts.drop 1 else parts
  | _ => []

mutual

/-- The statements of a tree that follow each other in a list of statements. -/
def Node.neighbours (text : String) : Node → List (Node × Node)
  | .group k s parts =>
      let ss := statementsOf text k s parts
      ss.zip (ss.drop 1) ++ neighboursIn text parts
  | .call _ callee typeArgs args =>
      callee.neighbours text ++ neighboursIn text typeArgs ++ neighboursIn text args
  | .reference .. | .binding .. | .string .. | .word .. | .importDeclaration .. => []

def neighboursIn (text : String) : List Node → List (Node × Node)
  | [] => []
  | n :: ns => n.neighbours text ++ neighboursIn text ns

end

/-- Does an expression statement begin at the place, behind another statement of its list that
is not closed? -/
def Node.beginsBehindOpen (text : String) (tree : Node) (place : Nat) : Bool :=
  (tree.neighbours text).any fun p =>
    p.2.is .expressionStatement && p.2.span.start == place && !p.1.isClosed text

end Script

namespace Text

/-- The last character before a place that is no blank. -/
def lastVisible? (s : String) (n : Nat) : Option Char :=
  ((before s n).dropWhile isWhiteSpace).head?

/-- Is there a character after which a statement may be running on? -/
def runsOn (s : String) (n : Nat) : Bool :=
  (lastVisible? s n).any (!statementBreaks.contains ·)

/-- Would the text be read on from an expression before it? -/
def continues (s : String) : Bool :=
  s.toList.head?.any ['(', '[', '\x60'].contains

theorem startsWith_paren (t : String) : startsWith "(" t = (t.toList.head? == some '(') := by
  rw [startsWith]
  cases t.toList with
  | nil => rfl
  | cons c cs =>
      show (('(' == c) && true) = (some c == some '(')
      rw [Bool.and_true, Option.some_beq_some, BEq.comm]

/-- A guard is put before what opens with a parenthesis, if a statement may be running on. -/
theorem needsGuard_eq (s : String) (n : Nat) (t : String) :
    needsGuard s n t = (t.toList.head? == some '(' && runsOn s n) := by
  rw [needsGuard, startsWith_paren, runsOn, lastVisible?]
  cases (before s n).dropWhile isWhiteSpace with
  | nil => rfl
  | cons c cs => rfl

/-- What stands before a place, white space aside, decides. -/
theorem runsOn_append {s : String} {front gap rest : List Char} {c : Char}
    (htext : s.toList = front ++ c :: gap ++ rest) (hc : isWhiteSpace c = false)
    (hgap : ∀ d ∈ gap, isWhiteSpace d = true) :
    runsOn s (bytes (front ++ c :: gap)) = !statementBreaks.contains c := by
  have hbefore : before s (bytes (front ++ c :: gap)) = gap.reverse ++ c :: front.reverse := by
    rw [before, htext, takeBytes_append, List.reverse_append, List.reverse_cons,
      List.append_assoc]
    rfl
  rw [runsOn, lastVisible?, hbefore, List.dropWhile_append_of_pos]
  · rw [List.dropWhile_cons_of_neg (by rw [hc]; exact Bool.false_ne_true)]
    rfl
  · exact fun d hd => hgap d (List.mem_reverse.1 hd)

end Text

/-! ## Behind a statement -/

namespace Script

/-- Does nothing but white space stand between the part of the text and the place? -/
structure Span.Meets (text : String) (s : Span) (place : Nat) : Prop where
  standsIn : s.StandsIn text
  cut : Text.IsCut text.toList place
  le : s.stop ≤ place
  blank : ∀ c ∈ Edit.takeBytes (place - s.stop) (Edit.dropBytes s.stop text.toList),
    Text.isWhiteSpace c = true

variable {text : String}

/-- Behind a part of the text the last character of that part decides. -/
theorem Span.Meets.runsOn {s : Span} {place : Nat} (h : s.Meets text place) {c : Char}
    (hlast : (s.textIn text).toList.getLast? = some c) (hc : Text.isWhiteSpace c = false) :
    Text.runsOn text place = !Text.statementBreaks.contains c := by
  obtain ⟨before, after, htext, hstart, hstop⟩ := h.standsIn.textIn_split
  obtain ⟨front, hfront⟩ := List.getLast?_eq_some_iff.1 hlast
  rw [hfront] at htext hstop
  have hbytes : Text.bytes (before ++ (front ++ [c])) = s.stop := by
    rw [Text.bytes_append, hstart, hstop]
  rw [← List.append_assoc] at htext
  have hcut := h.cut
  rw [htext] at hcut
  obtain ⟨gap, rest, rfl, hgap⟩ := hcut.behind (hbytes ▸ h.le)
  have hblank := h.blank
  rw [htext, ← hbytes, Text.dropBytes_append, ← hgap, Nat.add_sub_cancel_left,
    Text.takeBytes_append] at hblank
  have hplace : Text.bytes ((before ++ front) ++ c :: gap) = place := by
    rw [← hgap, ← Text.bytes_append]
    simp only [List.append_assoc, List.cons_append, List.nil_append]
  have hsplit : text.toList = (before ++ front) ++ c :: gap ++ rest := by
    rw [htext]
    simp only [List.append_assoc, List.cons_append, List.nil_append]
  rw [← hplace]
  exact Text.runsOn_append hsplit hc hblank

theorem getLast?_of_endsWith {tail t : String} {c : Char} (htail : tail.toList = [c])
    (h : Text.endsWith tail t = true) : t.toList.getLast? = some c := by
  rw [Text.endsWith, htail, List.isPrefixOf_iff_prefix] at h
  obtain ⟨rest, hrest⟩ := h
  rw [List.getLast?_eq_head?_reverse, ← hrest]
  rfl

/-- Behind a closed statement no statement is running on. -/
theorem Node.runsOn_behind_closed {n : Node} (hclosed : n.isClosed text = true) {place : Nat}
    (h : n.span.Meets text place) : Text.runsOn text place = false := by
  rw [isClosed, Bool.or_eq_true, Bool.and_eq_true] at hclosed
  rcases hclosed with hsemicolon | ⟨hbrace, -⟩
  · exact h.runsOn (getLast?_of_endsWith rfl hsemicolon) rfl
  · exact h.runsOn (getLast?_of_endsWith rfl hbrace) rfl

end Script

/-! ## Texts with guards -/

namespace Edit

variable {α : Type} {f : α → Edit} {p q : α → Bool}

/-- The first character tells whether an edit is guarded, unless its text begins with a
semicolon anyway. -/
theorem head?_guarded {e : Edit} {c : Char} (hc : e.text.toList.head? = some c) (mark : Bool)
    (rest : List Char) :
    ((guarded (e, mark)).text.toList ++ rest).head? = some (if mark then ';' else c) := by
  cases mark with
  | true =>
      rw [guarded, if_pos rfl, String.toList_append]
      rfl
  | false =>
      rw [guarded_of_not_marked rfl, List.head?_append, hc]
      rfl

/-- Texts with guards at different edits differ. -/
theorem applySorted_guarded_eq_iff {items : List α}
    (h : ∀ a ∈ items, p a ≠ q a → ∃ c, (f a).text.toList.head? = some c ∧ c ≠ ';') (n : Nat)
    (cs : List Char) :
    applySorted n (items.map fun a => guarded (f a, p a)) cs =
        applySorted n (items.map fun a => guarded (f a, q a)) cs ↔
      ∀ a ∈ items, p a = q a := by
  constructor
  · intro heq
    induction items generalizing n cs with
    | nil => exact List.forall_mem_nil _
    | cons a items ih =>
        obtain ⟨ha, hitems⟩ := List.forall_mem_cons.1 h
        rw [List.map_cons, List.map_cons, applySorted, applySorted, List.append_assoc,
          List.append_assoc] at heq
        have htext := List.append_cancel_left heq
        have hsame : p a = q a := by
          by_contra hne
          obtain ⟨c, hc, hsemicolon⟩ := ha hne
          have hhead := congrArg List.head? htext
          rw [head?_guarded hc, head?_guarded hc, Option.some_inj] at hhead
          cases hp : p a <;> cases hq : q a <;> rw [hp, hq] at hne hhead
          · exact hne rfl
          · exact hsemicolon hhead
          · exact hsemicolon hhead.symm
          · exact hne rfl
        rw [hsame] at htext
        exact List.forall_mem_cons.2 ⟨hsame, ih hitems _ _ (List.append_cancel_left htext)⟩
  · intro hsame
    rw [List.map_congr_left fun a ha => by rw [hsame a ha]]

theorem applyAll_guarded_congr_iff {items : List α} (text : String)
    (h : ∀ a ∈ items, p a ≠ q a → ∃ c, (f a).text.toList.head? = some c ∧ c ≠ ';') :
    applyAll text (items.map fun a => guarded (f a, p a)) =
        applyAll text (items.map fun a => guarded (f a, q a)) ↔
      ∀ a ∈ items, p a = q a := by
  have hsorted : ∀ mark : α → Bool, sorted le (items.map fun a => guarded (f a, mark a)) =
      (sorted (fun a b => le (f a) (f b)) items).map fun a => guarded (f a, mark a) :=
    fun mark => sorted_map (fun _ _ => rfl) items
  have hmem : ∀ a, a ∈ sorted (fun a b => le (f a) (f b)) items ↔ a ∈ items := fun a =>
    (sorted_perm _ items).mem_iff
  rw [applyAll, applyAll, hsorted, hsorted, String.ofList_inj,
    applySorted_guarded_eq_iff fun a ha => h a ((hmem a).1 ha)]
  exact forall_congr' fun a => by rw [hmem a]

end Edit

namespace Expansion

open Script

variable {s : Surroundings} {text : String}

/-- Does a guard belong before this expansion of the call? -/
def isWanted (text : String) (tree : Node) (call : MacroCall) (e : Expression) : Bool :=
  tree.beginsBehindOpen text call.span.start &&
    Text.continues (e.render (Text.indentDepth text call.span.start))

/-- The text of a module with expressions in the place of its calls, guarded where they are
marked, without its imports of macros, and with a header below the last import. -/
def withGuards (text : String) (ds macroImports : List ImportDeclaration)
    (calls : List (MacroCall × Expression)) (header : String)
    (mark : MacroCall × Expression → Bool) : String :=
  Edit.applyAll text
    (calls.map (fun c => Edit.guarded (replacement text c.1 c.2, mark c)) ++
      macroImports.map (removal text) ++ insertion text ds header)

/-- The edits of a module, each with two marks. Only those of calls may be marked. -/
def twiceMarked (text : String) (ds macroImports : List ImportDeclaration)
    (calls : List (MacroCall × Expression)) (header : String)
    (mark mark' : MacroCall × Expression → Bool) : List (Edit × Bool × Bool) :=
  calls.map (fun c => (replacement text c.1 c.2, mark c, mark' c)) ++
    (macroImports.map (removal text) ++ insertion text ds header).map (·, false, false)

section

variable {ds macroImports : List ImportDeclaration} {calls : List (MacroCall × Expression)}
  {header : String} {mark mark' : MacroCall × Expression → Bool}

theorem map_twiceMarked {f : Edit × Bool × Bool → Edit} (hf : ∀ e, f (e, false, false) = e) :
    (twiceMarked text ds macroImports calls header mark mark').map f =
      calls.map (fun c => f (replacement text c.1 c.2, mark c, mark' c)) ++
        macroImports.map (removal text) ++ insertion text ds header := by
  have hothers : ∀ es : List Edit, (es.map (·, false, false)).map f = es := fun es => by
    rw [List.map_map]
    exact (List.map_congr_left fun e _ => hf e).trans (List.map_id es)
  rw [twiceMarked, List.map_append, hothers, List.map_map, List.append_assoc]
  rfl

theorem withGuards_congr (h : ∀ c ∈ calls, mark c = mark' c) :
    withGuards text ds macroImports calls header mark =
      withGuards text ds macroImports calls header mark' := by
  rw [withGuards, withGuards, List.map_congr_left fun c hc => by rw [h c hc]]

/-- Codes with guards at different calls differ. -/
theorem withGuards_eq_iff
    (h : ∀ c ∈ calls, mark c ≠ mark' c →
      ∃ a, (replacement text c.1 c.2).text.toList.head? = some a ∧ a ≠ ';') :
    withGuards text ds macroImports calls header mark =
        withGuards text ds macroImports calls header mark' ↔
      ∀ c ∈ calls, mark c = mark' c := by
  refine ⟨fun heq => ?_, withGuards_congr⟩
  have hunmarked : ∀ e : Edit, Edit.guarded (e, false) = e := fun e =>
    Edit.guarded_of_not_marked rfl
  have hfirst : (twiceMarked text ds macroImports calls header mark mark').map
      (fun a => Edit.guarded (a.1, a.2.1)) = _ := map_twiceMarked hunmarked
  have hsecond : (twiceMarked text ds macroImports calls header mark mark').map
      (fun a => Edit.guarded (a.1, a.2.2)) = _ := map_twiceMarked hunmarked
  rw [withGuards, withGuards, ← hfirst, ← hsecond, Edit.applyAll_guarded_congr_iff] at heq
  · exact fun c hc => heq _ (List.mem_append_left _ (List.mem_map_of_mem hc))
  · intro a ha hne
    rcases List.mem_append.1 ha with ha | ha
    · obtain ⟨c, hc, rfl⟩ := List.mem_map.1 ha
      exact h c hc hne
    · obtain ⟨e, -, rfl⟩ := List.mem_map.1 ha
      exact absurd rfl hne

end

theorem isGuarded_eq {call : MacroCall} {e : Expression} (h : e.OpensFor call.callee) :
    isGuarded text call e =
      (call.callee = .loadTranslations && Text.runsOn text call.span.start) := by
  obtain ⟨c, hc, hparen, -⟩ := h (Text.indentDepth text call.span.start)
  rw [isGuarded, Text.needsGuard_eq, hc, Option.some_beq_some]
  congr 1
  exact decide_eq_decide.2 hparen

theorem isWanted_eq {tree : Node} {call : MacroCall} {e : Expression}
    (h : e.OpensFor call.callee) :
    isWanted text tree call e = (tree.beginsBehindOpen text call.span.start &&
      (call.callee = .loadTranslations || e.opensList)) := by
  obtain ⟨c, hc, hparen, hlist⟩ := h (Text.indentDepth text call.span.start)
  rw [isWanted, Text.continues, hc]
  congr 1
  rw [Bool.eq_iff_iff, Option.any_some, List.contains_iff_mem, Bool.or_eq_true, decide_eq_true_iff,
    ← hparen, ← hlist]
  simp

section

variable {tree : Node} {call : MacroCall} {e : Expression} (h : e.OpensFor call.callee)

include h

/-- Is there a guard before the call exactly if one belongs there? -/
theorem guards_agree_iff :
    (call.callee = .loadTranslations && Text.runsOn text call.span.start) =
        isWanted text tree call e ↔
      (call.callee = .loadTranslations →
        Text.runsOn text call.span.start = tree.beginsBehindOpen text call.span.start) ∧
      (e.opensList = true → tree.beginsBehindOpen text call.span.start = false) := by
  rw [isWanted_eq h]
  by_cases hcallee : call.callee = .loadTranslations
  · have hlist : e.opensList = false := by
      obtain ⟨c, -, hparen, hlist⟩ := h 0
      rw [hparen.2 hcallee] at hlist
      exact Bool.eq_false_iff.2 fun hopens => absurd (hlist.2 hopens) (by decide)
    simp [hcallee, hlist]
  · cases e.opensList <;> cases tree.beginsBehindOpen text call.span.start <;> simp [hcallee]

/-- If it is not so, the expansion does not open with a semicolon. -/
theorem head?_of_guards_disagree
    (hne : (call.callee = .loadTranslations && Text.runsOn text call.span.start) ≠
      isWanted text tree call e) :
    ∃ a, (replacement text call e).text.toList.head? = some a ∧ a ≠ ';' := by
  obtain ⟨c, hc, hparen, hlist⟩ := h (Text.indentDepth text call.span.start)
  refine ⟨c, hc, ?_⟩
  rintro rfl
  have hcallee : call.callee ≠ .loadTranslations := fun heq => absurd (hparen.2 heq) (by decide)
  have hlist : e.opensList = false :=
    Bool.eq_false_iff.2 fun hopens => absurd (hlist.2 hopens) (by decide)
  rw [isWanted_eq h] at hne
  simp [hcallee, hlist] at hne

end

/-- The code of an expanded module has guards before the calls that register translations and
stand behind a character after which a statement may be running on. It is the code with the
guards where they belong if and only if for each of these calls the character says what the tree
says, and no list and no template begins a statement behind an open one. Directly behind a
statement its last character says it, and that of a closed one is right. -/
theorem expandModule_guards_exactly_iff {r r' : Registry} {m : ExpandedModule}
    (h : expandModule s r text = (r', .ok (some m))) :
    ∃ tree calls es, ∃ x : Expansion,
      analyze s.configuration s.file text = .ok (some (tree, calls)) ∧
      let ds := imports tree
      let macroImports := ds.filter s.configuration.macroSources.isMacroImport
      let kept := ds.filter (!s.configuration.macroSources.isMacroImport ·)
      let code := withGuards text ds macroImports (calls.zip es) x.header
      perform (calls.mapM expand) s
        { registry := r, scope := .ofModule (identifiers tree) kept } = (.ok es, x) ∧
      es.length = calls.length ∧
      m.code = code (fun c =>
        c.1.callee = .loadTranslations && Text.runsOn text c.1.span.start) ∧
      (m.code = code (fun c => isWanted text tree c.1 c.2) ↔
        ∀ c ∈ calls.zip es,
          (c.1.callee = .loadTranslations →
            Text.runsOn text c.1.span.start = tree.beginsBehindOpen text c.1.span.start) ∧
          (c.2.opensList = true → tree.beginsBehindOpen text c.1.span.start = false)) ∧
      ∀ c ∈ calls.zip es, ∀ prev : Node, prev.span.Meets text c.1.span.start →
        (prev.isClosed text = true → Text.runsOn text c.1.span.start = false) ∧
        ∀ last, (prev.span.textIn text).toList.getLast? = some last →
          Text.isWhiteSpace last = false →
          Text.runsOn text c.1.span.start = !Text.statementBreaks.contains last := by
  obtain ⟨tree, calls, es, x, hcalls, hes, hlength, hcode, hopens⟩ := expandModule_opens h
  have hguards : m.code = withGuards text (imports tree)
      ((imports tree).filter s.configuration.macroSources.isMacroImport) (calls.zip es) x.header
      (fun c => c.1.callee = .loadTranslations && Text.runsOn text c.1.span.start) := by
    rw [hcode]
    exact withGuards_congr fun c hc => isGuarded_eq (hopens c hc)
  refine ⟨tree, calls, es, x, hcalls, hes, hlength, hguards, ?_, fun c _ prev hmeets =>
    ⟨fun hclosed => prev.runsOn_behind_closed hclosed hmeets, fun _ => hmeets.runsOn⟩⟩
  rw [hguards, withGuards_eq_iff]
  · exact forall₂_congr fun c hc => guards_agree_iff (hopens c hc)
  · exact fun c hc hne => head?_of_guards_disagree (hopens c hc) hne

/-- A call that begins a statement behind an open one, with a guard, which belongs there. -/
theorem expandModule_guards_statement :
    let text := "import\x7bloadI18n as t\x7dfrom\"i18n.macro\"\nf()\nt(\"./*.yaml\")"
    let code := "import __pm_i18n from \"i18next\";\nf()\n;((register) => " ++
      "__pm_i18n.isInitialized ? register() : __pm_i18n.on(\"initialized\", register))(() => " ++
      "\x7b\n\x7d)"
    ∃ tree calls es header,
      analyze aloneInProject.configuration aloneInProject.file text = .ok (some (tree, calls)) ∧
      es.length = calls.length ∧
      code = withGuards text (imports tree)
        ((imports tree).filter aloneInProject.configuration.macroSources.isMacroImport)
        (calls.zip es) header fun c => isWanted text tree c.1 c.2 := by
  intro text code
  have hcode : (expandModule aloneInProject {} text).2.toOption.join.map (·.code) = some code := by
    decide +kernel
  -- the guard belongs before the only call, whose expansion is no list
  have hright : (analyze aloneInProject.configuration aloneInProject.file text).toOption.join.all
      (fun (tree, calls) =>
        let kept := (imports tree).filter
          (!aloneInProject.configuration.macroSources.isMacroImport ·)
        (calls.all fun call => Text.runsOn text call.span.start &&
          tree.beginsBehindOpen text call.span.start) &&
        (perform (calls.mapM expand) aloneInProject
          { registry := {}, scope := .ofModule (identifiers tree) kept }).1.toOption.all
            (·.all (!·.opensList))) = true := by
    decide +kernel
  rcases hrun : expandModule aloneInProject {} text with ⟨r, e | _ | m⟩
  · rw [hrun] at hcode
    exact nomatch hcode
  · rw [hrun] at hcode
    exact nomatch hcode
  · rw [hrun] at hcode
    have hm : m.code = code := Option.some.inj hcode
    obtain ⟨tree, calls, es, x, hcalls, hes, hlength, -, hexact, -⟩ :=
      expandModule_guards_exactly_iff hrun
    rw [hcalls] at hright
    obtain ⟨hplaces, hlists⟩ := Bool.and_eq_true_iff.1 hright
    rw [hes] at hlists
    refine ⟨tree, calls, es, x.header, hcalls, hlength, hm ▸ hexact.2 fun c hc => ?_⟩
    obtain ⟨hcall, he⟩ := List.of_mem_zip hc
    obtain ⟨hruns, hopen⟩ := Bool.and_eq_true_iff.1 (List.all_eq_true.1 hplaces _ hcall)
    refine ⟨fun _ => hruns.trans hopen.symm, fun hlist => ?_⟩
    have hnone := List.all_eq_true.1 hlists _ he
    rw [hlist] at hnone
    exact nomatch hnone

/-- A call that is returned gets a guard, which ends the statement before the call. One that
begins a statement behind an open one gets none if the open one ends with a brace. -/
theorem expandModule_guards_operand :
    let imports := "import\x7bloadI18n as t\x7dfrom\"i18n.macro\"\n"
    let added := "import __pm_i18n from \"i18next\";\n"
    let call := "t(\"./*.yaml\")"
    let expansion := "((register) => __pm_i18n.isInitialized ? register() : " ++
      "__pm_i18n.on(\"initialized\", register))(() => \x7b\n\x7d)"
    let code text := (expandModule aloneInProject {} text).2.toOption.join.map (·.code)
    let places text :=
      (analyze aloneInProject.configuration aloneInProject.file text).toOption.join.map
        fun (tree, calls) => calls.map fun call => tree.beginsBehindOpen text call.span.start
    let returned := imports ++ "function f()\x7breturn " ++ call ++ "\x7d"
    let begun := imports ++ "x=\x7b\x7d\n" ++ call
    (places returned = some [false] ∧
      code returned = some (added ++ "function f()\x7breturn ;" ++ expansion ++ "\x7d")) ∧
    places begun = some [true] ∧ code begun = some (added ++ "x=\x7b\x7d\n" ++ expansion) := by
  decide +kernel

end Expansion

end SiteMacros
