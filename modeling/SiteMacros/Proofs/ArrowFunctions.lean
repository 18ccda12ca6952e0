import SiteMacros.Proofs.Operands

/-!
# Arrow functions

What the grammar makes of parameters in parentheses, an arrow, and a body. A parenthesis may open
parameters or not, and the word `async` may begin an arrow function or be a name; which of the two
it is turns out only behind the closing parenthesis. The grammar tries the parameters first, and
what is emitted besides arrow functions is rejected as such (`rejects_arrowHead`).
-/

namespace SiteMacros.Script.Grammar

open Expression

variable {g : Go} {s : Setting} {l : Lexeme} {ls ls' ls'' : List Lexeme} {e : Expression}

/-! ## Parameters -/

theorem takes_initializer_none (hls : ls.headD .endOfText ≠ .mark "=") :
    Takes (initializer g) s ls ls (· = []) :=
  .bind_eq (.eat_not hls) (.ite_neg (by decide) (.pure rfl))

theorem takes_withDefault_none (hls : ls.headD .endOfText ≠ .mark "=") (start : Nat) (n : Node) :
    Takes (withDefault g start [n]) s ls ls (· = n) :=
  .bind_eq (takes_initializer_none hls) (.pure rfl)

theorem takes_ascription_none (hls : ls.headD .endOfText ≠ .mark ":") :
    Takes (ascription g) s ls ls (· = []) :=
  .bind_eq .types <| .bind_eq (.atMark _) <| .ite_neg (by simpa using fun _ => hls) (.pure rfl)

theorem takes_returnType_none (hls : ls.headD .endOfText ≠ .mark ":") :
    Takes (returnType g) s ls ls (· = []) :=
  .bind_eq .types <| .bind_eq (.atMark _) <| .ite_neg (by simpa using fun _ => hls) (.pure rfl)

theorem takes_decorators_none (hls : ls.headD .endOfText ≠ .mark "@") :
    Takes (decorators g) s ls ls (· = []) :=
  .many_nil (.bind_eq (.atMark _) (.ite_neg (by simpa using hls) (.pure rfl)))

theorem takes_target_name {n : String} (hn : IsName n) (hs : s.yields = false) :
    Takes (target g) s (.name n false :: ls) ls fun t => t.parameter? = some n := by
  refine .bind_eq (.atMark _) <| .ite_neg (by simp) <| .bind_eq (.atMark _) <|
    .ite_neg (by simp) <| (takes_binding hn hs).imp ?_
  rintro _ ⟨span, rfl⟩
  rfl

theorem takes_patternProperty {n : String} (hn : IsName n) (hs : s.yields = false)
    (hls : FollowedBy [",", "\x7d"] ls) :
    Takes (patternProperty g) s (.name n false :: ls) ls fun t => ∃ span, t = .binding span n := by
  refine .bind .start fun start _ => .bind_eq (.atMark _) <| .ite_neg (by simp) <|
    .bind .token fun t ht => .bind takes_propertyName ?_
  rintro _ ⟨span, rfl⟩
  refine .bind_eq (.eat_not (hls.ne_mark (by decide))) <| .ite_neg (by decide) <|
    .bind_eq (takes_isVariable hn hs ht.lexeme) <| .bind (.require rfl) fun _ _ => ?_
  exact (takes_withDefault_none (hls.ne_mark (by decide)) _ _).imp fun _ h => ⟨span, h⟩

theorem takes_target_children (hs : s.yields = false) :
    Takes (target g) s (parameterLexemes childrenPattern ++ ls) ls
      fun t => t.parameter? = some childrenPattern := by
  have hlist : Listed (fun n => [.name n false]) closeBrace ls ["children"]
      (.name "children" false :: .mark "\x7d" :: ls) := .last "children"
  have hchildren : IsName "children" := by decide
  have hproperties : Takes (Parse.commaList closeBrace (patternProperty g)) s
      (.name "children" false :: .mark "\x7d" :: ls) ls
      fun ps => ∃ span, ps = [.binding span "children"] := by
    refine .imp (hlist.takes_commaList (Q := fun n t => ∃ span, t = .binding span n) (by decide)
      (fun n hn m hm rest => ?_) fun n _ => ⟨_, _, rfl, nofun⟩) ?_
    · rw [List.mem_singleton.1 hn]
      exact takes_patternProperty hchildren hs (.mark hm rest)
    · rintro _ (_ | ⟨⟨span, rfl⟩, ⟨⟩⟩)
      exact ⟨span, rfl⟩
  refine .bind_eq (.atMark _) <| .ite_neg (by simp [parameterLexemes]) <| .bind_eq (.atMark _) <|
    .ite_pos (by simp [parameterLexemes, openBrace]) <| .bind .start fun start _ =>
    .bind .expect fun _ _ => .bind hproperties ?_
  rintro _ ⟨span, rfl⟩
  refine (Takes.finish _ _ _).imp ?_
  rintro _ ⟨whole, rfl⟩
  exact rfl

theorem takes_target {p : String} (hp : IsParameter p) (hs : s.yields = false) :
    Takes (target g) s (parameterLexemes p ++ ls) ls fun t => t.parameter? = some p := by
  by_cases hpattern : p = childrenPattern
  · subst hpattern
    exact takes_target_children hs
  · rw [parameterLexemes, if_neg hpattern]
    exact takes_target_name (hp.resolve_right hpattern) hs

/-- A word in front of a parameter is a modifier only if a target follows it. -/
theorem takes_skipParameterModifiers_none
    (h : ∀ t next : Token, t.At (l :: ls) → next.At ls → parameterModifiers.any t.isWord = true →
      (next.isMark openBrace || next.isMark "[" || next.isName) = false) :
    Takes skipParameterModifiers s (l :: ls) (l :: ls) fun _ => True := by
  refine .bind_eq (.many_nil (.bind .token fun t ht => .bind .peek fun next hnext =>
    .bind_eq .types <| .ite_neg (fun hmodifier => ?_) (.pure rfl))) (.pure trivial)
  simp only [Bool.and_eq_true] at hmodifier
  obtain ⟨⟨-, hword⟩, htarget⟩ := hmodifier
  rw [h t next ht hnext hword] at htarget
  cases htarget

/-- A parameter begins with a name that a mark follows, or with a brace. -/
theorem parameterLexemes_eq_cons {p : String} (hp : IsParameter p) :
    ∃ l ms, parameterLexemes p = l :: ms ∧ l ≠ .name "this" false ∧
      (∀ m, l = .mark m → m = "\x7b") ∧ ((∀ w, l ≠ .name w false) ∨ ms = []) := by
  rw [parameterLexemes]
  split
  · refine ⟨_, _, rfl, by simp, fun m hm => ?_, .inl (by simp)⟩
    cases hm
    rfl
  · next hpattern =>
      refine ⟨_, _, rfl, fun hthis => ?_, by simp, .inr rfl⟩
      cases hthis
      exact (hp.resolve_right hpattern).not_mem.2 (by decide)

/-- A parameter with nothing in front and nothing behind is its target. -/
theorem takes_parameter {P : Node → Prop} (hthis : l ≠ .name "this" false)
    (hmark : ∀ m ∈ ["@", "..."], l ≠ .mark m) (hls' : FollowedBy [",", ")"] ls')
    (hmodifier : (∀ w, l ≠ .name w false) ∨ FollowedBy [",", ")"] ls)
    (htarget : Takes (g .target) s (l :: ls) ls' P) :
    Takes (parameter g) s (l :: ls) ls' P := by
  refine .bind .start fun start _ => .bind_eq (takes_decorators_none (hmark "@" (by decide))) <|
    .bind (takes_skipParameterModifiers_none fun t next ht hnext hword => ?_) fun _ _ => ?_
  · rcases hmodifier with hnot | hls
    · obtain ⟨w, -, hw⟩ := List.any_eq_true.1 hword
      rw [ht.isWord, decide_eq_true_eq] at hw
      exact absurd hw (hnot w)
    · rw [isMark_of_followedBy hls hnext (by decide), isMark_of_followedBy hls hnext (by decide),
        isName_of_followedBy hls hnext]
      rfl
  · refine .bind_eq .types <| .bind_eq (.atWord _) <| .ite_neg (by simpa using fun _ => hthis) <|
      .bind_eq (.atMark _) <| .ite_neg (by simpa using hmark "..." (by decide)) <|
      .bind htarget fun t ht => .bind_eq .types ?_
    have hrest : Takes (do
        let a ← ascription g
        withDefault g start ([] ++ t :: a)) s ls' ls' P :=
      .bind_eq (takes_ascription_none (hls'.ne_mark (by decide)))
        ((takes_withDefault_none (hls'.ne_mark (by decide)) start t).imp fun _ h => h ▸ ht)
    -- a language with types may have a question mark here
    by_cases htypes : s.language.types = true
    · exact .ite_pos htypes (.bind_eq (.eat_not (hls'.ne_mark (by decide))) hrest)
    · exact .ite_neg htypes hrest

theorem takes_parameters {params : List String} (hparams : ∀ p ∈ params, IsParameter p)
    (htarget : ∀ p ∈ params, ∀ s : Setting, s.yields = false → ∀ ls,
      Takes (g .target) s (parameterLexemes p ++ ls) ls fun t => t.parameter? = some p)
    (hs : s.yields = false) :
    Takes (parameters g) s (.mark "(" :: (separated parameterLexemes params ++ .mark ")" :: ls)) ls
      fun n => ∃ span ps, n = .group .parameters span ps ∧
        ps.mapM Node.parameter? = some params := by
  refine .bind .start fun start _ => .bind .expect fun _ _ => .bind (.within
    ((listed_separated parameterLexemes params ")" ls).takes_commaList
      (Q := fun p n => Node.parameter? n = some p) (by decide) (fun p hp m hm rest => ?_)
      fun p hp => ?_)) fun ps hps => (Takes.finish _ _ _).imp ?_
  · obtain ⟨l, ms, hl, hthis, hbrace, halone⟩ := parameterLexemes_eq_cons (hparams p hp)
    have hread := htarget p hp
      { s with inOperator := true, decorating := false, consequent := false } hs (.mark m :: rest)
    rw [hl, List.cons_append] at hread ⊢
    refine takes_parameter hthis (fun m' hm' heq => ?_) (.mark hm rest)
      (halone.imp id fun h => by rw [h]; exact .mark hm rest) hread
    exact absurd (hbrace m' heq) ((by decide : ∀ m' ∈ ["@", "..."], m' ≠ "\x7b") m' hm')
  · obtain ⟨l, ms, hl, -, hbrace, -⟩ := parameterLexemes_eq_cons (hparams p hp)
    refine ⟨l, ms, hl, ?_⟩
    rintro rfl
    exact absurd (hbrace ")" rfl) (by decide)
  · rintro _ ⟨span, rfl⟩
    exact ⟨span, ps, rfl, mapM_parameter? hps⟩

/-! ## Arrow functions -/

theorem takes_typeParameters?_none (hls : ls.headD .endOfText ≠ .mark "<") :
    Takes (typeParameters? g) s ls ls (· = []) :=
  .bind_eq .types <| .bind_eq (.atMark _) <| .ite_neg (by simpa using fun _ => hls) (.pure rfl)

theorem takes_expectArrow : Takes expectArrow s (.mark "=>" :: ls) ls fun _ => True :=
  .bind .token fun t ht => .bind (.require (by simp [ht.isMark, ht.onLine])) fun _ _ => .step

/-- Are these the parameters, without types? -/
def IsHead (params : List String) (r : List Node × Bool) : Prop :=
  r.2 = false ∧ ∃ span ps, r.1 = [.group .parameters span ps] ∧
    ps.mapM Node.parameter? = some params

theorem takes_arrowHead {params : List String} (hparams : ∀ p ∈ params, IsParameter p)
    (htarget : ∀ p ∈ params, ∀ s : Setting, s.yields = false → ∀ ls,
      Takes (g .target) s (parameterLexemes p ++ ls) ls fun t => t.parameter? = some p)
    (isAsync : Bool) :
    Takes (arrowHead g isAsync) s (headLexemes params ++ ls) ls (IsHead params) := by
  have hhead : headLexemes params ++ ls =
      .mark "(" :: (separated parameterLexemes params ++ .mark ")" :: .mark "=>" :: ls) := by
    simp [headLexemes]
  rw [hhead]
  refine .bind (P := IsHead params) (.within (.bind_eq (takes_typeParameters?_none (by simp)) <|
    .bind (takes_parameters hparams htarget rfl) ?_)) fun r hr =>
      .bind takes_expectArrow fun _ _ => .pure hr
  rintro _ ⟨span, ps, rfl, hps⟩
  exact .bind_eq (takes_returnType_none (by simp)) (.pure ⟨rfl, span, ps, rfl, hps⟩)

/-- The setting in the body of an arrow function. -/
def bodySetting (s : Setting) (isAsync : Bool) : Setting :=
  { s with awaits := isAsync, yields := false, consequent := false, decorating := false }

/-- The node is what the parameters lead to as the body of an arrow function. -/
def DenotesBody (params : List String) (e : Expression) (b : Node) : Prop :=
  ∀ span span' ps, ps.mapM Node.parameter? = some params →
    Denotes e (.group .arrow span [.group .parameters span' ps, b])

theorem takes_arrowFrom {params : List String} {isAsync : Bool} (start : Nat)
    (hs : s.consequent = false)
    (hhead : Takes (arrowHead g isAsync) s ls ls' (IsHead params))
    (hbody : Takes (arrowBody g isAsync) s ls' ls'' (DenotesBody params e)) :
    Takes (arrowFrom g start isAsync) s ls ls'' fun o => ∃ n, o = some n ∧ Denotes e n := by
  refine .bind_eq .read <| .ite_neg (by simp [hs]) <| .bind (.attempt hhead) ?_
  rintro _ ⟨⟨head, typed⟩, rfl, -, span', ps, rfl, hps⟩
  refine .bind (P := Denotes e) (.bind hbody fun b hb => (Takes.finish _ _ _).imp ?_)
    fun n hn => .pure ⟨n, rfl, hn⟩
  rintro _ ⟨span, rfl⟩
  exact hb span span' ps hps

theorem takes_arrowFrom_none {isAsync : Bool} (start : Nat)
    (h : Rejects (arrowHead g isAsync) s ls) :
    Takes (arrowFrom g start isAsync) s ls ls (· = none) := by
  refine .bind_eq .read ?_
  by_cases hs : s.consequent = true
  · exact .ite_pos hs (.attempt_none (.bind_left h))
  · exact .ite_neg hs (.bind_eq (.attempt_none h) (.pure rfl))

theorem takes_isVariable_any (t : Token) : Takes (Parse.isVariable t) s ls ls fun _ => True := by
  rw [Parse.isVariable.eq_def]
  split
  · exact .bind .read fun _ _ => .pure trivial
  · exact .pure trivial

theorem takes_atTypeParameters_none (hls : ls.headD .endOfText ≠ .mark "<") :
    Takes atTypeParameters s ls ls (· = false) :=
  .bind_eq .types <| .bind_eq (.atMark _) <| .ite_neg (by simpa using fun _ => hls) (.pure rfl)

/-- What begins neither with a parenthesis nor with the word `async` is no arrow function, unless
it begins with a name that an arrow follows. -/
theorem takes_arrow?_none (hasync : l ≠ .name "async" false) (hparen : l ≠ .mark "(")
    (hangle : l ≠ .mark "<")
    (hnext : (∀ n escaped, l ≠ .name n escaped) ∨ ls.headD .endOfText ≠ .mark "=>") :
    Takes (arrow? g) s (l :: ls) (l :: ls) (· = none) := by
  refine .bind .start fun start _ => .bind .token fun t ht => .bind .peek fun next hnext' => ?_
  have hvariable : Takes (Parse.isVariable t) s (l :: ls) (l :: ls)
      fun b => b = false ∨ ls.headD .endOfText ≠ .mark "=>" := by
    rcases hnext with hname | hmark
    · exact (takes_isVariable_not fun n escaped => ht.lexeme ▸ hname n escaped).imp fun _ => .inl
    · exact (takes_isVariable_any t).imp fun _ _ => .inr hmark
  refine .bind hvariable fun b hb => .ite_neg ?_ <| .ite_neg ?_ ?_
  · rw [hnext'.isMark]
    rcases hb with hb | hb
    · simp [hb]
    · simp only [hb, decide_false, Bool.and_false, Bool.false_and, Bool.false_eq_true,
        not_false_eq_true]
  · simp [ht.isWord, hasync]
  · exact .bind_eq (takes_atTypeParameters_none hangle) <| .ite_neg (by simp [ht.isMark, hparen])
      (.pure rfl)

/-- The word `async` with no parenthesis behind it is a name. -/
theorem takes_arrow?_async (hls : FollowedBy ("." :: operandFollowers) ls) :
    Takes (arrow? g) s (.name "async" false :: ls) (.name "async" false :: ls) (· = none) := by
  refine .bind .start fun start _ => .bind .token fun t ht => .bind .peek fun next hnext => ?_
  have hmark : ∀ m ∉ "." :: operandFollowers, next.isMark m = false := fun m =>
    isMark_of_followedBy hls hnext
  refine .bind (takes_isVariable_any t) fun b _ => .ite_neg (by simp [hmark "=>" (by decide)]) ?_
  by_cases hline : (t.isWord "async" && !next.onNewLine) = true
  · refine .ite_pos hline <| .bind_eq (takes_isVariable_not fun n escaped => ?_) <|
      .ite_neg (by simp) <| .ite_neg (by simp [hmark "(" (by decide), hmark "<" (by decide)]) <|
      .pure rfl
    rw [hnext.lexeme]
    exact hls.ne_name n escaped
  · exact .ite_neg hline <| .bind_eq (takes_atTypeParameters_none (by simp)) <|
      .ite_neg (by simp [ht.isMark]) (.pure rfl)

/-- So it is before arguments that are no parameters. -/
theorem takes_arrow?_asyncCall (h : Rejects (arrowHead g true) s (.mark "(" :: ls)) :
    Takes (arrow? g) s (.name "async" false :: .mark "(" :: ls)
      (.name "async" false :: .mark "(" :: ls) (· = none) := by
  refine .bind .start fun start _ => .bind .token fun t ht => .bind .peek fun next hnext =>
    .bind (takes_isVariable_any t) fun b _ => .ite_neg (by simp [hnext.isMark]) ?_
  by_cases hline : (t.isWord "async" && !next.onNewLine) = true
  · refine .ite_pos hline <| .bind_eq (takes_isVariable_not (by simp [hnext.lexeme])) <|
      .ite_neg (by simp) <| .ite_pos (by simp [hnext.isMark]) <| .bind .get fun here hhere => ?_
    exact .bind .step fun _ _ => .bind_eq (takes_arrowFrom_none start h) <|
      .bind (.set hhere) fun _ _ => .pure rfl
  · exact .ite_neg hline <| .bind_eq (takes_atTypeParameters_none (by simp)) <|
      .ite_neg (by simp [ht.isMark]) (.pure rfl)

/-- A parenthesis that opens no parameters. -/
theorem takes_arrow?_parenthesis (h : Rejects (arrowHead g false) s (.mark "(" :: ls)) :
    Takes (arrow? g) s (.mark "(" :: ls) (.mark "(" :: ls) (· = none) := by
  refine .bind .start fun start _ => .bind .token fun t ht => .bind .peek_any fun next _ =>
    .bind_eq (takes_isVariable_not (by simp [ht.lexeme])) <| .ite_neg (by simp) <| .ite_neg ?_ ?_
  · simp [ht.isWord]
  · exact .bind_eq (takes_atTypeParameters_none (by simp)) <| .ite_pos (by simp [ht.isMark])
      (takes_arrowFrom_none start h)

theorem takes_arrow?_some {params : List String} (hs : s.consequent = false)
    (hhead : Takes (arrowHead g false) s (headLexemes params ++ ls) ls' (IsHead params))
    (hbody : Takes (arrowBody g false) s ls' ls'' (DenotesBody params e)) :
    Takes (arrow? g) s (headLexemes params ++ ls) ls'' fun o => ∃ n, o = some n ∧ Denotes e n := by
  have hls : headLexemes params ++ ls =
      .mark "(" :: (separated parameterLexemes params ++ .mark ")" :: .mark "=>" :: ls) := by
    simp [headLexemes]
  rw [hls] at hhead ⊢
  refine .bind .start fun start _ => .bind .token fun t ht => .bind .peek_any fun next _ =>
    .bind_eq (takes_isVariable_not (by simp [ht.lexeme])) <| .ite_neg (by simp) <| .ite_neg ?_ ?_
  · simp [ht.isWord]
  · exact .bind_eq (takes_atTypeParameters_none (by simp)) <| .ite_pos (by simp [ht.isMark])
      (takes_arrowFrom start hs hhead hbody)

theorem takes_assignment_arrow (hs : s.yields = false)
    (h : Takes (arrow? g) s ls ls' fun o => ∃ n, o = some n ∧ Denotes e n) :
    Takes (assignment g) s ls ls' (Denotes e) := by
  refine .bind .start fun start _ => .bind_eq (.atWord _) <| .bind_eq .read <|
    .ite_neg (by simp [hs]) <| .bind h ?_
  rintro _ ⟨n, rfl, hn⟩
  exact .pure hn

/-! ### Bodies -/

theorem takes_arrowBody_value {params : List String} {isAsync : Bool}
    (hls : ls.headD .endOfText ≠ .mark "\x7b")
    (h : Takes (g .assignment) (bodySetting s isAsync) ls ls' (Denotes e)) :
    Takes (arrowBody g isAsync) s ls ls' (DenotesBody params (.arrow params e)) := by
  refine .bind_eq (.atMark _) <| .ite_neg (by rw [decide_eq_true_eq]; exact hls) <|
    .within (h.imp ?_)
  intro n hn span span' ps hps
  have hbody : ∀ span ss, n ≠ .group .body span ss := by
    rintro span ss rfl
    cases (show none = some e from hn)
  rw [Denotes] at hn ⊢
  rw [Node.expression?]
  · rw [hps, hn]
    rfl
  · exact hbody

/-- One more statement of a block. -/
def statementStep (g : Go) : Parse (Option Node) := do
  let t ← Parse.token
  if t.isMark closeBrace || t.isEnd then return none
  else return some (← g .statement)

theorem collects_statements {es : List Expression}
    (h : ∀ e ∈ es, (∃ l ms, e.lexemes = l :: ms ∧ l.Opens) ∧ ∀ rest,
      Takes (g .statement) s (e.lexemes ++ .mark ";" :: rest) rest (DenotesStatement e))
    (ls : List Lexeme) :
    Collects (statementStep g) s (statementLexemes es ++ .mark "\x7d" :: ls) (.mark "\x7d" :: ls)
      fun ns => Node.statementsOf? ns = some (asReadAll es) := by
  suffices Collects (statementStep g) s (statementLexemes es ++ .mark "\x7d" :: ls)
      (.mark "\x7d" :: ls) fun ns => List.Forall₂ DenotesStatement es ns from
    fun bound hbound => (this bound hbound).imp fun ns => statementsOf?_of_forall₂
  induction es with
  | nil =>
      refine .nil (.bind .token fun t ht => .ite_pos ?_ (.pure rfl)) .nil
      rw [ht.isMark]
      rfl
  | cons e es ih =>
      obtain ⟨⟨⟨l, ms, hl, hopens⟩, hstatement⟩, hes⟩ := List.forall_mem_cons.1 h
      rw [statementLexemes, List.append_assoc]
      refine .cons (.bind .token fun t ht => .ite_neg ?_ ?_) ?_ (ih hes) fun n ns hn hns =>
        .cons hn hns
      · rw [hl] at ht
        have hend : t.isEnd = false := by
          rw [Token.isEnd, ht.lexeme]
          cases hopens <;> rfl
        rw [isMark_of_opens hopens ht (by decide), hend]
        decide
      · exact .bind (hstatement _) fun n hn => .pure ⟨n, rfl, hn⟩
      · simp only [List.length_append, List.length_cons]
        omega

theorem takes_arrowBody_block {params : List String} {isAsync : Bool} {es : List Expression}
    (h : ∀ e ∈ es, (∃ l ms, e.lexemes = l :: ms ∧ l.Opens) ∧ ∀ rest,
      Takes (g .statement) (bracketed { bodySetting s isAsync with returns := true })
        (e.lexemes ++ .mark ";" :: rest) rest (DenotesStatement e)) (ls : List Lexeme) :
    Takes (arrowBody g isAsync) s (.mark "\x7b" :: (statementLexemes es ++ .mark "\x7d" :: ls)) ls
      (DenotesBody params (.arrowBlock params (asReadAll es))) := by
  refine .bind_eq (.atMark _) <| .ite_pos (by simp [openBrace]) <| .within <|
    .bind .start fun start _ => .bind (.bind .expect fun _ _ => .bind
      (.within (collects_statements h ls).many) fun ns hns => .bind .expect fun _ _ => .pure hns)
      fun ns hns => (Takes.finish _ _ _).imp ?_
  rintro _ ⟨span, rfl⟩ span' span'' ps hps
  rw [Denotes, Node.expression?, hps, hns]
  rfl

/-! ### What is no arrow function -/

theorem rejects_parameter (hword : ∀ w, l ≠ .name w false)
    (hmark : ∀ m ∈ ["@", "..."], l ≠ .mark m)
    (h : Rejects (g .target) s (l :: ls)) : Rejects (parameter g) s (l :: ls) := by
  refine .bind .start fun start _ => .bind_eq (takes_decorators_none (hmark _ (by decide))) <|
    .bind (takes_skipParameterModifiers_none fun t next ht _ hmodifier => ?_) fun _ _ => ?_
  · obtain ⟨w, -, hw⟩ := List.any_eq_true.1 hmodifier
    rw [ht.isWord, decide_eq_true_eq] at hw
    exact absurd hw (hword w)
  · exact .bind_eq .types <| .bind_eq (.atWord _) <| .ite_neg (by simpa using fun _ => hword _) <|
      .bind_eq (.atMark _) <| .ite_neg (by simpa using hmark "..." (by decide)) <| .bind_left h

theorem rejects_arrowHead {isAsync : Bool} (hclose : l ≠ .mark ")")
    (h : ∀ s : Setting, Rejects (parameter g) s (l :: ls)) :
    Rejects (arrowHead g isAsync) s (.mark "(" :: l :: ls) := by
  refine .bind_left <| .within <| .bind_eq (takes_typeParameters?_none (by simp)) <| .bind_left <|
    .bind .start fun start _ => .bind .expect fun _ _ => .bind_left <| .within <| .bind_left <|
    .many <| .bind_eq (.atMark _) <| .ite_neg (by simpa using hclose) <| .bind_left (h _)

theorem rejects_target (hl : ∀ w escaped, l ≠ .name w escaped)
    (hmark : ∀ m ∈ ["[", "\x7b"], l ≠ .mark m) : Rejects (target g) s (l :: ls) := by
  refine .bind_eq (.atMark _) <| .ite_neg (by simpa using hmark "[" (by decide)) <|
    .bind_eq (.atMark _) <| .ite_neg (by simpa [openBrace] using hmark "\x7b" (by decide)) <|
    rejects_binding hl

/-- A list of values is no list of targets. -/
theorem rejects_target_strings {text : String} (h : Rejects (g .target) s (.string text :: ls)) :
    Rejects (target g) s (.mark "[" :: .string text :: ls) :=
  .bind_eq (.atMark _) <| .ite_pos (by simp) <| .bind .start fun start _ => .bind .expect fun _ _ =>
    .bind_left <| .many <| .bind .start fun _ _ => .bind_eq (.atMark _) <| .ite_neg (by simp) <|
    .bind_eq (.eat_not nofun) <| .ite_neg (by decide) <| .bind_eq (.atMark _) <|
    .ite_neg (by simp) <| .bind_left h

/-- No arrow follows. -/
theorem rejects_arrowHead_empty {isAsync : Bool}
    (h : ∀ (s : Setting) ls, Takes (g .target) s (.mark "[" :: .mark "]" :: ls) ls fun _ => True)
    (hls : FollowedBy closers ls) :
    Rejects (arrowHead g isAsync) s (.mark "(" :: .mark "[" :: .mark "]" :: .mark ")" :: ls) := by
  have hlist : Listed (fun _ : Unit => [.mark "[", .mark "]"]) ")" ls [()]
      (.mark "[" :: .mark "]" :: .mark ")" :: ls) := .last ()
  have hparameters (s : Setting) : Takes (parameters g) s
      (.mark "(" :: .mark "[" :: .mark "]" :: .mark ")" :: ls) ls fun _ => True :=
    .bind .start fun start _ => .bind .expect fun _ _ => .bind (.within
      (hlist.takes_commaList (Q := fun _ _ => True) (by decide) (fun _ _ m hm rest =>
        takes_parameter nofun (by simp) (.mark hm rest) (.inl nofun) (h _ _))
        fun _ _ => ⟨_, _, rfl, by simp⟩)) fun _ _ => (Takes.finish _ _ _).imp fun _ _ => trivial
  refine .bind (P := fun _ => True) (.within (.bind_eq (takes_typeParameters?_none (by simp)) <|
    .bind (hparameters _) fun ps _ =>
      .bind_eq (takes_returnType_none (hls.ne_mark (by decide))) (.pure trivial))) fun head _ =>
    .bind_left <| .bind .token fun t ht => .bind_left ?_
  rw [isMark_of_followedBy hls ht (by decide)]
  exact .require

theorem takes_target_empty :
    Takes (target g) s (.mark "[" :: .mark "]" :: ls) ls fun _ => True :=
  .bind_eq (.atMark _) <| .ite_pos (by simp) <| .bind .start fun start _ => .bind .expect fun _ _ =>
    .bind_eq (.many_nil <| .bind .start fun _ _ => .bind_eq (.atMark _) <| .ite_pos (by simp) <|
      .pure rfl) <| .bind .expect fun _ _ => (Takes.finish _ _ _).imp fun _ _ => trivial

/-! ### Statements -/

/-- In front of a dot a word neither declares a type nor begins variables. -/
theorem takes_atTypeDeclaration_none {n : String} (hn : IsName n) :
    Takes atTypeDeclaration s (.name n false :: .mark "." :: ls) (.name n false :: .mark "." :: ls)
      (· = false) := by
  refine .bind_eq .types ?_
  by_cases htypes : s.language.types = true
  · refine .ite_neg (by simp [htypes]) <| .bind .token fun t ht => .bind .peek fun next hnext => ?_
    have hbegins : beginsDeclaration next = false := by
      simp [beginsDeclaration, hnext.isWord]
    have henum : t.isWord "enum" = false := by
      simp [ht.isWord, hn.ne_reserved (w := "enum") (by decide)]
    refine .bind_eq (takes_isVariable_not (by simp [hnext.lexeme])) ?_
    rw [hnext.lexeme]
    exact .pure (by simp [henum, hnext.isWord, hnext.isMark, hbegins, openBrace])
  · exact .ite_pos (by simpa using htypes) (.pure rfl)

theorem takes_atVariables_none {n : String} (hn : IsName n) :
    Takes atVariables s (.name n false :: .mark "." :: ls) (.name n false :: .mark "." :: ls)
      (· = false) := by
  have hlet : Takes atLet s (.name n false :: .mark "." :: ls) (.name n false :: .mark "." :: ls)
      (· = false) := by
    refine .bind .token fun t ht => .bind .peek fun next hnext => ?_
    refine .bind_eq (takes_isVariable_not (by simp [hnext.lexeme])) <| .pure ?_
    simp [hnext.isMark, openBrace]
  refine .bind_eq (.atWord _) <| .bind_eq (.atWord _) <| .bind_eq hlet <| .pure ?_
  simp [hn.ne_reserved (w := "var") (by decide),
    hn.ne_reserved (w := "const") (by decide)]

theorem takes_expressionStatement {n : String} {e : Expression}
    (h : Takes (g .expression) { bracketed s with decorating := s.decorating }
      (.name n false :: .mark "." :: ls) (.mark ";" :: ls') (Denotes e.asRead)) :
    Takes (expressionStatement g) s (.name n false :: .mark "." :: ls) ls'
      (DenotesStatement e) := by
  refine .bind .start fun start _ => .bind .token fun t ht => .bind .peek fun next hnext =>
    .bind (takes_isVariable_any t) fun b _ => .ite_neg (by simp [hnext.isMark]) ?_
  have hend : Takes Parse.endStatement s (.mark ";" :: ls') ls' fun _ => True :=
    .bind_eq .eat (.ite_pos rfl (.pure trivial))
  refine .bind (.within h) fun inner hinner => .bind hend fun _ _ => (Takes.finish _ _ _).imp ?_
  rintro _ ⟨span, rfl⟩
  exact ⟨span, inner, rfl, hinner⟩

/-- A call of something's member, with a semicolon behind it, is a statement. -/
theorem takes_statement {n : String} {e : Expression} (hn : IsName n)
    (h : Takes (g .expression) { bracketed s with decorating := s.decorating }
      (.name n false :: .mark "." :: ls) (.mark ";" :: ls') (Denotes e.asRead)) :
    Takes (statement g) s (.name n false :: .mark "." :: ls) ls' (DenotesStatement e) := by
  refine .bind .start fun start _ => .bind .token fun t ht => .bind .peek fun next hnext => ?_
  have hexpression := takes_expressionStatement h
  have hne : ∀ w ∈ reservedWords, n ≠ w := fun _ => hn.ne_reserved
  rw [ht.lexeme]
  refine .bind_eq (takes_atTypeDeclaration_none hn) <| .ite_neg (by decide) <|
    .bind_eq (takes_atVariables_none hn) <| .ite_neg (by decide) ?_
  split
  case h_17 => exact .ite_neg (by simp [hnext.isWord]) hexpression
  case h_18 => exact hexpression
  all_goals exact absurd rfl (hne _ (by decide))

end SiteMacros.Script.Grammar
