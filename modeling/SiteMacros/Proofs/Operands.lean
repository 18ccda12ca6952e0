import SiteMacros.Proofs.Rendered
import SiteMacros.Proofs.TreeExpressions

/-!
# Operands

What the grammar makes of the lexemes of names, texts, lists, members and calls. The productions
for the parts are those of a table: what is said of a production supposes what it needs of the
table (`ReadsValue`), so that nothing here depends on how deep the table is.

An operand is a value with no operator around it. In front of the marks that follow values in
emitted code nothing is added to it (`takes_operators_of_unary`), and so it is a value, unless it
begins an arrow function (`takes_assignment_of_operators`).
-/

namespace SiteMacros.Script

open Expression

theorem IsName.ne_reserved {n w : String} (hn : IsName n) (hw : w ∈ reservedWords) : n ≠ w :=
  fun h => hn.not_mem.2 (h ▸ hw)

/-- If anything follows, it is one of the marks. -/
def FollowedBy (marks : List String) (ls : List Lexeme) : Prop :=
  ∀ l ∈ ls.head?, ∃ m ∈ marks, l = .mark m

namespace FollowedBy

variable {marks marks' : List String} {ls : List Lexeme} {m : String}

theorem nil : FollowedBy marks [] :=
  nofun

theorem mark (hm : m ∈ marks) (ls : List Lexeme) : FollowedBy marks (.mark m :: ls) := by
  rintro _ ⟨⟩
  exact ⟨m, hm, rfl⟩

theorem mono (h : FollowedBy marks ls) (hmarks : marks ⊆ marks') : FollowedBy marks' ls := by
  intro l hl
  obtain ⟨m, hm, rfl⟩ := h l hl
  exact ⟨m, hmarks hm, rfl⟩

/-- The first lexeme that is left is the end or one of the marks. -/
theorem headD (h : FollowedBy marks ls) :
    ls.headD .endOfText = .endOfText ∨ ∃ m ∈ marks, ls.headD .endOfText = .mark m := by
  cases ls with
  | nil => exact .inl rfl
  | cons l ls => exact .inr (h l rfl)

theorem ne_mark (h : FollowedBy marks ls) (hm : m ∉ marks) : ls.headD .endOfText ≠ .mark m := by
  rcases h.headD with hend | ⟨m', hm', hmark⟩
  · rw [hend]
    exact nofun
  · rw [hmark]
    rintro ⟨⟩
    exact hm hm'

theorem ne_name (h : FollowedBy marks ls) (w : String) (escaped : Bool) :
    ls.headD .endOfText ≠ .name w escaped := by
  rcases h.headD with hend | ⟨m', hm', hmark⟩
  · rw [hend]
    exact nofun
  · rw [hmark]
    exact nofun

end FollowedBy

/-- Marks that may follow an expression among others. -/
def closers : List String := [")", "]", "\x7d", ",", ";"]

/-- Marks that may follow an operand. -/
def operandFollowers : List String := ["?", ":"] ++ closers

/-! ## Lists -/

/-- Lexemes of things with commas between them, and perhaps one behind the last, up to a closing
mark and on to `ls`. -/
inductive Listed {α : Type} (f : α → List Lexeme) (close : String) (ls : List Lexeme) :
    List α → List Lexeme → Prop
  | nil : Listed f close ls [] (.mark close :: ls)
  | last (a : α) : Listed f close ls [a] (f a ++ .mark close :: ls)
  | cons {as : List α} {ls' : List Lexeme} (a : α) (h : Listed f close ls as ls') :
      Listed f close ls (a :: as) (f a ++ .mark "," :: ls')

theorem listed_items (es : List Expression) (close : String) (ls : List Lexeme) :
    Listed lexemes close ls es (itemLexemes es ++ .mark close :: ls) := by
  induction es with
  | nil => exact .nil
  | cons e es ih =>
      rw [itemLexemes, List.append_assoc]
      exact .cons e ih

theorem listed_args (es : List Expression) (close : String) (ls : List Lexeme) :
    Listed lexemes close ls es (argLexemes es ++ .mark close :: ls) := by
  induction es with
  | nil => exact .nil
  | cons e es ih =>
      cases es with
      | nil => exact .last e
      | cons e' es =>
          rw [argLexemes, List.append_assoc]
          exact .cons e ih

/-- The lexemes of a property. -/
def propertyLexeme (p : String × Expression) : List Lexeme :=
  .name p.1 false :: .mark ":" :: p.2.lexemes

theorem listed_properties (ps : List (String × Expression)) (close : String) (ls : List Lexeme) :
    Listed propertyLexeme close ls ps (propertyLexemes ps ++ .mark close :: ls) := by
  induction ps with
  | nil => exact .nil
  | cons p ps ih =>
      rw [propertyLexemes, List.append_assoc]
      exact .cons p ih

theorem listed_separated {α : Type} (f : α → List Lexeme) (as : List α) (close : String)
    (ls : List Lexeme) : Listed f close ls as (separated f as ++ .mark close :: ls) := by
  induction as with
  | nil => exact .nil
  | cons a as ih =>
      cases as with
      | nil => exact .last a
      | cons b as =>
          rw [separated, List.append_assoc]
          exact .cons a ih

section

variable {α β : Type} {f : α → List Lexeme} {close : String} {ls ls' : List Lexeme} {as : List α}
  {s : Setting} {Q : α → β → Prop}

/-- Items of a list are read one by one by what reads each of them with the comma behind it. -/
theorem Listed.takes_many {p : Parse (Option β)} (h : Listed f close ls as ls')
    (hend : Takes p s (.mark close :: ls) (.mark close :: ls) (· = none))
    (hlast : ∀ a ∈ as, ∀ rest, Takes p s (f a ++ .mark close :: rest) (.mark close :: rest)
      fun o => ∃ b, o = some b ∧ Q a b)
    (hcomma : ∀ a ∈ as, ∀ rest, Takes p s (f a ++ .mark "," :: rest) rest
      fun o => ∃ b, o = some b ∧ Q a b)
    (hne : ∀ a ∈ as, f a ≠ []) :
    Takes (Parse.many p) s ls' (.mark close :: ls) fun bs => List.Forall₂ Q as bs := by
  suffices Collects p s ls' (.mark close :: ls) fun bs => List.Forall₂ Q as bs from this.many
  induction h with
  | nil => exact .nil hend .nil
  | last a =>
      have hlength : 0 < (f a).length := List.length_pos_iff.2 (hne a List.mem_cons_self)
      refine .cons (hlast a List.mem_cons_self ls) ?_ (.nil hend rfl) fun b bs hb hbs => ?_
      · rw [List.length_append]
        omega
      · rw [← hbs]
        exact .cons hb .nil
  | cons a h ih =>
      refine .cons (hcomma a List.mem_cons_self _) ?_ (ih ?_ ?_ ?_) fun b bs hb hbs => .cons hb hbs
      · rw [List.length_append, List.length_cons]
        omega
      · exact fun a ha => hlast a (List.mem_cons_of_mem _ ha)
      · exact fun a ha => hcomma a (List.mem_cons_of_mem _ ha)
      · exact fun a ha => hne a (List.mem_cons_of_mem _ ha)

theorem Listed.takes_commaList {p : Parse β} (h : Listed f close ls as ls') (hclose : close ≠ ",")
    (hp : ∀ a ∈ as, ∀ m ∈ [",", close], ∀ rest,
      Takes p s (f a ++ .mark m :: rest) (.mark m :: rest) (Q a))
    (hopens : ∀ a ∈ as, ∃ l ms, f a = l :: ms ∧ l ≠ .mark close) :
    Takes (Parse.commaList close p) s ls' ls fun bs => List.Forall₂ Q as bs := by
  have hfirst : ∀ a ∈ as, ∀ rest, (f a ++ rest).headD .endOfText ≠ .mark close := by
    intro a ha rest
    obtain ⟨l, ms, hf, hl⟩ := hopens a ha
    rw [hf]
    exact hl
  refine .bind (h.takes_many (Q := Q) ?_ (fun a ha rest => ?_) (fun a ha rest => ?_) ?_)
    fun bs hbs => .bind .expect fun _ _ => .pure hbs
  · exact .bind_eq (.atMark close) (.ite_pos (by simp) (.pure rfl))
  · refine .bind_eq (.atMark close) (.ite_neg (by rw [decide_eq_true_eq]; exact hfirst a ha _) ?_)
    refine .bind (hp a ha close (by simp) rest) fun b hb => ?_
    exact .bind_eq (.atMark close) (.ite_pos (by simp) (.pure ⟨b, rfl, hb⟩))
  · refine .bind_eq (.atMark close) (.ite_neg (by rw [decide_eq_true_eq]; exact hfirst a ha _) ?_)
    refine .bind (hp a ha "," (by simp) rest) fun b hb => ?_
    refine .bind_eq (.atMark close) (.ite_neg (by simpa using hclose.symm) ?_)
    exact .bind .expect fun _ _ => .pure ⟨b, rfl, hb⟩
  · intro a ha
    obtain ⟨l, ms, hf, -⟩ := hopens a ha
    rw [hf]
    exact List.cons_ne_nil l ms

end

namespace Grammar

variable {g : Go} {s : Setting} {l : Lexeme} {ls ls' ls'' : List Lexeme}
  {e e' e₁ e₂ e₃ : Expression}

/-! ## Names and texts -/

theorem takes_isVariable {n : String} (hn : IsName n) (hs : s.yields = false) {t : Token}
    {escaped : Bool} (ht : t.lexeme = .name n escaped) :
    Takes (Parse.isVariable t) s ls ls (· = true) := by
  rw [Parse.isVariable, ht]
  exact .bind_eq .read (.pure (by simp [hn.isIdentifier, hs]))

theorem takes_isVariable_not {t : Token} (ht : ∀ n escaped, t.lexeme ≠ .name n escaped) :
    Takes (Parse.isVariable t) s ls ls (· = false) := by
  rw [Parse.isVariable.eq_def]
  split
  · next n escaped h => exact absurd h (ht n escaped)
  · exact .pure rfl

theorem takes_variableName {n : String} (hn : IsName n) (hs : s.yields = false) :
    Takes Parse.variableName s (.name n false :: ls) ls (·.2 = n) := by
  refine .bind .token fun t ht => .bind_eq (takes_isVariable hn hs ht.lexeme) ?_
  refine .bind (.require rfl) fun _ _ => ?_
  rw [ht.lexeme]
  exact .bind .step fun _ _ => .pure rfl

theorem takes_reference {n : String} (hn : IsName n) (hs : s.yields = false) :
    Takes Parse.reference s (.name n false :: ls) ls (Denotes (.name n)) := by
  refine .bind (takes_variableName hn hs) ?_
  rintro ⟨span, name⟩ rfl
  exact .pure rfl

theorem takes_binding {n : String} (hn : IsName n) (hs : s.yields = false) :
    Takes Parse.binding s (.name n false :: ls) ls fun b => ∃ span, b = .binding span n := by
  refine .bind (takes_variableName hn hs) ?_
  rintro ⟨span, name⟩ rfl
  exact .pure ⟨span, rfl⟩

theorem takes_anyName {w : String} {escaped : Bool} :
    Takes Parse.anyName s (.name w escaped :: ls) ls fun n => ∃ span, n = .word span w := by
  refine .bind .token fun t ht => ?_
  rw [ht.lexeme]
  exact .bind .step fun _ _ => .pure ⟨_, rfl⟩

theorem rejects_variableName (h : ∀ n escaped, ls.headD .endOfText ≠ .name n escaped) :
    Rejects Parse.variableName s ls := by
  refine .bind .token fun t ht => .bind_eq (takes_isVariable_not (ht.lexeme ▸ h)) ?_
  exact .bind_left .require

theorem rejects_binding (h : ∀ n escaped, ls.headD .endOfText ≠ .name n escaped) :
    Rejects Parse.binding s ls :=
  .bind_left (rejects_variableName h)

/-! ## Operands -/

theorem takes_primary_string (text : String) :
    Takes (primary g) s (.string text :: ls) ls (Denotes (.string text)) := by
  refine .bind .start fun _ _ => .bind .token fun t ht => .bind .peek fun _ _ => ?_
  rw [ht.lexeme]
  exact .bind .step fun _ _ => .pure rfl

theorem takes_primary_name {n : String} (hn : IsName n) (hs : s.yields = false)
    (hls : ls.headD .endOfText ≠ .name "function" false) :
    Takes (primary g) s (.name n false :: ls) ls (Denotes (.name n)) := by
  refine .bind .start fun _ _ => .bind .token fun t ht => .bind .peek fun next hnext => ?_
  rw [ht.lexeme]
  have hne : ∀ w ∈ reservedWords, n ≠ w := fun _ => hn.ne_reserved
  have hfunction : next.isWord "function" = false := by
    rw [hnext.isWord]
    exact decide_eq_false hls
  refine .ite_neg (hne _ (by decide)) <| .ite_neg (by simp [hfunction]) <|
    .ite_neg (hne _ (by decide)) <| .ite_neg (hne _ (by decide)) <| .ite_neg ?_ ?_
  · simp [hne "null" (by decide), hne "true" (by decide), hne "false" (by decide)]
  · exact takes_reference hn hs

/-- A word that is a value. -/
theorem takes_primary_word {w : String} (hw : w = "null" ∨ w = "true" ∨ w = "false")
    {e : Expression} (he : (Node.word ⟨0, 0⟩ w).expression? = some e) :
    Takes (primary g) s (.name w false :: ls) ls (Denotes e) := by
  refine .bind .start fun _ _ => .bind .token fun t ht => .bind .peek fun next hnext => ?_
  rw [ht.lexeme]
  have hword : Takes Parse.anyName s (.name w false :: ls) ls (Denotes e) :=
    takes_anyName.imp fun n ⟨span, hn⟩ => hn ▸ he
  rcases hw with rfl | rfl | rfl
  all_goals
    exact .ite_neg (by decide) <| .ite_neg (by simp) <| .ite_neg (by decide) <|
      .ite_neg (by decide) <| .ite_pos (by simp) hword

/-! ## Lists of values -/

/-- The table reads the expression, in front of a mark that may follow it. -/
def ReadsValue (g : Go) (s : Setting) (e : Expression) : Prop :=
  ∀ ls, FollowedBy closers ls → Takes (g .assignment) s (e.lexemes ++ ls) ls (Denotes e.asRead)

theorem takes_spreadOr {P : Node → Prop} (hls : ls.headD .endOfText ≠ .mark "...")
    (h : Takes (g .assignment) s ls ls' P) : Takes (spreadOr g) s ls ls' P :=
  .bind_eq (.atMark _) (.ite_neg (by simpa using hls) h)

theorem opens_ne_mark {l : Lexeme} (h : l.Opens) {m : String} (hm : m ∉ ["(", "[", "\x7b"]) :
    l ≠ .mark m := by
  rintro rfl
  cases h with
  | mark h => exact hm h

theorem readable_headD {e : Expression} (h : Readable e) {m : String}
    (hm : m ∉ ["(", "[", "\x7b"]) (ls : List Lexeme) :
    (e.lexemes ++ ls).headD .endOfText ≠ .mark m := by
  obtain ⟨l, ms, hl, hopens⟩ := h.opens
  rw [hl]
  exact opens_ne_mark hopens hm

theorem takes_arguments {args : List Expression}
    (h : ∀ e ∈ args, Readable e ∧ ReadsValue g (bracketed s) e) (ls : List Lexeme) :
    Takes (arguments g) s (.mark "(" :: (argLexemes args ++ .mark ")" :: ls)) ls
      fun ns => Node.expressionsOf? ns = some (asReadAll args) := by
  refine .bind .expect fun _ _ => .within ?_
  refine .imp ((listed_args args ")" ls).takes_commaList (by decide) (fun e he m hm rest => ?_)
    fun e he => ?_) fun ns => expressionsOf?_of_forall₂
  · obtain ⟨hread, hvalue⟩ := h e he
    have hm : m ∈ closers := (by decide : ∀ m ∈ [",", ")"], m ∈ closers) m hm
    exact takes_spreadOr (readable_headD hread (by decide) _) (hvalue _ (.mark hm _))
  · obtain ⟨l, ms, hl, hopens⟩ := (h e he).1.opens
    exact ⟨l, ms, hl, opens_ne_mark hopens (by decide)⟩

/-- One more item of an array. -/
def arrayStep (g : Go) : Parse (Option Node) := do
  let t ← Parse.token
  if t.isMark "]" then return none
  else if t.isMark "," then
    Parse.step
    return some (.group .hole ⟨t.start, t.start⟩ [])
  else
    let e ← spreadOr g
    unless ← Parse.atMark "]" do Parse.expect ","
    return some e

theorem takes_arrayItems {es : List Expression}
    (h : ∀ e ∈ es, Readable e ∧ ReadsValue g s e) (ls : List Lexeme) :
    Takes (Parse.many (arrayStep g)) s (itemLexemes es ++ .mark "]" :: ls) (.mark "]" :: ls)
      fun ns => Node.expressionsOf? ns = some (asReadAll es) := by
  have hitem : ∀ e ∈ es, ∀ m ∈ closers, ∀ rest, Takes (spreadOr g) s
      (e.lexemes ++ .mark m :: rest) (.mark m :: rest) (Denotes e.asRead) := by
    intro e he m hm rest
    obtain ⟨hread, hvalue⟩ := h e he
    exact takes_spreadOr (readable_headD hread (by decide) _) (hvalue _ (.mark hm _))
  -- an item is neither the end of the array nor a hole
  have hmark : ∀ e ∈ es, ∀ rest, ∀ t : Token, t.At (e.lexemes ++ rest) →
      ¬t.isMark "]" = true ∧ ¬t.isMark "," = true := by
    intro e he rest t ht
    rw [ht.isMark, ht.isMark, decide_eq_true_eq, decide_eq_true_eq]
    exact ⟨readable_headD (h e he).1 (by decide) _, readable_headD (h e he).1 (by decide) _⟩
  refine .imp ((listed_items es "]" ls).takes_many ?_ (fun e he rest => ?_)
    (fun e he rest => ?_) ?_) fun ns => expressionsOf?_of_forall₂
  · exact .bind .token fun t ht => .ite_pos (by rw [ht.isMark]; rfl) (.pure rfl)
  · refine .bind .token fun t ht => .ite_neg (hmark e he _ t ht).1 <|
      .ite_neg (hmark e he _ t ht).2 <| .bind (hitem e he "]" (by decide) rest) fun n hn => ?_
    exact .bind_eq (.atMark _) (.ite_pos (by simp) (.pure ⟨n, rfl, hn⟩))
  · refine .bind .token fun t ht => .ite_neg (hmark e he _ t ht).1 <|
      .ite_neg (hmark e he _ t ht).2 <| .bind (hitem e he "," (by decide) rest) fun n hn => ?_
    exact .bind_eq (.atMark _) (.ite_neg (by simp) (.bind .expect fun _ _ => .pure ⟨n, rfl, hn⟩))
  · intro e he
    obtain ⟨l, ms, hl, -⟩ := (h e he).1.opens
    rw [hl]
    exact List.cons_ne_nil l ms

theorem takes_array {es : List Expression}
    (h : ∀ e ∈ es, Readable e ∧ ReadsValue g (bracketed s) e) (ls : List Lexeme) :
    Takes (array g) s (.mark "[" :: (itemLexemes es ++ .mark "]" :: ls)) ls
      (Denotes (.array (asReadAll es))) := by
  refine .bind .start fun start _ => .bind .expect fun _ _ =>
    .bind (.within (takes_arrayItems h ls)) fun ns hns => .bind .expect fun _ _ =>
      (Takes.finish _ _ _).imp ?_
  rintro _ ⟨span, rfl⟩
  rw [Denotes, Node.expression?, hns]
  rfl

/-! ## Objects -/

/-- The word that a colon follows is no modifier. -/
theorem takes_methodHead {w : String} :
    Takes methodHead s (.name w false :: .mark ":" :: ls) (.name w false :: .mark ":" :: ls)
      (· = ⟨false, false, false⟩) := by
  have hnext : ∀ t : Token, t.At (.mark ":" :: ls) →
      startsPropertyName t = false ∧ modifies t = false := by
    intro t ht
    have hstarts : startsPropertyName t = false := by
      rw [startsPropertyName, ht.lexeme]
      rfl
    exact ⟨hstarts, by rw [modifies, hstarts, ht.isMark]; rfl⟩
  have hasync : Takes eatAsync s (.name w false :: .mark ":" :: ls)
      (.name w false :: .mark ":" :: ls) (· = false) :=
    .bind .token fun t _ => .bind .peek fun next h =>
      .ite_neg (by simp [(hnext next h).2]) (.pure rfl)
  have haccessor : Takes eatAccessor s (.name w false :: .mark ":" :: ls)
      (.name w false :: .mark ":" :: ls) (· = false) :=
    .bind .token fun t _ => .bind .peek fun next h =>
      .ite_neg (by simp [(hnext next h).1]) (.pure rfl)
  exact .bind_eq hasync <| .bind_eq (.eat_not nofun) <| .ite_neg (by decide) <|
    .bind_eq haccessor <| .pure rfl

theorem takes_propertyName {w : String} :
    Takes (propertyName g) s (.name w false :: ls) ls fun n => ∃ span, n = .word span w := by
  refine .bind .token fun t ht => ?_
  rw [ht.lexeme]
  exact takes_anyName

theorem takes_objectProperty {p : String × Expression} (hvalue : ReadsValue g s p.2) {m : String}
    (hm : m ∈ closers) (ls : List Lexeme) :
    Takes (objectProperty g) s (propertyLexeme p ++ .mark m :: ls) (.mark m :: ls)
      (DenotesProperty p) := by
  refine .bind .start fun start _ => .bind_eq (.atMark _) <| .ite_neg (by simp [propertyLexeme]) ?_
  refine .bind_eq takes_methodHead <| .bind .token fun t _ => .bind takes_propertyName ?_
  rintro _ ⟨span, rfl⟩
  refine .bind_eq (.atMark _) <| .bind_eq .types <| .bind_eq (.atMark _) <| .ite_neg (by simp) ?_
  refine .bind (.require rfl) fun _ _ => .bind_eq .eat <| .ite_pos rfl ?_
  refine .bind (hvalue _ (.mark hm ls)) fun value hvalue => (Takes.finish _ _ _).imp ?_
  rintro _ ⟨whole, rfl⟩
  exact ⟨whole, _, value, rfl, rfl, hvalue⟩

theorem takes_object {ps : List (String × Expression)}
    (h : ∀ p ∈ ps, ReadsValue g (bracketed s) p.2) (ls : List Lexeme) :
    Takes (object g) s (.mark "\x7b" :: (propertyLexemes ps ++ .mark "\x7d" :: ls)) ls
      (Denotes (.object (asReadProperties ps))) := by
  refine .bind .start fun start _ => .bind .expect fun _ _ => .bind (.within
    ((listed_properties ps closeBrace ls).takes_commaList (Q := DenotesProperty) (by decide)
      (fun p hp m hm rest => ?_) fun p _ => ⟨_, _, rfl, nofun⟩)) fun ns hns =>
        (Takes.finish _ _ _).imp ?_
  · exact takes_objectProperty (h p hp)
      ((by decide : ∀ m ∈ [",", closeBrace], m ∈ closers) m hm) rest
  · rintro _ ⟨span, rfl⟩
    rw [Denotes, Node.expression?, propertiesOf?_of_forall₂ hns]
    rfl

/-! ## Operands that begin with a mark -/

theorem takes_primary_array {es : List Expression}
    (h : ∀ e ∈ es, Readable e ∧ ReadsValue g (bracketed s) e) (ls : List Lexeme) :
    Takes (primary g) s (.mark "[" :: (itemLexemes es ++ .mark "]" :: ls)) ls
      (Denotes (.array (asReadAll es))) := by
  refine .bind .start fun _ _ => .bind .token fun t ht => .bind .peek fun _ _ => ?_
  rw [ht.lexeme]
  exact takes_array h ls

theorem takes_primary_object {ps : List (String × Expression)}
    (h : ∀ p ∈ ps, ReadsValue g (bracketed s) p.2) (ls : List Lexeme) :
    Takes (primary g) s (.mark "\x7b" :: (propertyLexemes ps ++ .mark "\x7d" :: ls)) ls
      (Denotes (.object (asReadProperties ps))) := by
  refine .bind .start fun _ _ => .bind .token fun t ht => .bind .peek fun _ _ => ?_
  rw [ht.lexeme]
  exact takes_object h ls

/-- Parentheses only group. -/
theorem takes_primary_parenthesized
    (h : Takes (g .expression) (bracketed s) ls (.mark ")" :: ls') (Denotes e)) :
    Takes (primary g) s (.mark "(" :: ls) ls' (Denotes e) := by
  refine .bind .start fun _ _ => .bind .token fun t ht => .bind .peek fun _ _ => ?_
  rw [ht.lexeme]
  refine .bind .start fun start _ => .bind .expect fun _ _ => .bind (.within h) fun n hn =>
    .bind .expect fun _ _ => (Takes.finish _ _ _).imp ?_
  rintro _ ⟨span, rfl⟩
  exact hn

theorem takes_importExpression {source : String}
    (h : ReadsValue g (bracketed s) (.string source)) (ls : List Lexeme) :
    Takes (importExpression g) s
      (.name "import" false :: .mark "(" :: .string source :: .mark ")" :: ls) ls
      (Denotes (.dynamicImport source)) := by
  have hlist : Listed lexemes ")" ls [.string source] (.string source :: .mark ")" :: ls) :=
    .last _
  have hparts : Takes (Parse.commaList ")" (g .assignment)) (bracketed s)
      (.string source :: .mark ")" :: ls) ls
      fun ns => ∃ n, ns = [n] ∧ Denotes (.string source) n := by
    refine .imp (hlist.takes_commaList (Q := fun e n => Denotes e.asRead n) (by decide)
      (fun e he m hm rest => ?_) fun e he => ?_) ?_
    · rw [List.mem_singleton.1 he]
      exact h _ (.mark ((by decide : ∀ m ∈ [",", ")"], m ∈ closers) m hm) rest)
    · rw [List.mem_singleton.1 he]
      exact ⟨_, _, rfl, nofun⟩
    · rintro _ (_ | ⟨hn, ⟨⟩⟩)
      exact ⟨_, rfl, hn⟩
  refine .bind .start fun start _ => .bind .expectWord fun _ _ => .bind_eq (.eat_not (by simp)) <|
    .ite_neg (by decide) <| .bind .expect fun _ _ => .bind (.within hparts) ?_
  rintro _ ⟨n, rfl, hn⟩
  refine .bind (.require rfl) fun _ _ => (Takes.finish _ _ _).imp ?_
  rintro _ ⟨whole, rfl⟩
  rw [Denotes] at hn ⊢
  rw [Node.expression?, hn]
  rfl

/-! ## Members and calls -/

/-- From anything that stands for the one expression, the members and calls that follow lead to
something that stands for the other. -/
def ReadsSuffixes (g : Go) (s : Setting) (e : Expression) (ls ls' : List Lexeme)
    (e' : Expression) : Prop :=
  ∀ start n, Denotes e n → Extends (suffix g start true) (n, false) s ls ls'
    fun r => r.2 = false ∧ Denotes e' r.1

theorem ReadsSuffixes.stop (h : FollowedBy operandFollowers ls) :
    ReadsSuffixes g s e ls ls e := by
  intro start n hn
  refine .stop (.bind .token fun t ht => .bind .peek_any fun next _ => ?_) ⟨rfl, hn⟩
  rw [ht.lexeme]
  rcases h.headD with hend | ⟨m, hm, hmark⟩
  · rw [hend]
    exact .pure rfl
  · rw [hmark]
    have hm : m = "?" ∨ m = ":" ∨ m = ")" ∨ m = "]" ∨ m = "\x7d" ∨ m = "," ∨ m = ";" := by
      simpa [operandFollowers, closers] using hm
    rcases hm with rfl | rfl | rfl | rfl | rfl | rfl | rfl
    all_goals exact .pure rfl

theorem takes_suffix_member {property : String} {start : Nat} {n : Node} (hn : Denotes e n) :
    Takes (suffix g start true (n, false)) s (.mark "." :: .name property false :: ls) ls
      fun o => ∃ r, o = some r ∧ r.2 = false ∧ Denotes (.member e property) r.1 := by
  refine .bind .token fun t ht => .bind .peek fun next _ => ?_
  rw [ht.lexeme]
  have hmember : Takes memberName s (.name property false :: ls) ls
      fun n => ∃ span, n = .word span property := by
    refine .bind .token fun t ht => ?_
    rw [ht.lexeme]
    exact takes_anyName
  refine .bind (P := Denotes (.member e property)) (.bind .step fun _ _ => .bind hmember ?_)
    fun n hn => .pure ⟨_, rfl, rfl, hn⟩
  rintro _ ⟨span, rfl⟩
  refine (Takes.finish _ _ _).imp ?_
  rintro _ ⟨whole, rfl⟩
  rw [Denotes] at hn ⊢
  rw [Node.expression?, hn]
  rfl

theorem takes_suffix_call {args : List Expression}
    (hargs : ∀ a ∈ args, Readable a ∧ ReadsValue g (bracketed s) a) {start : Nat} {n : Node}
    (hn : Denotes e n) :
    Takes (suffix g start true (n, false)) s (.mark "(" :: (argLexemes args ++ .mark ")" :: ls)) ls
      fun o => ∃ r, o = some r ∧ r.2 = false ∧ Denotes (.call e (asReadAll args)) r.1 := by
  refine .bind .token fun t ht => .bind .peek fun next _ => ?_
  rw [ht.lexeme]
  refine .ite_pos rfl <| .bind (P := Denotes (.call e (asReadAll args)))
    (.bind (takes_arguments hargs ls) fun ns hns => .bind .get fun _ _ => .pure ?_)
    fun n hn => .pure ⟨_, rfl, rfl, hn⟩
  rw [Denotes] at hn ⊢
  rw [Node.expression?, hn, hns]
  rfl

theorem ReadsSuffixes.member {property : String}
    (h : ReadsSuffixes g s (.member e property) ls ls' e') :
    ReadsSuffixes g s e (.mark "." :: .name property false :: ls) ls' e' := by
  intro start n hn
  refine .step (takes_suffix_member hn) ?_ ?_
  · rw [List.length_cons, List.length_cons]
    omega
  · rintro ⟨n, inChain⟩ ⟨rfl, hn⟩
    exact h start n hn

theorem ReadsSuffixes.call {args : List Expression}
    (hargs : ∀ a ∈ args, Readable a ∧ ReadsValue g (bracketed s) a)
    (h : ReadsSuffixes g s (.call e (asReadAll args)) ls ls' e') :
    ReadsSuffixes g s e (.mark "(" :: (argLexemes args ++ .mark ")" :: ls)) ls' e' := by
  intro start n hn
  refine .step (takes_suffix_call hargs hn) ?_ ?_
  · rw [List.length_cons, List.length_append, List.length_cons]
    omega
  · rintro ⟨n, inChain⟩ ⟨rfl, hn⟩
    exact h start n hn

theorem ReadsSuffixes.callEmpty (h : ReadsSuffixes g s (.call e []) ls ls' e') :
    ReadsSuffixes g s e (.mark "(" :: .mark ")" :: ls) ls' e' :=
  ReadsSuffixes.call (List.forall_mem_nil _) h

theorem takes_suffixes (h : ReadsSuffixes g s e ls ls' e') {start : Nat} {n : Node}
    (hn : Denotes e n) : Takes (suffixes g start true n) s ls ls' (Denotes e') := by
  refine .bind (h start n hn).extend ?_
  rintro ⟨n, inChain⟩ ⟨rfl, hn⟩
  exact .ite_neg (by decide) (.pure hn)

/-! ## From operands to values -/

/-- An operand that is no word with a meaning of its own here. -/
theorem takes_leftHand_of_primary (hls : ∀ w ∈ ["new", "import", "super"],
      ls.headD .endOfText ≠ .name w false)
    (h : Takes (primary g) s ls ls' (Denotes e)) (hsuffixes : ReadsSuffixes g s e ls' ls'' e') :
    Takes (leftHand g) s ls ls'' (Denotes e') := by
  refine .bind .start fun start _ => .bind .token fun t ht => ?_
  have hword : ∀ w ∈ ["new", "import", "super"], ¬t.isWord w = true := by
    intro w hw
    rw [ht.isWord, decide_eq_true_eq]
    exact hls w hw
  exact .ite_neg (hword _ (by decide)) <| .ite_neg (hword _ (by decide)) <|
    .ite_neg (hword _ (by decide)) <| .bind h fun n hn => takes_suffixes hsuffixes hn

theorem takes_leftHand_import
    (h : Takes (importExpression g) s (.name "import" false :: ls) ls' (Denotes e))
    (hls' : FollowedBy operandFollowers ls') :
    Takes (leftHand g) s (.name "import" false :: ls) ls' (Denotes e) := by
  refine .bind .start fun start _ => .bind .token fun t ht => ?_
  refine .ite_neg (by simp [ht.isWord]) <| .ite_pos (by simp [ht.isWord]) <|
    .bind h fun n hn => takes_suffixes (.stop hls') hn

/-! ## Operators -/

theorem isMark_of_opens (hl : l.Opens) {t : Token} (ht : t.At (l :: ls)) {m : String}
    (hm : m ∉ ["(", "[", "\x7b"]) : t.isMark m = false := by
  rw [ht.isMark]
  exact decide_eq_false (opens_ne_mark hl hm)

theorem isWord_of_opens (hl : l.Opens) {t : Token} (ht : t.At (l :: ls)) {w : String}
    (hw : w ∈ frontWords) : t.isWord w = false := by
  rw [ht.isWord, decide_eq_false_iff_not]
  rintro ⟨⟩
  cases hl with
  | name h => exact h hw

theorem isMark_of_followedBy {marks : List String} (hls : FollowedBy marks ls) {t : Token}
    (ht : t.At ls) {m : String} (hm : m ∉ marks) : t.isMark m = false := by
  rw [ht.isMark]
  exact decide_eq_false (hls.ne_mark hm)

theorem isName_of_followedBy {marks : List String} (hls : FollowedBy marks ls) {t : Token}
    (ht : t.At ls) : t.isName = false := by
  rw [Token.isName, ht.lexeme]
  rcases hls.headD with hend | ⟨m, -, hmark⟩
  · rw [hend]
  · rw [hmark]

/-- Operators are neither in front of an operand nor behind it. -/
theorem takes_unary_of_leftHand (hl : l.Opens)
    (h : Takes (g .leftHand) s (l :: ls) ls' (Denotes e))
    (hls' : FollowedBy operandFollowers ls') : Takes (unary g) s (l :: ls) ls' (Denotes e) := by
  refine .bind .start fun start _ => .bind .token fun t ht => ?_
  have hmark : ∀ m ∉ ["(", "[", "\x7b"], t.isMark m = false := fun m => isMark_of_opens hl ht
  have hword : ∀ w ∈ frontWords, t.isWord w = false := fun w => isWord_of_opens hl ht
  have hfront : frontOperators t = false := by
    simp [frontOperators, hmark "+" (by decide), hmark "-" (by decide), hmark "~" (by decide),
      hmark "!" (by decide), hword "delete" (by decide), hword "void" (by decide),
      hword "typeof" (by decide)]
  refine .ite_neg (by simp [hfront]) <|
    .ite_neg (by simp [hmark "++" (by decide), hmark "--" (by decide)]) <| .bind_eq .read <|
    .ite_neg (by simp [hword "await" (by decide)]) <| .bind_eq .types <| .bind_eq .read <|
    .ite_neg (by simp [hmark "<" (by decide)]) <| .bind h fun n hn => .bind .token fun t ht => ?_
  have hafter : ∀ m ∉ operandFollowers, t.isMark m = false := fun m => isMark_of_followedBy hls' ht
  exact .ite_neg (by simp [hafter "++" (by decide), hafter "--" (by decide)]) (.pure hn)

/-- Only angle brackets are joined with what follows them. -/
theorem joined_eq (hls : FollowedBy operandFollowers ls) {t : Token} (ht : t.At ls) :
    Scanner.joined t = t := by
  rw [Scanner.joined, isMark_of_followedBy hls ht (by decide),
    isMark_of_followedBy hls ht (by decide)]
  rfl

theorem takes_operation (hls : FollowedBy operandFollowers ls) (start level : Nat) (n : Node) :
    Takes (operation g start level n) s ls ls (· = none) := by
  refine .bind .token fun t ht => .bind_eq .read ?_
  rw [joined_eq hls ht]
  have hlevel : levelOf s t = none := by
    rw [levelOf, ht.lexeme]
    rcases hls.headD with hend | ⟨m, hm, hmark⟩
    · rw [hend]
    · rw [hmark]
      exact (by decide : ∀ m ∈ operandFollowers,
        (levels.findIdx? fun ops => ops.contains m).map (· + 1) = none) m hm
  rw [hlevel]
  exact .pure rfl

theorem takes_operators_of_unary (hl : l.Opens)
    (h : Takes (g .unary) s (l :: ls) ls' (Denotes e)) (hls' : FollowedBy operandFollowers ls')
    (level : Nat) : Takes (operators g level) s (l :: ls) ls' (Denotes e) := by
  refine .bind .start fun start _ => .bind .token fun t ht => .bind .peek fun next _ => ?_
  have hextend : ∀ n, Denotes e n →
      Takes (Parse.extend (operation g start level) n) s ls' ls' (Denotes e) := fun n hn =>
    (Extends.stop (takes_operation hls' start level n) hn).extend
  rw [ht.lexeme]
  cases hl with
  | string value => exact .bind h hextend
  | name hw => exact .bind h hextend
  | mark hm => exact .bind h hextend

/-! ## Values -/

theorem not_assigns (hls : FollowedBy operandFollowers ls) {t : Token} (ht : t.At ls) :
    assignmentOperators.contains (operatorText t) = false := by
  rw [operatorText, ht.lexeme]
  rcases hls.headD with hend | ⟨m, hm, hmark⟩
  · rw [hend]
    decide
  · rw [hmark]
    exact (by decide : ∀ m ∈ operandFollowers, assignmentOperators.contains m = false) m hm

/-- What begins no arrow function is an operand, with the branches of a conditional behind it if
there are some. -/
theorem takes_assignment_of_operators {P : Node → Prop} (hs : s.yields = false)
    (harrow : Takes (arrow? g) s ls ls (· = none))
    (h : Takes (g (.operators 0)) s ls ls' (Denotes e)) (hls' : FollowedBy operandFollowers ls')
    (hrest : ∀ start n, Denotes e n → Takes (conditionalRest g start n) s ls' ls'' P) :
    Takes (assignment g) s ls ls'' P := by
  refine .bind .start fun start _ => .bind_eq (.atWord _) <| .bind_eq .read <|
    .ite_neg (by simp [hs]) <| .bind_eq harrow <| .bind h fun n hn => .bind .token fun t ht => ?_
  rw [joined_eq hls' ht]
  exact .ite_neg (by rw [not_assigns hls' ht]; decide) (hrest start n hn)

theorem takes_conditionalRest_none (hls : FollowedBy (":" :: closers) ls) {start : Nat} {n : Node}
    (hn : Denotes e n) : Takes (conditionalRest g start n) s ls ls (Denotes e) :=
  .bind_eq (.eat_not (hls.ne_mark (by decide))) (.ite_neg (by decide) (.pure hn))

theorem takes_conditionalRest
    (hyes : Takes (g .assignment) { s with inOperator := true, consequent := true } ls
      (.mark ":" :: ls') (Denotes e₂))
    (hno : Takes (g .assignment) s ls' ls'' (Denotes e₃)) {start : Nat} {n : Node}
    (hn : Denotes e₁ n) :
    Takes (conditionalRest g start n) s (.mark "?" :: ls) ls''
      (Denotes (.conditional e₁ e₂ e₃)) := by
  refine .bind_eq .eat <| .ite_pos rfl <| .bind (.within hyes) fun yes hyes =>
    .bind .expect fun _ _ => .bind hno fun no hno => (Takes.finish _ _ _).imp ?_
  rintro _ ⟨span, rfl⟩
  rw [Denotes] at hn hyes hno ⊢
  rw [Node.expression?, hn, hyes, hno]
  rfl

/-- A value in front of something else than a comma is an expression. -/
theorem takes_expression_of_assignment (h : Takes (g .assignment) s ls ls' (Denotes e))
    (hls' : ls'.headD .endOfText ≠ .mark ",") :
    Takes (expression g) s ls ls' (Denotes e) := by
  refine .bind .start fun start _ => .bind h fun n hn => .bind_eq (.many_nil ?_) (.pure hn)
  exact .bind_eq (.eat_not hls') (.ite_neg (by decide) (.pure rfl))

end Grammar

end SiteMacros.Script
