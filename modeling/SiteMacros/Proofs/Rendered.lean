import SiteMacros.Proofs.Takes

/-!
# Lexemes of emitted code

What is emitted are expressions of few forms (`Readable`). The text of such an expression is the
spelling of its lexemes, however deep it is indented (`Readable.lexes_render`): what follows a
word ends it, and each arrow is on the line of its parameters.
-/

namespace SiteMacros

open Script

namespace Script

instance (w : String) : Decidable (IsWord w) :=
  inferInstanceAs (Decidable (spells w.toList = true))

instance (w : String) : Decidable (IsName w) :=
  decidable_of_iff (IsWord w ∧ isIdentifier w = true) ⟨fun h => ⟨h.1, h.2⟩, fun h => ⟨h.1, h.2⟩⟩

theorem bounded_cons {c : Char} {cs : List Char}
    (h : Text.isIdentifierPart c = false ∧ c ≠ '\\') : Bounded (c :: cs) := by
  rintro _ ⟨⟩
  exact h

/-- Is the first lexeme no arrow? -/
def NoArrow (ls : List Lexeme) : Prop :=
  ls.head? ≠ some (.mark "=>")

theorem noArrow_mark {m : String} (hm : m ≠ "=>") (ls : List Lexeme) :
    NoArrow (.mark m :: ls) := by
  rintro ⟨⟩
  exact hm rfl

/-- Words that are operators in front of an operand. -/
def frontWords : List String :=
  ["delete", "void", "typeof", "await"]

/-- Does an operand begin with the lexeme, with no operator in front of it? -/
inductive Lexeme.Opens : Lexeme → Prop
  | string (value : String) : Opens (.string value)
  | name {w : String} (h : w ∉ frontWords) : Opens (.name w false)
  | mark {m : String} (h : m ∈ ["(", "[", "\x7b"]) : Opens (.mark m)

theorem IsName.not_mem {w : String} (h : IsName w) :
    w ∉ frontWords ∧ w ∉ reservedWords := by
  have hidentifier := h.isIdentifier
  rw [Script.isIdentifier, Bool.and_eq_true, bne_iff_ne, Bool.not_eq_true'] at hidentifier
  have hreserved : w ∉ reservedWords := fun hw =>
    absurd (List.contains_iff_mem.2 hw) (Bool.eq_false_iff.1 hidentifier.2)
  refine ⟨fun hw => ?_, hreserved⟩
  have hfront : ∀ v ∈ frontWords, v = "await" ∨ v ∈ reservedWords := by decide
  exact (hfront w hw).elim hidentifier.1 hreserved

end Script

namespace Expression

/-! ## Lexemes -/

/-- The parameter that takes a property of its argument by name. -/
def childrenPattern : String := "\x7b children \x7d"

def parameterLexemes (p : String) : List Lexeme :=
  if p = childrenPattern then [.mark "\x7b", .name "children" false, .mark "\x7d"]
  else [.name p false]

/-- Lexemes of things with commas between them. -/
def separated {α : Type} (f : α → List Lexeme) : List α → List Lexeme
  | [] => []
  | [a] => f a
  | a :: b :: as => f a ++ .mark "," :: separated f (b :: as)

def headLexemes (params : List String) : List Lexeme :=
  .mark "(" :: separated parameterLexemes params ++ [.mark ")", .mark "=>"]

/-- Lexemes in parentheses if `wrap` says so. -/
def parenLexemes (wrap : Bool) (ls : List Lexeme) : List Lexeme :=
  if wrap then .mark "(" :: ls ++ [.mark ")"] else ls

mutual

/-- The lexemes of an expression without copied source and without templates. -/
def lexemes : Expression → List Lexeme
  | .string s => [.string s]
  | .bool b => [.name (if b then "true" else "false") false]
  | .null => [.name "null" false]
  | .undefined => [.name "undefined" false]
  | .name n => [.name n false]
  | .source _ | .template _ => []
  | .array es => .mark "[" :: itemLexemes es ++ [.mark "]"]
  | .object ps => .mark "\x7b" :: propertyLexemes ps ++ [.mark "\x7d"]
  | .member e property => parenLexemes e.needsParens e.lexemes ++ [.mark ".", .name property false]
  | .call callee args =>
      parenLexemes callee.needsParens callee.lexemes ++ .mark "(" :: argLexemes args ++ [.mark ")"]
  | .arrow params body => headLexemes params ++ parenLexemes body.isObject body.lexemes
  | .arrowBlock params statements =>
      headLexemes params ++ .mark "\x7b" :: statementLexemes statements ++ [.mark "\x7d"]
  | .dynamicImport s => [.name "import" false, .mark "(", .string s, .mark ")"]
  | .conditional test consequent alternate =>
      parenLexemes test.needsParens test.lexemes ++ .mark "?" ::
        parenLexemes consequent.needsParens consequent.lexemes ++ .mark ":" ::
        parenLexemes alternate.needsParens alternate.lexemes

def itemLexemes : List Expression → List Lexeme
  | [] => []
  | e :: es => e.lexemes ++ .mark "," :: itemLexemes es

def propertyLexemes : List (String × Expression) → List Lexeme
  | [] => []
  | (k, e) :: ps => .name k false :: .mark ":" :: e.lexemes ++ .mark "," :: propertyLexemes ps

def argLexemes : List Expression → List Lexeme
  | [] => []
  | [e] => e.lexemes
  | e :: e' :: es => e.lexemes ++ .mark "," :: argLexemes (e' :: es)

def statementLexemes : List Expression → List Lexeme
  | [] => []
  | e :: es => e.lexemes ++ .mark ";" :: statementLexemes es

end

/-! ## Forms that are emitted -/

/-- Is the parameter a name, or the pattern? -/
def IsParameter (p : String) : Prop :=
  IsName p ∨ p = childrenPattern

/-- Is the property's name a word, that stands without quotes? -/
def IsKey (k : String) : Prop :=
  IsWord k ∧ key k = k

/-- Arguments that are no parameters of an arrow function: a text, a list of texts, or an arrow
function. -/
inductive BarsParameters : List Expression → Prop
  | string (s : String) : BarsParameters [.string s]
  | strings (ss : List String) : BarsParameters [.array (ss.map .string)]
  | arrow (params : List String) (body : Expression) : BarsParameters [.arrow params body]

/-- The expressions that are emitted. A function that is called has a name, is the member of
something that has one, or is written out. The name of a function may be `async`, which begins
the parameters of an arrow function as well; its arguments then are no parameters. -/
inductive Readable : Expression → Prop
  | string (s : String) : Readable (.string s)
  | bool (b : Bool) : Readable (.bool b)
  | null : Readable .null
  | undefined : Readable .undefined
  | name {n : String} (hn : IsName n) : Readable (.name n)
  | array {es : List Expression} (h : ∀ e ∈ es, Readable e) : Readable (.array es)
  | object {ps : List (String × Expression)} (hkeys : ∀ p ∈ ps, IsKey p.1)
      (h : ∀ p ∈ ps, Readable p.2) : Readable (.object ps)
  | callName {n : String} {args : List Expression} (hn : IsName n)
      (hasync : n = "async" → BarsParameters args) (h : ∀ e ∈ args, Readable e) :
      Readable (.call (.name n) args)
  | callMember {n property : String} {args : List Expression} (hn : IsName n)
      (hproperty : IsWord property) (h : ∀ e ∈ args, Readable e) :
      Readable (.call (.member (.name n) property) args)
  | callArrow {params : List String} {body : Expression} {args : List Expression}
      (hcallee : Readable (.arrow params body)) (h : ∀ e ∈ args, Readable e) :
      Readable (.call (.arrow params body) args)
  | arrow {params : List String} {body : Expression} (hparams : ∀ p ∈ params, IsParameter p)
      (hobject : body.isObject = false) (h : Readable body) : Readable (.arrow params body)
  | arrowBlock {params : List String} {statements : List Expression}
      (hparams : ∀ p ∈ params, IsParameter p)
      (hcalls : ∀ e ∈ statements, ∃ n property args,
        IsName n ∧ IsWord property ∧ e = .call (.member (.name n) property) args)
      (h : ∀ e ∈ statements, Readable e) : Readable (.arrowBlock params statements)
  | dynamicImport (s : String) : Readable (.dynamicImport s)
  | conditional {n property f : String} {alternate : Expression} (hn : IsName n)
      (hproperty : IsWord property) (hf : IsName f) (hasync : f ≠ "async")
      (halternate : alternate.needsParens = false) (h : Readable alternate) :
      Readable (.conditional (.member (.name n) property) (.call (.name f) []) alternate)

theorem opens_parenthesis : Lexeme.Opens (.mark "(") :=
  .mark (by decide)

/-- An expression begins as an operand does. -/
theorem Readable.opens {e : Expression} (h : Readable e) :
    ∃ l ls, e.lexemes = l :: ls ∧ l.Opens := by
  cases h with
  | string s => exact ⟨_, _, rfl, .string s⟩
  | bool b => exact ⟨_, _, rfl, .name (by cases b <;> decide)⟩
  | null => exact ⟨_, _, rfl, .name (by decide)⟩
  | undefined => exact ⟨_, _, rfl, .name (by decide)⟩
  | name hn => exact ⟨_, _, rfl, .name hn.not_mem.1⟩
  | array => exact ⟨_, _, rfl, .mark (by decide)⟩
  | object => exact ⟨_, _, rfl, .mark (by decide)⟩
  | callName hn => exact ⟨_, _, rfl, .name hn.not_mem.1⟩
  | callMember hn => exact ⟨_, _, rfl, .name hn.not_mem.1⟩
  | callArrow => exact ⟨_, _, rfl, opens_parenthesis⟩
  | arrow => exact ⟨_, _, rfl, opens_parenthesis⟩
  | arrowBlock => exact ⟨_, _, rfl, opens_parenthesis⟩
  | dynamicImport => exact ⟨_, _, rfl, .name (by decide)⟩
  | conditional hn => exact ⟨_, _, rfl, .name hn.not_mem.1⟩

theorem Lexeme.Opens.noArrow {l : Lexeme} (h : l.Opens) (ls : List Lexeme) : NoArrow (l :: ls) := by
  rintro ⟨⟩
  cases h with
  | mark hm => exact absurd hm (by decide)

theorem Readable.noArrow {e : Expression} (h : Readable e) (ls : List Lexeme) :
    NoArrow (e.lexemes ++ ls) := by
  obtain ⟨l, ls', hl, hopens⟩ := h.opens
  rw [hl]
  exact Lexeme.Opens.noArrow hopens _

/-! ## Texts -/

/-- However deep it is indented, the text of the expression has these lexemes, if what follows
it does not go on the last of them. -/
def Spelled (e : Expression) : Prop :=
  ∀ depth ls cs, Bounded cs → Lexes ls cs → Lexes (e.lexemes ++ ls) ((e.render depth).toList ++ cs)

section

variable {ls : List Lexeme} {cs : List Char}

theorem lexes_parameter {p : String} (hp : IsParameter p) (hcs : Bounded cs) (h : Lexes ls cs) :
    Lexes (parameterLexemes p ++ ls) (p.toList ++ cs) := by
  rw [parameterLexemes]
  split
  · next hpattern =>
      subst hpattern
      have hchildren : IsWord "children" := by decide
      exact .mark (c := '\x7b') (by decide) <| .blank <|
        .name hchildren (bounded_cons (by decide)) <| .blank <| .mark (c := '\x7d') (by decide) h
  · next hpattern => exact .name (hp.resolve_right hpattern).isWord hcs h

theorem lexes_parameters {params : List String} (hparams : ∀ p ∈ params, IsParameter p)
    (hcs : Bounded cs) (h : Lexes ls cs) :
    Lexes (separated parameterLexemes params ++ ls) ((", ".intercalate params).toList ++ cs) := by
  induction params with
  | nil => exact h
  | cons p params ih =>
      obtain ⟨hp, hparams⟩ := List.forall_mem_cons.1 hparams
      cases params with
      | nil =>
          rw [String.intercalate_singleton]
          exact lexes_parameter hp hcs h
      | cons q params =>
          rw [String.intercalate_cons_cons, separated]
          simp only [String.toList_append, String.reduceToList, List.append_assoc,
            List.cons_append, List.nil_append]
          exact lexes_parameter hp (bounded_cons (by decide)) <|
            .mark (c := ',') (by decide) (ih hparams).blank

theorem lexes_arrowHead {params : List String} (hparams : ∀ p ∈ params, IsParameter p)
    (h : Lexes ls cs) : Lexes (headLexemes params ++ ls) ((arrowHead params).toList ++ cs) := by
  rw [arrowHead, headLexemes]
  simp only [String.toList_append, String.reduceToList, List.append_assoc, List.cons_append,
    List.nil_append]
  exact .mark (c := '(') (by decide) <| lexes_parameters hparams (bounded_cons (by decide)) <|
    .mark (c := ')') (by decide) <| .blank <| .arrow h.blank

theorem lexes_items {es : List Expression} (hes : ∀ e ∈ es, Readable e ∧ Spelled e) (depth : Nat)
    (hls : NoArrow ls) (h : Lexes ls cs) :
    NoArrow (itemLexemes es ++ ls) ∧
      Lexes (itemLexemes es ++ ls) ((renderItems depth es).toList ++ cs) := by
  induction es with
  | nil => exact ⟨hls, h⟩
  | cons e es ih =>
      obtain ⟨⟨hread, hspelled⟩, hes⟩ := List.forall_mem_cons.1 hes
      obtain ⟨harrow, hrest⟩ := ih hes
      rw [itemLexemes, renderItems]
      simp only [String.toList_append, String.reduceToList, List.append_assoc, List.cons_append,
        List.nil_append]
      refine ⟨hread.noArrow _, .blanks ?_ depth⟩
      exact hspelled depth _ _ (bounded_cons (by decide)) <|
        .mark (c := ',') (by decide) <| .lineFeed harrow hrest

theorem lexes_statements {es : List Expression} (hes : ∀ e ∈ es, Readable e ∧ Spelled e)
    (depth : Nat) (hls : NoArrow ls) (h : Lexes ls cs) :
    NoArrow (statementLexemes es ++ ls) ∧
      Lexes (statementLexemes es ++ ls) ((renderStatements depth es).toList ++ cs) := by
  induction es with
  | nil => exact ⟨hls, h⟩
  | cons e es ih =>
      obtain ⟨⟨hread, hspelled⟩, hes⟩ := List.forall_mem_cons.1 hes
      obtain ⟨harrow, hrest⟩ := ih hes
      rw [statementLexemes, renderStatements]
      simp only [String.toList_append, String.reduceToList, List.append_assoc, List.cons_append,
        List.nil_append]
      refine ⟨hread.noArrow _, .blanks ?_ depth⟩
      exact hspelled depth _ _ (bounded_cons (by decide)) <|
        .mark (c := ';') (by decide) <| .lineFeed harrow hrest

theorem lexes_properties {ps : List (String × Expression)} (hkeys : ∀ p ∈ ps, IsKey p.1)
    (hps : ∀ p ∈ ps, Spelled p.2) (depth : Nat) (hls : NoArrow ls) (h : Lexes ls cs) :
    NoArrow (propertyLexemes ps ++ ls) ∧
      Lexes (propertyLexemes ps ++ ls) ((renderProperties depth ps).toList ++ cs) := by
  induction ps with
  | nil => exact ⟨hls, h⟩
  | cons p ps ih =>
      obtain ⟨hspelled, hps⟩ := List.forall_mem_cons.1 hps
      obtain ⟨⟨hword, hkey⟩, hkeys⟩ := List.forall_mem_cons.1 hkeys
      obtain ⟨harrow, hrest⟩ := ih hkeys hps
      obtain ⟨k, e⟩ := p
      rw [propertyLexemes, renderProperties, hkey]
      simp only [String.toList_append, String.reduceToList, List.append_assoc, List.cons_append,
        List.nil_append]
      refine ⟨nofun, .blanks ?_ depth⟩
      exact .name hword (bounded_cons (by decide)) <| .mark (c := ':') (by decide) <| .blank <|
        hspelled depth _ _ (bounded_cons (by decide)) <|
          .mark (c := ',') (by decide) <| .lineFeed harrow hrest

theorem lexes_args {es : List Expression} (hes : ∀ e ∈ es, Spelled e) (depth : Nat)
    (hcs : Bounded cs) (h : Lexes ls cs) :
    Lexes (argLexemes es ++ ls) ((renderArgs depth es).toList ++ cs) := by
  induction es with
  | nil => exact h
  | cons e es ih =>
      obtain ⟨hspelled, hes⟩ := List.forall_mem_cons.1 hes
      cases es with
      | nil => exact hspelled depth _ _ hcs h
      | cons e' es =>
          rw [argLexemes, renderArgs]
          simp only [String.toList_append, String.reduceToList, List.append_assoc,
            List.cons_append, List.nil_append]
          exact hspelled depth _ _ (bounded_cons (by decide)) <|
            .mark (c := ',') (by decide) (ih hes).blank

/-- Arguments in parentheses. -/
theorem lexes_call {es : List Expression} (hes : ∀ e ∈ es, Spelled e) (depth : Nat)
    (h : Lexes ls cs) :
    Lexes (.mark "(" :: (argLexemes es ++ .mark ")" :: ls))
      ('(' :: ((renderArgs depth es).toList ++ ')' :: cs)) :=
  .mark (c := '(') (by decide) <| lexes_args hes depth (bounded_cons (by decide)) <|
    .mark (c := ')') (by decide) h

end

/-- The text of an expression that is emitted has its lexemes. -/
theorem Readable.spelled {e : Expression} (h : Readable e) : Spelled e := by
  induction h with
  | string s => exact fun _ _ _ _ h => .quoted s h
  | bool b =>
      intro depth ls cs hcs h
      cases b with
      | true => exact .name (by decide) hcs h
      | false => exact .name (by decide) hcs h
  | null => exact fun _ _ _ hcs h => .name (by decide) hcs h
  | undefined => exact fun _ _ _ hcs h => .name (by decide) hcs h
  | name hn => exact fun _ _ _ hcs h => .name hn.isWord hcs h
  | @array es hes ih =>
      intro depth ls cs hcs h
      cases es with
      | nil =>
          rw [lexemes, render]
          exact .mark (c := '[') (by decide) <| .mark (c := ']') (by decide) h
      | cons e es =>
          obtain ⟨harrow, hitems⟩ := lexes_items (fun e he => ⟨hes e he, ih e he⟩) (depth + 1)
            (noArrow_mark (by decide) ls)
            (.blanks (.mark (c := ']') (by decide) h) depth)
          rw [lexemes, render]
          simp only [String.toList_append, String.reduceToList, List.append_assoc,
            List.cons_append, List.nil_append]
          exact .mark (c := '[') (by decide) <| .lineFeed harrow hitems
  | @object ps hkeys hps ih =>
      intro depth ls cs hcs h
      cases ps with
      | nil =>
          rw [lexemes, render]
          exact .mark (c := '\x7b') (by decide) <| .mark (c := '\x7d') (by decide) h
      | cons p ps =>
          obtain ⟨harrow, hproperties⟩ := lexes_properties hkeys ih (depth + 1)
            (noArrow_mark (by decide) ls)
            (.blanks (.mark (c := '\x7d') (by decide) h) depth)
          rw [lexemes, render]
          simp only [String.toList_append, String.reduceToList, List.append_assoc,
            List.cons_append, List.nil_append]
          exact .mark (c := '\x7b') (by decide) <| .lineFeed harrow hproperties
  | callName hn _ _ ih =>
      intro depth ls cs hcs h
      rw [lexemes, render]
      simp only [needsParens, parens, parenLexemes, lexemes, render, String.toList_append,
        String.reduceToList, List.append_assoc, List.cons_append, List.nil_append,
        Bool.false_eq_true, ↓reduceIte]
      exact .name hn.isWord (bounded_cons (by decide)) (lexes_call ih depth h)
  | callMember hn hproperty _ ih =>
      intro depth ls cs hcs h
      rw [lexemes, render]
      simp only [needsParens, parens, parenLexemes, lexemes, render, String.toList_append,
        String.reduceToList, List.append_assoc, List.cons_append, List.nil_append,
        Bool.false_eq_true, ↓reduceIte]
      exact .name hn.isWord (bounded_cons (by decide)) <| .dot hproperty <|
        .name hproperty (bounded_cons (by decide)) (lexes_call ih depth h)
  | callArrow _ _ ihcallee ih =>
      intro depth ls cs hcs h
      rw [lexemes, render]
      simp only [needsParens, parens, parenLexemes, String.toList_append, String.reduceToList,
        List.append_assoc, List.cons_append, List.nil_append, ↓reduceIte]
      exact .mark (c := '(') (by decide) <| ihcallee depth _ _ (bounded_cons (by decide)) <|
        .mark (c := ')') (by decide) (lexes_call ih depth h)
  | arrow hparams hobject _ ih =>
      intro depth ls cs hcs h
      rw [lexemes, render, hobject, String.toList_append, List.append_assoc, List.append_assoc]
      exact lexes_arrowHead hparams (ih depth ls cs hcs h)
  | @arrowBlock params statements hparams _ hes ih =>
      intro depth ls cs hcs h
      obtain ⟨harrow, hstatements⟩ := lexes_statements (fun e he => ⟨hes e he, ih e he⟩) (depth + 1)
        (noArrow_mark (by decide) ls)
        (.blanks (.mark (c := '\x7d') (by decide) h) depth)
      rw [lexemes, render]
      simp only [String.toList_append, String.reduceToList, List.append_assoc,
        List.cons_append, List.nil_append]
      exact lexes_arrowHead hparams <| .mark (c := '\x7b') (by decide) <|
        .lineFeed harrow hstatements
  | dynamicImport s =>
      intro depth ls cs hcs h
      rw [lexemes, render]
      simp only [String.toList_append, String.reduceToList, List.append_assoc,
        List.cons_append, List.nil_append]
      exact .name (w := "import") (by decide) (bounded_cons (by decide)) <|
        .mark (c := '(') (by decide) <| .quoted s <| .mark (c := ')') (by decide) h
  | conditional hn hproperty hf _ halternate _ ih =>
      intro depth ls cs hcs h
      rw [lexemes, render, halternate]
      simp only [needsParens, parens, parenLexemes, lexemes, render, argLexemes, renderArgs,
        String.toList_append, String.reduceToList, List.append_assoc, List.cons_append,
        List.nil_append, Bool.false_eq_true, ↓reduceIte]
      exact .name hn.isWord (bounded_cons (by decide)) <| .dot hproperty <|
        .name hproperty (bounded_cons (by decide)) <| .blank <| .question <|
        .name hf.isWord (bounded_cons (by decide)) <| .mark (c := '(') (by decide) <|
        .mark (c := ')') (by decide) <| .blank <| .mark (c := ':') (by decide) <| .blank <|
        ih depth ls cs hcs h

/-- The text of an expression that is emitted, alone. -/
theorem Readable.lexes_render {e : Expression} (h : Readable e) (depth : Nat) :
    Lexes e.lexemes (e.render depth).toList := by
  have hlexes := h.spelled depth [] [] nofun .empty
  rwa [List.append_nil, List.append_nil] at hlexes

end Expression

end SiteMacros
