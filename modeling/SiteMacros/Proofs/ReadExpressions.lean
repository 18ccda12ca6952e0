import SiteMacros.Proofs.ArrowFunctions

/-!
# Expressions are read

The text of an expression of the forms that are emitted is an expression of the language, and
stands for the expression that was rendered (`readExpression_render`). The grammar needs fewer
levels than the lexemes of an expression allow for: with eight of them for each lexeme
(`Grammar.Reads`) there are enough for a form if there are enough for its parts, and so by induction
over the forms there are enough for every expression.
-/

namespace SiteMacros.Script

open Expression

theorem Listed.length_lt {α : Type} {f : α → List Lexeme} {close : String} {ls ls' : List Lexeme}
    {as : List α} {a : α} (h : Listed f close ls as ls') (ha : a ∈ as) :
    (f a).length < ls'.length := by
  induction h with
  | nil => exact absurd ha List.not_mem_nil
  | last b =>
      rw [List.mem_singleton.1 ha, List.length_append, List.length_cons]
      omega
  | cons b _ ih =>
      rw [List.length_append, List.length_cons]
      rcases List.mem_cons.1 ha with rfl | ha
      · omega
      · have := ih ha
        omega

theorem length_le_statements {e : Expression} {es : List Expression} (he : e ∈ es) :
    e.lexemes.length ≤ (statementLexemes es).length := by
  induction es with
  | nil => exact absurd he List.not_mem_nil
  | cons e' es ih =>
      rw [statementLexemes, List.length_append, List.length_cons]
      rcases List.mem_cons.1 he with rfl | he
      · omega
      · have := ih he
        omega

namespace Grammar

variable {s : Setting} {l : Lexeme} {ls ls' ls'' ls₁ ls₂ : List Lexeme}
  {e e' e₁ e₂ e₃ : Expression} {j k : Nat}

/-- An operand has no operators around it. -/
theorem takes_operand (hl : l.Opens)
    (h : Takes (leftHand (productions j)) s (l :: ls) ls' (Denotes e))
    (hls' : FollowedBy operandFollowers ls') :
    Takes (productions (j + 3) (.operators 0)) s (l :: ls) ls' (Denotes e) :=
  takes_operators_of_unary (g := productions (j + 2)) hl
    (takes_unary_of_leftHand (g := productions (j + 1)) hl h hls') hls' 0

/-- An operand that begins no arrow function, in front of something that may follow a value. -/
theorem takes_value (hs : s.yields = false) (hl : l.Opens)
    (harrow : Takes (arrow? (productions (j + 3))) s (l :: ls) (l :: ls) (· = none))
    (h : Takes (leftHand (productions j)) s (l :: ls) ls' (Denotes e))
    (hls' : FollowedBy (":" :: closers) ls') :
    Takes (productions (j + 4) .assignment) s (l :: ls) ls' (Denotes e) :=
  takes_assignment_of_operators (g := productions (j + 3)) hs harrow
    (takes_operand hl h (hls'.mono (by decide))) (hls'.mono (by decide))
    fun _ _ hn => takes_conditionalRest_none hls' hn

/-- At every level that leaves enough levels for its lexemes, the expression is read in front of
something that may follow it, wherever an arrow function is allowed if it is one. -/
def Reads (e : Expression) : Prop :=
  ∀ k, 8 * e.lexemes.length ≤ k → ∀ s : Setting, s.yields = false →
    (e.needsParens = true → s.consequent = false) → ReadsValue (productions k) s e

theorem Reads.readsValue_bracketed (h : Reads e) (hk : 8 * e.lexemes.length ≤ k)
    (hs : s.yields = false) : ReadsValue (productions k) (bracketed s) e :=
  h k hk (bracketed s) hs fun _ => rfl

theorem exists_levels {n : Nat} (hn : 0 < n) (hk : 8 * n ≤ k) : ∃ j, k = j + 4 :=
  ⟨k - 4, by omega⟩

theorem operand_of_closer (h : FollowedBy closers ls) : FollowedBy operandFollowers ls :=
  h.mono (by decide)

/-- A word that is a value. -/
theorem reads_word {w : String} (hw : w = "null" ∨ w = "true" ∨ w = "false")
    (hlexemes : e.lexemes = [.name w false])
    (he : (Node.word ⟨0, 0⟩ w).expression? = some e.asRead) : Reads e := by
  intro k hk s hs _ ls hls
  obtain ⟨j, rfl⟩ := exists_levels (by rw [hlexemes]; exact Nat.one_pos) hk
  have hne : ∀ v ∈ ["new", "import", "super", "async"], w ≠ v := by
    rcases hw with rfl | rfl | rfl <;> decide
  have hopens : Lexeme.Opens (.name w false) :=
    .name (by rcases hw with rfl | rfl | rfl <;> decide)
  rw [hlexemes]
  refine takes_value hs hopens (takes_arrow?_none ?_ nofun nofun (.inr (hls.ne_mark (by decide))))
    (takes_leftHand_of_primary (fun v hv => ?_) (takes_primary_word hw he)
      (.stop (operand_of_closer hls))) (hls.mono (by decide))
  · simpa using hne "async" (by decide)
  · simpa using hne v ((by decide : ∀ v ∈ ["new", "import", "super"],
      v ∈ ["new", "import", "super", "async"]) v hv)

theorem takes_arrow?_word {g : Go} {n : String} (hls : FollowedBy ("." :: operandFollowers) ls) :
    Takes (arrow? g) s (.name n false :: ls) (.name n false :: ls) (· = none) := by
  by_cases hn : n = "async"
  · rw [hn]
    exact takes_arrow?_async hls
  · exact takes_arrow?_none (by simpa using hn) nofun nofun (.inr (hls.ne_mark (by decide)))

/-- A name is an operand with what follows it. -/
theorem takes_leftHand_name {g : Go} {n : String} (hn : IsName n) (hs : s.yields = false)
    (hls : ls.headD .endOfText ≠ .name "function" false)
    (h : ReadsSuffixes g s (.name n) ls ls' e) :
    Takes (leftHand g) s (.name n false :: ls) ls' (Denotes e) := by
  refine takes_leftHand_of_primary (fun w hw => ?_) (takes_primary_name hn hs hls) h
  have hne := hn.ne_reserved ((by decide :
    ∀ w ∈ ["new", "import", "super"], w ∈ reservedWords) w hw)
  simpa using hne

theorem opens_name {n : String} (hn : IsName n) : Lexeme.Opens (.name n false) :=
  .name hn.not_mem.1

theorem reads_name {n : String} (hn : IsName n) (hlexemes : e.lexemes = [.name n false])
    (he : e.asRead = .name n) : Reads e := by
  intro k hk s hs _ ls hls
  obtain ⟨j, rfl⟩ := exists_levels (by rw [hlexemes]; exact Nat.one_pos) hk
  rw [hlexemes, he]
  exact takes_value hs (opens_name hn) (takes_arrow?_word (hls.mono (by decide)))
    (takes_leftHand_name hn hs (hls.ne_name _ _) (.stop (operand_of_closer hls)))
    (hls.mono (by decide))

theorem reads_string (text : String) : Reads (.string text) := by
  intro k hk s hs _ ls hls
  obtain ⟨j, rfl⟩ := exists_levels Nat.one_pos hk
  exact takes_value hs (.string text)
    (takes_arrow?_none nofun nofun nofun (.inl nofun))
    (takes_leftHand_of_primary (by simp) (takes_primary_string text)
      (.stop (operand_of_closer hls))) (hls.mono (by decide))

/-- Things in a list have fewer lexemes than the list. -/
theorem readsValue_of_listed {es : List Expression} {close : String}
    (hlist : Listed lexemes close [] es ls) (hk : 8 * ls.length ≤ k) (hs : s.yields = false)
    (h : ∀ e ∈ es, Readable e ∧ Reads e) :
    ∀ e ∈ es, Readable e ∧ ReadsValue (productions k) (bracketed s) e := by
  intro e he
  have hlt := hlist.length_lt he
  exact ⟨(h e he).1, (h e he).2.readsValue_bracketed (by omega) hs⟩

theorem reads_array {es : List Expression} (h : ∀ e ∈ es, Readable e ∧ Reads e) :
    Reads (.array es) := by
  intro k hk s hs _ ls hls
  obtain ⟨j, rfl⟩ := exists_levels (by simp [lexemes]) hk
  rw [lexemes, List.cons_append, List.length_cons] at hk
  rw [show (Expression.array es).lexemes ++ ls = .mark "[" :: (itemLexemes es ++ .mark "]" :: ls)
    by simp [lexemes]]
  have hitems := readsValue_of_listed (listed_items es "]" []) (k := j) (by omega) hs h
  exact takes_value hs (.mark (by decide))
    (takes_arrow?_none (by simp) (by simp) (by simp) (.inl (by simp)))
    (takes_leftHand_of_primary (by simp) (takes_primary_array hitems ls)
      (.stop (operand_of_closer hls))) (hls.mono (by decide))

theorem reads_object {ps : List (String × Expression)} (h : ∀ p ∈ ps, Reads p.2) :
    Reads (.object ps) := by
  intro k hk s hs _ ls hls
  obtain ⟨j, rfl⟩ := exists_levels (by simp [lexemes]) hk
  rw [lexemes, List.cons_append, List.length_cons] at hk
  rw [show (Expression.object ps).lexemes ++ ls =
    .mark "\x7b" :: (propertyLexemes ps ++ .mark "\x7d" :: ls) by simp [lexemes]]
  have hvalues : ∀ p ∈ ps, ReadsValue (productions j) (bracketed s) p.2 := by
    intro p hp
    have hlt := (listed_properties ps closeBrace []).length_lt hp
    rw [propertyLexeme, List.length_cons, List.length_cons] at hlt
    exact (h p hp).readsValue_bracketed (by simp only [closeBrace] at hlt; omega) hs
  exact takes_value hs (.mark (by decide))
    (takes_arrow?_none (by simp) (by simp) (by simp) (.inl (by simp)))
    (takes_leftHand_of_primary (by simp) (takes_primary_object hvalues ls)
      (.stop (operand_of_closer hls))) (hls.mono (by decide))

theorem reads_dynamicImport (source : String) : Reads (.dynamicImport source) := by
  intro k hk s hs _ ls hls
  obtain ⟨j, rfl⟩ := exists_levels (by simp [lexemes]) hk
  rw [lexemes, List.length_cons, List.length_cons] at hk
  have hsource : ReadsValue (productions j) (bracketed s) (.string source) :=
    (reads_string source).readsValue_bracketed (by simp [lexemes] at hk ⊢; omega) hs
  exact takes_value hs (.name (by decide))
    (takes_arrow?_none (by simp) (by simp) (by simp) (.inr (by simp)))
    (takes_leftHand_import (takes_importExpression hsource ls) (operand_of_closer hls))
    (hls.mono (by decide))

/-! ### Calls -/

section

variable {n property : String} {params : List String} {body : Expression} {args : List Expression}

theorem reads_callMember (hn : IsName n) (h : ∀ a ∈ args, Readable a ∧ Reads a) :
    Reads (.call (.member (.name n) property) args) := by
  intro k hk s hs _ ls hls
  have hlexemes : (Expression.call (.member (.name n) property) args).lexemes ++ ls =
      .name n false :: .mark "." :: .name property false ::
        .mark "(" :: (argLexemes args ++ .mark ")" :: ls) := by
    simp [lexemes, parenLexemes, needsParens]
  obtain ⟨j, rfl⟩ := exists_levels
    (by simp only [lexemes, List.length_append, List.length_cons]; omega) hk
  have hargs := readsValue_of_listed (listed_args args ")" []) (k := j)
    (by simp [lexemes, parenLexemes, needsParens] at hk ⊢; omega) hs h
  rw [hlexemes]
  exact takes_value hs (opens_name hn) (takes_arrow?_word (.mark (by decide) _))
    (takes_leftHand_name hn hs (by simp) (.member (.call hargs (.stop (operand_of_closer hls)))))
    (hls.mono (by decide))

/-- A list of values that is no list of parameters. -/
theorem rejects_arrowHead_of_bars (h : BarsParameters args) (hls : FollowedBy closers ls) :
    Rejects (arrowHead (productions (j + 3)) true) s
      (.mark "(" :: (argLexemes args ++ .mark ")" :: ls)) := by
  cases h with
  | string text =>
      exact rejects_arrowHead nofun fun s =>
        rejects_parameter nofun nofun (rejects_target (g := productions (j + 2)) nofun nofun)
  | strings texts =>
      cases texts with
      | nil =>
          exact rejects_arrowHead_empty
            (fun _ _ => takes_target_empty (g := productions (j + 2))) hls
      | cons text texts =>
          have hrejects (s : Setting) (ls : List Lexeme) :
              Rejects (productions (j + 3) .target) s (.mark "[" :: .string text :: ls) :=
            rejects_target_strings (g := productions (j + 2))
              (rejects_target (g := productions (j + 1)) nofun nofun)
          exact rejects_arrowHead (by simp) fun s =>
            rejects_parameter nofun (by simp) (hrejects _ _)
  | arrow params body =>
      exact rejects_arrowHead (by simp) fun s =>
        rejects_parameter nofun (by simp)
          (rejects_target (g := productions (j + 2)) nofun (by simp))

theorem reads_callName (hn : IsName n) (hasync : n = "async" → BarsParameters args)
    (h : ∀ a ∈ args, Readable a ∧ Reads a) : Reads (.call (.name n) args) := by
  intro k hk s hs _ ls hls
  have hlexemes : (Expression.call (.name n) args).lexemes ++ ls =
      .name n false :: .mark "(" :: (argLexemes args ++ .mark ")" :: ls) := by
    simp [lexemes, parenLexemes, needsParens]
  obtain ⟨j, rfl⟩ := exists_levels
    (by simp only [lexemes, List.length_append, List.length_cons]; omega) hk
  have hargs := readsValue_of_listed (listed_args args ")" []) (k := j)
    (by simp [lexemes, parenLexemes, needsParens] at hk ⊢; omega) hs h
  have harrow : Takes (arrow? (productions (j + 3))) s
      (.name n false :: .mark "(" :: (argLexemes args ++ .mark ")" :: ls))
      (.name n false :: .mark "(" :: (argLexemes args ++ .mark ")" :: ls)) (· = none) := by
    by_cases hname : n = "async"
    · subst hname
      exact takes_arrow?_asyncCall (rejects_arrowHead_of_bars (hasync rfl) hls)
    · exact takes_arrow?_none (by simpa using hname) (by simp) (by simp) (.inr (by simp))
  rw [hlexemes]
  exact takes_value hs (opens_name hn) harrow
    (takes_leftHand_name hn hs (by simp) (.call hargs (.stop (operand_of_closer hls))))
    (hls.mono (by decide))

/-- In front of something else than a comma, a value is an expression. -/
theorem Reads.expression (h : Reads e) (hk : 8 * e.lexemes.length < k) (hs : s.yields = false)
    (harrow : e.needsParens = true → s.consequent = false) (hls : FollowedBy closers ls)
    (hcomma : ls.headD .endOfText ≠ .mark ",") :
    Takes (productions k .expression) s (e.lexemes ++ ls) ls (Denotes e.asRead) := by
  obtain ⟨k, rfl⟩ : ∃ i, k = i + 1 := ⟨k - 1, by omega⟩
  exact takes_expression_of_assignment (g := productions k)
    (h k (by omega) s hs harrow ls hls) hcomma

theorem reads_callArrow (hcallee : Reads (.arrow params body))
    (h : ∀ a ∈ args, Readable a ∧ Reads a) : Reads (.call (.arrow params body) args) := by
  intro k hk s hs _ ls hls
  have hlexemes : (Expression.call (.arrow params body) args).lexemes ++ ls =
      .mark "(" :: ((Expression.arrow params body).lexemes ++
        .mark ")" :: .mark "(" :: (argLexemes args ++ .mark ")" :: ls)) := by
    rw [lexemes]
    simp [parenLexemes, needsParens]
  obtain ⟨j, rfl⟩ := exists_levels
    (by simp only [lexemes, List.length_append, List.length_cons]; omega) hk
  rw [lexemes] at hk
  simp only [parenLexemes, needsParens, ↓reduceIte, List.length_append, List.length_cons,
    List.length_nil] at hk
  have hargs := readsValue_of_listed (listed_args args ")" []) (k := j) (by simp; omega) hs h
  have hrejects : Rejects (arrowHead (productions (j + 3)) false) s
      (.mark "(" :: ((Expression.arrow params body).lexemes ++
        .mark ")" :: .mark "(" :: (argLexemes args ++ .mark ")" :: ls))) := by
    rw [lexemes, headLexemes]
    exact rejects_arrowHead (by simp) fun s => rejects_parameter (by simp) (by simp)
      (rejects_target (g := productions (j + 2)) (by simp) (by simp))
  rw [hlexemes]
  refine takes_value hs opens_parenthesis (takes_arrow?_parenthesis hrejects)
    (takes_leftHand_of_primary (by simp) (takes_primary_parenthesized (hcallee.expression
      (by omega) hs (fun _ => rfl) (.mark (by decide) _) (by simp)))
      (.call hargs (.stop (operand_of_closer hls)))) (hls.mono (by decide))

/-! ### Arrow functions -/

theorem ne_brace_of_readable (h : Readable e) (hobject : e.isObject = false) (ls : List Lexeme) :
    (e.lexemes ++ ls).headD .endOfText ≠ .mark "\x7b" := by
  cases h with
  | object => cases hobject
  | _ => simp [lexemes, parenLexemes, needsParens, headLexemes]

theorem takes_arrowHead_productions (hparams : ∀ p ∈ params, IsParameter p) :
    Takes (arrowHead (productions (j + 1)) false) s (headLexemes params ++ ls) ls
      (IsHead params) :=
  takes_arrowHead hparams
    (fun p hp _ hs _ => takes_target (g := productions j) (hparams p hp) hs) false

theorem reads_arrow (hparams : ∀ p ∈ params, IsParameter p) (hobject : body.isObject = false)
    (hbody : Readable body) (h : Reads body) : Reads (.arrow params body) := by
  intro k hk s hs hconsequent ls hls
  have hlexemes : (Expression.arrow params body).lexemes ++ ls =
      headLexemes params ++ (body.lexemes ++ ls) := by
    simp [lexemes, parenLexemes, hobject]
  obtain ⟨j, rfl⟩ := exists_levels (by simp [lexemes, headLexemes]) hk
  simp only [lexemes, parenLexemes, hobject, Bool.false_eq_true, ↓reduceIte, headLexemes,
    List.length_append, List.length_cons] at hk
  rw [hlexemes]
  exact takes_assignment_arrow (g := productions (j + 3)) hs
    (takes_arrow?_some (hconsequent rfl) (takes_arrowHead_productions hparams)
      (takes_arrowBody_value (ne_brace_of_readable hbody hobject ls)
        (h (j + 3) (by omega) (bodySetting s false) rfl (fun _ => rfl) ls hls)))

theorem reads_arrowBlock {statements : List Expression} (hparams : ∀ p ∈ params, IsParameter p)
    (hcalls : ∀ e ∈ statements, ∃ n property args,
      IsName n ∧ IsWord property ∧ e = .call (.member (.name n) property) args)
    (h : ∀ e ∈ statements, Reads e) : Reads (.arrowBlock params statements) := by
  intro k hk s hs hconsequent ls hls
  have hlexemes : (Expression.arrowBlock params statements).lexemes ++ ls =
      headLexemes params ++
        (.mark "\x7b" :: (statementLexemes statements ++ .mark "\x7d" :: ls)) := by
    simp [lexemes]
  obtain ⟨j, rfl⟩ := exists_levels (by simp [lexemes, headLexemes]) hk
  simp only [lexemes, headLexemes, List.length_append, List.length_cons] at hk
  rw [hlexemes]
  refine takes_assignment_arrow (g := productions (j + 3)) hs
    (takes_arrow?_some (hconsequent rfl) (takes_arrowHead_productions hparams)
      (takes_arrowBody_block (fun e he => ?_) ls))
  obtain ⟨n, property, args, hn, -, rfl⟩ := hcalls e he
  have hstatement : (Expression.call (.member (.name n) property) args).lexemes =
      .name n false :: .mark "." :: .name property false ::
        .mark "(" :: (argLexemes args ++ [.mark ")"]) := by
    simp [lexemes, parenLexemes, needsParens]
  refine ⟨⟨_, _, hstatement, opens_name hn⟩, fun rest => ?_⟩
  have hlength := length_le_statements he
  have hread := (h _ he).expression (k := j + 2)
    (s := { bracketed (bracketed { bodySetting s false with returns := true }) with
      decorating := (bracketed { bodySetting s false with returns := true }).decorating })
    (by omega) rfl (by simp [needsParens]) (.mark (m := ";") (by decide) rest) (by simp)
  rw [hstatement] at hread ⊢
  exact takes_statement (g := productions (j + 2)) hn hread

/-! ### Conditionals -/

theorem reads_conditional {f : String} {alternate : Expression} (hn : IsName n) (hf : IsName f)
    (hasync : f ≠ "async") (halternate : alternate.needsParens = false) (h : Reads alternate) :
    Reads (.conditional (.member (.name n) property) (.call (.name f) []) alternate) := by
  intro k hk s hs hconsequent ls hls
  have hlexemes : (Expression.conditional (.member (.name n) property) (.call (.name f) [])
      alternate).lexemes ++ ls =
      .name n false :: .mark "." :: .name property false :: .mark "?" ::
        .name f false :: .mark "(" :: .mark ")" :: .mark ":" :: (alternate.lexemes ++ ls) := by
    rw [lexemes, halternate]
    simp [lexemes, parenLexemes, needsParens, argLexemes]
  obtain ⟨j, rfl⟩ := exists_levels
    (by simp only [lexemes, List.length_append, List.length_cons]; omega) hk
  rw [lexemes, halternate] at hk
  simp only [lexemes, parenLexemes, needsParens, argLexemes, Bool.false_eq_true, ↓reduceIte,
    List.length_append, List.length_cons, List.length_nil] at hk
  have htest (ls) : Takes (leftHand (productions j)) s
      (.name n false :: .mark "." :: .name property false :: .mark "?" :: ls)
      (.mark "?" :: ls) (Denotes (.member (.name n) property)) :=
    takes_leftHand_name hn hs (by simp) (.member (.stop (.mark (by decide) _)))
  obtain ⟨i, rfl⟩ : ∃ i, j = i + 1 := ⟨j - 1, by omega⟩
  have hyes (ls) : Takes (productions (i + 4) .assignment)
      { s with inOperator := true, consequent := true }
      (.name f false :: .mark "(" :: .mark ")" :: .mark ":" :: ls) (.mark ":" :: ls)
      (Denotes (.call (.name f) [])) :=
    takes_value hs (opens_name hf)
      (takes_arrow?_none (by simpa using hasync) (by simp) (by simp) (.inr (by simp)))
      (takes_leftHand_name hf hs (by simp)
        (.callEmpty (.stop (.mark (by decide) _))))
      (.mark (by decide) _)
  rw [hlexemes]
  refine takes_assignment_of_operators (g := productions (i + 4)) hs
    (takes_arrow?_word (.mark (by decide) _))
    (takes_operand (opens_name hn) (htest _) (.mark (by decide) _)) (.mark (by decide) _)
    fun start m hm => takes_conditionalRest (hyes _) ?_ hm
  exact h (i + 4) (by omega) s hs (fun hparens => absurd (halternate.symm.trans hparens) (by simp))
    ls hls

end

/-- Every expression that is emitted is read. -/
theorem reads_of_readable (h : Readable e) : Reads e := by
  induction h with
  | string text => exact reads_string text
  | bool b =>
      cases b with
      | true => exact reads_word (w := "true") (by simp) rfl rfl
      | false => exact reads_word (w := "false") (by simp) rfl rfl
  | null => exact reads_word (w := "null") (by simp) rfl rfl
  | undefined => exact reads_name (n := "undefined") (by decide) rfl rfl
  | name hn => exact reads_name hn rfl rfl
  | array hes ih => exact reads_array fun e he => ⟨hes e he, ih e he⟩
  | object _ _ ih => exact reads_object ih
  | callName hn hasync hargs ih => exact reads_callName hn hasync fun e he => ⟨hargs e he, ih e he⟩
  | callMember hn _ hargs ih => exact reads_callMember hn fun e he => ⟨hargs e he, ih e he⟩
  | callArrow _ hargs ihcallee ih =>
      exact reads_callArrow ihcallee fun e he => ⟨hargs e he, ih e he⟩
  | arrow hparams hobject hbody ih => exact reads_arrow hparams hobject hbody ih
  | arrowBlock hparams hcalls _ ih => exact reads_arrowBlock hparams hcalls ih
  | dynamicImport text => exact reads_dynamicImport text
  | conditional hn _ hf hasync halternate _ ih => exact reads_conditional hn hf hasync halternate ih

end Grammar

/-- What the text of an expression is read as stands for the expression: this is so for every
expression that is emitted, however deep its text is indented, in every language. -/
theorem readExpression_render {e : Expression} (h : e.Readable) (depth : Nat)
    (language : Language) :
    ∃ n, readExpression language (e.render depth) = .ok n ∧ n.expression? = some e.asRead := by
  have hlexes := h.lexes_render depth
  have hlength := hlexes.length_le
  obtain ⟨n, c, hrun, hc, hn⟩ := (Grammar.reads_of_readable h).expression
    (s := { language := language }) (k := depthFor (e.render depth).toList.length)
    (by rw [depthFor]; omega) rfl (fun _ => rfl) .nil nofun
    { token := Scanner.scan 0 (e.render depth).toList } ⟨0, _, rfl, by rwa [List.append_nil]⟩
  have hend : c.token.isEnd = true := by
    rw [Token.isEnd, hc.lexeme]
    rfl
  refine ⟨n, ?_, hn⟩
  simp only [readExpression, hrun, bind, Except.bind, strayDefault?_of_expression? hn, hend,
    ↓reduceIte]
  rfl

end SiteMacros.Script
