import Mathlib.Data.List.Basic
import SiteMacros.Proofs.Literals
import SiteMacros.Proofs.ParserRuns
import SiteMacros.Script.Parser

/-!
# Templates read back

A template is read as texts and expressions in turn. The texts are the scanner's. What is in a
hole is copied source, of which nothing is known here but whether the grammar reads it as an
expression up to the brace behind it (`ReadsUpTo`). If it does so with each hole, the template is
read with these holes, up to whatever stands behind it (`run_template`); if it refuses one, it
refuses the template.

It refuses what begins with three dots. On the way down to an operand each production starts
with the next one, and none of them takes the dots (`productions_dots`).
-/

namespace SiteMacros

namespace Script

/-! ## Sources in holes -/

/-- The parser reads the source as far as the brace behind it. -/
def ReadsUpTo (p : Parse Node) (s : Setting) (source : String) : Prop :=
  ∀ offset reached rest, ∃ n after,
    p s ⟨Scanner.scan offset (source.toList ++ '\x7d' :: rest), reached⟩ = .ok (n, after) ∧
      after.token.isMark closeBrace = true ∧ after.token.here = '\x7d' :: rest

/-- The parser refuses the source before a brace. -/
def Refuses (p : Parse Node) (s : Setting) (source : String) : Prop :=
  ∀ offset reached rest, ∃ e,
    p s ⟨Scanner.scan offset (source.toList ++ '\x7d' :: rest), reached⟩ = .error e

/-- The node is what the parser reads the source as. -/
def ReadAs (p : Parse Node) (s : Setting) (source : String) (n : Node) : Prop :=
  ∃ offset reached rest after,
    p s ⟨Scanner.scan offset (source.toList ++ '\x7d' :: rest), reached⟩ = .ok (n, after)

/-- The text after a backtick or a hole: more holes, each with the text behind it, and the
backtick at the end. -/
def holesText : List (String × String) → List Char → List Char
  | [], rest => '\x60' :: rest
  | (source, text) :: holes, rest => '$' :: '\x7b' :: (source.toList ++ '\x7d' ::
      (Expression.templateText text.toList ++ holesText holes rest))

/-- What is left after the text before the next hole has been read, or the last text. -/
def afterText : List (String × String) → List Char → List Char
  | [], rest => rest
  | (source, text) :: holes, rest => source.toList ++ '\x7d' ::
      (Expression.templateText text.toList ++ holesText holes rest)

theorem length_le_holesText (holes : List (String × String)) (rest : List Char) :
    holes.length + 1 ≤ (holesText holes rest).length := by
  induction holes with
  | nil => simp [holesText]
  | cons hole holes ih =>
      simp only [holesText, List.length_cons, List.length_append]
      omega

theorem templateBody_holesText (text : List Char) (holes : List (String × String)) (offset : Nat)
    (rest : List Char) :
    ∃ stop, Scanner.templateBody offset 0 (Expression.templateText text ++ holesText holes rest) =
      some ⟨some (Text.lineFeeds text), holes.isEmpty, stop, afterText holes rest⟩ := by
  cases holes with
  | nil => exact Scanner.templateBody_ends text offset rest
  | cons hole holes => exact Scanner.templateBody_hole text offset _

/-- The cursor is at a text of a template that these holes come after. -/
structure AtText (c : Cursor) (text : String) (holes : List (String × String)) (rest : List Char) :
    Prop where
  lexeme : c.token.lexeme =
    .template (some (String.ofList (Text.lineFeeds text.toList))) holes.isEmpty
  after : c.token.rest = afterText holes rest

/-- Nodes that are in turn the texts of a template and what its holes are read as. -/
inductive Alternate (p : Parse Node) (s : Setting) :
    String → List (String × String) → List Node → Prop
  | last (span : Span) (text : String) :
      Alternate p s text [] [.word span (String.ofList (Text.lineFeeds text.toList))]
  | hole (span : Span) (text : String) {source next : String} {n : Node}
      {holes : List (String × String)} {parts : List Node} (hread : ReadAs p s source n)
      (hparts : Alternate p s next holes parts) :
      Alternate p s text ((source, next) :: holes)
        (.word span (String.ofList (Text.lineFeeds text.toList)) :: n :: parts)

/-! ## The loop over holes -/

/-- One more text of a template, and the hole behind it. -/
def templateStep (hole : Parse Node) : List Node × Bool → Parse (Option (List Node × Bool))
  | (parts, ends) => do
      if ends then return none
      else
        let (text, ends) ← Grammar.templateText false
        if ends then return some (text :: parts, true)
        else
          let e ← hole
          Grammar.resumeTemplate
          return some (e :: text :: parts, false)

theorem templateParts_eq (hole : Parse Node) :
    Grammar.templateParts false hole = (do
      let (head, ends) ← Grammar.templateText false
      if ends then return [head]
      else
        let first ← hole
        Grammar.resumeTemplate
        let (parts, _) ← Parse.extend (templateStep hole) ([first, head], false)
        return parts.reverse) := rfl

section

variable {p : Parse Node} {s : Setting} {c : Cursor} {text source next : String}
  {holes : List (String × String)} {rest : List Char}

theorem run_templateText (h : AtText c text holes rest) :
    Grammar.templateText false s c =
      .ok ((.word c.token.span (String.ofList (Text.lineFeeds text.toList)), holes.isEmpty),
        ⟨Scanner.scan c.token.stop (afterText holes rest), c.token.stop⟩) := by
  rw [Grammar.templateText, Parse.run_bind, Parse.run_token, ← h.after]
  simp only [Except.bind]
  rw [h.lexeme]
  rfl

/-- Behind a hole the template goes on. -/
theorem run_resumeTemplate (hmark : c.token.isMark closeBrace = true)
    (hhere : c.token.here =
      '\x7d' :: (Expression.templateText next.toList ++ holesText holes rest)) :
    ∃ c', Grammar.resumeTemplate s c = .ok ((), c') ∧ AtText c' next holes rest ∧
      c'.token.here = c.token.here := by
  obtain ⟨stop, hstop⟩ :=
    templateBody_holesText next.toList holes (c.token.start + 1) rest
  have htail : c.token.here.tail = Expression.templateText next.toList ++ holesText holes rest := by
    rw [hhere, List.tail_cons]
  obtain ⟨t, ht, hlexeme, hrest, hsame⟩ : ∃ t, Scanner.templateRest? c.token = some t ∧
      t.lexeme = .template (some (String.ofList (Text.lineFeeds next.toList))) holes.isEmpty ∧
      t.rest = afterText holes rest ∧ t.here = c.token.here := by
    rw [Scanner.templateRest?, htail, hstop]
    exact ⟨_, rfl, rfl, rfl, rfl⟩
  refine ⟨⟨t, c.reached⟩, ?_, ⟨hlexeme, hrest⟩, hsame⟩
  rw [Grammar.resumeTemplate, Parse.run_bind, Parse.run_token]
  simp only [Except.bind]
  rw [hmark, ht]
  rfl

theorem run_hole (h : ReadsUpTo p s source) (next : String) (holes : List (String × String))
    (rest : List Char) (offset reached : Nat) :
    ∃ n after c', ReadAs p s source n ∧
      p s ⟨Scanner.scan offset (afterText ((source, next) :: holes) rest), reached⟩ =
        .ok (n, after) ∧
      Grammar.resumeTemplate s after = .ok ((), c') ∧ AtText c' next holes rest ∧
      holes.length + 2 ≤ c'.token.here.length := by
  obtain ⟨n, after, hn, hmark, hhere⟩ :=
    h offset reached (Expression.templateText next.toList ++ holesText holes rest)
  obtain ⟨c', hc', hat, hsame⟩ := run_resumeTemplate (s := s) hmark hhere
  refine ⟨n, after, c', ⟨_, _, _, _, hn⟩, hn, hc', hat, ?_⟩
  have hlength := length_le_holesText holes rest
  rw [hsame, hhere, List.length_cons, List.length_append]
  omega

theorem run_templateStep_ends (parts : List Node) :
    templateStep p (parts, true) s c = .ok (none, c) := rfl

theorem run_templateStep_last (h : AtText c text [] rest) (parts : List Node) :
    templateStep p (parts, false) s c =
      .ok (some (.word c.token.span (String.ofList (Text.lineFeeds text.toList)) :: parts, true),
        ⟨Scanner.scan c.token.stop rest, c.token.stop⟩) := by
  rw [templateStep]
  dsimp only
  rw [if_neg Bool.false_ne_true, Parse.run_bind, run_templateText h]
  rfl

theorem run_templateStep_hole (h : AtText c text ((source, next) :: holes) rest)
    {n : Node} {after c' : Cursor}
    (hn : p s ⟨Scanner.scan c.token.stop (afterText ((source, next) :: holes) rest),
      c.token.stop⟩ = .ok (n, after))
    (hc' : Grammar.resumeTemplate s after = .ok ((), c')) (parts : List Node) :
    templateStep p (parts, false) s c =
      .ok (some (n :: .word c.token.span (String.ofList (Text.lineFeeds text.toList)) :: parts,
        false), c') := by
  rw [templateStep]
  dsimp only
  rw [if_neg Bool.false_ne_true, Parse.run_bind, run_templateText h]
  simp only [Except.bind, List.isEmpty_cons]
  rw [if_neg Bool.false_ne_true, Parse.run_bind, hn]
  simp only [Except.bind]
  rw [Parse.run_bind, hc']
  rfl

theorem run_templateStep_refused (h : AtText c text ((source, next) :: holes) rest)
    (hp : Refuses p s source) (parts : List Node) :
    ∃ e, templateStep p (parts, false) s c = .error e := by
  obtain ⟨e, he⟩ := hp c.token.stop c.token.stop
    (Expression.templateText next.toList ++ holesText holes rest)
  refine ⟨e, ?_⟩
  rw [templateStep]
  dsimp only
  rw [if_neg Bool.false_ne_true, Parse.run_bind, run_templateText h]
  simp only [Except.bind, List.isEmpty_cons]
  rw [if_neg Bool.false_ne_true, Parse.run_bind, afterText, he]
  rfl

/-- All texts and holes are read, in turn, up to what is behind the template. -/
theorem run_templateSteps (h : AtText c text holes rest)
    (hholes : ∀ hole ∈ holes, ReadsUpTo p s hole.1) (bound : Nat)
    (hbound : holes.length + 2 ≤ bound) (acc : List Node) :
    ∃ parts stop, Alternate p s text holes parts ∧
      Parse.extendWith (templateStep p) (acc, false) bound s c =
        .ok ((parts.reverse ++ acc, true), ⟨Scanner.scan stop rest, stop⟩) := by
  induction holes generalizing c text bound acc with
  | nil =>
      obtain ⟨bound, rfl⟩ : ∃ k, bound = k + 1 + 1 :=
        ⟨bound - 2, by simp only [List.length_nil] at hbound; omega⟩
      refine ⟨_, c.token.stop, .last c.token.span text, ?_⟩
      rw [Parse.run_extendWith_some s c (run_templateStep_last h acc),
        Parse.run_extendWith_none s _ (run_templateStep_ends _)]
      rfl
  | cons hole holes ih =>
      obtain ⟨source, next⟩ := hole
      obtain ⟨hsource, hholes⟩ := List.forall_mem_cons.1 hholes
      obtain ⟨bound, rfl⟩ : ∃ k, bound = k + 1 :=
        ⟨bound - 1, by simp only [List.length_cons] at hbound; omega⟩
      obtain ⟨n, after, c', hread, hn, hc', hat, -⟩ :=
        run_hole hsource next holes rest c.token.stop c.token.stop
      obtain ⟨parts, stop, hparts, hrun⟩ := ih hat hholes bound
        (by simp only [List.length_cons] at hbound; omega)
        (n :: .word c.token.span (String.ofList (Text.lineFeeds text.toList)) :: acc)
      refine ⟨_, stop, .hole c.token.span text hread hparts, ?_⟩
      rw [Parse.run_extendWith_some s c (run_templateStep_hole h hn hc' acc), hrun]
      simp

/-- A hole that is refused ends the reading. -/
theorem run_templateSteps_refused (h : AtText c text holes rest)
    (hholes : ∀ hole ∈ holes, ReadsUpTo p s hole.1 ∨ Refuses p s hole.1)
    (hrefused : ∃ hole ∈ holes, Refuses p s hole.1) (bound : Nat)
    (hbound : holes.length + 2 ≤ bound) (acc : List Node) :
    ∃ e, Parse.extendWith (templateStep p) (acc, false) bound s c = .error e := by
  induction holes generalizing c text bound acc with
  | nil =>
      obtain ⟨hole, hhole, -⟩ := hrefused
      exact absurd hhole List.not_mem_nil
  | cons hole holes ih =>
      obtain ⟨source, next⟩ := hole
      obtain ⟨hsource, hholes⟩ := List.forall_mem_cons.1 hholes
      obtain ⟨bound, rfl⟩ : ∃ k, bound = k + 1 :=
        ⟨bound - 1, by simp only [List.length_cons] at hbound; omega⟩
      by_cases hrefuses : Refuses p s source
      · obtain ⟨e, he⟩ := run_templateStep_refused h hrefuses acc
        exact ⟨e, Parse.run_extendWith_error s c he bound⟩
      · obtain ⟨n, after, c', hread, hn, hc', hat, -⟩ :=
          run_hole (hsource.resolve_right hrefuses) next holes rest c.token.stop c.token.stop
        have hlater := ((List.exists_mem_cons_iff _ _ _).1 hrefused).resolve_left hrefuses
        obtain ⟨e, he⟩ := ih hat hholes hlater bound
          (by simp only [List.length_cons] at hbound; omega)
          (n :: .word c.token.span (String.ofList (Text.lineFeeds text.toList)) :: acc)
        refine ⟨e, ?_⟩
        rw [Parse.run_extendWith_some s c (run_templateStep_hole h hn hc' acc), he]

/-! ## Templates -/

theorem run_templateParts (h : AtText c text holes rest)
    (hholes : ∀ hole ∈ holes, ReadsUpTo p s hole.1) :
    ∃ parts stop, Alternate p s text holes parts ∧
      Grammar.templateParts false p s c = .ok (parts, ⟨Scanner.scan stop rest, stop⟩) := by
  rw [templateParts_eq, Parse.run_bind, run_templateText h]
  simp only [Except.bind]
  cases holes with
  | nil => exact ⟨_, c.token.stop, .last c.token.span text, rfl⟩
  | cons hole holes =>
      obtain ⟨source, next⟩ := hole
      obtain ⟨hsource, hholes⟩ := List.forall_mem_cons.1 hholes
      obtain ⟨n, after, c', hread, hn, hc', hat, hlength⟩ :=
        run_hole hsource next holes rest c.token.stop c.token.stop
      obtain ⟨parts, stop, hparts, hrun⟩ := run_templateSteps hat hholes
        (c'.token.here.length + 1) (by omega)
        [n, .word c.token.span (String.ofList (Text.lineFeeds text.toList))]
      refine ⟨_, stop, .hole c.token.span text hread hparts, ?_⟩
      rw [List.isEmpty_cons, if_neg Bool.false_ne_true, Parse.run_bind, hn]
      simp only [Except.bind]
      rw [Parse.run_bind, hc']
      simp only [Except.bind]
      rw [Parse.run_bind, Parse.run_extend, hrun]
      simp [Except.bind, Parse.run_pure]

theorem run_templateParts_refused (h : AtText c text holes rest)
    (hholes : ∀ hole ∈ holes, ReadsUpTo p s hole.1 ∨ Refuses p s hole.1)
    (hrefused : ∃ hole ∈ holes, Refuses p s hole.1) :
    ∃ e, Grammar.templateParts false p s c = .error e := by
  rw [templateParts_eq, Parse.run_bind, run_templateText h]
  simp only [Except.bind]
  cases holes with
  | nil =>
      obtain ⟨hole, hhole, -⟩ := hrefused
      exact absurd hhole List.not_mem_nil
  | cons hole holes =>
      obtain ⟨source, next⟩ := hole
      obtain ⟨hsource, hholes⟩ := List.forall_mem_cons.1 hholes
      rw [List.isEmpty_cons, if_neg Bool.false_ne_true, Parse.run_bind]
      by_cases hrefuses : Refuses p s source
      · obtain ⟨e, he⟩ := hrefuses c.token.stop c.token.stop
          (Expression.templateText next.toList ++ holesText holes rest)
        exact ⟨e, by rw [afterText, he]; rfl⟩
      · obtain ⟨n, after, c', hread, hn, hc', hat, hlength⟩ :=
          run_hole (hsource.resolve_right hrefuses) next holes rest c.token.stop c.token.stop
        have hlater := ((List.exists_mem_cons_iff _ _ _).1 hrefused).resolve_left hrefuses
        obtain ⟨e, he⟩ := run_templateSteps_refused hat hholes hlater
          (c'.token.here.length + 1) (by omega)
          [n, .word c.token.span (String.ofList (Text.lineFeeds text.toList))]
        refine ⟨e, ?_⟩
        rw [hn]
        simp only [Except.bind]
        rw [Parse.run_bind, hc']
        simp only [Except.bind]
        rw [Parse.run_bind, Parse.run_extend, he]
        rfl

/-! ## Literals -/

/-- The expression in a hole. -/
def holeOf (go : Go) : Parse Node :=
  Parse.within Grammar.bracketed (go .expression)

/-- The node is a template with these texts and holes, or a text if there are no holes. -/
inductive IsTemplate (go : Go) (s : Setting) (text : String) :
    List (String × String) → Node → Prop
  | text (span : Span) :
      IsTemplate go s text [] (.string span (String.ofList (Text.lineFeeds text.toList)))
  | holes (span : Span) {hole : String × String} {holes : List (String × String)}
      {parts : List Node} (hparts : Alternate (holeOf go) s text (hole :: holes) parts) :
      IsTemplate go s text (hole :: holes) (.group .template span parts)

variable {go : Go}

theorem run_template_eq : Grammar.template go s c =
    (Grammar.templateParts false (holeOf go) s c).bind fun ac =>
      (match ac.1 with
        | [.word span value] => (pure (.string span value) : Parse Node)
        | parts => Parse.finish .template c.token.start parts) s ac.2 :=
  rfl

theorem run_template (h : AtText c text holes rest)
    (hholes : ∀ hole ∈ holes, ReadsUpTo (holeOf go) s hole.1) :
    ∃ n stop, IsTemplate go s text holes n ∧
      Grammar.template go s c = .ok (n, ⟨Scanner.scan stop rest, stop⟩) := by
  obtain ⟨parts, stop, hparts, hrun⟩ := run_templateParts h hholes
  rw [run_template_eq, hrun]
  cases hparts with
  | last span => exact ⟨_, stop, .text span, rfl⟩
  | hole span _ hread hparts =>
      cases hparts with
      | last span' =>
          exact ⟨_, stop, .holes _ (.hole span text hread (.last span' _)), rfl⟩
      | hole span' _ hread' hparts' =>
          exact ⟨_, stop, .holes _ (.hole span text hread (.hole span' _ hread' hparts')), rfl⟩

theorem run_template_refused (h : AtText c text holes rest)
    (hholes : ∀ hole ∈ holes, ReadsUpTo (holeOf go) s hole.1 ∨ Refuses (holeOf go) s hole.1)
    (hrefused : ∃ hole ∈ holes, Refuses (holeOf go) s hole.1) :
    ∃ e, Grammar.template go s c = .error e := by
  obtain ⟨e, he⟩ := run_templateParts_refused h hholes hrefused
  refine ⟨e, ?_⟩
  rw [run_template_eq, he]
  rfl

theorem run_primary_template {value : Option String} {ends : Bool}
    (h : c.token.lexeme = .template value ends) :
    Grammar.primary go s c = Grammar.template go s c := by
  rw [Grammar.primary, Parse.start, Parse.peek]
  simp only [Parse.run_bind, Parse.run_token, Parse.run_pure, Except.bind]
  rw [h]

theorem run_primary_string {value : String} (h : c.token.lexeme = .string value) :
    Grammar.primary go s c =
      .ok (.string c.token.span value, ⟨Scanner.scan c.token.stop c.token.rest, c.token.stop⟩) := by
  rw [Grammar.primary, Parse.start, Parse.peek]
  simp only [Parse.run_bind, Parse.run_token, Parse.run_pure, Except.bind]
  rw [h]
  rfl

/-- Where nothing is skipped the token is the lexeme that starts there. -/
theorem scan_of_lexeme {offset stop : Nat} {cs rest : List Char} {what : Lexeme}
    (hskipped : Scanner.skipBlanks .code offset false cs = some (offset, false, cs))
    (hlexeme : Scanner.lexeme offset cs = (what, stop, rest)) :
    Scanner.scan offset cs = ⟨what, offset, stop, false, cs, rest⟩ := by
  rw [Scanner.scan, hskipped]
  dsimp only
  rw [hlexeme]

/-- A template is read from its backtick on. -/
theorem atText_scan (text : String) (holes : List (String × String)) (rest : List Char)
    (offset reached : Nat) :
    AtText ⟨Scanner.scan offset ('\x60' ::
      (Expression.templateText text.toList ++ holesText holes rest)), reached⟩ text holes rest := by
  obtain ⟨stop, hstop⟩ := templateBody_holesText text.toList holes (offset + 1) rest
  have hlexeme :
      Scanner.lexeme offset ('\x60' ::
        (Expression.templateText text.toList ++ holesText holes rest)) =
      (.template (some (String.ofList (Text.lineFeeds text.toList))) holes.isEmpty, stop,
        afterText holes rest) := by
    rw [Scanner.lexeme]
    dsimp only
    rw [if_neg (by decide), if_pos rfl, hstop]
    rfl
  rw [scan_of_lexeme rfl hlexeme]
  exact ⟨rfl, rfl⟩

theorem toList_quoted_append (text : String) (rest : List Char) :
    (Text.quoted text).toList ++ rest =
      '"' :: (text.toList.flatMap Text.escapeChar ++ '"' :: rest) := by
  rw [Text.quoted, String.toList_ofList]
  simp

theorem lexeme_quoted (text : String) (rest : List Char) (offset : Nat) :
    ∃ stop, Scanner.lexeme offset ('"' :: (text.toList.flatMap Text.escapeChar ++ '"' :: rest)) =
      (.string text, stop, rest) := by
  obtain ⟨stop, hstop⟩ := Scanner.stringBody_quoted text.toList (offset + 1) rest
  refine ⟨stop, ?_⟩
  rw [Scanner.lexeme]
  dsimp only
  rw [if_pos (by decide), hstop]
  simp

theorem scan_quoted (text : String) (rest : List Char) (offset : Nat) :
    ∃ t, Scanner.scan offset ((Text.quoted text).toList ++ rest) = t ∧ t.lexeme = .string text ∧
      t.rest = rest := by
  obtain ⟨stop, hstop⟩ := lexeme_quoted text rest offset
  rw [toList_quoted_append, scan_of_lexeme rfl hstop]
  exact ⟨_, rfl, rfl, rfl⟩

end

/-! ## Spread arguments -/

section

variable {s : Setting} {c : Cursor}

/-- Three dots are no name. -/
theorem reference_dots (h : c.token.lexeme = .mark "...") :
    Parse.reference s c = .error ⟨c.token.start⟩ := by
  have hvariable : Parse.isVariable c.token s c = .ok (false, c) := by
    rw [Parse.isVariable, h]
    rfl
  rw [Parse.reference, Parse.variableName, Parse.run_bind, Parse.run_bind, Parse.run_token]
  simp only [Except.bind]
  rw [Parse.run_bind, hvariable]
  rfl

theorem primary_dots {go : Go} (h : c.token.lexeme = .mark "...") :
    Grammar.primary go s c = .error ⟨c.token.start⟩ := by
  rw [Grammar.primary, Parse.start, Parse.peek]
  simp only [Parse.run_bind, Parse.run_token, Parse.run_pure, Except.bind]
  rw [h]
  exact reference_dots h

theorem isWord_dots (h : c.token.lexeme = .mark "...") (w : String) : c.token.isWord w = false := by
  rw [Token.isWord, h]

theorem isMark_dots (h : c.token.lexeme = .mark "...") {m : String} (hm : m ≠ "...") :
    c.token.isMark m = false := by
  rw [Token.isMark, h]
  exact decide_eq_false (Ne.symm hm)

theorem leftHand_dots {go : Go} (h : c.token.lexeme = .mark "...") :
    Grammar.leftHand go s c = .error ⟨c.token.start⟩ := by
  rw [Grammar.leftHand, Parse.start]
  simp only [Parse.run_bind, Parse.run_token, Parse.run_pure, Except.bind, isWord_dots h,
    if_neg Bool.false_ne_true, primary_dots h]

theorem unary_dots {go : Go} {e : SyntaxError} (hgo : go .leftHand s c = .error e)
    (h : c.token.lexeme = .mark "...") : Grammar.unary go s c = .error e := by
  have hfront : Grammar.frontOperators c.token = false := by
    rw [Grammar.frontOperators]
    simp [isWord_dots h, isMark_dots h]
  have hsigns : (c.token.isMark "++" || c.token.isMark "--") = false := by
    simp [isMark_dots h]
  have hangle : c.token.isMark "<" = false := isMark_dots h (by decide)
  rw [Grammar.unary, Parse.start]
  simp only [Parse.run_bind, Parse.run_token, Parse.run_pure, Except.bind, hfront, hsigns,
    if_neg Bool.false_ne_true, Parse.run_read, isWord_dots h, hangle, Bool.false_and, Parse.types,
    hgo]

theorem operators_dots {go : Go} {e : SyntaxError} (hgo : go .unary s c = .error e) (level : Nat)
    (h : c.token.lexeme = .mark "...") : Grammar.operators go level s c = .error e := by
  rw [Grammar.operators, Parse.start, Parse.peek]
  simp only [Parse.run_bind, Parse.run_token, Parse.run_pure, Except.bind]
  rw [h]
  show (go .unary >>= _) s c = _
  rw [Parse.run_bind, hgo]
  rfl

theorem arrow?_dots {go : Go} (h : c.token.lexeme = .mark "...") :
    Grammar.arrow? go s c = .ok (none, c) := by
  have hvariable : Parse.isVariable c.token s c = .ok (false, c) := by
    rw [Parse.isVariable, h]
    rfl
  have hangle : Grammar.atTypeParameters s c = .ok (false, c) := by
    rw [Grammar.atTypeParameters]
    simp only [Parse.run_bind, Parse.run_token, Parse.run_pure, Except.bind, Parse.types,
      Parse.run_read, Parse.atMark, isMark_dots h (show "<" ≠ "..." by decide), Bool.and_false,
      if_neg Bool.false_ne_true]
  rw [Grammar.arrow?, Parse.start, Parse.peek]
  simp only [Parse.run_bind, Parse.run_token, Parse.run_pure, Except.bind, hvariable,
    Bool.false_and, if_neg Bool.false_ne_true, isWord_dots h, hangle,
    isMark_dots h (show "(" ≠ "..." by decide), Bool.or_self]

theorem assignment_dots {go : Go} {e : SyntaxError} (hgo : go (.operators 0) s c = .error e)
    (h : c.token.lexeme = .mark "...") : Grammar.assignment go s c = .error e := by
  have hyield : Parse.atWord "yield" s c = .ok (false, c) := by
    rw [Parse.atWord, Parse.run_bind, Parse.run_token]
    simp only [Except.bind, isWord_dots h, Parse.run_pure]
  rw [Grammar.assignment, Parse.start]
  simp only [Parse.run_bind, Parse.run_token, Parse.run_pure, Except.bind, hyield, Parse.run_read,
    Bool.false_and, if_neg Bool.false_ne_true, arrow?_dots h, hgo]

theorem expression_dots {go : Go} {e : SyntaxError} (hgo : go .assignment s c = .error e) :
    Grammar.expression go s c = .error e := by
  rw [Grammar.expression, Parse.start]
  simp only [Parse.run_bind, Parse.run_token, Parse.run_pure, Except.bind, hgo]

/-- However deep the productions go, none on the way down to an operand takes three dots. -/
theorem productions_dots (depth : Nat) (h : c.token.lexeme = .mark "...") :
    ∃ e, productions depth .expression s c = .error e := by
  -- each production asks for the next one, one level down
  have hleft : ∀ depth, ∃ e, productions depth .leftHand s c = .error e := by
    intro depth
    cases depth with
    | zero => exact ⟨_, rfl⟩
    | succ depth => exact ⟨_, leftHand_dots h⟩
  have hunary : ∀ depth, ∃ e, productions depth .unary s c = .error e := by
    intro depth
    cases depth with
    | zero => exact ⟨_, rfl⟩
    | succ depth => exact (hleft depth).imp fun e he => unary_dots he h
  have hoperators : ∀ depth, ∃ e, productions depth (.operators 0) s c = .error e := by
    intro depth
    cases depth with
    | zero => exact ⟨_, rfl⟩
    | succ depth => exact (hunary depth).imp fun e he => operators_dots he 0 h
  have hassignment : ∀ depth, ∃ e, productions depth .assignment s c = .error e := by
    intro depth
    cases depth with
    | zero => exact ⟨_, rfl⟩
    | succ depth => exact (hoperators depth).imp fun e he => assignment_dots he h
  cases depth with
  | zero => exact ⟨_, rfl⟩
  | succ depth => exact (hassignment depth).imp fun e he => expression_dots he

/-- A spread argument is refused in a hole. -/
theorem refuses_spread (depth : Nat) (s : Setting) {source : String}
    (h : "...".toList <+: source.toList) : Refuses (holeOf (productions depth)) s source := by
  intro offset reached rest
  obtain ⟨tail, htail⟩ := h
  rw [← htail]
  refine productions_dots (s := Grammar.bracketed s) depth ?_
  rfl

end

end Script

end SiteMacros
