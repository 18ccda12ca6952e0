import SiteMacros.Proofs.Parameters
import SiteMacros.Proofs.Templates

/-!
# Emitted paths as expressions

A bound path is emitted as a string if all of it is known, and as a template otherwise. Either
is read back as one literal, and it has a value once the expressions in it have
(`Node.evaluate`).

The value of a string is the bound path. The value of a template is the bound path with line
feeds for the carriage returns in its texts, so it is the bound path if there are none
(`bind_evaluates`). An argument that is spread stands in its hole as it stood in the call, where
dots may begin an argument; they begin no expression, and the literal is none.
-/

namespace SiteMacros

open Script

/-! ## Values of literals -/

/-- Texts and holes in turn, with values for the holes in order. -/
def Script.inTurn : List String → List Node → String
  | _, [.word _ text] => text
  | values, .word _ text :: _ :: parts => text ++ values.headD "" ++ inTurn values.tail parts
  | _, _ => ""

/-- The value of a literal, with values for its holes in order. -/
def Script.Node.evaluate (values : List String) : Node → Option String
  | .string _ text => some text
  | .group .template _ parts => some (inTurn values parts)
  | _ => none

/-- Every other node of a list, from the second on. -/
def Script.everySecond : List Node → List Node
  | _ :: n :: parts => n :: everySecond parts
  | _ => []

/-- The expressions in a template. -/
def Script.Node.holes : Node → List Node
  | .group .template _ parts => everySecond parts
  | _ => []

/-- Texts and holes in turn as they are written, with values for the holes in order. -/
def Script.filled : List String → String → List (String × String) → String
  | _, text, [] => String.ofList (Text.lineFeeds text.toList)
  | values, text, (_, next) :: holes =>
      String.ofList (Text.lineFeeds text.toList) ++ values.headD "" ++
        filled values.tail next holes

namespace Script

variable {p : Parse Node} {go : Go} {s : Setting} {text : String} {holes : List (String × String)}

theorem Alternate.inTurn_eq {parts : List Node} (h : Alternate p s text holes parts)
    (values : List String) : inTurn values parts = filled values text holes := by
  induction h generalizing values with
  | last span text => rfl
  | hole span text hread hparts ih => rw [inTurn, filled, ih]

theorem Alternate.everySecond_read {parts : List Node} (h : Alternate p s text holes parts) :
    List.Forall₂ (ReadAs p s) (holes.map (·.1)) (everySecond parts) := by
  induction h with
  | last span text => exact .nil
  | hole span text hread hparts ih => exact .cons hread ih

theorem IsTemplate.evaluate {n : Node} (h : IsTemplate go s text holes n) (values : List String) :
    n.evaluate values = some (filled values text holes) := by
  cases h with
  | text span => rfl
  | holes span hparts => exact congrArg some (hparts.inTurn_eq values)

theorem IsTemplate.holes_read {n : Node} (h : IsTemplate go s text holes n) :
    List.Forall₂ (ReadAs (holeOf go) s) (holes.map (·.1)) n.holes := by
  cases h with
  | text span => exact .nil
  | holes span hparts => exact hparts.everySecond_read

end Script

/-! ## Pieces as texts and holes -/

namespace Piece

/-- The text in front of the first expression, and each expression with the text behind it. -/
def chunks : List Piece → String × List (String × String)
  | [] => ("", [])
  | .text t :: ps => (t ++ (chunks ps).1, (chunks ps).2)
  | .expression e :: ps => ("", (e, (chunks ps).1) :: (chunks ps).2)

/-- The piece with line feeds in it for carriage returns. -/
def withLineFeeds : Piece → Piece
  | .text t => .text (String.ofList (Text.lineFeeds t.toList))
  | .expression e => .expression e

/-- The part of a template that a piece becomes. -/
def part : Piece → TemplatePart
  | .text t => .text t
  | .expression e => .hole (.source e)

theorem sources_chunks (ps : List Piece) :
    (chunks ps).2.map (·.1) = ps.filterMap (·.source?) := by
  induction ps with
  | nil => rfl
  | cons p ps ih =>
      cases p with
      | text t => exact ih
      | expression e => exact congrArg (e :: ·) ih

/-- Behind a text there is an expression or nothing. -/
theorem chunks_behind_text {t : String} {ps : List Piece}
    (h : (Piece.text t :: ps).IsChain RoutePath.notBothText) : (chunks ps).1 = "" := by
  match ps with
  | [] => rfl
  | .expression e :: ps => rfl
  | .text t' :: ps => exact nomatch (List.isChain_cons_cons.1 h).1

theorem filled_chunks {ps : List Piece} (h : ps.IsChain RoutePath.notBothText)
    (values : List String) :
    filled values (chunks ps).1 (chunks ps).2 = spelled values (ps.map withLineFeeds) := by
  induction ps generalizing values with
  | nil => rfl
  | cons p ps ih =>
      have hrest := ih h.tail
      cases p with
      | text t =>
          have hbehind := chunks_behind_text h
          rw [List.map_cons, withLineFeeds, spelled_text, ← hrest, chunks, hbehind,
            String.append_empty]
          cases (chunks ps).2 with
          | nil => simp [filled, Text.lineFeeds]
          | cons hole holes => simp [filled, Text.lineFeeds, String.append_assoc]
      | expression e =>
          rw [List.map_cons, withLineFeeds, spelled_expression, ← hrest, chunks]
          simp [filled, Text.lineFeeds]

theorem length_spelled_withLineFeeds_le (ps : List Piece) (values : List String) :
    (spelled values (ps.map withLineFeeds)).toList.length ≤ (spelled values ps).toList.length := by
  induction ps generalizing values with
  | nil => exact Nat.le_refl _
  | cons p ps ih =>
      cases p with
      | text t =>
          have ht := Text.length_lineFeeds_le t.toList
          have hps := ih values
          simp only [List.map_cons, withLineFeeds, spelled_text, String.toList_append,
            String.toList_ofList, List.length_append]
          omega
      | expression e =>
          have hps := ih values.tail
          simp only [List.map_cons, withLineFeeds, spelled_expression, String.toList_append,
            List.length_append]
          omega

/-- Only carriage returns make a difference, whatever the values are. -/
theorem spelled_withLineFeeds_iff (ps : List Piece) (values : List String) :
    spelled values (ps.map withLineFeeds) = spelled values ps ↔
      ∀ t, .text t ∈ ps → '\r' ∉ t.toList := by
  induction ps generalizing values with
  | nil => simp
  | cons p ps ih =>
      cases p with
      | text t =>
          rw [List.map_cons, withLineFeeds, spelled_text, spelled_text, ← String.toList_inj,
            String.toList_append, String.toList_append, String.toList_ofList]
          constructor
          · intro h
            -- no part of the text is longer with line feeds, so none is shorter
            have hlength := congrArg List.length h
            rw [List.length_append, List.length_append] at hlength
            have ht := Text.length_lineFeeds_le t.toList
            have hps := length_spelled_withLineFeeds_le ps values
            obtain ⟨hfirst, hrest⟩ := List.append_inj h (by omega)
            rw [Text.lineFeeds_eq_self_iff] at hfirst
            rw [String.toList_inj, ih] at hrest
            simpa [hfirst] using hrest
          · intro h
            rw [(Text.lineFeeds_eq_self_iff _).2 (h t List.mem_cons_self),
              (ih values).2 fun t ht => h t (List.mem_cons_of_mem _ ht)]
      | expression e =>
          rw [List.map_cons, withLineFeeds, spelled_expression, spelled_expression,
            ← String.toList_inj, String.toList_append, String.toList_append,
            List.append_cancel_left_eq, String.toList_inj, ih]
          simp

theorem render_chunks (depth : Nat) {ps : List Piece} (h : ps.IsChain RoutePath.notBothText)
    (rest : List Char) :
    (Expression.renderParts depth (ps.map part)).toList ++ '\x60' :: rest =
      Expression.templateText (chunks ps).1.toList ++ holesText (chunks ps).2 rest := by
  induction ps with
  | nil => rfl
  | cons p ps ih =>
      have hrest := ih h.tail
      cases p with
      | text t =>
          rw [List.map_cons, part, Expression.renderParts, String.toList_append,
            String.toList_ofList, List.append_assoc, hrest, chunks, chunks_behind_text h,
            String.append_empty]
          rfl
      | expression e =>
          rw [List.map_cons, part, Expression.renderParts, chunks, holesText, ← hrest]
          simp [Expression.render, Expression.templateText]

theorem ofPieces_eq {ps : List Piece} (h : ps.filterMap (·.source?) ≠ []) :
    Expression.ofPieces ps = .template (ps.map part) := by
  rw [Expression.ofPieces.eq_def]
  split
  · exact absurd rfl h
  · refine congrArg _ (List.map_congr_left fun p _ => ?_)
    cases p <;> rfl

end Piece

/-! ## Emitted paths -/

namespace RoutePath

/-- The path with the texts of the arguments in the places of its parameters. -/
def boundTo (r : RoutePath) (args : List RouteArg) (values : List String) : String :=
  "/".intercalate ((bound (RouteArg.texts values args) r.segments).map fun b => b.2.getD b.1)

/-- The node is a literal in which the expressions stand in their order. Its value is what the
pieces spell, where a template has line feeds for carriage returns. -/
structure Evaluates (go : Go) (s : Setting) (ps : List Piece) (n : Node) : Prop where
  holes : List.Forall₂ (ReadAs (holeOf go) s) (ps.filterMap (·.source?)) n.holes
  value : ∀ values, n.evaluate values = some (Piece.spelled values
    (if ps.filterMap (·.source?) = [] then ps else ps.map Piece.withLineFeeds))

/-- Is the argument spread? -/
def IsSpread (source : String) : Prop :=
  "...".toList <+: source.toList

section

variable {go : Go} {s : Setting} {ps : List Piece}

/-- Where pieces with an expression among them are emitted, the text of a template begins. -/
theorem atText_ofPieces (hchain : ps.IsChain notBothText) (hsome : ps.filterMap (·.source?) ≠ [])
    (depth offset reached : Nat) (rest : List Char) :
    AtText
      ⟨Scanner.scan offset (((Expression.ofPieces ps).render depth).toList ++ rest), reached⟩
      (Piece.chunks ps).1 (Piece.chunks ps).2 rest := by
  have htext : ((Expression.ofPieces ps).render depth).toList ++ rest = '\x60' ::
      (Expression.templateText (Piece.chunks ps).1.toList ++
        holesText (Piece.chunks ps).2 rest) := by
    rw [Piece.ofPieces_eq hsome, Expression.render, ← Piece.render_chunks depth hchain]
    simp
  rw [htext]
  exact atText_scan (Piece.chunks ps).1 (Piece.chunks ps).2 rest offset reached

/-- Pieces are read back as a literal if the grammar reads the expressions in them. -/
theorem read_ofPieces (hchain : ps.IsChain notBothText)
    (hliteral : ps.filterMap (·.source?) = [] → ∃ t, ps = [.text t])
    (hsources : ∀ e ∈ ps.filterMap (·.source?), ReadsUpTo (holeOf go) s e)
    (depth offset reached : Nat) (rest : List Char) :
    ∃ n stop, Evaluates go s ps n ∧ Grammar.primary go s
      ⟨Scanner.scan offset (((Expression.ofPieces ps).render depth).toList ++ rest), reached⟩ =
        .ok (n, ⟨Scanner.scan stop rest, stop⟩) := by
  by_cases hnone : ps.filterMap (·.source?) = []
  · obtain ⟨t, rfl⟩ := hliteral hnone
    obtain ⟨token, hscan, hlexeme, hrest⟩ := scan_quoted t rest offset
    refine ⟨.string token.span t, token.stop, ⟨.nil, fun values => ?_⟩, ?_⟩
    · rw [if_pos hnone, Node.evaluate, Piece.spelled_text]
      exact congrArg some String.append_empty.symm
    · rw [← hrest]
      show Grammar.primary go s
        ⟨Scanner.scan offset ((Text.quoted t).toList ++ token.rest), reached⟩ = _
      rw [hrest, hscan, run_primary_string hlexeme, hrest]
  · have hat := atText_ofPieces hchain hnone depth offset reached rest
    have hholes : ∀ hole ∈ (Piece.chunks ps).2, ReadsUpTo (holeOf go) s hole.1 := by
      intro hole hhole
      refine hsources _ ?_
      rw [← Piece.sources_chunks]
      exact List.mem_map_of_mem hhole
    obtain ⟨n, stop, hn, hrun⟩ := run_template hat hholes
    refine ⟨n, stop, ⟨?_, fun values => ?_⟩, by rw [run_primary_template hat.lexeme, hrun]⟩
    · rw [← Piece.sources_chunks]
      exact hn.holes_read
    · rw [if_neg hnone, hn.evaluate, Piece.filled_chunks hchain]

/-- With an expression that the grammar refuses they are no literal. -/
theorem refuse_ofPieces (hchain : ps.IsChain notBothText)
    (hsources : ∀ e ∈ ps.filterMap (·.source?),
      ReadsUpTo (holeOf go) s e ∨ Refuses (holeOf go) s e)
    (hrefused : ∃ e ∈ ps.filterMap (·.source?), Refuses (holeOf go) s e)
    (depth offset reached : Nat) (rest : List Char) :
    ∃ fault, Grammar.primary go s
      ⟨Scanner.scan offset (((Expression.ofPieces ps).render depth).toList ++ rest), reached⟩ =
        .error fault := by
  have hsome : ps.filterMap (·.source?) ≠ [] := by
    obtain ⟨e, he, -⟩ := hrefused
    exact List.ne_nil_of_mem he
  have hat := atText_ofPieces hchain hsome depth offset reached rest
  rw [← Piece.sources_chunks] at hsources hrefused
  obtain ⟨fault, hfault⟩ := run_template_refused hat
    (fun hole hhole => hsources _ (List.mem_map_of_mem hhole)) (by simpa using hrefused)
  exact ⟨fault, by rw [run_primary_template hat.lexeme, hfault]⟩

end

variable {r : RoutePath} {args : List RouteArg} {ps : List Piece} {s : Setting} {levels : Nat}

/-- What is emitted for a bound path is read back as a literal, unless an argument in it is
spread, and its value is the bound path, unless there is a carriage return in the template. -/
theorem bind_evaluates (hbind : r.bind args = .ok ps)
    (hsources : ∀ e ∈ ps.filterMap (·.source?),
      ReadsUpTo (holeOf (productions levels)) s e ∨ IsSpread e)
    (depth offset reached : Nat) (rest : List Char) :
    let result := Grammar.primary (productions levels) s
      ⟨Scanner.scan offset (((Expression.ofPieces ps).render depth).toList ++ rest), reached⟩
    ((∃ e ∈ ps.filterMap (·.source?), IsSpread e) → ∃ fault, result = .error fault) ∧
      ((∀ e ∈ ps.filterMap (·.source?), ¬ IsSpread e) →
        ∃ n stop, result = .ok (n, ⟨Scanner.scan stop rest, stop⟩) ∧
          Evaluates (productions levels) s ps n ∧
          ∀ values, n.evaluate values = some (r.boundTo args values) ↔
            (ps.filterMap (·.source?) = [] ∨ ∀ t, .text t ∈ ps → '\r' ∉ t.toList)) := by
  obtain ⟨hbinds, hne⟩ := binds_of_bind hbind
  constructor
  · rintro ⟨e, he, hspread⟩
    refine refuse_ofPieces hbinds.apart (fun e he => ?_) ⟨e, he, ?_⟩ depth offset reached rest
    · exact (hsources e he).imp_right (refuses_spread levels s)
    · exact refuses_spread levels s hspread
  · intro hnone
    obtain ⟨n, stop, hn, hrun⟩ := read_ofPieces hbinds.apart (eq_text_of_sources hne hbinds.apart)
      (fun e he => (hsources e he).resolve_right (hnone e he)) depth offset reached rest
    refine ⟨n, stop, hrun, hn, fun values => ?_⟩
    rw [hn.value, Option.some.injEq, boundTo, ← hbinds.spelled]
    by_cases hsource : ps.filterMap (·.source?) = []
    · rw [if_pos hsource]
      exact iff_of_true rfl (.inl hsource)
    · rw [if_neg hsource, Piece.spelled_withLineFeeds_iff]
      exact ⟨.inr, fun h => h.resolve_left hsource⟩

/-- A path with a name for its parameter is read back from a module. -/
theorem bind_evaluates_id :
    ∃ ps, RoutePath.bind ⟨"/a/:id"⟩ [.expression "id"] = .ok ps ∧
      (Expression.ofPieces ps).render 0 = "\x60/a/$\x7bid\x7d\x60" ∧
      ∀ offset reached rest, ∃ n stop,
        Grammar.primary (productions 8) { language := ⟨true, true⟩ } ⟨Scanner.scan offset
          (((Expression.ofPieces ps).render 0).toList ++ rest), reached⟩ =
            .ok (n, ⟨Scanner.scan stop rest, stop⟩) ∧
        n.evaluate ["7"] = some "/a/7" := by
  have hbind :
      RoutePath.bind ⟨"/a/:id"⟩ [.expression "id"] = .ok [.text "/a/", .expression "id"] := by
    decide +kernel
  have hname : ReadsUpTo (holeOf (productions 8)) { language := ⟨true, true⟩ } "id" :=
    fun _ _ _ => ⟨_, _, rfl, rfl, rfl⟩
  have hspread : ¬ IsSpread "id" := by
    rw [IsSpread]
    decide +kernel
  have hvalue : boundTo ⟨"/a/:id"⟩ [.expression "id"] ["7"] = "/a/7" := by decide +kernel
  refine ⟨_, hbind, by decide +kernel, fun offset reached rest => ?_⟩
  obtain ⟨-, hread⟩ := bind_evaluates hbind
    (fun e he => .inl (List.mem_singleton.1 he ▸ hname)) 0 offset reached rest
  obtain ⟨n, stop, hrun, -, hiff⟩ := hread fun e he => List.mem_singleton.1 he ▸ hspread
  refine ⟨n, stop, hrun, ?_⟩
  rw [← hvalue]
  refine (hiff _).2 (.inr fun t ht => ?_)
  obtain rfl : t = "/a/" := by simpa using ht
  decide +kernel

/-- A spread argument makes the literal none, and a carriage return that is known when the path
is emitted is a line feed when the path is used. -/
theorem bind_changes_value :
    (RoutePath.bind ⟨"/a/:id"⟩ [.expression "...ids"]).toOption.map
        (fun ps =>
          (Script.parse ⟨true, true⟩ ((Expression.ofPieces ps).render 0)).toOption.isSome) =
      some false ∧
    (RoutePath.bind ⟨"/:a/:b"⟩ [.literal "x\ry", .expression "b"]).toOption.map
        (fun ps => ((Grammar.primary (productions 8) { language := ⟨true, true⟩ }
          ⟨Scanner.scan 0 ((Expression.ofPieces ps).render 0).toList, 0⟩).toOption.bind
            fun n => n.1.evaluate ["7"])) = some (some "/x\ny/7") ∧
    boundTo ⟨"/:a/:b"⟩ [.literal "x\ry", .expression "b"] ["7"] = "/x\ry/7" := by
  decide +kernel

end RoutePath

end SiteMacros
