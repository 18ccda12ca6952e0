import Mathlib.Data.List.Chain
import SiteMacros.Proofs.Ancestors
import SiteMacros.Proofs.Copies

/-!
# Parameters

Values are bound to the parameters of a path by their places: the first value to the first
parameter, the second to the second, until one of them runs out. Which segment gets which
value is said without the pieces in `bound`.

Binding goes along the segments and puts one piece after another, a text together with the
text before it. So the pieces are those of the single segments with slashes between them
(`bindSegments_eq`), put together by `push`, and what holds of them is shown of `push`: it
keeps the text that pieces spell, the expressions in them, and that text never meets text.
-/

namespace SiteMacros

/-! ## Texts of pieces -/

/-- The texts of arguments, with values for the expressions among them in order. -/
def RouteArg.texts : List String → List RouteArg → List String
  | _, [] => []
  | values, .literal v :: args => v :: texts values args
  | values, .expression _ :: args => values.headD "" :: texts values.tail args

/-- The texts of pieces, with values for the expressions among them in order. -/
def Piece.texts : List String → List Piece → List String
  | _, [] => []
  | values, .text t :: ps => t :: texts values ps
  | values, .expression _ :: ps => values.headD "" :: texts values.tail ps

/-- The text that pieces spell. -/
def Piece.spelled (values : List String) (ps : List Piece) : String :=
  String.join (Piece.texts values ps)

namespace Piece

@[simp] theorem spelled_text (values : List String) (t : String) (ps : List Piece) :
    spelled values (.text t :: ps) = t ++ spelled values ps := by
  simp [spelled, texts]

@[simp] theorem spelled_expression (values : List String) (e : String) (ps : List Piece) :
    spelled values (.expression e :: ps) = values.headD "" ++ spelled values.tail ps := by
  simp [spelled, texts]

/-- Two texts in a row may as well be one. -/
theorem spelled_meet (values : List String) (a b : String) (ps qs : List Piece) :
    spelled values (ps ++ .text (a ++ b) :: qs) = spelled values (ps ++ .text a :: .text b :: qs) := by
  induction ps generalizing values with
  | nil => simp [String.append_assoc]
  | cons p ps ih => cases p <;> simp [ih]

theorem texts_intersperse (values : List String) (ps : List Piece) :
    texts values (ps.intersperse (.text "/")) = (texts values ps).intersperse "/" := by
  induction ps generalizing values with
  | nil => rfl
  | cons p ps ih =>
      cases ps with
      | nil => cases p <;> rfl
      | cons q qs =>
          have hrest := ih values.tail
          have hrest' := ih values
          cases p <;> cases q <;> simp_all [texts, List.intersperse_cons_cons]

end Piece

theorem Text.join_intersperse (sep : String) (texts : List String) :
    String.join (texts.intersperse sep) = sep.intercalate texts := by
  induction texts with
  | nil => rfl
  | cons s rest ih =>
      cases rest with
      | nil => simp
      | cons t rest =>
          rw [List.intersperse_cons_cons, String.join_cons, String.join_cons, ih,
            String.intercalate_cons_cons, String.append_assoc]

theorem Text.intercalate_split (s : String) : "/".intercalate (Text.split '/' s) = s := by
  have hpieces : (Text.pieces '/' s.toList).map (String.toList ∘ String.ofList) =
      Text.pieces '/' s.toList :=
    List.map_id'' (fun _ => String.toList_ofList) _
  rw [← String.toList_inj, String.toList_intercalate, Text.split, List.map_map, hpieces,
    Text.pieces_eq_splitOn]
  exact List.intercalate_splitOn '/'

namespace RoutePath

/-! ## Arguments at their places -/

/-- Is the segment a parameter? -/
def isParam (s : String) : Bool :=
  Text.startsWith ":" s

/-- Each segment with the argument for the parameter that it is: for a parameter with `n`
parameters before it the argument at place `n`, if there is one. -/
def bound {α : Type} (args : List α) (segments : List String) : List (String × Option α) :=
  segments.mapIdx fun i s =>
    (s, if isParam s then args[(segments.take i).countP isParam]? else none)

theorem bound_cons {α : Type} (args : List α) (s : String) (rest : List String) :
    bound args (s :: rest) = (s, if isParam s then args.head? else none) ::
      bound (if isParam s then args.tail else args) rest := by
  rw [bound, List.mapIdx_cons]
  congr 1
  · simp [List.head?_eq_getElem?]
  · refine List.mapIdx_eq_mapIdx_iff.2 fun i hi => ?_
    by_cases hparam : isParam s = true <;> simp [List.take_succ_cons, hparam]

theorem bound_nothing {α : Type} (segments : List String) :
    bound ([] : List α) segments = segments.map (·, none) := by
  induction segments with
  | nil => rfl
  | cons s rest ih => simp [bound_cons, ih]

/-- The arguments that are bound are the first ones, as many as there are parameters. -/
theorem arguments_bound {α : Type} (args : List α) (segments : List String) :
    (bound args segments).filterMap (·.2) = args.take (segments.countP isParam) := by
  induction segments generalizing args with
  | nil => rfl
  | cons s rest ih =>
      rw [bound_cons, List.countP_cons]
      by_cases hparam : isParam s = true
      · cases args with
        | nil => simp [hparam, ih]
        | cons a args => simp [hparam, ih]
      · simp [hparam, ih]

theorem countP_isParam (r : RoutePath) : r.segments.countP isParam = r.params.length := by
  rw [params, List.length_filterMap_eq_countP]
  refine List.countP_congr fun s _ => ?_
  rw [isParam, Text.startsWith, Text.dropStart?, Option.isSome_map]
  cases hs : s.toList with
  | nil => simp [Text.after?]
  | cons c cs => by_cases hc : ':' = c <;> simp [Text.after?, hc]

/-! ## Pieces of segments -/

/-- A segment as a piece, with the argument in its place if there is one. -/
def pieceOf : String × Option RouteArg → Piece
  | (s, none) => .text s
  | (_, some (.literal v)) => .text v
  | (_, some (.expression e)) => .expression e

/-- The pieces of single segments, with the slashes between them. -/
def segmentPieces (args : List RouteArg) (segments : List String) : List Piece :=
  ((bound args segments).map pieceOf).intersperse (.text "/")

/-- Pieces with one more after them, the latest first: text goes to the text before it. -/
def push (done : List Piece) : Piece → List Piece
  | .text t => pushText t done
  | .expression e => .expression e :: done

theorem bindSegment_eq (done : List Piece) (args : List RouteArg) (s : String) :
    bindSegment done args s = (push done (pieceOf (s, if isParam s then args.head? else none)),
      if isParam s then args.tail else args) := by
  rw [bindSegment.eq_def]
  cases args with
  | nil => cases isParam s <;> rfl
  | cons a args =>
      dsimp only
      by_cases hparam : isParam s = true
      · rw [if_pos hparam, if_pos hparam, if_pos (show Text.startsWith ":" s = true from hparam)]
        cases a <;> rfl
      · rw [if_neg hparam, if_neg hparam, if_neg (show ¬Text.startsWith ":" s = true from hparam)]
        rfl

/-- Binding puts the pieces of the segments after each other. -/
theorem bindSegments_eq (done : List Piece) (args : List RouteArg) (segments : List String) :
    bindSegments done args segments = (segmentPieces args segments).foldl push done := by
  induction segments generalizing done args with
  | nil => rfl
  | cons s rest ih =>
      rw [bindSegments_cons, bindSegment_eq, segmentPieces, bound_cons]
      cases rest with
      | nil => rfl
      | cons t rest =>
          dsimp only
          rw [ih, segmentPieces, bound_cons]
          rfl

theorem segments_ne_nil (r : RoutePath) : r.segments ≠ [] := by
  rw [segments, Text.split, Ne, List.map_eq_nil_iff]
  exact Text.pieces_ne_nil _ _

theorem segmentPieces_ne_nil (args : List RouteArg) {segments : List String} (h : segments ≠ []) :
    segmentPieces args segments ≠ [] := by
  cases segments with
  | nil => exact absurd rfl h
  | cons s rest =>
      rw [segmentPieces, bound_cons, List.map_cons, List.intersperse.eq_def]
      split <;> simp_all

theorem texts_pieceOf (values : List String) (args : List RouteArg) (segments : List String) :
    Piece.texts values ((bound args segments).map pieceOf) =
      (bound (RouteArg.texts values args) segments).map fun b => b.2.getD b.1 := by
  induction segments generalizing values args with
  | nil => rfl
  | cons s rest ih =>
      rw [bound_cons, bound_cons]
      by_cases hparam : isParam s = true
      · match args with
        | [] => simp [hparam, pieceOf, Piece.texts, RouteArg.texts, ih]
        | .literal v :: args => simp [hparam, pieceOf, Piece.texts, RouteArg.texts, ih]
        | .expression e :: args => simp [hparam, pieceOf, Piece.texts, RouteArg.texts, ih]
      · simp [hparam, pieceOf, Piece.texts, ih]

theorem spelled_segmentPieces (values : List String) (args : List RouteArg)
    (segments : List String) : Piece.spelled values (segmentPieces args segments) =
      "/".intercalate ((bound (RouteArg.texts values args) segments).map fun b => b.2.getD b.1) := by
  rw [Piece.spelled, segmentPieces, Piece.texts_intersperse, Text.join_intersperse, texts_pieceOf]

theorem source?_pieceOf (b : String × Option RouteArg) :
    (pieceOf b).source? = b.2.bind (·.source?) := by
  match b with
  | (_, none) => rfl
  | (_, some (.literal _)) => rfl
  | (_, some (.expression _)) => rfl

theorem sources_segmentPieces (args : List RouteArg) (segments : List String) :
    (segmentPieces args segments).filterMap (·.source?) =
      ((bound args segments).filterMap (·.2)).filterMap (·.source?) := by
  have hslash : ∀ ps : List Piece, (ps.intersperse (.text "/")).filterMap (·.source?) =
      ps.filterMap (·.source?) := by
    intro ps
    induction ps with
    | nil => rfl
    | cons p ps ih =>
        cases ps with
        | nil => rfl
        | cons q qs =>
            rw [List.intersperse_cons_cons, List.filterMap_cons, List.filterMap_cons, ih]
            rfl
  rw [segmentPieces, hslash, List.filterMap_map, List.filterMap_filterMap]
  exact List.filterMap_congr fun b _ => source?_pieceOf b

/-! ## Pieces put together -/

theorem spelled_push (values : List String) (done : List Piece) (p : Piece) (ps : List Piece) :
    Piece.spelled values ((push done p).reverse ++ ps) =
      Piece.spelled values (done.reverse ++ p :: ps) := by
  match p, done with
  | .text t, .text t' :: rest => simp [push, pushText, Piece.spelled_meet]
  | .text t, [] => rfl
  | .text t, .expression e :: rest => simp [push, pushText]
  | .expression e, done => simp [push]

theorem spelled_foldl_push (values : List String) (done ps : List Piece) :
    Piece.spelled values (ps.foldl push done).reverse =
      Piece.spelled values (done.reverse ++ ps) := by
  induction ps generalizing done with
  | nil => simp
  | cons p ps ih => rw [List.foldl_cons, ih, spelled_push]

theorem sources_foldl_push (done ps : List Piece) :
    (ps.foldl push done).reverse.filterMap (·.source?) =
      done.reverse.filterMap (·.source?) ++ ps.filterMap (·.source?) := by
  have hpush : ∀ done p, (push done p).filterMap (·.source?) =
      p.source?.toList ++ done.filterMap (·.source?) := by
    intro done p
    cases p with
    | text t => exact sources_pushText t done
    | expression e => rfl
  induction ps generalizing done with
  | nil => simp
  | cons p ps ih =>
      rw [List.foldl_cons, ih]
      simp only [List.filterMap_reverse, hpush]
      cases hp : p.source? <;> simp [hp]

/-- At least one of two pieces is an expression. -/
def notBothText (p q : Piece) : Prop :=
  p.source?.isSome || q.source?.isSome

theorem isChain_push {done : List Piece} (h : done.IsChain notBothText) (p : Piece) :
    (push done p).IsChain notBothText := by
  match p, done with
  | .text t, [] => exact List.isChain_singleton _
  | .text t, .expression e :: rest => exact List.isChain_cons_cons.2 ⟨rfl, h⟩
  | .text t, .text t' :: [] => exact List.isChain_singleton _
  | .text t, .text t' :: p :: rest =>
      exact List.isChain_cons_cons.2 ⟨(List.isChain_cons_cons.1 h).1, (List.isChain_cons_cons.1 h).2⟩
  | .expression e, [] => exact List.isChain_singleton _
  | .expression e, q :: rest => exact List.isChain_cons_cons.2 ⟨rfl, h⟩

theorem isChain_foldl_push {done : List Piece} (h : done.IsChain notBothText) (ps : List Piece) :
    (ps.foldl push done).IsChain notBothText := by
  induction ps generalizing done with
  | nil => exact h
  | cons p ps ih => exact ih (isChain_push h p)

theorem isChain_reverse_foldl_push (ps : List Piece) :
    (ps.foldl push []).reverse.IsChain notBothText := by
  refine List.isChain_reverse.2 ((isChain_foldl_push .nil ps).imp fun p q h => ?_)
  rw [notBothText, Bool.or_comm]
  exact h

theorem push_ne_nil (done : List Piece) (p : Piece) : push done p ≠ [] := by
  cases p with
  | text t =>
      rw [push, pushText.eq_def]
      split <;> simp
  | expression e => simp [push]

theorem foldl_push_ne_nil {done ps : List Piece} (h : done ≠ [] ∨ ps ≠ []) :
    ps.foldl push done ≠ [] := by
  induction ps generalizing done with
  | nil => exact h.resolve_right (by simp)
  | cons p ps ih => exact ih (.inl (push_ne_nil done p))

/-- Pieces without expressions in which text does not meet text are one text. -/
theorem eq_text_of_sources {ps : List Piece} (hne : ps ≠ []) (hchain : ps.IsChain notBothText)
    (hsources : ps.filterMap (·.source?) = []) : ∃ t, ps = [.text t] := by
  cases ps with
  | nil => exact absurd rfl hne
  | cons p ps =>
      cases p with
      | expression e => simp [Piece.source?] at hsources
      | text t =>
          cases ps with
          | nil => exact ⟨t, rfl⟩
          | cons q ps =>
              cases q with
              | expression e => simp [Piece.source?] at hsources
              | text t' =>
                  exact absurd (List.isChain_cons_cons.1 hchain).1 (by simp [notBothText, Piece.source?])

/-! ## Bound paths -/

/-- The pieces are the path with arguments bound to its parameters. -/
structure Binds (r : RoutePath) (args : List RouteArg) (pieces : List Piece) : Prop where
  /-- Whatever the values of the expressions are, the pieces spell the path with the text of
  each bound argument in the place of its parameter, and all else as it is written. -/
  spelled : ∀ values, Piece.spelled values pieces =
    "/".intercalate ((bound (RouteArg.texts values args) r.segments).map fun b => b.2.getD b.1)
  /-- The expressions are those of the bound arguments, in order. -/
  sources : pieces.filterMap (·.source?) =
    ((bound args r.segments).filterMap (·.2)).filterMap (·.source?)
  arguments : (bound args r.segments).filterMap (·.2) =
    args.take (min r.params.length args.length)
  count : (bound args r.segments).countP (·.2.isSome) = min r.params.length args.length
  /-- Text does not meet text. -/
  apart : pieces.IsChain notBothText
  /-- What has no expression is one text. -/
  literal : args.all (·.source?.isNone) = true → ∃ t, pieces = [.text t]

theorem arguments_eq (r : RoutePath) (args : List RouteArg) :
    (bound args r.segments).filterMap (·.2) = args.take (min r.params.length args.length) := by
  rw [arguments_bound, countP_isParam, List.take_eq_take_min]

theorem count_eq (r : RoutePath) (args : List RouteArg) :
    (bound args r.segments).countP (·.2.isSome) = min r.params.length args.length := by
  rw [← List.length_filterMap_eq_countP, arguments_eq, List.length_take]
  omega

theorem bindSegments_ne_nil (r : RoutePath) (args : List RouteArg) :
    (bindSegments [] args r.segments).reverse ≠ [] := by
  rw [Ne, List.reverse_eq_nil_iff, bindSegments_eq]
  exact foldl_push_ne_nil (.inr (segmentPieces_ne_nil args (segments_ne_nil r)))

theorem binds_segments (r : RoutePath) (args : List RouteArg) :
    r.Binds args (bindSegments [] args r.segments).reverse := by
  have hsources : (bindSegments [] args r.segments).reverse.filterMap (·.source?) =
      ((bound args r.segments).filterMap (·.2)).filterMap (·.source?) := by
    rw [bindSegments_eq, sources_foldl_push, sources_segmentPieces]
    rfl
  have hchain : (bindSegments [] args r.segments).reverse.IsChain notBothText := by
    rw [bindSegments_eq]
    exact isChain_reverse_foldl_push _
  refine ⟨fun values => ?_, hsources, arguments_eq r args, count_eq r args, hchain,
    fun hliteral => ?_⟩
  · rw [bindSegments_eq, spelled_foldl_push]
    exact spelled_segmentPieces values args r.segments
  · refine eq_text_of_sources (bindSegments_ne_nil r args) hchain ?_
    rw [hsources, arguments_eq, List.filterMap_eq_nil_iff]
    intro a ha
    have hnone := List.all_eq_true.1 hliteral a (List.mem_of_mem_take ha)
    exact Option.isNone_iff_eq_none.1 hnone

theorem binds_nothing (r : RoutePath) : r.Binds [] [.text r.path] := by
  refine ⟨fun values => ?_, ?_, arguments_eq r [], count_eq r [], List.isChain_singleton _,
    fun _ => ⟨r.path, rfl⟩⟩
  · rw [RouteArg.texts, bound_nothing, List.map_map]
    simp [Function.comp_def, segments, Text.intercalate_split, Piece.spelled, Piece.texts]
  · rw [arguments_eq, List.take_nil]
    rfl

/-- What a path is bound to are its pieces with the arguments. -/
theorem binds_of_bind {r : RoutePath} {args : List RouteArg} {pieces : List Piece}
    (h : r.bind args = .ok pieces) : r.Binds args pieces ∧ pieces ≠ [] := by
  rw [bind] at h
  split at h
  · next hempty =>
      cases h
      rw [List.isEmpty_iff.1 hempty]
      exact ⟨binds_nothing r, List.cons_ne_nil _ _⟩
  · split at h
    · cases h
    · cases h
      exact ⟨binds_segments r args, bindSegments_ne_nil r args⟩

/-- The path is bound unless there are values and no parameter to bind them to. -/
theorem bind_positional (r : RoutePath) (args : List RouteArg) :
    match r.bind args with
    | .error e =>
        e = .missingParameter r.path ∧ args ≠ [] ∧ r.segments.any isParam = false
    | .ok pieces => (args = [] ∨ r.segments.any isParam = true) ∧ r.Binds args pieces := by
  have hparams : r.params.isEmpty = !r.segments.any isParam := by
    rw [Bool.eq_iff_iff, List.isEmpty_iff_length_eq_zero, ← countP_isParam, List.countP_eq_zero,
      Bool.not_eq_true', ← Bool.not_eq_true, List.any_eq_true]
    simp
  rw [bind, hparams]
  cases args with
  | nil => exact ⟨.inl rfl, binds_nothing r⟩
  | cons a args =>
      cases hany : r.segments.any isParam with
      | false => exact ⟨rfl, List.cons_ne_nil a args, rfl⟩
      | true => exact ⟨.inr rfl, binds_segments r (a :: args)⟩

end RoutePath

end SiteMacros
