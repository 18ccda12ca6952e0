import Mathlib.Data.List.Induction
import SiteMacros.Proofs.Leads
import SiteMacros.UrlPath

/-!
# Joined URL paths

A canonical path has nothing in it that a second run over its segments would take
away. So a path that is joined twice runs the segments of all three texts over one
stack, and the two later texts may as well be put together with a slash before
anything is joined (`join_join`).

A route below a route below a route is made by joining one segment at a time. By the
same law that is one join with all the segments, whether they are empty, dots or
parameters (`foldl_join`).
-/

namespace SiteMacros.UrlPath

theorem split_append_slash (a b : String) :
    Text.split '/' (a ++ "/" ++ b) = Text.split '/' a ++ Text.split '/' b := by
  have htext : (a ++ "/" ++ b).toList = a.toList ++ '/' :: b.toList := by simp
  rw [Text.split, htext, Text.pieces_append_sep, List.map_append]
  rfl

theorem noSlash_of_mem_split {s text : String} (h : s ∈ Text.split '/' text) : '/' ∉ s.toList := by
  obtain ⟨p, hp, rfl⟩ := List.mem_map.1 h
  rw [String.toList_ofList]
  exact Text.sep_not_mem_pieces hp

/-! ## The stack -/

@[simp] theorem step_empty (stack : List String) : step stack "" = stack := by
  simp [step]

theorem step_of_isName {s : String} (h : Path.IsName s) (stack : List String) :
    step stack s = s :: stack := by
  simp [step, h.ne_empty, h.ne_here, h.ne_parent]

theorem foldl_step_of_isName {names : List String} (h : ∀ s ∈ names, Path.IsName s)
    (stack : List String) : names.foldl step stack = names.reverse ++ stack := by
  induction names generalizing stack with
  | nil => rfl
  | cons s names ih =>
      rw [List.foldl_cons, step_of_isName (h s List.mem_cons_self),
        ih fun t ht => h t (List.mem_cons_of_mem s ht)]
      simp

/-- What stays on the stack are names. -/
theorem isName_of_mem_foldl_step {segments stack : List String}
    (hsegments : ∀ s ∈ segments, '/' ∉ s.toList) (hstack : ∀ s ∈ stack, Path.IsName s) :
    ∀ s ∈ segments.foldl step stack, Path.IsName s := by
  induction segments generalizing stack with
  | nil => exact hstack
  | cons s segments ih =>
      refine ih (fun t ht => hsegments t (List.mem_cons_of_mem s ht)) ?_
      intro t ht
      rw [step] at ht
      split at ht
      · exact hstack t ht
      · next hidle =>
          split at ht
          · exact hstack t (List.mem_of_mem_tail ht)
          · next hup =>
              simp only [Bool.or_eq_true, decide_eq_true_eq, not_or] at hidle
              rcases List.mem_cons.1 ht with rfl | ht
              · exact ⟨hidle.1, hidle.2, hup, hsegments _ List.mem_cons_self⟩
              · exact hstack t ht

/-! ## Canonical paths -/

theorem split_render {names : List String} (h : ∀ s ∈ names, '/' ∉ s.toList) :
    Text.split '/' (render names) = "" :: if names = [] then [""] else names := by
  have htext : (render names).toList = '/' :: ['/'].intercalate (names.map String.toList) := by
    rw [render, String.toList_append, String.toList_intercalate]
    rfl
  rw [Text.split, htext, Text.pieces, if_pos rfl, List.map_cons]
  refine congrArg (List.cons "") ?_
  split
  · next hnil =>
      rw [hnil]
      rfl
  · next hne =>
      have hpieces : ∀ p ∈ names.map String.toList, '/' ∉ p := by
        intro p hp
        obtain ⟨s, hs, rfl⟩ := List.mem_map.1 hp
        exact h s hs
      rw [Text.pieces_intercalate (by simpa using hne) hpieces, List.map_map]
      exact List.map_id'' (fun _ => String.ofList_toList) names

/-- A canonical path has the segments on the stack that it was made from. -/
theorem foldl_split_render {names : List String} (h : ∀ s ∈ names, Path.IsName s) :
    (Text.split '/' (render names)).foldl step [] = names.reverse := by
  rw [split_render fun s hs => (h s hs).noSlash, List.foldl_cons, step_empty]
  split
  · next hnil =>
      rw [hnil, List.foldl_cons, step_empty]
      rfl
  · rw [foldl_step_of_isName h, List.append_nil]

/-- Joining makes canonical paths. -/
theorem isName_of_mem_resolve {base rel : String} :
    ∀ s ∈ resolve (Text.split '/' base ++ Text.split '/' rel), Path.IsName s := by
  intro s hs
  refine isName_of_mem_foldl_step (fun t ht => ?_) (fun t ht => absurd ht List.not_mem_nil) s
    (List.mem_reverse.1 hs)
  rcases List.mem_append.1 ht with ht | ht
  · exact noSlash_of_mem_split ht
  · exact noSlash_of_mem_split ht

theorem foldl_split_join (base rel : String) :
    (Text.split '/' (join base rel)).foldl step [] =
      (Text.split '/' base ++ Text.split '/' rel).foldl step [] := by
  rw [join, foldl_split_render isName_of_mem_resolve, resolve, List.reverse_reverse]

theorem resolve_congr {xs ys : List String} (h : xs.foldl step [] = ys.foldl step [])
    (rest : List String) : resolve (xs ++ rest) = resolve (ys ++ rest) := by
  rw [resolve, resolve, List.foldl_append, List.foldl_append, h]

/-- Joining twice is joining once. -/
theorem join_join (a b c : String) : join (join a b) c = join a (b ++ "/" ++ c) := by
  rw [join, resolve_congr (foldl_split_join a b), join, split_append_slash, List.append_assoc]

theorem join_empty_slash (a c : String) : join a ("" ++ "/" ++ c) = join a c := by
  rw [join, join, split_append_slash, resolve, resolve, List.foldl_append, List.foldl_append,
    List.foldl_append, show Text.split '/' "" = [""] from rfl, List.foldl_cons, step_empty]
  rfl

theorem normalize_eq_join (base : String) : normalize base = join base "" := by
  rw [normalize, join, join, resolve, resolve, List.foldl_append, List.foldl_append,
    show Text.split '/' "/" = ["", ""] from rfl, show Text.split '/' "" = [""] from rfl]
  simp only [List.foldl_cons, List.foldl_nil, step_empty]

/-- Segments joined one after the other are joined at once, with slashes between
them. -/
theorem foldl_join (base : String) (segments : List String) :
    segments.foldl join (normalize base) = join base ("/".intercalate segments) := by
  induction segments using List.reverseRecOn with
  | nil =>
      rw [List.foldl_nil, normalize_eq_join]
      rfl
  | append_singleton before s ih =>
      rw [List.foldl_append, ih, List.foldl_cons, List.foldl_nil, join_join]
      by_cases hbefore : before = []
      · rw [hbefore, String.intercalate_nil, join_empty_slash, List.nil_append,
          String.intercalate_singleton]
      · rw [String.intercalate_append_of_ne_nil hbefore (List.cons_ne_nil s []),
          String.intercalate_singleton]

end SiteMacros.UrlPath
